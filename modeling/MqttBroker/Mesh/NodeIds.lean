import MqttBroker.Lib.Congruential
import MqttBroker.Mesh.Ranking

/-!
# The ids of the nodes

`make_node_id` of `p2p_discover.c`.  A node without a device id fills its sixteen
bytes from the high part of a congruential generator, of which only the low 24
bits of the seed are seen.  There are no more than `2 ^ 24` such ids, two seeds
with the same low bits make one node of two, and no other two do.
-/

namespace MqttBroker

/-! ## The code -/

/-- What `make_node_id` asks the rest of the program. -/
structure NodeIdEnv where
  /-- the bytes of `hwinfo_get_device_id`, where it is built in -/
  deviceId : Bytes
  /-- `plat_uptime_ms()` -/
  uptime : ℤ
  /-- `getpid()` and `time(NULL)`, which are not asked under Zephyr -/
  posix : Option (ℤ × ℤ)

/-- The seed before the loop. -/
def NodeIdEnv.seed (env : NodeIdEnv) : UInt32 :=
  let seed := UInt32.ofInt env.uptime
  match env.posix with
  | none => seed
  | some (pid, time) => seed ^^^ UInt32.ofInt pid ^^^ UInt32.ofInt time

def seedStep (seed : UInt32) : UInt32 := seed * 1103515245 + 12345

/-- The loop over the seed, for so many bytes. -/
def seedBytes : ℕ → UInt32 → Bytes
  | 0, _ => []
  | n + 1, seed =>
      let seed := seedStep seed
      (seed >>> 16).toUInt8 :: seedBytes n seed

/-- The loop over the device id, for so many bytes from `i` on. -/
def deviceBytes (deviceId : Bytes) : ℕ → ℕ → UInt32 → Bytes
  | 0, _, _ => []
  | n + 1, i, hash =>
      let b := deviceId.getD (i % deviceId.length) 0
      let hash := (hash ^^^ b.toUInt32) * 16777619
      let hash := (hash ^^^ (UInt8.ofNat i).toUInt32) * 16777619
      (hash >>> 24).toUInt8 :: deviceBytes deviceId n (i + 1) hash

/-- `make_node_id` -/
def makeNodeId (env : NodeIdEnv) : NodeId :=
  let out := if 0 < env.deviceId.length then
      deviceBytes env.deviceId P2P_NODE_ID_LEN 0 2166136261
    else seedBytes P2P_NODE_ID_LEN env.seed
  fun i ↦ out.getD i 0

/-! ## The generator -/

/-- The bits of a seed that are ever seen. -/
def seedState (seed : UInt32) : ZMod (2 ^ 24) := seed.toNat

theorem seedState_val (seed : UInt32) : (seedState seed).val = seed.toNat % 2 ^ 24 :=
  ZMod.val_natCast _ _

theorem cast_mod_word (n : ℕ) : ((n % 2 ^ 32 : ℕ) : ZMod (2 ^ 24)) = n := by
  rw [ZMod.natCast_eq_natCast_iff', Nat.mod_mod_of_dvd _ (pow_dvd_pow 2 (by omega))]

theorem seedState_step (seed : UInt32) :
    seedState (seedStep seed) = Congruential.next 1103515245 12345 (seedState seed) := by
  have hmul : (1103515245 : UInt32).toNat = 1103515245 := by decide
  have hadd : (12345 : UInt32).toNat = 12345 := by decide
  rw [seedState, seedStep, UInt32.toNat_add, UInt32.toNat_mul, hmul, hadd, cast_mod_word,
    Nat.cast_add, cast_mod_word, Nat.cast_mul, Nat.cast_ofNat, Nat.cast_ofNat, mul_comm]
  rfl

theorem seedState_iterate (seed : UInt32) (i : ℕ) : seedState (seedStep^[i] seed) =
    (Congruential.next 1103515245 12345)^[i] (seedState seed) := by
  induction i with
  | zero => rfl
  | succ i ih =>
      rw [Function.iterate_succ_apply', Function.iterate_succ_apply', seedState_step, ih]

theorem toNat_high (seed : UInt32) :
    (seed >>> 16).toUInt8.toNat = Congruential.high (2 ^ 16) (seedState seed) := by
  rw [Congruential.high, seedState_val]
  simp
  omega

theorem seedBytes_getD {n i : ℕ} (h : i < n) (seed : UInt32) :
    (seedBytes n seed).getD i 0 = (seedStep^[i + 1] seed >>> 16).toUInt8 := by
  induction n generalizing i seed with
  | zero => omega
  | succ n ih =>
      cases i with
      | zero => rfl
      | succ i =>
          rw [Function.iterate_succ_apply]
          exact ih (by omega) (seedStep seed)

/-- Relations between the first powers of the multiplier. -/
def seedRelations : Matrix (Fin 4) (Fin 4) ℤ :=
  !![4, -15, 31, 8; -45, 11, 26, 4; -8, -64, -25, 5; -9, -25, 31, -133]

theorem seedRelations_relates :
    Congruential.Relates (1103515245 : ZMod (2 ^ 24)) (2 ^ 16) seedRelations where
  vanishes := by decide +kernel
  short := by decide +kernel
  independent := by decide +kernel

theorem next_injective :
    Function.Injective (Congruential.next (1103515245 : ZMod (2 ^ 24)) 12345) := by
  intro x y h
  have hunit : (1103515245 : ZMod (2 ^ 24)) * 12184421 = 1 := by decide +kernel
  have hmul := add_right_cancel h
  calc x = 12184421 * (1103515245 * x) := by rw [← mul_assoc, mul_comm _ 1103515245, hunit, one_mul]
    _ = 12184421 * (1103515245 * y) := by rw [hmul]
    _ = y := by rw [← mul_assoc, mul_comm _ 1103515245, hunit, one_mul]

/-! ## Equal ids -/

theorem makeNodeId_of_seed {env : NodeIdEnv} (h : env.deviceId = []) (i : Fin P2P_NODE_ID_LEN) :
    makeNodeId env i = (seedStep^[i + 1] env.seed >>> 16).toUInt8 := by
  have hlen : ¬ 0 < env.deviceId.length := by simp [h]
  rw [makeNodeId, if_neg hlen]
  exact seedBytes_getD i.isLt env.seed

/-- The first four bytes of an id have all the bits of the seed that count. -/
theorem seed_of_makeNodeId {env env' : NodeIdEnv} (h : env.deviceId = []) (h' : env'.deviceId = [])
    (heq : ∀ i : Fin P2P_NODE_ID_LEN, i.val < 4 → makeNodeId env i = makeNodeId env' i) :
    env.seed.toNat % 2 ^ 24 = env'.seed.toNat % 2 ^ 24 := by
  have hhigh : ∀ i < 4, Congruential.high (2 ^ 16)
        ((Congruential.next 1103515245 12345)^[i] (seedState (seedStep env.seed))) =
      Congruential.high (2 ^ 16)
        ((Congruential.next 1103515245 12345)^[i] (seedState (seedStep env'.seed))) := by
    intro i hi
    have hbyte := heq ⟨i, lt_trans hi (by decide)⟩ hi
    rw [makeNodeId_of_seed h, makeNodeId_of_seed h'] at hbyte
    rw [← seedState_iterate, ← seedState_iterate, ← toNat_high, ← toNat_high,
      ← Function.iterate_succ_apply, ← Function.iterate_succ_apply, hbyte]
  have hnext := seedRelations_relates.eq_of_high (by omega) (by omega) hhigh
  rw [seedState_step, seedState_step] at hnext
  have hstate := next_injective hnext
  rw [← seedState_val, ← seedState_val, hstate]

theorem makeNodeId_congr {env env' : NodeIdEnv} (h : env.deviceId = []) (h' : env'.deviceId = [])
    (heq : env.seed.toNat % 2 ^ 24 = env'.seed.toNat % 2 ^ 24) :
    makeNodeId env = makeNodeId env' := by
  have hstate : seedState env.seed = seedState env'.seed := by
    apply ZMod.val_injective
    rw [seedState_val, seedState_val, heq]
  funext i
  apply UInt8.toNat_inj.mp
  rw [makeNodeId_of_seed h, makeNodeId_of_seed h', toNat_high, toNat_high, seedState_iterate,
    seedState_iterate, hstate]

/-- The nodes without a device id are told apart by the low bits of their seeds and by nothing
else. -/
structure SeedsTell (cfg : Config) : Prop where
  eq_iff : ∀ env env' : NodeIdEnv, env.deviceId = [] → env'.deviceId = [] →
    (makeNodeId env = makeNodeId env' ↔
      env.seed.toNat % 2 ^ 24 = env'.seed.toNat % 2 ^ 24)
  /-- four of the sixteen bytes suffice -/
  four : ∀ env env' : NodeIdEnv, env.deviceId = [] → env'.deviceId = [] →
    (∀ i : Fin P2P_NODE_ID_LEN, i.val < 4 → makeNodeId env i = makeNodeId env' i) →
      makeNodeId env = makeNodeId env'
  card : (makeNodeId '' {env | env.deviceId = []}).ncard = 2 ^ 24
  /-- a broker has one entry for all the nodes whose seeds agree, its own if it is one of them -/
  slots : ∀ st : P2pState cfg, st.Running → ∀ i j env env', env.deviceId = [] →
    env'.deviceId = [] → (st.peers i).inUse = true → (st.peers j).inUse = true →
      (st.peers i).nodeId = makeNodeId env → (st.peers j).nodeId = makeNodeId env' →
        (i = j ↔ env.seed.toNat % 2 ^ 24 = env'.seed.toNat % 2 ^ 24)

theorem seedsTell (cfg : Config) : SeedsTell cfg := by
  have heq : ∀ env env' : NodeIdEnv, env.deviceId = [] → env'.deviceId = [] →
      (makeNodeId env = makeNodeId env' ↔
        env.seed.toNat % 2 ^ 24 = env'.seed.toNat % 2 ^ 24) := by
    intro env env' h h'
    exact ⟨fun hid ↦ seed_of_makeNodeId h h' fun i _ ↦ congrFun hid i, makeNodeId_congr h h'⟩
  refine ⟨heq, fun env env' h h' hfour ↦ makeNodeId_congr h h' (seed_of_makeNodeId h h' hfour),
    ?_, ?_⟩
  · -- every id comes from an uptime of fewer than 24 bits
    let booted : Fin (2 ^ 24) → NodeIdEnv := fun n ↦ ⟨[], n, none⟩
    have hseed : ∀ n, (booted n).seed.toNat % 2 ^ 24 = n := by
      intro n
      have hn := n.isLt
      simp [booted, NodeIdEnv.seed, UInt32.ofInt]
      omega
    have hinj : Function.Injective fun n ↦ makeNodeId (booted n) := by
      intro n m hnm
      have hmod := (heq _ _ rfl rfl).mp hnm
      rw [hseed, hseed] at hmod
      exact Fin.ext hmod
    have hrange : makeNodeId '' {env | env.deviceId = []} =
        Set.range fun n ↦ makeNodeId (booted n) := by
      ext id
      constructor
      · rintro ⟨env, hdevice, rfl⟩
        let n : Fin (2 ^ 24) := ⟨env.seed.toNat % 2 ^ 24, Nat.mod_lt _ (by omega)⟩
        exact ⟨n, (heq _ _ rfl hdevice).mpr (hseed n)⟩
      · rintro ⟨n, rfl⟩
        exact ⟨booted n, rfl, rfl⟩
    rw [hrange, Set.ncard_range_of_injective hinj, Nat.card_eq_fintype_card, Fintype.card_fin]
  · intro st hst i j env env' h h' hi hj hidi hidj
    rw [← heq env env' h h', ← hidi, ← hidj]
    exact ⟨fun hij ↦ by rw [hij], hst.apart.apart i j hi hj⟩

end MqttBroker
