import MqttBroker.Mesh.Network

/-!
# What the routers of a tree learn of each other

In a network without cycles every notification has one way.  Along each connection
the receiver is told what the sender knows, and what it is told the sender knows or
is about to hear.
-/

namespace MqttBroker

open NextHop Observer

variable {cfg : Config} {N : Type} [DecidableEq N]

namespace NetState

section

variable (id : N → NodeId) (T : SimpleGraph N) (s : NetState cfg N)

/-- `u` knows of a subscription at `x`: one of its own clients holds it, or its table. -/
def Knows (u x : N) (f : CStr) : Prop :=
  if x = u then f ∈ (s.held u).map Prod.fst else (s.mesh.routes u).Holds (id x) f

/-- `u` hears of a subscription at `x` if its connection in that direction is up. -/
def Coming (u x : N) (f : CStr) : Prop :=
  x ≠ u ∧ ∀ t, Next T u x t → s.side t u = .serving → s.side u t ≠ .closed →
    ∃ fr ∈ s.mesh.flight, fr.notify = true ∧ fr.About t u (id x) f

/-- A connection that comes up takes nothing with it that the advertisement leaves out: the broker
that installs it has no routes to pass on, and what its peer has told others and lost with the last
connection is held by its own clients.  There is room for what a broker hears. -/
def Relinks : NetEvent N → Prop
  | .install n _ => ∀ o f, ¬ (s.mesh.routes n).Holds o f
  | .advertise m n => s.side n m ≠ .closed → ∀ w x f, w ≠ m → s.side n w ≠ .closed →
      s.side w n ≠ .closed → Next T n x m → s.mesh.Told n w (id x) f →
        ¬ (s.mesh.routes n).Holds (id x) f → x = m ∧ f ∈ (s.held m).map Prod.fst
  | .handle i => ∀ fr ∈ s.mesh.flight[i]?, fr.notify = true →
      (s.mesh.routes fr.dst).Room fr.msg.ownerId fr.msg.filter
  | _ => True

/-- Each table and each frame by itself. -/
structure Sound : Prop where
  linked : ∀ n m, s.side n m ≠ .closed → T.Adj n m
  peers : ∀ n m, m ∈ s.mesh.peers n ↔ (s.side n m).Installed
  nodup : ∀ n, (s.mesh.peers n).Nodup
  mirrors : ∀ n, (s.mesh.routes n).Mirrors
  /-- a subscription is heard from the next broker on the way to its owner -/
  heard : ∀ n, (s.mesh.routes n).HeardBy fun o hop ↦
    ∃ x u, o = id x ∧ hop = id u ∧ Next T n x u ∧ s.side n u = .serving
  frames : ∀ fr ∈ s.mesh.flight, s.side fr.dst fr.src ≠ .closed ∧
    fr.msg.filter.length < MQTT_TOPIC_MAX ∧ ∃ x, fr.msg.ownerId = id x ∧ Next T fr.dst x fr.src
  held : ∀ n, ∀ sub ∈ s.held n, sub.1.length < MQTT_TOPIC_MAX

/-- What a broker knows and what it tells the next one. -/
structure Follows : Prop where
  tells : ∀ u v x f, Next T v x u → (s.side u v).Installed → s.side v u ≠ .closed →
    (x = u → s.side u v = .serving) → s.Knows id u x f → s.mesh.Told u v (id x) f
  backed : ∀ u v x f, Next T v x u → s.side u v ≠ .closed → s.side v u ≠ .closed →
    s.mesh.Told u v (id x) f → s.Knows id u x f ∨ s.Coming id T u x f
  fresh : ∀ u v x f, Next T v x u → s.side u v = .hello → s.side v u ≠ .closed →
    ¬ s.mesh.Told u v (id x) f

end

variable {id : N → NodeId} {T : SimpleGraph N} {s s' : NetState cfg N} {n m u v x : N} {f : CStr}

theorem knows_self : s.Knows id u u f ↔ f ∈ (s.held u).map Prod.fst := by
  rw [Knows, if_pos rfl]

theorem knows_of_ne (hne : x ≠ u) : s.Knows id u x f ↔ (s.mesh.routes u).Holds (id x) f := by
  rw [Knows, if_neg hne]

theorem knows_congr (hheld : s'.held u = s.held u)
    (hroutes : x ≠ u → ((s'.mesh.routes u).Holds (id x) f ↔ (s.mesh.routes u).Holds (id x) f)) :
    s'.Knows id u x f ↔ s.Knows id u x f := by
  unfold Knows
  split_ifs with hx
  · rw [hheld]
  · exact hroutes hx

/-! ## A broker that tells its peers -/

/-- A broker gets to know of a subscription or that it has gone, and tells those behind it. -/
theorem Follows.announce (hid : Function.Injective id) (h : s.Follows id T)
    {q : GossipState cfg N} {b : Bool} {frames : List (SubFrame N)} (hside : s'.side = s.side)
    (hknow : ∀ u y g, s'.Knows id u y g ↔
      if u = n ∧ y = x ∧ g = f then b = true else s.Knows id u y g)
    (hmid : ∀ u v y g, Next T v y u → (q.Told u v (id y) g ↔ s.mesh.Told u v (id y) g))
    (hkept : ∀ fr ∈ s.mesh.flight, fr.notify = true → fr ∈ q.flight ∨
      b = true ∧ fr.dst = n ∧ fr.msg.ownerId = id x ∧ fr.msg.filter = f)
    (hroutes : s'.mesh.routes = q.routes) (hflight : s'.mesh.flight = q.flight ++ frames)
    (hframes : ∀ fr ∈ frames, fr.src = n ∧ fr.notify = b ∧ fr.msg.ownerId = id x ∧
      fr.msg.filter = f ∧ (s.side n fr.dst).Installed)
    (hcover : (s.Knows id n x f ↔ b = true) ∨ ∀ w, Next T w x n → (s.side n w).Installed →
      s.side w n ≠ .closed → ∃ fr ∈ frames, fr.dst = w) : s'.Follows id T := by
  have hnew : ∀ {v}, (∃ fr ∈ frames, fr.dst = v) → (s'.mesh.Told n v (id x) f ↔ b = true) := by
    rintro v ⟨fr, hmem, rfl⟩
    obtain ⟨hsrc, -, howner, hfilter, -⟩ := hframes fr hmem
    exact GossipState.told_append_of_mem hflight hmem ⟨hsrc, rfl, howner, hfilter⟩
      fun fr' hmem' _ ↦ (hframes fr' hmem').2.1
  have hold : ∀ {u v y g}, Next T v y u →
      ¬ (u = n ∧ y = x ∧ g = f ∧ ∃ fr ∈ frames, fr.dst = v) →
        (s'.mesh.Told u v (id y) g ↔ s.mesh.Told u v (id y) g) := by
    intro u v y g hnext hother
    refine (GossipState.told_append_of_not_mem (by rw [hroutes]) hflight fun fr hmem habout ↦
      hother ?_).trans (hmid u v y g hnext)
    obtain ⟨hsrc, -, howner, hfilter, -⟩ := hframes fr hmem
    exact ⟨habout.1.symm.trans hsrc, hid (habout.2.2.1.symm.trans howner),
      habout.2.2.2.symm.trans hfilter, fr, hmem, habout.2.1⟩
  have hcoming : ∀ {u y g}, s.Coming id T u y g → ¬ (u = n ∧ y = x ∧ g = f ∧ b = true) →
      s'.Coming id T u y g := by
    rintro u y g ⟨hne, hall⟩ hother
    refine ⟨hne, fun t ht hserving hopen ↦ ?_⟩
    rw [hside] at hserving hopen
    obtain ⟨fr, hmem, hnotify, habout⟩ := hall t ht hserving hopen
    rcases hkept fr hmem hnotify with hstays | ⟨hb, hdst, howner, hfilter⟩
    · exact ⟨fr, hflight ▸ List.mem_append_left _ hstays, hnotify, habout⟩
    · exact absurd ⟨habout.2.1.symm.trans hdst, hid (habout.2.2.1.symm.trans howner),
        habout.2.2.2.symm.trans hfilter, hb⟩ hother
  refine ⟨fun u v y g hnext hup hopen hadv hknows ↦ ?_, fun u v y g hnext hup hopen htold ↦ ?_,
    fun u v y g hnext hhello hopen ↦ ?_⟩
  · rw [hside] at hup hopen hadv
    rw [hknow] at hknows
    by_cases hit : u = n ∧ y = x ∧ g = f
    · obtain ⟨rfl, rfl, rfl⟩ := hit
      rw [if_pos ⟨rfl, rfl, rfl⟩] at hknows
      by_cases hsent : ∃ fr ∈ frames, fr.dst = v
      · exact (hnew hsent).mpr hknows
      · refine (hold hnext fun hc ↦ hsent hc.2.2.2).mpr ?_
        rcases hcover with hsame | hall
        · exact h.tells u v y g hnext hup hopen hadv (hsame.mpr hknows)
        · exact absurd (hall v hnext hup hopen) hsent
    · rw [if_neg hit] at hknows
      exact (hold hnext fun hc ↦ hit ⟨hc.1, hc.2.1, hc.2.2.1⟩).mpr
        (h.tells u v y g hnext hup hopen hadv hknows)
  · rw [hside] at hup hopen
    rw [hknow]
    by_cases hit : u = n ∧ y = x ∧ g = f
    · obtain ⟨rfl, rfl, rfl⟩ := hit
      rw [if_pos ⟨rfl, rfl, rfl⟩]
      by_cases hsent : ∃ fr ∈ frames, fr.dst = v
      · exact .inl ((hnew hsent).mp htold)
      · have htold := (hold hnext fun hc ↦ hsent hc.2.2.2).mp htold
        have hsame : s.Knows id u y g ↔ b = true := by
          refine hcover.resolve_right fun hall ↦ ?_
          -- before the connection is installed nothing has been told
          have hhello : s.side u v = .hello := by
            cases he : s.side u v with
            | closed => exact absurd he hup
            | hello => rfl
            | connected => exact absurd (hall v hnext (.inl he) hopen) hsent
            | serving => exact absurd (hall v hnext (.inr he) hopen) hsent
          exact h.fresh u v y g hnext hhello hopen htold
        rcases h.backed u v y g hnext hup hopen htold with hknows | hcome
        · exact .inl (hsame.mp hknows)
        · by_cases hb : b = true
          · exact .inl hb
          · exact .inr (hcoming hcome fun hc ↦ hb hc.2.2.2)
    · rw [if_neg hit]
      have htold := (hold hnext fun hc ↦ hit ⟨hc.1, hc.2.1, hc.2.2.1⟩).mp htold
      exact (h.backed u v y g hnext hup hopen htold).imp_right fun hcome ↦
        hcoming hcome fun hc ↦ hit ⟨hc.1, hc.2.1, hc.2.2.1⟩
  · rw [hside] at hhello hopen
    refine fun htold ↦ h.fresh u v y g hnext hhello hopen ((hold hnext ?_).mp htold)
    rintro ⟨rfl, -, -, fr, hmem, rfl⟩
    have hup := (hframes fr hmem).2.2.2.2
    rw [hhello] at hup
    rcases hup with hup | hup <;> cases hup

/-! ## Subscriptions of its own clients -/

section

variable {shardOwner : NodeId} {filter : CStr} {qos : UInt8} {b : Bool}

omit [DecidableEq N] in
/-- The frames that `p2p_local_subscribe` and `p2p_local_unsubscribe` send. -/
theorem Sound.mem_localFrames (h : s.Sound id T) (hid : Function.Injective id)
    (hlen : filter.length < MQTT_TOPIC_MAX) (hqos : qos ≤ 2) {fr : SubFrame N} :
    fr ∈ localFrames id n b filter qos (s.mesh.localTargets id n (s.env n shardOwner)) ↔
      ∃ m, (s.side n m).Installed ∧ s.side m n ≠ .closed ∧ fr = ⟨n, m, b, ⟨id n, filter, qos⟩⟩ := by
  have htargets : ∀ m, m ∈ s.mesh.localTargets id n (s.env n shardOwner) ↔
      (s.side n m).Installed ∧ s.side m n ≠ .closed := by
    intro m
    rw [GossipState.mem_localTargets hid fun _ ↦ rfl, h.peers]
    simp [env]
  rw [MqttBroker.mem_localFrames hlen hqos]
  simp only [htargets, and_assoc]

omit [DecidableEq N] in
/-- Frames are sent, and the filters of its clients change. -/
theorem Sound.send (h : s.Sound id T) {frames : List (SubFrame N)}
    {held : N → List (CStr × UInt8)} (hframes : ∀ fr ∈ frames, s.side fr.dst fr.src ≠ .closed ∧
      fr.msg.filter.length < MQTT_TOPIC_MAX ∧ ∃ x, fr.msg.ownerId = id x ∧ Next T fr.dst x fr.src)
    (hheld : ∀ n, ∀ sub ∈ held n, sub.1.length < MQTT_TOPIC_MAX) : NetState.Sound id T { s with
      mesh := { s.mesh with flight := s.mesh.flight ++ frames }
      held := held } where
  linked := h.linked
  peers := h.peers
  nodup := h.nodup
  mirrors := h.mirrors
  heard := h.heard
  frames fr hfr := (List.mem_append.mp hfr).elim (h.frames fr) (hframes fr)
  held := hheld

/-- A broker's own subscription begins or ends. -/
theorem local_step (hid : Function.Injective id) (hs : s.Sound id T) (hf : s.Follows id T)
    (hlen : filter.length < MQTT_TOPIC_MAX) (hqos : qos ≤ 2) {subs : List (CStr × UInt8)}
    (hsubs : ∀ sub ∈ subs, sub.1.length < MQTT_TOPIC_MAX)
    (hmem : ∀ g, g ∈ subs.map Prod.fst ↔
      if g = filter then b = true else g ∈ (s.held n).map Prod.fst)
    (hs' : s' = { s with
      mesh := { s.mesh with
        flight := s.mesh.flight ++
          localFrames id n b filter qos (s.mesh.localTargets id n (s.env n shardOwner)) }
      held := Function.update s.held n subs }) : s'.Sound id T ∧ s'.Follows id T := by
  subst hs'
  constructor
  · refine hs.send (fun fr hfr ↦ ?_) fun k sub hsub ↦ ?_
    · obtain ⟨m, hup, hopen, rfl⟩ := (hs.mem_localFrames hid hlen hqos).mp hfr
      exact ⟨hopen, hlen, n, rfl, next_of_adj (hs.linked m n hopen)⟩
    · by_cases hk : k = n
      · subst hk
        rw [Function.update_self] at hsub
        exact hsubs sub hsub
      · rw [Function.update_of_ne hk] at hsub
        exact hs.held k sub hsub
  · refine hf.announce (n := n) (x := n) (f := filter) (b := b) hid rfl (fun u y g ↦ ?_)
      (fun _ _ _ _ _ ↦ Iff.rfl) (fun _ hfr _ ↦ .inl hfr) rfl rfl (fun fr hfr ↦ ?_)
      (.inr fun w _ hup hopen ↦ ?_)
    · by_cases hu : u = n
      · subst hu
        by_cases hy : y = u
        · subst hy
          simp only [knows_self, Function.update_self, hmem, true_and]
        · simp only [hy, false_and, and_false, if_false, knows_of_ne hy]
      · simp only [hu, false_and, if_false]
        exact knows_congr (Function.update_of_ne hu ..) fun _ ↦ Iff.rfl
    · obtain ⟨m, hup, -, rfl⟩ := (hs.mem_localFrames hid hlen hqos).mp hfr
      exact ⟨rfl, rfl, rfl, rfl, hup⟩
    · exact ⟨_, (hs.mem_localFrames hid hlen hqos).mpr ⟨w, hup, hopen, rfl⟩, rfl⟩

end

/-! ## A notification is handled -/

section

variable {i : ℕ} {fr : SubFrame N}

omit [DecidableEq N] in
theorem Sound.handled_holds (h : s.Sound id T) (hmem : fr ∈ s.mesh.flight)
    (hroom : fr.notify = true → (s.mesh.routes fr.dst).Room fr.msg.ownerId fr.msg.filter)
    {o : NodeId} : (s.mesh.handled id fr).2.Holds o f ↔
      if o = fr.msg.ownerId ∧ f = fr.msg.filter then fr.notify = true
      else (s.mesh.routes fr.dst).Holds o f := by
  unfold GossipState.handled
  split_ifs with hnotify hit hit
  · rw [RouteTable.remoteSubscribe_holds_iff (h.frames fr hmem).2.1 (hroom hnotify)]
    exact iff_of_true (.inl hit) hnotify
  · rw [RouteTable.remoteSubscribe_holds_iff (h.frames fr hmem).2.1 (hroom hnotify)]
    exact or_iff_right hit
  · rw [RouteTable.remoteUnsubscribe_holds_iff (h.mirrors _).nodes]
    exact iff_of_false (fun hc ↦ hc.2 hit) hnotify
  · rw [RouteTable.remoteUnsubscribe_holds_iff (h.mirrors _).nodes]
    exact and_iff_left hit

omit [DecidableEq N] in
theorem Sound.holds_of_not_handled (h : s.Sound id T)
    (hroom : fr.notify = true → (s.mesh.routes fr.dst).Room fr.msg.ownerId fr.msg.filter)
    (hsame : (s.mesh.handled id fr).1 = false) :
    (s.mesh.routes fr.dst).Holds fr.msg.ownerId fr.msg.filter ↔ fr.notify = true := by
  unfold GossipState.handled at hsame
  split_ifs at hsame with hnotify
  · exact iff_of_true (RouteTable.holds_of_unchanged (hroom hnotify) hsame) hnotify
  · refine iff_of_false (fun hholds ↦ ?_) hnotify
    rw [(RouteTable.remoteUnsubscribe_changed (h.mirrors _).nodes).mpr hholds] at hsame
    cases hsame

omit [DecidableEq N] in
/-- The table that has heard of it is sound. -/
theorem Sound.handled_table (h : s.Sound id T) (hmem : fr ∈ s.mesh.flight)
    (hserving : s.side fr.dst fr.src = .serving)
    (hroom : fr.notify = true → (s.mesh.routes fr.dst).Room fr.msg.ownerId fr.msg.filter) :
    (s.mesh.handled id fr).2.Mirrors ∧ (s.mesh.handled id fr).2.HeardBy fun o hop ↦
      ∃ x u, o = id x ∧ hop = id u ∧ Next T fr.dst x u ∧ s.side fr.dst u = .serving := by
  obtain ⟨-, hlen, x, howner, hnext⟩ := h.frames fr hmem
  unfold GossipState.handled
  split_ifs with hnotify
  · refine ⟨(h.mirrors _).remoteSubscribe hlen fun i hfind hsub hfree ↦ ?_,
      RouteTable.remoteSubscribe_heardBy (h.heard _) ⟨x, fr.src, howner, rfl, hnext, hserving⟩⟩
    have hroom := hroom hnotify
    unfold RouteTable.Room at hroom
    rw [hfind] at hroom
    simp [hsub, hfree] at hroom
  · exact ⟨(h.mirrors _).remoteUnsubscribe, RouteTable.remoteUnsubscribe_heardBy (h.heard _)⟩

omit [DecidableEq N] in
theorem mem_passedOn_iff (hid : Function.Injective id) (h : s.Sound id T) {fr' : SubFrame N} :
    fr' ∈ s.mesh.passedOn id fr (s.env fr.dst (id fr.dst)) ↔
      (fr'.src = fr.dst ∧ fr'.notify = fr.notify ∧ fr'.msg = fr.msg) ∧
        (s.side fr.dst fr'.dst).Installed ∧ fr'.dst ≠ fr.src ∧ s.side fr'.dst fr.dst ≠ .closed := by
  rw [GossipState.mem_passedOn hid rfl fun _ ↦ rfl, h.peers]
  simp [env]

omit [DecidableEq N] in
theorem mem_of_mem_eraseIdx {fr' : SubFrame N} (hfr : s.mesh.flight[i]? = some fr)
    (hmem : fr' ∈ s.mesh.flight) : fr' ∈ s.mesh.flight.eraseIdx i ∨ fr' = fr := by
  obtain ⟨j, hj⟩ := List.getElem?_of_mem hmem
  by_cases hji : j = i
  · subst hji
    exact .inr (Option.some.inj (hj.symm.trans hfr))
  · exact .inl (List.mem_eraseIdx_iff_getElem?.mpr ⟨j, hji, hj⟩)

theorem handle_step (hid : Function.Injective id) (hT : T.IsTree) (hs : s.Sound id T)
    (hf : s.Follows id T) (hallowed : s.Relinks id T (.handle i)) [DecidableRel T.Adj]
    (h : s.step id T (.handle i) = some s') : s'.Sound id T ∧ s'.Follows id T := by
  obtain ⟨fr, hfr, h⟩ := Option.bind_eq_some_iff.mp h
  split_ifs at h with hok
  obtain ⟨hserving, hfirst⟩ := hok
  obtain ⟨g, hg, rfl⟩ := Option.map_eq_some_iff.mp h
  obtain ⟨fr', hfr', rfl⟩ := Option.map_eq_some_iff.mp hg
  obtain rfl := Option.some.inj (hfr'.symm.trans hfr)
  have hmem := List.mem_of_getElem? hfr
  have hroom := hallowed fr' hfr
  obtain ⟨hopen, hlen, x, howner, hnext⟩ := hs.frames fr' hmem
  obtain ⟨hmirrors, hheard⟩ := hs.handled_table hmem hserving hroom
  have hpassed : ∀ fr ∈ (if (s.mesh.handled id fr').1 = true then
      s.mesh.passedOn id fr' (s.env fr'.dst (id fr'.dst)) else []),
        (fr.src = fr'.dst ∧ fr.notify = fr'.notify ∧ fr.msg = fr'.msg) ∧
          (s.side fr'.dst fr.dst).Installed ∧ fr.dst ≠ fr'.src ∧
            s.side fr.dst fr'.dst ≠ .closed := by
    intro fr hfr
    split_ifs at hfr
    · exact (mem_passedOn_iff hid hs).mp hfr
    · cases hfr
  have htable : ∀ k o g,
      ((Function.update s.mesh.routes fr'.dst (s.mesh.handled id fr').2) k).Holds o g ↔
      if k = fr'.dst ∧ o = fr'.msg.ownerId ∧ g = fr'.msg.filter then fr'.notify = true
      else (s.mesh.routes k).Holds o g := by
    intro k o g
    by_cases hk : k = fr'.dst
    · subst hk
      rw [Function.update_self, hs.handled_holds hmem hroom]
      simp
    · rw [Function.update_of_ne hk, if_neg fun hc ↦ hk hc.1]
  constructor
  · refine ⟨hs.linked, hs.peers, hs.nodup, fun k ↦ ?_, fun k ↦ ?_, fun fr hfr ↦ ?_, hs.held⟩
    · dsimp only
      by_cases hk : k = fr'.dst
      · subst hk
        rwa [Function.update_self]
      · rw [Function.update_of_ne hk]
        exact hs.mirrors k
    · dsimp only
      by_cases hk : k = fr'.dst
      · subst hk
        rwa [Function.update_self]
      · rw [Function.update_of_ne hk]
        exact hs.heard k
    · rcases List.mem_append.mp hfr with hfr | hfr
      · exact hs.frames fr (List.mem_of_mem_eraseIdx hfr)
      · obtain ⟨⟨hsrc, -, hmsg⟩, -, hne, hopen'⟩ := hpassed fr hfr
        rw [hsrc, hmsg]
        exact ⟨hopen', hlen, x, howner, hnext.through hT (hs.linked _ _ hopen').symm hne⟩
  · refine hf.announce (n := fr'.dst) (x := x) (f := fr'.msg.filter) (b := fr'.notify)
      (q := { s.mesh with
        routes := Function.update s.mesh.routes fr'.dst (s.mesh.handled id fr').2
        flight := s.mesh.flight.eraseIdx i }) hid rfl (fun u y g ↦ ?_) (fun u v y g hyu ↦ ?_)
      (fun fr hmem' hnotify ↦ ?_) rfl rfl (fun fr hfr ↦ ?_) ?_
    · by_cases hy : y = u
      · subst hy
        rw [knows_self, knows_self, if_neg]
        rintro ⟨rfl, rfl, -⟩
        exact hnext.ne rfl
      · rw [knows_of_ne hy, knows_of_ne hy]
        dsimp only
        rw [htable, howner]
        simp only [hid.eq_iff]
    · refine GossipState.told_handled hfr hfirst rfl ?_
      dsimp only
      rw [htable, howner]
      refine iff_of_eq (if_congr ?_ rfl rfl)
      constructor
      · rintro ⟨rfl, hy, rfl⟩
        obtain rfl := hid hy
        exact ⟨hnext.unique hT.isAcyclic hyu, rfl, howner, rfl⟩
      · rintro ⟨-, rfl, hy, rfl⟩
        exact ⟨rfl, hy.symm.trans howner, rfl⟩
    · rcases mem_of_mem_eraseIdx hfr hmem' with hmem' | rfl
      · exact .inl hmem'
      · exact .inr ⟨hnotify, rfl, howner, rfl⟩
    · obtain ⟨⟨hsrc, hkind, hmsg⟩, hup, -⟩ := hpassed fr hfr
      exact ⟨hsrc, hkind, hmsg ▸ howner, hmsg ▸ rfl, hup⟩
    · by_cases hchanged : (s.mesh.handled id fr').1 = true
      · refine .inr fun w hw hup hopen' ↦ ⟨⟨fr'.dst, w, fr'.notify, fr'.msg⟩, ?_, rfl⟩
        rw [if_pos hchanged]
        refine (mem_passedOn_iff hid hs).mpr ⟨⟨rfl, rfl, rfl⟩, hup, ?_, hopen'⟩
        rintro rfl
        exact hnext.not_back hT.isAcyclic hw
      · refine .inl ?_
        rw [knows_of_ne hnext.ne.symm, ← howner]
        exact hs.holds_of_not_handled hroom (Bool.eq_false_iff.mpr hchanged)

end

/-! ## Connections come and go -/

section

variable {e : LinkEnd}

theorem setSide_self : s.setSide n m e n m = e := if_pos ⟨rfl, rfl⟩

theorem setSide_of_ne (hne : ¬ (u = n ∧ v = m)) : s.setSide n m e u v = s.side u v := if_neg hne

/-- What the new value has in common with the old one stays true of all sides. -/
theorem setSide_iff {P : LinkEnd → Prop} (h : P e ↔ P (s.side n m)) :
    P (s.setSide n m e u v) ↔ P (s.side u v) := by
  by_cases hpair : u = n ∧ v = m
  · obtain ⟨rfl, rfl⟩ := hpair
    rwa [setSide_self]
  · rw [setSide_of_ne hpair]

variable [DecidableRel T.Adj]

theorem dial_step (hs : s.Sound id T) (hf : s.Follows id T) (hid : Function.Injective id)
    (hT : T.IsTree) (h : s.step id T (.dial n m) = some s') : s'.Sound id T ∧ s'.Follows id T := by
  unfold step at h
  dsimp only at h
  split_ifs at h with hok
  obtain ⟨hadj, hnm, hmn⟩ := hok
  cases h
  have hother : ∀ {u v}, s.side u v ≠ .closed → ¬ (u = n ∧ v = m ∨ u = m ∧ v = n) := by
    rintro u v hopen (⟨rfl, rfl⟩ | ⟨rfl, rfl⟩)
    · exact hopen hnm
    · exact hopen hmn
  have hnone : ∀ {u v y g}, (u = n ∧ v = m ∨ u = m ∧ v = n) → Next T v y u →
      ¬ s.mesh.Told u v (id y) g := by
    intro u v y g hpair hnext htold
    have hclosed : s.side v u = .closed := by
      rcases hpair with ⟨rfl, rfl⟩ | ⟨rfl, rfl⟩
      · exact hmn
      · exact hnm
    unfold GossipState.Told at htold
    cases hlast : lastAbout s.mesh.flight u v (id y) g with
    | some fr =>
        obtain ⟨hmem, rfl, rfl, -⟩ := lastAbout_mem hlast
        exact (hs.frames fr hmem).1 hclosed
    | none =>
        rw [hlast] at htold
        obtain ⟨i, huse, howner, -⟩ := RouteTable.holds_iff_node.mp htold
        obtain ⟨x, w, hx, -, hw, hserving⟩ := hs.heard v i huse
        obtain rfl := hid (hx.symm.trans howner)
        rw [hw.unique hT.isAcyclic hnext, hclosed] at hserving
        cases hserving
  constructor
  · refine ⟨fun a b hab ↦ ?_, fun a b ↦ ?_, hs.nodup, hs.mirrors, fun k ↦ ?_, fun fr hfr ↦ ?_,
      hs.held⟩
    · dsimp only at hab
      split_ifs at hab with hpair
      · rcases hpair with ⟨rfl, rfl⟩ | ⟨rfl, rfl⟩
        · exact hadj
        · exact hadj.symm
      · exact hs.linked a b hab
    · rw [hs.peers]
      dsimp only
      split_ifs with hpair
      · have hclosed : s.side a b = .closed := by
          rcases hpair with ⟨rfl, rfl⟩ | ⟨rfl, rfl⟩ <;> assumption
        simp [hclosed, LinkEnd.Installed]
      · exact Iff.rfl
    · refine (hs.heard k).mono fun o hop ⟨x, u, ho, hhop, hnext, hserving⟩ ↦
        ⟨x, u, ho, hhop, hnext, ?_⟩
      dsimp only
      rw [if_neg (hother (by rw [hserving]; simp))]
      exact hserving
    · obtain ⟨hopen, hrest⟩ := hs.frames fr hfr
      refine ⟨?_, hrest⟩
      dsimp only
      rwa [if_neg (hother hopen)]
  · refine ⟨fun u v y g hnext hup hopen hadv hknows ↦ ?_, fun u v y g hnext hup hopen htold ↦ ?_,
      fun u v y g hnext hhello hopen htold ↦ ?_⟩
    · dsimp only at hup hopen hadv
      by_cases hpair : u = n ∧ v = m ∨ u = m ∧ v = n
      · rw [if_pos hpair] at hup
        rcases hup with hup | hup <;> cases hup
      · rw [if_neg hpair] at hup hadv
        rw [if_neg fun hc ↦ hpair (hc.symm.imp And.symm And.symm)] at hopen
        exact hf.tells u v y g hnext hup hopen hadv hknows
    · dsimp only at hup hopen
      by_cases hpair : u = n ∧ v = m ∨ u = m ∧ v = n
      · exact absurd htold (hnone hpair hnext)
      · rw [if_neg hpair] at hup
        rw [if_neg fun hc ↦ hpair (hc.symm.imp And.symm And.symm)] at hopen
        refine (hf.backed u v y g hnext hup hopen htold).imp_right fun ⟨hne, hall⟩ ↦
          ⟨hne, fun t ht hserving hopen' ↦ ?_⟩
        dsimp only at hserving hopen'
        by_cases hpair' : t = n ∧ u = m ∨ t = m ∧ u = n
        · rw [if_pos hpair'] at hserving
          cases hserving
        · rw [if_neg hpair'] at hserving
          rw [if_neg fun hc ↦ hpair' (hc.symm.imp And.symm And.symm)] at hopen'
          exact hall t ht hserving hopen'
    · dsimp only at hhello hopen
      by_cases hpair : u = n ∧ v = m ∨ u = m ∧ v = n
      · exact hnone hpair hnext htold
      · rw [if_neg hpair] at hhello
        rw [if_neg fun hc ↦ hpair (hc.symm.imp And.symm And.symm)] at hopen
        exact hf.fresh u v y g hnext hhello hopen htold

theorem install_step (hs : s.Sound id T) (hf : s.Follows id T)
    (hallowed : s.Relinks id T (.install n m)) (h : s.step id T (.install n m) = some s') :
    s'.Sound id T ∧ s'.Follows id T := by
  unfold step at h
  dsimp only at h
  split_ifs at h with hhello
  obtain ⟨g, hg, rfl⟩ := Option.map_eq_some_iff.mp h
  unfold gossip at hg
  dsimp only at hg
  split_ifs at hg
  cases hg
  have hopen_iff : ∀ {u v}, s.setSide n m .connected u v ≠ .closed ↔ s.side u v ≠ .closed :=
    setSide_iff (P := (· ≠ .closed)) (by simp [hhello])
  have hserving_iff : ∀ {u v}, s.setSide n m .connected u v = .serving ↔ s.side u v = .serving :=
    setSide_iff (P := (· = .serving)) (by simp [hhello])
  have hnotpeer : m ∉ s.mesh.peers n := by
    rw [hs.peers, hhello]
    simp [LinkEnd.Installed]
  constructor
  · refine ⟨fun a b hab ↦ hs.linked a b (hopen_iff.mp hab), fun a b ↦ ?_, fun k ↦ ?_, hs.mirrors,
      fun k ↦ ?_, fun fr hfr ↦ ?_, hs.held⟩
    · dsimp only
      by_cases ha : a = n
      · subst ha
        rw [Function.update_self, List.mem_append, List.mem_singleton, hs.peers]
        by_cases hb : b = m
        · subst hb
          rw [setSide_self]
          simp [LinkEnd.Installed]
        · rw [setSide_of_ne fun hc ↦ hb hc.2]
          exact or_iff_left hb
      · rw [Function.update_of_ne ha, setSide_of_ne fun hc ↦ ha hc.1]
        exact hs.peers a b
    · dsimp only
      by_cases hk : k = n
      · subst hk
        rw [Function.update_self]
        exact (hs.nodup k).append (List.nodup_singleton m) (by simpa using hnotpeer)
      · rw [Function.update_of_ne hk]
        exact hs.nodup k
    · exact (hs.heard k).mono fun o hop ⟨x, u, ho, hhop, hnext, hserving⟩ ↦
        ⟨x, u, ho, hhop, hnext, hserving_iff.mpr hserving⟩
    · exact (hs.frames fr hfr).imp_left hopen_iff.mpr
  · refine ⟨fun u v y g hnext hup hopen hadv hknows ↦ ?_, fun u v y g hnext hup hopen htold ↦ ?_,
      fun u v y g hnext hhello' hopen ↦ ?_⟩
    · by_cases hpair : u = n ∧ v = m
      · obtain ⟨rfl, rfl⟩ := hpair
        -- it has no routes, and has not advertised its own filters
        dsimp only at hadv
        rw [setSide_self] at hadv
        by_cases hy : y = u
        · cases hadv hy
        · exact absurd ((knows_of_ne hy).mp hknows) (hallowed _ _)
      · dsimp only at hup hadv
        rw [setSide_of_ne hpair] at hup hadv
        exact hf.tells u v y g hnext hup (hopen_iff.mp hopen) hadv hknows
    · exact (hf.backed u v y g hnext (hopen_iff.mp hup) (hopen_iff.mp hopen) htold).imp_right
        fun ⟨hne, hall⟩ ↦ ⟨hne, fun t ht hserving hopen' ↦
          hall t ht (hserving_iff.mp hserving) (hopen_iff.mp hopen')⟩
    · by_cases hpair : u = n ∧ v = m
      · obtain ⟨rfl, rfl⟩ := hpair
        dsimp only at hhello'
        rw [setSide_self] at hhello'
        cases hhello'
      · dsimp only at hhello'
        rw [setSide_of_ne hpair] at hhello'
        exact hf.fresh u v y g hnext hhello' (hopen_iff.mp hopen)

theorem advertise_step (hs : s.Sound id T) (hf : s.Follows id T) (hid : Function.Injective id)
    (hT : T.IsTree) (hallowed : s.Relinks id T (.advertise n m))
    (h : s.step id T (.advertise n m) = some s') : s'.Sound id T ∧ s'.Follows id T := by
  unfold step at h
  dsimp only at h
  split_ifs at h with hup
  obtain ⟨g, hg, rfl⟩ := Option.map_eq_some_iff.mp h
  unfold gossip at hg
  dsimp only at hg
  rw [if_neg (not_not.mpr ((hs.peers n m).mpr (.inl hup)))] at hg
  cases hg
  set frames : List (SubFrame N) :=
    if (s.env n (id n)).peerRouter m = true ∧ (s.env n (id n)).sendOk m = true then
      (s.held n).map fun sub ↦ ⟨n, m, true, ⟨id n, sub.1.take (MQTT_TOPIC_MAX - 1), sub.2⟩⟩
    else [] with hframes
  have hsent : ∀ fr ∈ frames, s.side m n ≠ .closed ∧ (fr.src = n ∧ fr.dst = m ∧ fr.notify = true) ∧
      fr.msg.ownerId = id n ∧ fr.msg.filter ∈ (s.held n).map Prod.fst := by
    intro fr hfr
    rw [hframes] at hfr
    split_ifs at hfr with hok
    · obtain ⟨sub, hsub, rfl⟩ := List.mem_map.mp hfr
      refine ⟨by simpa [env] using hok.2, ⟨rfl, rfl, rfl⟩, rfl, ?_⟩
      dsimp only
      rw [RouteTable.take_filter (hs.held n sub hsub)]
      exact List.mem_map_of_mem hsub
    · cases hfr
  have hcover : s.side m n ≠ .closed → ∀ f ∈ (s.held n).map Prod.fst,
      ∃ fr ∈ frames, fr.About n m (id n) f := by
    intro hopen f hheld
    obtain ⟨sub, hsub, rfl⟩ := List.mem_map.mp hheld
    rw [hframes, if_pos ⟨rfl, by simpa [env] using hopen⟩]
    refine ⟨_, List.mem_map_of_mem hsub, rfl, rfl, rfl, ?_⟩
    exact RouteTable.take_filter (hs.held n sub hsub)
  set g : GossipState cfg N := { s.mesh with flight := s.mesh.flight ++ frames } with hg
  have htold : ∀ {u v y f}, g.Told u v (id y) f ↔
      s.mesh.Told u v (id y) f ∨ ∃ fr ∈ frames, fr.About u v (id y) f := by
    intro u v y f
    by_cases hmem : ∃ fr ∈ frames, fr.About u v (id y) f
    · obtain ⟨fr, hfr, habout⟩ := hmem
      rw [GossipState.told_append_of_mem (g := s.mesh) rfl hfr habout
        fun fr hfr _ ↦ (hsent fr hfr).2.1.2.2]
      exact iff_of_true rfl (.inr ⟨fr, hfr, habout⟩)
    · rw [or_iff_left hmem]
      exact GossipState.told_append_of_not_mem Iff.rfl rfl fun fr hfr habout ↦
        hmem ⟨fr, hfr, habout⟩
  have hopen_iff : ∀ {u v}, s.setSide n m .serving u v ≠ .closed ↔ s.side u v ≠ .closed :=
    setSide_iff (P := (· ≠ .closed)) (by simp [hup])
  have hinst_iff : ∀ {u v}, (s.setSide n m .serving u v).Installed ↔ (s.side u v).Installed :=
    setSide_iff (P := LinkEnd.Installed) (by simp [hup, LinkEnd.Installed])
  constructor
  · refine ⟨fun a b hab ↦ hs.linked a b (hopen_iff.mp hab),
      fun a b ↦ (hs.peers a b).trans hinst_iff.symm, hs.nodup, hs.mirrors, fun k ↦ ?_,
      fun fr hfr ↦ ?_, hs.held⟩
    · refine (hs.heard k).mono fun o hop ⟨x, u, ho, hhop, hnext, hserving⟩ ↦
        ⟨x, u, ho, hhop, hnext, ?_⟩
      dsimp only
      by_cases hpair : k = n ∧ u = m
      · obtain ⟨rfl, rfl⟩ := hpair
        exact setSide_self
      · rwa [setSide_of_ne hpair]
    · rcases List.mem_append.mp hfr with hfr | hfr
      · exact (hs.frames fr hfr).imp_left hopen_iff.mpr
      · obtain ⟨hopen, ⟨hsrc, hdst, -⟩, howner, hheld⟩ := hsent fr hfr
        obtain ⟨sub, hsub, hfilter⟩ := List.mem_map.mp hheld
        rw [hsrc, hdst]
        refine ⟨hopen_iff.mpr hopen, hfilter ▸ hs.held n sub hsub, n, howner, ?_⟩
        exact next_of_adj (hs.linked m n hopen)
  · refine ⟨fun u v y f hnext hinst hopen _ hknows ↦ ?_, fun u v y f hnext hu hopen htold' ↦ ?_,
      fun u v y f hnext hhello hopen htold' ↦ ?_⟩
    · replace hknows : s.Knows id u y f := hknows
      refine htold.mpr ?_
      by_cases hself : (u = n ∧ v = m) ∧ y = u
      · obtain ⟨⟨rfl, rfl⟩, rfl⟩ := hself
        exact .inr (hcover (hopen_iff.mp hopen) f (knows_self.mp hknows))
      · refine .inl (hf.tells u v y f hnext (hinst_iff.mp hinst) (hopen_iff.mp hopen) ?_ hknows)
        rintro rfl
        have hserving : s.setSide n m .serving y v = .serving := by
          rename_i hadv
          exact hadv rfl
        rwa [setSide_of_ne fun hc ↦ hself ⟨hc, rfl⟩] at hserving
    · have hu' := hopen_iff.mp hu
      have hopen₁ := hopen_iff.mp hopen
      rcases htold.mp htold' with ht' | ⟨fr, hfr, habout⟩
      · by_cases hknows : s.Knows id u y f
        · exact .inl hknows
        obtain ⟨hne, hall⟩ := (hf.backed u v y f hnext hu' hopen₁ ht').resolve_left hknows
        refine .inr ⟨hne, fun t ht hserving hopen' ↦ ?_⟩
        by_cases hpair : t = n ∧ u = m
        · -- what it had told others and lost is advertised again
          obtain ⟨rfl, rfl⟩ := hpair
          have hvt : v ≠ t := by
            rintro rfl
            exact ht.not_back hT.isAcyclic hnext
          obtain ⟨rfl, hheld⟩ := hallowed (hopen_iff.mp hopen') v y f hvt hu' hopen₁ ht ht'
            fun hholds ↦ hknows ((knows_of_ne hne).mpr hholds)
          obtain ⟨fr, hfr, habout⟩ := hcover (hopen_iff.mp hopen') f hheld
          exact ⟨fr, List.mem_append_right _ hfr, (hsent fr hfr).2.1.2.2, habout⟩
        · dsimp only at hserving
          rw [setSide_of_ne hpair] at hserving
          obtain ⟨fr, hfr, hnotify⟩ := hall t ht hserving (hopen_iff.mp hopen')
          exact ⟨fr, List.mem_append_left _ hfr, hnotify⟩
      · obtain ⟨-, ⟨hsrc, -⟩, howner, hheld⟩ := hsent fr hfr
        obtain rfl : u = n := habout.1.symm.trans hsrc
        obtain rfl := hid (habout.2.2.1.symm.trans howner)
        exact .inl (knows_self.mpr (habout.2.2.2 ▸ hheld))
    · have hne : ¬ (u = n ∧ v = m) := by
        rintro ⟨rfl, rfl⟩
        dsimp only at hhello
        rw [setSide_self] at hhello
        cases hhello
      dsimp only at hhello
      rw [setSide_of_ne hne] at hhello
      rcases htold.mp htold' with htold' | ⟨fr, hfr, habout⟩
      · exact hf.fresh u v y f hnext hhello (hopen_iff.mp hopen) htold'
      · obtain ⟨-, ⟨hsrc, hdst, -⟩, -⟩ := hsent fr hfr
        exact hne ⟨habout.1.symm.trans hsrc, habout.2.1.symm.trans hdst⟩

omit [DecidableRel T.Adj] in
/-- What `close_conn` leaves of the peers and the table. -/
theorem Sound.closed (hs : s.Sound id T) (hid : Function.Injective id) (hT : T.IsTree)
    (hopen : s.side n m ≠ .closed) {g : GossipState cfg N}
    (hg : (if s.side n m = .hello then some s.mesh
      else gossip id s.mesh (.disconnect n m)) = some g) :
    g.flight = s.mesh.flight ∧ (∀ a b, b ∈ g.peers a ↔ b ∈ s.mesh.peers a ∧ ¬ (a = n ∧ b = m)) ∧
      (∀ a, (g.peers a).Nodup) ∧ (∀ a, (g.routes a).Mirrors) ∧
      (∀ a, (g.routes a).HeardBy fun o hop ↦ ∃ x u, o = id x ∧ hop = id u ∧ Next T a x u ∧
        s.side a u = .serving ∧ ¬ (a = n ∧ u = m)) ∧
      ∀ a y f, (g.routes a).Holds (id y) f ↔
        (s.mesh.routes a).Holds (id y) f ∧ ¬ (a = n ∧ Next T n y m) := by
  have hadj := hs.linked n m hopen
  split_ifs at hg with hhello
  · cases hg
    have hnot : ∀ a u, s.side a u = .serving → ¬ (a = n ∧ u = m) := by
      rintro a u hserving ⟨rfl, rfl⟩
      rw [hhello] at hserving
      cases hserving
    refine ⟨rfl, fun a b ↦ (and_iff_left_of_imp ?_).symm, hs.nodup, hs.mirrors, fun a ↦ ?_,
      fun a y f ↦ (and_iff_left_of_imp ?_).symm⟩
    · rintro hpeer ⟨rfl, rfl⟩
      rw [hs.peers, hhello] at hpeer
      rcases hpeer with hpeer | hpeer <;> cases hpeer
    · exact (hs.heard a).mono fun o hop ⟨x, u, ho, hhop, hnext, hserving⟩ ↦
        ⟨x, u, ho, hhop, hnext, hserving, hnot a u hserving⟩
    · rintro hholds ⟨rfl, hnext⟩
      obtain ⟨i, huse, howner, -⟩ := RouteTable.holds_iff_node.mp hholds
      obtain ⟨x, w, hx, -, hw, hserving⟩ := hs.heard a i huse
      obtain rfl := hid (hx.symm.trans howner)
      exact hnot a w hserving ⟨rfl, hw.unique hT.isAcyclic hnext⟩
  · have hgone : ((s.mesh.peers n).erase m).any (fun k ↦ id k = id m) = false := by
      rw [Bool.eq_false_iff]
      intro hany
      obtain ⟨k, hk, hkm⟩ := List.any_eq_true.mp hany
      obtain rfl := hid (of_decide_eq_true hkm)
      exact (hs.nodup n).not_mem_erase hk
    unfold gossip at hg
    dsimp only at hg
    rw [hgone] at hg
    cases hg
    have hnext_iff : ∀ o hop,
        (∃ x u, o = id x ∧ hop = id u ∧ Next T n x u ∧ s.side n u = .serving) →
          ((∃ y, o = id y ∧ Next T n y m) ↔ o = id m ∨ hop = id m) := by
      rintro o hop ⟨x, u, rfl, rfl, hnext, -⟩
      constructor
      · rintro ⟨y, hy, hym⟩
        obtain rfl := hid hy
        exact .inr (congrArg id (hnext.unique hT.isAcyclic hym))
      · rintro (hx | hu)
        · obtain rfl := hid hx
          exact ⟨x, rfl, next_of_adj hadj⟩
        · obtain rfl := hid hu
          exact ⟨x, rfl, hnext⟩
    refine ⟨rfl, fun a b ↦ ?_, fun a ↦ ?_, fun a ↦ ?_, fun a ↦ ?_, fun a y f ↦ ?_⟩
    all_goals
      dsimp only
      by_cases ha : a = n
    · subst ha
      rw [Function.update_self, (hs.nodup a).mem_erase_iff]
      simp [and_comm]
    · rw [Function.update_of_ne ha]
      simp [ha]
    · subst ha
      rw [Function.update_self]
      exact (hs.nodup a).erase m
    · rw [Function.update_of_ne ha]
      exact hs.nodup a
    · subst ha
      rw [Function.update_self]
      exact (hs.mirrors a).removeNode
    · rw [Function.update_of_ne ha]
      exact hs.mirrors a
    · subst ha
      rw [Function.update_self]
      refine (RouteTable.removeNode_heardBy (hs.heard a)).mono ?_
      rintro o hop ⟨⟨x, u, ho, hhop, hnext, hserving⟩, -, hne⟩
      refine ⟨x, u, ho, hhop, hnext, hserving, fun hc ↦ hne ?_⟩
      rw [hhop, hc.2]
    · rw [Function.update_of_ne ha]
      exact (hs.heard a).mono fun o hop ⟨x, u, ho, hhop, hnext, hserving⟩ ↦
        ⟨x, u, ho, hhop, hnext, hserving, fun hc ↦ ha hc.1⟩
    · subst ha
      rw [Function.update_self]
      refine (RouteTable.removeNode_holds_iff (hs.heard a) hnext_iff).trans
        (and_congr_right fun _ ↦ not_congr ⟨?_, ?_⟩)
      · rintro ⟨z, hz, hnext⟩
        obtain rfl := hid hz
        exact ⟨rfl, hnext⟩
      · exact fun hnext ↦ ⟨y, rfl, hnext.2⟩
    · rw [Function.update_of_ne ha]
      simp [ha]

theorem close_step (hs : s.Sound id T) (hf : s.Follows id T) (hid : Function.Injective id)
    (hT : T.IsTree) (h : s.step id T (.close n m) = some s') : s'.Sound id T ∧ s'.Follows id T := by
  unfold step at h
  dsimp only at h
  by_cases hclosed : s.side n m = .closed
  · rw [if_pos hclosed] at h
    cases h
  rw [if_neg hclosed] at h
  obtain ⟨g, hg, rfl⟩ := Option.map_eq_some_iff.mp h
  obtain ⟨hflight, hpeers, hnodup, hmirrors, hheard, hholds⟩ := hs.closed hid hT hclosed hg
  have hopen_iff : ∀ {u v}, s.setSide n m .closed u v ≠ .closed ↔
      s.side u v ≠ .closed ∧ ¬ (u = n ∧ v = m) := by
    intro u v
    by_cases hpair : u = n ∧ v = m
    · obtain ⟨rfl, rfl⟩ := hpair
      simp [setSide_self]
    · rw [setSide_of_ne hpair]
      exact (and_iff_left hpair).symm
  have hside : ∀ {u v e}, e ≠ .closed → s.setSide n m .closed u v = e →
      s.side u v = e ∧ ¬ (u = n ∧ v = m) := by
    intro u v e he hue
    have hpair := (hopen_iff.mp (hue ▸ he)).2
    rw [setSide_of_ne hpair] at hue
    exact ⟨hue, hpair⟩
  have hmem : ∀ {fr : SubFrame N}, fr ∈ g.flight.filter (fun f ↦ ¬ (f.src = m ∧ f.dst = n)) ↔
      fr ∈ s.mesh.flight ∧ ¬ (fr.src = m ∧ fr.dst = n) := by
    intro fr
    rw [hflight, List.mem_filter, decide_eq_true_iff]
  set g' : GossipState cfg N := { g with
    flight := g.flight.filter fun f ↦ ¬ (f.src = m ∧ f.dst = n) } with hg'
  -- over another connection as much is told as before
  have htold : ∀ {u v y f}, Next T v y u → ¬ (u = m ∧ v = n) →
      (g'.Told u v (id y) f ↔ s.mesh.Told u v (id y) f) := by
    intro u v y f hnext hpair
    refine GossipState.told_congr ?_ ?_
    · refine (hholds v y f).trans ?_
      refine and_iff_left ?_
      rintro ⟨rfl, hm⟩
      exact hpair ⟨hnext.unique hT.isAcyclic hm, rfl⟩
    · unfold lastAbout
      rw [hg', hflight, List.filter_filter]
      congr 1
      refine List.filter_congr fun fr _ ↦ ?_
      rw [Bool.and_eq_left_iff_imp]
      intro habout
      have habout : fr.About u v (id y) f := of_decide_eq_true habout
      exact decide_eq_true fun hc ↦
        hpair ⟨habout.1.symm.trans hc.1, habout.2.1.symm.trans hc.2⟩
  have hother : ∀ {u v}, s.setSide n m .closed v u ≠ .closed → ¬ (u = m ∧ v = n) :=
    fun hopen hc ↦ (hopen_iff.mp hopen).2 hc.symm
  have hknows : ∀ {u y f}, NetState.Knows id ⟨g', s.held, s.setSide n m .closed⟩ u y f ↔
      s.Knows id u y f ∧ ¬ (u = n ∧ Next T n y m) := by
    intro u y f
    by_cases hy : y = u
    · subst hy
      rw [knows_self, knows_self]
      exact (and_iff_left fun hc ↦ (hc.1 ▸ hc.2).ne rfl).symm
    · rw [knows_of_ne hy, knows_of_ne hy]
      exact hholds u y f
  constructor
  · refine ⟨fun a b hab ↦ hs.linked a b (hopen_iff.mp hab).1, fun a b ↦ ?_, hnodup, hmirrors,
      fun a ↦ ?_, fun fr hfr ↦ ?_, hs.held⟩
    · refine (hpeers a b).trans ?_
      rw [hs.peers]
      dsimp only
      by_cases hpair : a = n ∧ b = m
      · obtain ⟨rfl, rfl⟩ := hpair
        simp [setSide_self, LinkEnd.Installed]
      · rw [setSide_of_ne hpair]
        exact and_iff_left hpair
    · exact (hheard a).mono fun o hop ⟨x, u, ho, hhop, hnext, hserving, hpair⟩ ↦
        ⟨x, u, ho, hhop, hnext, (setSide_of_ne hpair).trans hserving⟩
    · obtain ⟨hfr, hpair⟩ := hmem.mp hfr
      exact (hs.frames fr hfr).imp_left fun hopen ↦ hopen_iff.mpr ⟨hopen, fun hc ↦ hpair hc.symm⟩
  · refine ⟨fun u v y f hnext hup hopen hadv hkn ↦ ?_, fun u v y f hnext hu hopen ht ↦ ?_,
      fun u v y f hnext hhello hopen ht ↦ ?_⟩
    · have hpair : ¬ (u = n ∧ v = m) := by
        rintro ⟨rfl, rfl⟩
        dsimp only at hup
        rw [setSide_self] at hup
        rcases hup with hup | hup <;> cases hup
      dsimp only at hup hadv
      rw [setSide_of_ne hpair] at hup hadv
      exact (htold hnext (hother hopen)).mpr
        (hf.tells u v y f hnext hup (hopen_iff.mp hopen).1 hadv (hknows.mp hkn).1)
    · have ht := (htold hnext (hother hopen)).mp ht
      by_cases hlost : u = n ∧ Next T n y m
      · -- it is heard of again when the connection is up
        obtain ⟨rfl, hm⟩ := hlost
        refine .inr ⟨hm.ne.symm, fun t hnext' _ hopen' ↦ ?_⟩
        exact absurd ⟨rfl, hnext'.unique hT.isAcyclic hm⟩ (hopen_iff.mp hopen').2
      · rcases hf.backed u v y f hnext (hopen_iff.mp hu).1 (hopen_iff.mp hopen).1 ht with
          hkn | ⟨hne, hall⟩
        · exact .inl (hknows.mpr ⟨hkn, hlost⟩)
        · refine .inr ⟨hne, fun t hnext' hserving hopen' ↦ ?_⟩
          obtain ⟨hserving, -⟩ := hside (by simp) hserving
          obtain ⟨hopen', hpair⟩ := hopen_iff.mp hopen'
          obtain ⟨fr, hfr, hnotify, habout⟩ := hall t hnext' hserving hopen'
          refine ⟨fr, hmem.mpr ⟨hfr, fun hc ↦ hpair ?_⟩, hnotify, habout⟩
          exact ⟨habout.2.1.symm.trans hc.2, habout.1.symm.trans hc.1⟩
    · obtain ⟨hhello, -⟩ := hside (by simp) hhello
      exact hf.fresh u v y f hnext hhello (hopen_iff.mp hopen).1
        ((htold hnext (hother hopen)).mp ht)

/-- The step lemma. -/
theorem follows_step (hid : Function.Injective id) (hT : T.IsTree) {ev : NetEvent N}
    (hs : s.Sound id T) (hf : s.Follows id T) (hallowed : s.Relinks id T ev)
    (h : s.step id T ev = some s') : s'.Sound id T ∧ s'.Follows id T := by
  cases ev with
  | subscribe n filter qos shardOwner =>
      unfold step at h
      dsimp only at h
      split_ifs at h with hproper
      cases h
      have hsubs : ∀ sub ∈ (filter, qos) :: (s.held n).filter (·.1 ≠ filter),
          sub.1.length < MQTT_TOPIC_MAX := by
        intro sub hsub
        rcases List.mem_cons.mp hsub with rfl | hsub
        · exact hproper.1
        · exact hs.held n sub (List.mem_of_mem_filter hsub)
      refine local_step hid hs hf hproper.1 hproper.2 hsubs (b := true) (fun g ↦ ?_) rfl
      by_cases hg : g = filter <;> simp [hg]
  | unsubscribe n filter shardOwner =>
      unfold step at h
      dsimp only at h
      split_ifs at h with hlen
      cases h
      refine local_step hid hs hf hlen (by decide)
        (fun sub hsub ↦ hs.held n sub (List.mem_of_mem_filter hsub)) (b := false) (fun g ↦ ?_) rfl
      by_cases hg : g = filter <;> simp [hg]
  | dial n m => exact dial_step hs hf hid hT h
  | install n m => exact install_step hs hf hallowed h
  | advertise n m => exact advertise_step hs hf hid hT hallowed h
  | handle i => exact handle_step hid hT hs hf hallowed h
  | close n m => exact close_step hs hf hid hT h

omit [DecidableEq N] [DecidableRel T.Adj] in
theorem sound_start : (start cfg N).Sound id T where
  linked n m h := absurd rfl h
  peers n m := by simp [start, GossipState.start, LinkEnd.Installed]
  nodup n := List.nodup_nil
  mirrors n := RouteTable.mirrors_init
  heard n := RouteTable.heardBy_init
  frames fr hfr := by cases hfr
  held n sub hsub := by cases hsub

omit [DecidableRel T.Adj] in
theorem follows_start : (start cfg N).Follows id T where
  tells u v x f hnext hup := by rcases hup with hup | hup <;> cases hup
  backed u v x f hnext hup := absurd rfl hup
  fresh u v x f hnext hhello := by cases hhello

/-- All connections are up, and nothing is under way. -/
structure Settled (T : SimpleGraph N) (s : NetState cfg N) : Prop where
  up : ∀ n m, T.Adj n m → s.side n m = .serving
  quiet : s.mesh.flight = []

omit [DecidableRel T.Adj] in
/-- What a broker knows in the end is what the owner's clients hold. -/
theorem Follows.knows_iff (hf : s.Follows id T) (hT : T.IsTree) (h : Settled T s) (v x : N)
    (f : CStr) : s.Knows id v x f ↔ f ∈ (s.held x).map Prod.fst := by
  refine forall_of_next hT.connected (P := fun v ↦ s.Knows id v x f ↔ f ∈ (s.held x).map Prod.fst)
    knows_self (fun v u hnext hu ↦ ?_) v
  have hup := h.up u v hnext.adj.symm
  have hback := h.up v u hnext.adj
  have hopen : s.side u v ≠ .closed := by simp [hup]
  have hopen' : s.side v u ≠ .closed := by simp [hback]
  have htold : s.mesh.Told u v (id x) f ↔ s.Knows id v x f := by
    rw [GossipState.told_of_empty h.quiet, knows_of_ne hnext.ne.symm]
  rw [← htold, ← hu]
  constructor
  · intro ht
    refine (hf.backed u v x f hnext hopen hopen' ht).resolve_right fun ⟨hne, hall⟩ ↦ ?_
    obtain ⟨t, ht⟩ := exists_next hT.connected hne.symm
    obtain ⟨fr, hfr, -⟩ := hall t ht (h.up t u ht.adj.symm) (by simp [h.up u t ht.adj])
    rw [h.quiet] at hfr
    cases hfr
  · exact hf.tells u v x f hnext (.inr hup) hopen' fun _ ↦ hup

/-- In a network without cycles, in every run in which no connection comes up at a broker that
has routes to pass on or has lost routes it has told to others: once all connections are up and
all notifications have been handled, the routes of a broker are those to the filters that the
clients of the other brokers hold, by the neighbour on the way. -/
theorem routes_converge (hid : Function.Injective id) (hT : T.IsTree) {w : Unit}
    (hrun : Reach (networking cfg id T) (fun s _ e ↦ s.Relinks id T e) (start cfg N) () s w)
    (h : Settled T s) (v : N) (o hop : NodeId) (f : CStr) : (s.mesh.routes v).HasRoute o hop f ↔
      ∃ x u, o = id x ∧ hop = id u ∧ Next T v x u ∧ f ∈ (s.held x).map Prod.fst := by
  have hinv : s.Sound id T ∧ s.Follows id T :=
    hrun.invariant (I := fun s _ ↦ s.Sound id T ∧ s.Follows id T) ⟨sound_start, follows_start⟩
      fun _ hI hallowed hstep ↦ follows_step hid hT hI.1 hI.2 hallowed hstep
  obtain ⟨hs, hf⟩ := hinv
  have hholds : ∀ x, x ≠ v →
      ((s.mesh.routes v).Holds (id x) f ↔ f ∈ (s.held x).map Prod.fst) := by
    intro x hne
    rw [← hf.knows_iff hT h v x f, knows_of_ne hne]
  rw [(hs.mirrors v).routes]
  constructor
  · rintro ⟨i, huse, rfl, rfl, hsub⟩
    obtain ⟨x, u, ho, hhop, hnext, -⟩ := hs.heard v i huse
    refine ⟨x, u, ho, hhop, hnext, (hholds x hnext.ne.symm).mp ?_⟩
    exact RouteTable.holds_iff_node.mpr ⟨i, huse, ho, hsub⟩
  · rintro ⟨x, u, rfl, rfl, hnext, hheld⟩
    obtain ⟨i, huse, howner, hsub⟩ :=
      RouteTable.holds_iff_node.mp ((hholds x hnext.ne.symm).mpr hheld)
    obtain ⟨y, k, hy, hhop, hnext', -⟩ := hs.heard v i huse
    obtain rfl := hid (hy.symm.trans howner)
    obtain rfl := hnext'.unique hT.isAcyclic hnext
    exact ⟨i, huse, howner, hhop, hsub⟩

end

end NetState

/-! ## A line of three brokers -/

namespace LineSample

open NetState

def line : SimpleGraph (Fin 3) := .fromRel fun a b ↦ a.val + 1 = b.val

instance : DecidableRel line.Adj := fun a b ↦
  inferInstanceAs (Decidable (a ≠ b ∧ (a.val + 1 = b.val ∨ b.val + 1 = a.val)))

theorem line_isTree : line.IsTree := by
  have hpath : line = SimpleGraph.pathGraph 3 := by
    ext a b
    rw [SimpleGraph.pathGraph_adj]
    exact ⟨fun h ↦ h.2, fun h ↦ ⟨by rintro rfl; omega, h⟩⟩
  rw [SimpleGraph.isTree_iff_connected_and_card]
  refine ⟨hpath ▸ SimpleGraph.pathGraph_connected 2, ?_⟩
  rw [Nat.card_eq_fintype_card, Nat.card_eq_fintype_card]
  decide

theorem smallId_injective : Function.Injective smallId := by
  intro a b h
  have h := congrFun h ⟨0, by decide⟩
  revert a b
  decide

def filter : CStr := [0x61]

/-- A connection is made, and the second broker advertises its filters first. -/
def comesUp (n m : Fin 3) : List (NetEvent (Fin 3)) :=
  [.dial n m, .install n m, .install m n, .advertise m n, .advertise n m]

def goesDown (n m : Fin 3) : List (NetEvent (Fin 3)) := [.close n m, .close m n]

/-- A client of broker 0 subscribes, and the others hear of it. -/
def subscribed : List (NetEvent (Fin 3)) :=
  comesUp 0 1 ++ comesUp 1 2 ++ [.subscribe 0 filter 1 zeroId, .handle 0, .handle 0]

/-- The connection between broker 0 and broker 1 comes again. -/
def firstAgain : List (NetEvent (Fin 3)) :=
  subscribed ++ goesDown 0 1 ++ comesUp 0 1 ++ [.handle 0, .handle 0]

def lastAgain : List (NetEvent (Fin 3)) := subscribed ++ goesDown 1 2 ++ comesUp 1 2

def withdrawn : List (NetEvent (Fin 3)) :=
  subscribed ++ goesDown 0 1 ++ [.unsubscribe 0 filter zeroId] ++ comesUp 0 1

/-- What `Relinks` asks of a step, where it can be evaluated. -/
def relinks (s : NetState Config.posix (Fin 3)) : NetEvent (Fin 3) → Bool
  | .install n _ => decide (∀ i, ((s.mesh.routes n).nodes i).inUse = false)
  | .advertise m n => s.mesh.flight.isEmpty &&
      decide (∀ w, w ≠ m → s.side n w ≠ .closed → ∀ i j, ((s.mesh.routes w).nodes i).inUse = true →
        (((s.mesh.routes w).nodes i).subs j).inUse = true →
          (s.mesh.routes n).Holds ((s.mesh.routes w).nodes i).ownerId
            (((s.mesh.routes w).nodes i).subs j).filter ∨
          ((s.mesh.routes w).nodes i).ownerId = smallId m ∧
            (((s.mesh.routes w).nodes i).subs j).filter ∈ (s.held m).map Prod.fst)
  | .handle i => decide (∀ fr ∈ s.mesh.flight[i]?, fr.notify = true →
      (s.mesh.routes fr.dst).Room fr.msg.ownerId fr.msg.filter)
  | _ => true

theorem relinks_of_check {s : NetState Config.posix (Fin 3)} {e : NetEvent (Fin 3)}
    (h : relinks s e = true) : s.Relinks smallId line e := by
  cases e with
  | install n m =>
      rintro o f ⟨i, j, huse, -⟩
      rw [of_decide_eq_true h i] at huse
      cases huse
  | advertise m n =>
      obtain ⟨hquiet, h⟩ := Bool.and_eq_true_iff.mp h
      rintro - w x f hne hopen - - htold hlost
      rw [GossipState.told_of_empty (List.isEmpty_iff.mp hquiet)] at htold
      obtain ⟨i, j, huse, howner, hsub, rfl⟩ := htold
      rcases of_decide_eq_true h w hne hopen i j huse hsub with hholds | ⟨hid, hheld⟩
      · exact absurd (howner ▸ hholds) hlost
      · exact ⟨smallId_injective (howner.symm.trans hid), hheld⟩
  | handle i =>
      have h := of_decide_eq_true h
      exact h
  | subscribe | unsubscribe | dial | close => trivial

/-- In the end all connections are up. -/
def settled (s : NetState Config.posix (Fin 3)) : Bool :=
  s.mesh.flight.isEmpty && decide (∀ n m, line.Adj n m → s.side n m = .serving)

theorem settled_of_check {s : NetState Config.posix (Fin 3)} (h : settled s = true) :
    NetState.Settled line s := by
  obtain ⟨hquiet, hup⟩ := Bool.and_eq_true_iff.mp h
  exact ⟨of_decide_eq_true hup, List.isEmpty_iff.mp hquiet⟩

/-- A run by these events: its steps meet the check, and its end is as `last` says. -/
def lineRun (es : List (NetEvent (Fin 3)))
    (check : NetState Config.posix (Fin 3) → NetEvent (Fin 3) → Bool)
    (last : NetState Config.posix (Fin 3) → Bool) : Bool :=
  Observer.checked (networking _ smallId line) (fun s _ e ↦ check s e = true)
      (start Config.posix (Fin 3)) () es &&
    (Observer.run (networking _ smallId line) (start Config.posix (Fin 3), ()) es).any
      fun r ↦ last r.1

theorem exists_of_lineRun {es : List (NetEvent (Fin 3))}
    {check : NetState Config.posix (Fin 3) → NetEvent (Fin 3) → Bool}
    {last : NetState Config.posix (Fin 3) → Bool} (h : lineRun es check last = true) :
    ∃ s, Observer.Reach (networking _ smallId line) (fun s _ e ↦ check s e = true)
      (start Config.posix (Fin 3)) () s () ∧ last s = true := by
  obtain ⟨hchecked, hlast⟩ := Bool.and_eq_true_iff.mp h
  obtain ⟨s, u, hrun⟩ := Observer.exists_run_of_checked hchecked
  rw [hrun, Option.any_some] at hlast
  exact ⟨s, Observer.Reach.start.run_of_checked hchecked hrun, hlast⟩

/-- The statement where the connection of broker 0 is lost and made again. -/
theorem routes_converge_line : ∃ s,
    Observer.Reach (networking _ smallId line) (fun s _ e ↦ s.Relinks smallId line e)
      (start Config.posix (Fin 3)) () s () ∧ NetState.Settled line s ∧
      ∀ v o hop f, (s.mesh.routes v).HasRoute o hop f ↔
        ∃ x u, o = smallId x ∧ hop = smallId u ∧ NextHop.Next line v x u ∧
          f ∈ (s.held x).map Prod.fst := by
  obtain ⟨s, hrun, hsettled⟩ := exists_of_lineRun
    (show lineRun firstAgain relinks settled = true by decide +kernel)
  have hrun := hrun.mono fun _ _ _ ↦ relinks_of_check
  have hsettled := settled_of_check hsettled
  exact ⟨s, hrun, hsettled, NetState.routes_converge smallId_injective line_isTree hrun hsettled⟩

/-- When the connection between broker 1 and broker 2 has been made again, broker 2 has no route
to the filter of broker 0; and a filter withdrawn while the connection between broker 0 and
broker 1 was lost has a route at broker 2 for ever. -/
theorem routes_not_converged :
    (∃ s, Observer.Reach (networking _ smallId line) (fun _ _ _ ↦ True)
      (start Config.posix (Fin 3)) () s () ∧ NetState.Settled line s ∧
        filter ∈ (s.held 0).map Prod.fst ∧
        ¬ ∃ hop, (s.mesh.routes 2).HasRoute (smallId 0) hop filter) ∧
    ∃ s, Observer.Reach (networking _ smallId line) (fun _ _ _ ↦ True)
      (start Config.posix (Fin 3)) () s () ∧ NetState.Settled line s ∧
        filter ∉ (s.held 0).map Prod.fst ∧
        ∃ hop, (s.mesh.routes 2).HasRoute (smallId 0) hop filter := by
  constructor
  · obtain ⟨s, hrun, hlast⟩ := exists_of_lineRun
      (show lineRun lastAgain (fun _ _ ↦ true) (fun s ↦ settled s &&
        decide (filter ∈ (s.held 0).map Prod.fst ∧
          ¬ (s.mesh.routes 2).Routed (smallId 0) filter)) = true by decide +kernel)
    obtain ⟨hsettled, hlast⟩ := Bool.and_eq_true_iff.mp hlast
    obtain ⟨hheld, hnone⟩ := of_decide_eq_true hlast
    exact ⟨s, hrun.mono fun _ _ _ _ ↦ trivial, settled_of_check hsettled, hheld,
      fun hroute ↦ hnone (RouteTable.routed_iff.mpr hroute)⟩
  · obtain ⟨s, hrun, hlast⟩ := exists_of_lineRun
      (show lineRun withdrawn (fun _ _ ↦ true) (fun s ↦ settled s &&
        decide (filter ∉ (s.held 0).map Prod.fst ∧
          (s.mesh.routes 2).Routed (smallId 0) filter)) = true by decide +kernel)
    obtain ⟨hsettled, hlast⟩ := Bool.and_eq_true_iff.mp hlast
    obtain ⟨hheld, hroute⟩ := of_decide_eq_true hlast
    exact ⟨s, hrun.mono fun _ _ _ _ ↦ trivial, settled_of_check hsettled, hheld,
      RouteTable.routed_iff.mp hroute⟩

end LineSample

end MqttBroker
