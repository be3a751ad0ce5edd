import MqttBroker.Topic.Matchers
import MqttBroker.Topic.FanOut
import MqttBroker.Client.Acknowledge
import MqttBroker.Client.Timeouts
import MqttBroker.Client.Resend
import MqttBroker.Mesh.Release
import MqttBroker.Client.Tracking
import MqttBroker.Client.Sequential
import MqttBroker.Client.Reuse
import MqttBroker.Http
import MqttBroker.Topic.Subscriptions
import MqttBroker.Client.Stored
import MqttBroker.Client.Will
import MqttBroker.Client.Failures
import MqttBroker.Client.Malformed
import MqttBroker.Client.Kicked
import MqttBroker.Client.Refused
import MqttBroker.Topic.Retained
import MqttBroker.Client.Retransmit
import MqttBroker.Client.Sessions
import MqttBroker.Client.Restore
import MqttBroker.Mesh.Rounds
import MqttBroker.Mesh.Listening
import MqttBroker.Mesh.Qos2
import MqttBroker.Mesh.Seen
import MqttBroker.Mesh.Router
import MqttBroker.Mesh.Forwarding
import MqttBroker.Mesh.Loops
import MqttBroker.Mesh.Origin
import MqttBroker.Mesh.Gossip
import MqttBroker.Mesh.Routes
import MqttBroker.Mesh.Duplicates
import MqttBroker.Mesh.Election
import MqttBroker.Mesh.PeerThreads
import MqttBroker.Mesh.Relink
import MqttBroker.Mesh.FirstFrames
import MqttBroker.Client.EarlyAcks
import MqttBroker.Mesh.Mirror
import MqttBroker.Mesh.OwnerCache
import MqttBroker.PublishFrame
import MqttBroker.Mesh.Overlap
import MqttBroker.Client.Offline
import MqttBroker.Mesh.PendingQos
import MqttBroker.Mesh.Announce
import MqttBroker.Client.Away
import MqttBroker.Mesh.Withdrawal
import MqttBroker.Mesh.Listeners
import MqttBroker.Mesh.Isolation
import MqttBroker.Mesh.Advertise
import MqttBroker.Mesh.Spread
import MqttBroker.Framing
import MqttBroker.Mesh.NextHops
import MqttBroker.Topic.MaxQos
import MqttBroker.SessionQueue
import MqttBroker.Mesh.Reencode
import MqttBroker.Mesh.ShardMatch
import MqttBroker.Mesh.Candidates
import MqttBroker.Mesh.PendingAge
import MqttBroker.Client.Suback
import MqttBroker.Mesh.Requests
import MqttBroker.Client.Handover
import MqttBroker.Mesh.Converge
import MqttBroker.Topic.Snapshots
import MqttBroker.Topic.Lists
import MqttBroker.SelfDelimiting
import MqttBroker.Client.InflightFrames
import MqttBroker.Dashboard
import MqttBroker.Status
import MqttBroker.Client.Leaks
import MqttBroker.Client.Admission
import MqttBroker.Lib.Writers
import MqttBroker.Mesh.Link
import MqttBroker.Mesh.Messages
import MqttBroker.Lib.LockOrder
import MqttBroker.Locks
import MqttBroker.Client.Conversation
import MqttBroker.Client.Order
import MqttBroker.HttpConnection
import MqttBroker.Mesh.Relay
import MqttBroker.Mesh.NodeIds
import MqttBroker.Lib.Backoff
import MqttBroker.Mesh.Seeds
import MqttBroker.Mesh.Dialing
