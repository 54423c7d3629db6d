import XchannelNet.Lib.Assign
import XchannelNet.Lib.Backoff
import XchannelNet.Lib.Best
import XchannelNet.Lib.Bytes
import XchannelNet.Lib.Fallible
import XchannelNet.Lib.KeyMerge
import XchannelNet.Lib.Run
import XchannelNet.Lib.Locks
import XchannelNet.Lib.Parser
import XchannelNet.Lib.Rotation
import XchannelNet.Lib.SegmentedLog
import XchannelNet.Lib.Sequence
import XchannelNet.Lib.Text
import XchannelNet.Lib.Trace
import XchannelNet.Lib.Utf8
import XchannelNet.Lib.Weight
import XchannelNet.Identity
import XchannelNet.Wire.Message
import XchannelNet.Channel.Log
import XchannelNet.Mux.Format
import XchannelNet.Wire.Codec
import XchannelNet.Wire.Framing
import XchannelNet.Wire.RoundTrip
import XchannelNet.Wire.Fitting
import XchannelNet.Registry.Basic
import XchannelNet.Registry.Convergence
import XchannelNet.Node.Claim
import XchannelNet.Registry.Lifecycle
import XchannelNet.Gossip.Model
import XchannelNet.Gossip.Agreement
import XchannelNet.Gossip.Termination
import XchannelNet.Broadcast.Sending
import XchannelNet.Gossip.Maintenance
import XchannelNet.Channel.Replication
import XchannelNet.Channel.Boundaries
import XchannelNet.Channel.Inbound
import XchannelNet.Channel.Stream
import XchannelNet.Channel.Resume
import XchannelNet.Channel.Outbound
import XchannelNet.Channel.Ends
import XchannelNet.Channel.Establish
import XchannelNet.Channel.Pipeline
import XchannelNet.Channel.Subscription
import XchannelNet.Channel.ReplicaSafety
import XchannelNet.Membership.Map
import XchannelNet.Membership.Reader
import XchannelNet.Membership.Flood
import XchannelNet.Membership.Links
import XchannelNet.Membership.Introduction
import XchannelNet.Membership.Acquaintance
import XchannelNet.Membership.Dedup
import XchannelNet.Membership.Hearsay
import XchannelNet.Mux.Recovery
import XchannelNet.Mux.Engine
import XchannelNet.Mux.Topic
import XchannelNet.Mux.Rounds
import XchannelNet.Mux.Refinement
import XchannelNet.Mux.Sessions
import XchannelNet.Mux.Ledger
import XchannelNet.Mux.Attaching
import XchannelNet.Mux.Progress
import XchannelNet.Mux.Attribution
import XchannelNet.Mux.Audit
import XchannelNet.Mux.Batches
import XchannelNet.Mux.Segments
import XchannelNet.Mux.Control
import XchannelNet.Mux.CursorRecovery
import XchannelNet.Mux.Duplication
import XchannelNet.Mux.Tally
import XchannelNet.Mux.Faithful
import XchannelNet.Mux.Listing
import XchannelNet.Mux.Retention
import XchannelNet.Mux.SlotTables
import XchannelNet.Mux.Stamps
import XchannelNet.Mux.Terminal
import XchannelNet.Node.Attach
import XchannelNet.Node.Dialing
import XchannelNet.Node.Subscriptions
import XchannelNet.Node.Pacing
import XchannelNet.Node.Conductor
import XchannelNet.Node.Discovery
import XchannelNet.Node.Guards
import XchannelNet.Node.Home
import XchannelNet.Node.Hosting
import XchannelNet.Node.Incarnations
import XchannelNet.Node.Naming
import XchannelNet.Node.Operations
import XchannelNet.Node.Outlook
import XchannelNet.Node.OwnLogs
import XchannelNet.Node.Passes
import XchannelNet.Node.Publishing
import XchannelNet.Node.Reaper
import XchannelNet.Node.Reclaim
import XchannelNet.Node.Rehosting
import XchannelNet.Node.Serving
import XchannelNet.Node.Session
import XchannelNet.Node.Splice
import XchannelNet.Node.Topics
import XchannelNet.Node.Watch
import XchannelNet.Broadcast.Budget
import XchannelNet.Broadcast.Delivery
import XchannelNet.Broadcast.FrameSize
import XchannelNet.Broadcast.Conversation
