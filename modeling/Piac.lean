import Piac.Theory.Transition
import Piac.Theory.CppString
import Piac.Theory.TermStore
import Piac.Theory.Fields
import Piac.Theory.Json
import Piac.Theory.JsonText
import Piac.Theory.MessagePassing
import Piac.Theory.Calls
import Piac.Theory.Backpressure
import Piac.Theory.Refinement
import Piac.Theory.OrdMap
import Piac.Theory.Latest
import Piac.Theory.Moves
import Piac.Theory.Monitor
import Piac.Theory.Turns
import Piac.Theory.Board
import Piac.Daemon.Platform
import Piac.Daemon.Document
import Piac.Daemon.Reference
import Piac.Daemon.StringUtil
import Piac.Daemon.Db
import Piac.Daemon.DbThread
import Piac.Daemon.Request
import Piac.Daemon.Rpc
import Piac.Daemon.Answering
import Piac.Daemon.P2pThread
import Piac.Daemon.Ports
import Piac.Daemon.Loop
import Piac.Daemon.Wire
import Piac.Daemon.Framing
import Piac.Daemon.Exposed
import Piac.Daemon.Effects
import Piac.Daemon.Curve
import Piac.Daemon.Security
import Piac.Daemon.Threads
import Piac.Daemon.Outbound
import Piac.Store.Contents
import Piac.Store.Mirror
import Piac.Store.Authorship
import Piac.Store.Admission
import Piac.Store.Grow
import Piac.Store.Withdraw
import Piac.Store.Tally
import Piac.Daemon.Keeping
import Piac.Store.Survival
import Piac.Store.Board
import Piac.Daemon.Calm
import Piac.Daemon.Codec
import Piac.Daemon.Listing
import Piac.Daemon.Shared
import Piac.Daemon.Overlap
import Piac.Daemon.Handshake
import Piac.Daemon.Turns
import Piac.Network.Basic
import Piac.Network.Discovery
import Piac.Network.Routing
import Piac.Network.Entries
import Piac.Network.Sync
import Piac.Network.Torn
import Piac.Network.Removal
import Piac.Network.Counts
import Piac.Network.Termination
import Piac.Network.Hostile
import Piac.Network.Provenance
import Piac.Network.Hosts
import Piac.Network.Convergence
import Piac.Network.Startup
import Piac.Network.Authors
import Piac.Network.Withdrawal
import Piac.Network.OneBoard
import Piac.Client.Pirate
import Piac.Client.Retries
import Piac.Client.Cli
import Piac.Client.Envelope
import Piac.Client.Calls
import Piac.Client.Storage
import Piac.Client.Matrix
import Piac.Client.Session
import Piac.Client.Requests
import Piac.Client.Steps
import Piac.Client.Rooms
import Piac.Client.Privacy
import Piac.Client.Devices
import Piac.Client.Logins
import Piac.Client.Restart
import Piac.Client.Parsing
import Piac.Client.Membership
import Piac.Client.KeyOwners
import Piac.Client.Callbacks
import Piac.Client.Shutdown
import Piac.Client.Bodies
import Piac.Client.GroupSessions
import Piac.Client.Pair
import Piac.Client.Prompt
import Piac.Client.Words
import Piac.Client.Lasting
import Piac.Client.Reading
import Piac.Client.Recipients
