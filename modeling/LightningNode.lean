import LightningNode.HexUtils
import LightningNode.Lib.AssocList
import LightningNode.Lib.Codec
import LightningNode.Lib.Path
import LightningNode.Lib.Disk
import LightningNode.Lib.DiskCalls
import LightningNode.Lib.PowerLoss
import LightningNode.Lib.Program
import LightningNode.Lib.Text
import LightningNode.Lib.Solo
import LightningNode.Lib.Tasks
import LightningNode.Lib.Typestate
import LightningNode.Lib.Assertions
import LightningNode.Lib.Linearizable
import LightningNode.Lib.PathText
import LightningNode.Lib.BufReader
import LightningNode.Lib.Progress
import LightningNode.Lib.Refinement
import LightningNode.Ledger.Types
import LightningNode.Ledger.OnDisk
import LightningNode.Ledger.Protocol
import LightningNode.Ledger.Serialization
import LightningNode.Ledger.Shared
import LightningNode.Ledger.Finality
import LightningNode.Ledger.InFlight
import LightningNode.Ledger.Inbound
import LightningNode.Ledger.Replay
import LightningNode.Ledger.Sendpayment
import LightningNode.Ledger.Recorded
import LightningNode.Ledger.WriteAhead
import LightningNode.Ledger.Confirmation
import LightningNode.Ledger.Unreadable
import LightningNode.Ledger.Account
import LightningNode.Store.FilesystemStore
import LightningNode.Store.Names
import LightningNode.Store.Sequential
import LightningNode.Store.Calls
import LightningNode.Store.KeyValue
import LightningNode.Store.Steps
import LightningNode.Store.Links
import LightningNode.Store.CrashAtomicity
import LightningNode.Store.Durability
import LightningNode.Store.Interference
import LightningNode.Store.Rules
import LightningNode.Store.Linearizability
import LightningNode.Store.Instances
import LightningNode.Store.LockDiscipline
import LightningNode.Store.LockTable
import LightningNode.Store.ConcurrentErrors
import LightningNode.Store.Visible
import LightningNode.Store.FailedWrites
import LightningNode.Store.PathNames
import LightningNode.Store.Listing
import LightningNode.Bitcoind.FeeEstimates
import LightningNode.Bitcoind.Broadcast
import LightningNode.Wallet.OnChainWallet
import LightningNode.Node.ChannelMonitors
import LightningNode.Node.Shutdown
import LightningNode.Node.KeysSeed
import LightningNode.Node.StartupArgs
import LightningNode.Node.Sweep
import LightningNode.Node.SweepSafety
import LightningNode.Node.SweepResumed
import LightningNode.Node.SweepStore
import LightningNode.Node.EnvFile
import LightningNode.Node.SweepReader
import LightningNode.Node.Locks
import LightningNode.Node.LedgerOnStores
import LightningNode.Node.OneWriter
import LightningNode.Node.Reconnect
import LightningNode.Cli.PeerInfo
import LightningNode.Cli.Peers
import LightningNode.Cli.Channels
import LightningNode.Cli.ChannelPeerData
