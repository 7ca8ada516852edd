import SubsatChannel.Lib.Transition
import SubsatChannel.Lib.Dict
import SubsatChannel.Lib.FinmapWeight
import SubsatChannel.Lib.LittleEndian
import SubsatChannel.Lib.Ranking
import SubsatChannel.Lib.Apportionment
import SubsatChannel.Lib.ByteStream
import SubsatChannel.Lib.ReadLog
import SubsatChannel.Errors
import SubsatChannel.Bitcoinx
import SubsatChannel.Verify
import SubsatChannel.Node.P2p
import SubsatChannel.Node.Headers
import SubsatChannel.Node.Block
import SubsatChannel.Node.BlockStore
import SubsatChannel.Node.Validation
import SubsatChannel.Node.Mempool
import SubsatChannel.Node.MempoolInvariant
import SubsatChannel.Watchtower.Registry
import SubsatChannel.Watchtower.Tower
import SubsatChannel.Watchtower.Reactions
import SubsatChannel.Node.Network
import SubsatChannel.Node.Calls
import SubsatChannel.Watchtower.Defence
import SubsatChannel.Watchtower.Cluster
import SubsatChannel.Watchtower.LateRegistration
import SubsatChannel.Node.HeaderTree
import SubsatChannel.Node.ChainState
import SubsatChannel.Node.ReorgSafety
import SubsatChannel.Node.Mined
import SubsatChannel.Node.Conservation
import SubsatChannel.Node.Coherence
import SubsatChannel.Node.Finality
import SubsatChannel.Channel.Config
import SubsatChannel.Channel.Accounting
import SubsatChannel.Channel.Scripts
import SubsatChannel.Channel.Interpreter
import SubsatChannel.Channel.SpendConditions
import SubsatChannel.Channel.Keymgmt
import SubsatChannel.Channel.Bond
import SubsatChannel.Channel.Lifecycle
import SubsatChannel.Channel.Obtained
import SubsatChannel.Channel.Settlement
import SubsatChannel.Channel.Verifies
import SubsatChannel.Channel.BondSpends
import SubsatChannel.Routing.Path
import SubsatChannel.Routing.HoldBack
import SubsatChannel.Routing.Staggering
import SubsatChannel.Channel.Window
import SubsatChannel.Channel.Refresh
import SubsatChannel.Store.SystemStore
import SubsatChannel.Store.Recover
import SubsatChannel.Store.Crash
import SubsatChannel.Runtime.Manager
import SubsatChannel.Runtime.Callers
import SubsatChannel.Runtime.CloseRace
import SubsatChannel.Runtime.Registration
import SubsatChannel.Runtime.Durability
import SubsatChannel.Runtime.Restart
import SubsatChannel.Lib.Codec
import SubsatChannel.Reference
import SubsatChannel.Channel.Opened
import SubsatChannel.Node.Frames
import SubsatChannel.Node.Messages
import SubsatChannel.Channel.Enforceable
import SubsatChannel.Node.MempoolHistory
import SubsatChannel.Channel.Discipline
import SubsatChannel.Store.Persistence
import SubsatChannel.Node.BestChain
import SubsatChannel.Watchtower.SingleSpend
import SubsatChannel.Channel.Rounding
import SubsatChannel.Channel.Batch
import SubsatChannel.Runtime.FailedWrites
import SubsatChannel.Channel.LockConditions
import SubsatChannel.Node.Disconnect
import SubsatChannel.Node.HeaderWork
import SubsatChannel.Node.Truncation
import SubsatChannel.Node.ElementReads
import SubsatChannel.Node.Handlers
import SubsatChannel.Node.Acceptance
import SubsatChannel.Watchtower.CustodyFree
import SubsatChannel.Routing.Feasibility
import SubsatChannel.Lib.GreedyCover
import SubsatChannel.Wallet.Builder
import SubsatChannel.Wallet.Accounting
import SubsatChannel.Channel.ScriptNumbers
import SubsatChannel.Wallet.CoinSelection
import SubsatChannel.Wallet.SeedBlob
import SubsatChannel.Lib.PairwiseHash
import SubsatChannel.Node.MerkleBinding
import SubsatChannel.Wallet.Send
import SubsatChannel.Wallet.Solvency
import SubsatChannel.Lib.Succession
import SubsatChannel.Lib.FinmapSum
import SubsatChannel.Node.Fate
import SubsatChannel.Node.Unspent
import SubsatChannel.Node.Landing
import SubsatChannel.Routing.Settlement
import SubsatChannel.Routing.ClaimRace
import SubsatChannel.Wallet.Balance
import SubsatChannel.Wallet.Spendable
import SubsatChannel.Wallet.Payment
import SubsatChannel.Channel.OnChain
import SubsatChannel.Wallet.Funding
import SubsatChannel.Node.Agreement
import SubsatChannel.Watchtower.Winner
import SubsatChannel.Cli.Commands
import SubsatChannel.Cli.Journal
import SubsatChannel.Watchtower.RegistryFile
import SubsatChannel.Lib.WriteThrough
