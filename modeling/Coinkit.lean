import Coinkit.Lib.Run
import Coinkit.Lib.TreeSet
import Coinkit.Lib.Base64
import Coinkit.Lib.Bytes
import Coinkit.Lib.Hex
import Coinkit.Lib.Bufio
import Coinkit.Lib.Counter
import Coinkit.Lib.Ledger
import Coinkit.Util.Basic
import Coinkit.Util.PublicKey
import Coinkit.Util.SignedMessage
import Coinkit.Consensus.Value
import Coinkit.Consensus.SeedSort
import Coinkit.Consensus.Quorum
import Coinkit.Consensus.BallotMessage
import Coinkit.Currency.Account
import Coinkit.Currency.AccountMap
import Coinkit.Currency.LedgerChunk
import Coinkit.Currency.TransactionQueue
import Coinkit.Currency.QueueInvariant
import Coinkit.Currency.CopyOnWrite
import Coinkit.Currency.Combine
import Coinkit.Consensus.Nomination
import Coinkit.Consensus.NominationRun
import Coinkit.Consensus.BallotState
import Coinkit.Consensus.BallotInvariant
import Coinkit.Consensus.BallotRun
import Coinkit.Consensus.Block
import Coinkit.Consensus.Chain
import Coinkit.Consensus.Provenance
import Coinkit.Consensus.Cluster
import Coinkit.Consensus.Logged
import Coinkit.Network.Node
import Coinkit.Network.RemoteInput
import Coinkit.Consensus.BallotLoop
import Coinkit.Consensus.Actionable
import Coinkit.Consensus.StoreFrame
import Coinkit.Network.Lockstep
import Coinkit.Network.Server
import Coinkit.Consensus.Range
import Coinkit.Network.Broadcast
import Coinkit.Network.Info
import Coinkit.Currency.Money
import Coinkit.Currency.Sequence
import Coinkit.Network.Ledger
import Coinkit.Network.Gossip
import Coinkit.Currency.Payments
