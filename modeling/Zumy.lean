import Zumy.InstantSend.Locked
import Zumy.InstantSend.OrphanVotes
import Zumy.InstantSend.VotedOutpoints
import Zumy.InstantSend.DoubleVotes
import Zumy.InstantSend.SeenVotes
import Zumy.InstantSend.Agreement
import Zumy.Governance.OrphanVotes
import Zumy.Governance.VoteToObject
import Zumy.Governance.SpentVotes
import Zumy.Payments.SeenVotes
import Zumy.Governance.Watchdogs
import Zumy.Container.CacheMultiMapRuns
import Zumy.Spork.SignedText
import Zumy.Spork.Order
import Zumy.Main.Download
import Zumy.BlockIndex.MostWork
import Zumy.Files.Prune
import Zumy.Consensus.VersionBits
import Zumy.Serialize.CoinsFormat
import Zumy.Threads.CheckQueue
import Zumy.Net.Send
import Zumy.Wallet.KeyPool
import Zumy.Governance.RateCheck
import Zumy.Governance.VoteSpacing
import Zumy.Governance.ObjectCopy
import Zumy.Governance.SuperblockHeights
import Zumy.Announce.VerifyReply
import Zumy.Announce.SameAddr
import Zumy.Blocks.AddressRead
import Zumy.Consensus.PartialMerkle
import Zumy.Announce.Bans
import Zumy.Payments.DevFund
import Zumy.Payments.VoteHeights
import Zumy.PrivateSend.Rejected
import Zumy.InstantSend.Conflicts
import Zumy.Announce.Queue
import Zumy.Consensus.BlockProof
import Zumy.Consensus.NextWork
import Zumy.Wallet.Mnemonic
import Zumy.PrivateSend.Splitting
import Zumy.PrivateSend.SignFinal
import Zumy.PrivateSend.Verified
import Zumy.PrivateSend.Charge
import Zumy.Net.TimeData
import Zumy.Container.LimitedMap
import Zumy.Encoding.FixedPoint
import Zumy.Encoding.Base58Check
import Zumy.Container.RollingBloom
import Zumy.Wallet.Passphrase
import Zumy.Wallet.Marks
import Zumy.Serialize.VarIntWidth
import Zumy.Encoding.ScriptNum
import Zumy.Masternode.IndexRuns
import Zumy.Wallet.MasternodeCoins
import Zumy.PrivateSend.Selection
import Zumy.Wallet.SelectCoins
import Zumy.Wallet.Groupings
