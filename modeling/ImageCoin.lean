import ImageCoin.SoftFork
import ImageCoin.SigOpAccounting
import ImageCoin.CacheStack
import ImageCoin.CacheUsage
import ImageCoin.StorageTransparency
import ImageCoin.ValueConservation
import ImageCoin.PartialMerkleWire
import ImageCoin.VersionBits
import ImageCoin.ReconsiderBlock
import ImageCoin.DarkGravityWave
import ImageCoin.PaymentVoteInterference
import ImageCoin.PingInterference
import ImageCoin.LockVoteInterference
import ImageCoin.OrphanVotes
import ImageCoin.LockCandidates
import ImageCoin.GovernanceRate
import ImageCoin.GovernanceArrival
import ImageCoin.KeyPoolCustody
import ImageCoin.Abandon
import ImageCoin.PrivateSendDenominations
import ImageCoin.PrivateSendAbuse
import ImageCoin.PoseBan
import ImageCoin.MempoolTrim
import ImageCoin.MempoolReplacement
import ImageCoin.MultiSigMatching
import ImageCoin.PayeeTally
import ImageCoin.FindAndDelete
import ImageCoin.SignatureEncoding
