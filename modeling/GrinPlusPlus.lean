import GrinPlusPlus.BlockChain.BlockSums
import GrinPlusPlus.BlockChain.CompactBlock
import GrinPlusPlus.BlockChain.FailedSync
import GrinPlusPlus.BlockChain.FutureTime
import GrinPlusPlus.BlockChain.HeaderMirror
import GrinPlusPlus.BlockChain.HeaderSync
import GrinPlusPlus.BlockChain.Pools
import GrinPlusPlus.Core.Base58
import GrinPlusPlus.Core.KernelCodec
import GrinPlusPlus.Core.MappedFile
import GrinPlusPlus.Core.ProofBytes
import GrinPlusPlus.Lib.Compact
import GrinPlusPlus.P2P.BlockBans
import GrinPlusPlus.P2P.BlockLocator
import GrinPlusPlus.P2P.HandShake
import GrinPlusPlus.P2P.HeaderBatchBans
import GrinPlusPlus.P2P.HeaderBatchOrder
import GrinPlusPlus.P2P.HeaderSyncer
import GrinPlusPlus.P2P.SegmentBitmapCache
import GrinPlusPlus.P2P.StateSyncer
import GrinPlusPlus.P2P.TxHashSetPipe
import GrinPlusPlus.Pmmr.BitmapCodec
import GrinPlusPlus.Pmmr.BitmapSync
import GrinPlusPlus.Pmmr.BlockRoots
import GrinPlusPlus.Pmmr.CompactedRange
import GrinPlusPlus.Pmmr.DistinctCommitments
import GrinPlusPlus.Pmmr.KernelLoad
import GrinPlusPlus.Pmmr.NRDRules
import GrinPlusPlus.Pmmr.OutputBitmap
import GrinPlusPlus.Pmmr.PeakWords
import GrinPlusPlus.Pmmr.PlainMMR
import GrinPlusPlus.Pmmr.PruneListAdd
import GrinPlusPlus.Pmmr.RecursiveRange
import GrinPlusPlus.Pmmr.SegmentLanes
import GrinPlusPlus.Pmmr.SegmentProgress
import GrinPlusPlus.Pmmr.ShiftCaches
import GrinPlusPlus.Pmmr.SpentPositions
import GrinPlusPlus.Pmmr.StateBinding
import GrinPlusPlus.Pmmr.StateTransfer
import GrinPlusPlus.Pow.Cuckarood
import GrinPlusPlus.Pow.CycleVerifier
import GrinPlusPlus.Pow.Retargeting
import GrinPlusPlus.Pow.Uint128
import GrinPlusPlus.TxPool.Aggregation
import GrinPlusPlus.TxPool.PoolRuns
import GrinPlusPlus.TxPool.Reconciliation
import GrinPlusPlus.Wallet.Armor
import GrinPlusPlus.Wallet.KernelJson
import GrinPlusPlus.Wallet.LockedCoins
import GrinPlusPlus.Wallet.Mnemonic
import GrinPlusPlus.Wallet.OutputRestorer
import GrinPlusPlus.Wallet.Payment
import GrinPlusPlus.Wallet.SecretNonces
import GrinPlusPlus.Wallet.SendValue
import GrinPlusPlus.Wallet.SlateCodec
import GrinPlusPlus.Wallet.SlateJson
import GrinPlusPlus.Wallet.Slatepack
import GrinPlusPlus.Wallet.SmallWallet
import GrinPlusPlus.Wallet.WalletManager
