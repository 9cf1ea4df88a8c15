import Ticoin.Lib.Codec
import Ticoin.Lib.Merkle
import Ticoin.Lib.Machine
import Ticoin.Serialize
import Ticoin.Core
import Ticoin.PartialMerkleTree
import Ticoin.Script
import Ticoin.SignatureHash
import Ticoin.Coins
import Ticoin.CoinsView
import Ticoin.BlockIndex
import Ticoin.ChainParams
import Ticoin.Validation
import Ticoin.WireFormat
import Ticoin.BestChain
import Ticoin.ProcessBlock
import Ticoin.BestChainSteps
import Ticoin.BestChainRuns
import Ticoin.ActivateBestChain
import Ticoin.ProcessBlockRuns
import Ticoin.BlockRelay
import Ticoin.CheckQueue
import Ticoin.Alert
import Ticoin.BlockFiles
import Ticoin.Bloom
import Ticoin.MerkleAuthentication
import Ticoin.BlockDownload
import Ticoin.WalletSpends
import Ticoin.KeyPool
import Ticoin.Lib.Table
import Ticoin.NetAddress
import Ticoin.AddrMan
import Ticoin.AddrManCheck
import Ticoin.AddrManRuns
import Ticoin.CanonicalFormat
import Ticoin.OrphanTx
import Ticoin.TxMemPool
import Ticoin.Crypter
import Ticoin.WalletBirth
import Ticoin.OrphanBlocks
import Ticoin.NetMessages
import Ticoin.BlockImport
import Ticoin.Restart
import Ticoin.Compressor
import Ticoin.CoinRecords
import Ticoin.MerkleCommitment
import Ticoin.CompactTarget
import Ticoin.MinWork
import Ticoin.Lib.OrderStatistics
import Ticoin.TimeOffset
import Ticoin.Destinations
import Ticoin.WalletAmounts
import Ticoin.Lib.Ledger
import Ticoin.ListSinceBlock
import Ticoin.WalletBalance
import Ticoin.Lib.Tape
import Ticoin.Opcodes
import Ticoin.ScriptNum
import Ticoin.Lib.DerInteger
import Ticoin.SigEncoding
import Ticoin.Interpreter
import Ticoin.InterpreterLimits
import Ticoin.SigOpBounds
import Ticoin.MerkleBranch
import Ticoin.Lib.Greedy
import Ticoin.MultiSig
import Ticoin.ScriptOps
import Ticoin.SolverTemplates
import Ticoin.ScriptDestinations
import Ticoin.ScriptRuns
import Ticoin.CombineSignatures
import Ticoin.SigCache
import Ticoin.ChainLocator
import Ticoin.MedianTime
import Ticoin.NextWork
import Ticoin.CoinSelection
import Ticoin.CreateTransaction
import Ticoin.ReorderTransactions
import Ticoin.AccountBalance
import Ticoin.AddressGroupings
import Ticoin.Util
import Ticoin.Salvage
import Ticoin.LimitedMap
import Ticoin.SelectTried
import Ticoin.BufferedFileRuns
import Ticoin.AccountingEntry
import Ticoin.ListTransactions
import Ticoin.Passphrase
import Ticoin.Base58
import Ticoin.WalletDump
import Ticoin.ConnectBlock
import Ticoin.BlockAssembly
import Ticoin.BlockSelection
import Ticoin.BlockTemplate
import Ticoin.SignRawTransaction
import Ticoin.Lib.Choice
import Ticoin.MergedSignatures
import Ticoin.SignSignature
import Ticoin.Lib.Rollback
import Ticoin.DisconnectBlock
import Ticoin.ViewRuns
import Ticoin.Supply
import Ticoin.AcceptToMemoryPool
import Ticoin.BlockOutputs
import Ticoin.MempoolRuns
import Ticoin.TxRelay
import Ticoin.TxRelayRuns
import Ticoin.CoinbaseHeight
import Ticoin.Socks5
import Ticoin.EncryptKeys
import Ticoin.EcKey
import Ticoin.CompactSignatures
import Ticoin.ExtendedKeys
import Ticoin.LockedPages
import Ticoin.Money
import Ticoin.Lib.Regroup
import Ticoin.Base64
import Ticoin.Base64RoundTrip
import Ticoin.Addresses
import Ticoin.MruSet
import Ticoin.LockOrder
import Ticoin.VarIntEncoding
import Ticoin.Lib.Segments
import Ticoin.ScriptParsing
import Ticoin.VerifyFlags
import Ticoin.DeletePushes
import Ticoin.ScriptNumForm
import Ticoin.Lib.Limbs
import Ticoin.BaseUint
