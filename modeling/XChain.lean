import XChain.Rlp
import XChain.StoreProgram
import XChain.StoreLoop
import XChain.Patricia
import XChain.PatriciaWords
import XChain.TrieCommon
import XChain.OverlayDB
import XChain.TrieDB
import XChain.TrieNode
import XChain.TrieInsert
import XChain.TrieLookup
import XChain.TrieRemove
import XChain.TrieHash
import XChain.TrieRuns
import XChain.TrieCorrect
import XChain.TrieIterator
import XChain.TrieWalks
import XChain.Durability
import XChain.Instruction
import XChain.Machine
import XChain.VM
import XChain.VMCases
import XChain.VMRuns
import XChain.VMFrame
import XChain.VMDispatch
import XChain.UnboundedMemory
import XChain.VMFetch
import XChain.VMMetering
import XChain.VMCharges
import XChain.VMGas
import XChain.VMOpt
import XChain.VMOptRuns
import XChain.Ledger
import XChain.Executive
import XChain.ExecutiveEther
import XChain.ExecutiveFrames
import XChain.ExecutiveGas
import XChain.RlpFields
import XChain.TransactionRlp
import XChain.LogBloom
import XChain.BlockHeader
import XChain.GuardedRuns
import XChain.HeaderMemo
import XChain.LogFilter
import XChain.ClientBase
import XChain.Buffer
import XChain.Block
import XChain.BlockRuns
import XChain.BlockEnact
import XChain.BlockSealing
import XChain.BlockCopies
import XChain.UncleRewards
import XChain.PBFTClient
import XChain.PBFTMessages
import XChain.PBFTRound
import XChain.Uncles
import XChain.RefCounts
import XChain.FixedHash
import XChain.RLPXFrameCoder
import XChain.RLPXLink
import XChain.PBFTQuorum
import XChain.ABI
import XChain.Assoc
import XChain.Watches
import XChain.WatchRuns
import XChain.KeyManager
import XChain.KeyCoherence
import XChain.Capabilities
import XChain.Discovery
import XChain.NodeTable
import XChain.NodeTableRuns
import XChain.Evictions
import XChain.RLPXPacket
import XChain.RLPXFrameWriter
import XChain.RLPXFrameReader
import XChain.RLPXSocketIO
import XChain.SessionEgress
import XChain.Duplex
import XChain.Ecies
import XChain.RLPXHandshake
import XChain.RLPXHandshakeRuns
import XChain.VMArithmetic
import XChain.VMCopies
import XChain.VMJumps
import XChain.VMMemory
import XChain.HeaderVerify
import XChain.TransactionCache
import XChain.BlockQueue
import XChain.BlockMap
import XChain.TransactionQueue
import XChain.LogMatches
import XChain.GasEstimate
import XChain.EthereumHost
import XChain.Requester
import XChain.EthereumPeer
import XChain.EciesTampering
import XChain.FindNodeReply
import XChain.RLPXFrameAllot
import XChain.RLPXSocketQueue
import XChain.RLPXFrameBooks
import XChain.RlpSizes
import XChain.BlockDetails
import XChain.KeyedOrder
import XChain.NearestNodes
import XChain.KeyTally
import XChain.GasPricer
import XChain.Faults
import XChain.RLPXHandshakeFaults
import XChain.SessionRead
import XChain.Positional
import XChain.Text
import XChain.NodeSpec
import XChain.SeparatedRanges
import XChain.RangeMask
import XChain.BloomFilter
import XChain.ICAP
import XChain.Precompiled
import XChain.Json
import XChain.KeyFile
import XChain.KeyFileUpgrade
import XChain.SecretCache
import XChain.KeysFile
import XChain.KeysFileRoundTrip
import XChain.RangeMaskAlgebra
import XChain.LeastElements
import XChain.RangeMaskQueries
import XChain.HexPrefixEncode
import XChain.AdjacentDuplicates
import XChain.NodeTableEvents
import XChain.SecureFixedHash
import XChain.KeyDerivation
import XChain.BloomChunks
import XChain.FatTrie
import XChain.WorkerRuns
import XChain.ConcurrentQueue
import XChain.SHA3Sponge
import XChain.TransactionRelayRuns
import XChain.BlockRelay
import XChain.NodeDiscovery
import XChain.NetworkFile
import XChain.HostConnections
