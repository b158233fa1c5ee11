import AbsoluteChain.Commitment
import AbsoluteChain.Authorisation
import AbsoluteChain.StateRoot
import AbsoluteChain.Replay
import AbsoluteChain.FinalitySound
import AbsoluteChain.Checkpoints
import AbsoluteChain.EvmValue
import AbsoluteChain.StaticCalls
import AbsoluteChain.Reentrancy
import AbsoluteChain.Creations
import AbsoluteChain.CallGas
import AbsoluteChain.ProofQueue
import AbsoluteChain.Attestations
import AbsoluteChain.Proposers
import AbsoluteChain.Restart
import AbsoluteChain.Nonces
import AbsoluteChain.FinalityOrder
import AbsoluteChain.CasperSupport
import AbsoluteChain.Exclusion
import AbsoluteChain.HardCap
import AbsoluteChain.PoolLocks
import AbsoluteChain.ArrivalOrder
import AbsoluteChain.TipReplay
import AbsoluteChain.Waiters
import AbsoluteChain.Merkle
import AbsoluteChain.Gossip
import AbsoluteChain.Spv
import AbsoluteChain.NativeRoot
import AbsoluteChain.RootExchange
import AbsoluteChain.RoundTrip
import AbsoluteChain.Reconcile
import AbsoluteChain.StoredTables
import AbsoluteChain.OwnBlocks
import AbsoluteChain.Packing
import AbsoluteChain.Announced
import AbsoluteChain.Importers
import AbsoluteChain.Marketplace
import AbsoluteChain.MemoryWrites
import AbsoluteChain.Plasma
import AbsoluteChain.PlasmaRestart
import AbsoluteChain.Recovery
import AbsoluteChain.Sales
import AbsoluteChain.LateJustification
import AbsoluteChain.MerkleKernels
import AbsoluteChain.PrefixSums
import AbsoluteChain.SlotFinality
import AbsoluteChain.CreationPaths
import AbsoluteChain.Descendants
import AbsoluteChain.EvmConforms
import AbsoluteChain.ForkTermination
import AbsoluteChain.GhostSound
import AbsoluteChain.DaoVotes
import AbsoluteChain.Lightning
import AbsoluteChain.MempoolWire
import AbsoluteChain.Multisig
import AbsoluteChain.StateEngine
import AbsoluteChain.ArgumentLayout
import AbsoluteChain.Assembler
import AbsoluteChain.ContractRestart
import AbsoluteChain.FastSync
import AbsoluteChain.BridgeHelper
import AbsoluteChain.ModularPower
import AbsoluteChain.OracleFeeds
import AbsoluteChain.PostQuantum
import AbsoluteChain.Sharding
import AbsoluteChain.ZkProofs
import AbsoluteChain.SessionKeys
import AbsoluteChain.SignedPayloads
import AbsoluteChain.Toolchain
import AbsoluteChain.WireFrames
import AbsoluteChain.WireLink
import AbsoluteChain.WirePeers
import AbsoluteChain.TxEviction
import AbsoluteChain.WireFlood
import AbsoluteChain.WireValidators
