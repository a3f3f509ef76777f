import Virbicoin.Consensus.Clique.Seal
import Virbicoin.Consensus.Clique.Turn
import Virbicoin.Consensus.Ethash.ProofOfWork
import Virbicoin.Consensus.Ethash.Rewards
import Virbicoin.Consensus.Ethash.Uncles
import Virbicoin.Core.Blockchain.Canonical
import Virbicoin.Core.Blockchain.Monotone
import Virbicoin.Core.DeriveSha
import Virbicoin.Core.ForkId.Compat
import Virbicoin.Core.ForkId.Filter
import Virbicoin.Core.GetHash
import Virbicoin.Core.HeaderIndex
import Virbicoin.Core.Rawdb.Crash
import Virbicoin.Core.Refund
import Virbicoin.Core.Signer
import Virbicoin.Core.State.Revert
import Virbicoin.Core.State.SnapshotTree
import Virbicoin.Core.TxPool.Refused
import Virbicoin.Core.TxPool.Reinject
import Virbicoin.Core.TxPool.Slots
import Virbicoin.Core.Vm.Boundary
import Virbicoin.Core.Vm.Failure
import Virbicoin.Core.Vm.MemoryFee
import Virbicoin.Core.Vm.ReturnData
import Virbicoin.Core.Vm.Static
import Virbicoin.Eth.TxFetcher
import Virbicoin.Les.FlowControl
import Virbicoin.Miner.Worker
import Virbicoin.P2p.Discover.Diversity
import Virbicoin.Trie.Gc
import Virbicoin.Trie.Persist
import Virbicoin.Trie.Size
