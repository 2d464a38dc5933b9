import Jiopad.Hashes
import Jiopad.Math
import Jiopad.HasherExtensions
import Jiopad.Sha256
import Jiopad.Pow
import Jiopad.Consensus.Basic
import Jiopad.Consensus.BlockHasher
import Jiopad.Consensus.MuHash
import Jiopad.Consensus.Tx
import Jiopad.Consensus.Tx.ScriptPublicKey
import Jiopad.Consensus.Target
import Jiopad.Consensus.Header
import Jiopad.Consensus.Merkle
import Jiopad.Consensus.Merkle.Root
import Jiopad.Consensus.Utxo.Collection
import Jiopad.Consensus.Utxo.View
import Jiopad.Consensus.Utxo.Commitment
import Jiopad.Consensus.Utxo.Inquirer
import Jiopad.Consensus.Utxo.Diff
import Jiopad.Consensus.Utxo.Apply
import Jiopad.Consensus.Coinbase
import Jiopad.Consensus.Ghostdag.Walk
import Jiopad.Consensus.Ghostdag.Engine
import Jiopad.Consensus.Ghostdag.AddBlock
import Jiopad.Consensus.Ghostdag.Run
import Jiopad.Consensus.Ghostdag.Relations
import Jiopad.Consensus.Ghostdag.BlueWork
import Jiopad.Consensus.Block
import Jiopad.Consensus.MiningRules
import Jiopad.Consensus.ChainSelection.Selector
import Jiopad.Consensus.ChainSelection.Tips
import Jiopad.Consensus.ChainSelection.Virtual
import Jiopad.Consensus.ChainSelection.Reorg
import Jiopad.Consensus.ChainSelection.Walks
