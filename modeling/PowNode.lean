import PowNode.Types
import PowNode.State
import PowNode.Blockchain
import PowNode.InsertRecursively
import PowNode.Termination
import PowNode.Worker
import PowNode.Miner
import PowNode.Node
import PowNode.WellFormed
import PowNode.Validity
import PowNode.Frame
import PowNode.Totality
import PowNode.Relay
import PowNode.ForkChoice
import PowNode.Orphans
import PowNode.Redelivery
import PowNode.Convergence
import PowNode.LongestChain
import PowNode.Network
import PowNode.MinerLoop
import PowNode.Gossip
