/-
Nbnet.Network.Validators — nodes that share a chain
(`run_node` in `crates/node/src/main.rs`).

Every node runs the same executor from the same genesis. hotmint decides
the blocks and hands each of them to every node, whether by consensus or
by block sync; it is the ordering service of `Lib.Cluster`, so a node may
be any number of blocks behind. Between blocks a node serves its clients,
commits, and proposes when it leads. `eth_sendRawTransaction` broadcasts
the transaction, and what arrives goes through the gossip loop.

Nodes that crash are not modelled here: what a restart does is the subject
of `Execution.RestartTheorems`.
-/
import Nbnet.Lib.Cluster
import Nbnet.Lib.Records
import Nbnet.Rpc.DispatchTheorems

namespace Nbnet.Network

open Lib State Txpool Execution Rpc

/-- A block as hotmint hands it to the application. -/
structure DecidedBlock where
  txs : List Bytes
  ctx : BlockContext
  deriving DecidableEq, Repr

/-- What a node does between blocks. -/
inductive NodeAct where
  | request (req : JsonRpcRequest)
  | onCommit (it : IterOrder Address SenderQueue) (ctx : BlockContext)
  | createPayload (it : IterOrder Address SenderQueue)

/-- What a node sends: a transaction to its peers' mempools, a payload to
be decided on. -/
inductive Message where
  | tx (raw : Bytes)
  | payload (bytes : Bytes)
  deriving DecidableEq, Repr

/-- A request at a node with a network sink. -/
def serveAt (libs : RpcLibs) (host : Host) (chainId : UInt64) (n : Node) (req : JsonRpcRequest) :
    Served :=
  dispatch libs host ⟨n.executor, chainId, true⟩ req

/-- A node of the network. -/
def validator (libs : RpcLibs) (host : Host) (chainId : UInt64) :
    Machine Node FlushOrder DecidedBlock NodeAct Message where
  apply n order b := n.step host (fun _ => order) (.executeBlock b.txs b.ctx)
  act n
    | .request req =>
        let served := serveAt libs host chainId n req
        ({ n with executor := served.executor }, served.broadcast.toList.map .tx)
    | .onCommit it ctx => ({ n with executor := n.executor.onCommit it ctx }, [])
    | .createPayload it =>
        let (payload, executor) := n.executor.createPayload it
        ({ n with executor }, [.payload payload])
  receive n
    | .tx raw => { n with executor := n.executor.gossipTx host raw }
    | .payload _ => n

/-- What a request does to a node and sends. -/
theorem validator_request (libs : RpcLibs) (host : Host) (chainId : UInt64) (n : Node)
    (req : JsonRpcRequest) :
    (validator libs host chainId).act n (.request req)
      = ({ n with executor := (effectOf libs req).executor host n.executor },
          ((effectOf libs req).broadcast host ⟨n.executor, chainId, true⟩).toList.map .tx) := by
  obtain ⟨hexec, hsent⟩ := dispatch_does libs host ⟨n.executor, chainId, true⟩ req
  simp only [validator, serveAt, hexec, hsent]

section Network

variable (ι : Type) [DecidableEq ι] (libs : RpcLibs) (host : Host) (genesis : EvmGenesis)

abbrev Net := Cluster ι Node DecidedBlock Message

abbrev NetStep := ClusterStep ι FlushOrder DecidedBlock NodeAct

variable {ι}

/-- One step of the network. -/
def Net.step : Net ι → NetStep ι → Net ι :=
  Cluster.step (validator libs host genesis.chainId)

variable {libs host genesis} in
/-- A node after it has acted. -/
theorem Net.act_state (c : Net ι) (i : ι) (a : NodeAct) :
    ((c.step libs host genesis (.act i a)).members i).state
      = ((validator libs host genesis.chainId).act (c.members i).state a).1 := by
  simp [Net.step, Cluster.step]

variable {libs host genesis} in
/-- A payload is sent. -/
theorem Net.payload_mem_sent (c : Net ι) (i : ι) (it : IterOrder Address SenderQueue) :
    .payload ((c.members i).state.executor.createPayload it).1
      ∈ (c.step libs host genesis (.act i (.createPayload it))).sent := by
  simp [Net.step, Cluster.step, validator]

/-- The network after some steps from genesis. -/
def networkAfter (steps : List (NetStep ι)) : Net ι :=
  steps.foldl (Net.step libs host genesis) (.init (.fromGenesis host genesis))

end Network

end Nbnet.Network
