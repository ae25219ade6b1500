/-
Nbnet.Execution.RestartTheorems — stopping a node and starting it again
(`crates/node/src/main.rs`, `run_node`).

Of what a node knows only the consensus state can survive a stop: the
engine keeps it in the home directory and `run_node` restores it. What the
engine has written there is a parameter; a restart that continues at the
committed height is one that finds it. The executor is built from the
genesis document, and the vsdb containers it makes are new ones, so it
starts at height 0 with the genesis accounts and no stakes, whatever was
committed before. The engine meanwhile continues at the height it had
reached, so no restart resumes (`restart_never_resumes`).
-/
import Nbnet.Execution.Node
import Nbnet.State.ShadowTheorems

namespace Nbnet.Execution

open Lib State Txpool

/-! ## Boot -/

/-- What `run_node` finds of hotmint's `PersistentConsensusState`. View,
certificates and epoch do not reach the executor and are left out. -/
structure PersistentConsensusState where
  lastCommittedHeight : Option UInt64
  deriving DecidableEq, Repr

/-- hotmint's `ConsensusState`, the same part of it. -/
structure ConsensusState where
  lastCommittedHeight : UInt64 := 0
  deriving DecidableEq, Repr

/-- The consensus state `run_node` starts the engine with. -/
def ConsensusState.restore (pcs : PersistentConsensusState) : ConsensusState :=
  match pcs.lastCommittedHeight with
  | some h => { lastCommittedHeight := h }
  | none => {}

/-- What `run_node` has built when the engine starts. -/
structure Boot where
  consensus : ConsensusState
  executor : EvmExecutor

def runNode (host : Host) (pcs : PersistentConsensusState) (genesis : EvmGenesis) : Boot where
  consensus := .restore pcs
  executor := .fromGenesis host genesis

/-! ## Stop and start -/

/-- The executor after a restart is at the height the engine continues from
and answers every query as the one before. -/
structure Resumes (an : CodeAnalysis) (before after : EvmExecutor) (height : UInt64) : Prop where
  height : after.blockHeight = height
  answers : SameAnswers an after.state before.state
  stakes : ∀ d v, after.staking.getStake d v = before.staking.getStake d v
  totals : ∀ it v, after.staking.totalStake it v = before.staking.totalStake it v

/-- **No restart resumes.** Whatever the run, when it stops after a commit
at height 1 or above and the next start finds that height persisted, the
engine comes back at that height and the executor does not. -/
theorem restart_never_resumes (host : Host) (orders : Nat → FlushOrder) (genesis : EvmGenesis)
    (steps : List NodeStep) (it : IterOrder Address SenderQueue) (ctx : BlockContext)
    (hheight : 0 < ctx.height) (pcs : PersistentConsensusState)
    (hpcs : pcs.lastCommittedHeight = some ctx.height) :
    let stopped := (steps ++ [NodeStep.onCommit it ctx]).foldl (Node.step host orders)
      (.fromGenesis host genesis)
    let boot := runNode host pcs genesis
    stopped.executor.blockHeight = ctx.height ∧
      boot.consensus.lastCommittedHeight = ctx.height ∧
      ¬ Resumes host.analysis stopped.executor boot.executor
        boot.consensus.lastCommittedHeight := by
  intro stopped boot
  have hstopped : stopped.executor.blockHeight = ctx.height := by
    simp only [stopped, List.foldl_append, List.foldl_cons, List.foldl_nil, Node.step,
      EvmExecutor.onCommit]
  have hconsensus : boot.consensus.lastCommittedHeight = ctx.height := by
    simp only [boot, runNode, ConsensusState.restore, hpcs]
  refine ⟨hstopped, hconsensus, fun hresumes => ?_⟩
  have hzero : (0 : UInt64) = ctx.height := hresumes.height.trans hconsensus
  rw [← hzero] at hheight
  exact absurd hheight (by decide)

/-! ### One block and a restart -/

/-- Alice's first transaction is executed and committed. -/
def aliceStopped : Node :=
  ([.executeBlock [alice0.raw] block1] ++ [.onCommit .ascending block1] : List NodeStep).foldl
    (Node.step sampleHost ascendingFlush) (.fromGenesis sampleHost aliceGenesis)

/-- The next start finds height 1. -/
def aliceBoot : Boot := runNode sampleHost { lastCommittedHeight := some 1 } aliceGenesis

theorem restart_never_resumes_alice :
    0 < block1.height ∧
      ¬ Resumes sampleHost.analysis aliceStopped.executor aliceBoot.executor
        aliceBoot.consensus.lastCommittedHeight :=
  ⟨by decide, (restart_never_resumes sampleHost ascendingFlush aliceGenesis
    [.executeBlock [alice0.raw] block1] .ascending block1 (by decide)
    { lastCommittedHeight := some 1 } rfl).2.2⟩

/-- Height and Alice's nonce are those of genesis again. -/
theorem restarted_at_genesis :
    aliceBoot.consensus.lastCommittedHeight = 1 ∧
      aliceStopped.executor.blockHeight = 1 ∧
      aliceBoot.executor.blockHeight = 0 ∧
      aliceStopped.executor.state.getNonce alice0.sender = 1 ∧
      aliceBoot.executor.state.getNonce alice0.sender = 0 ∧
      ¬ Resumes sampleHost.analysis aliceStopped.executor aliceBoot.executor 1 := by
  refine ⟨by decide +kernel, by decide +kernel, by decide +kernel, by decide +kernel,
    by decide +kernel, fun hresumes => ?_⟩
  have hnonce := hresumes.answers.nonce alice0.sender
  revert hnonce
  decide +kernel

end Nbnet.Execution
