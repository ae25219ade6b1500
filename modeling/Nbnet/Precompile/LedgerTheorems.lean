/-
Nbnet.Precompile.LedgerTheorems — what a call tree can see of the ledger,
and when it leaves the ledger alone.

The ledger is a table, and tables that differ by records of zero hold the
same stakes. `World.Alike` compares worlds by journal and stakes; a call
tree cannot tell alike worlds apart (`execTx_alike`). A tree leaves every
stake as it was when no precompile run in it is a delegation or an
unbonding that goes through (`execTx_stakes`).
-/
import Nbnet.Precompile.SpendTheorems

namespace Nbnet.Precompile

open Lib

/-! ## Alike worlds -/

structure World.Alike (w w' : World) : Prop where
  journal : w.journal = w'.journal
  stakes : ∀ d v, w.staking.getStake d v = w'.staking.getStake d v

theorem World.Alike.refl (w : World) : w.Alike w := ⟨rfl, fun _ _ => rfl⟩

theorem World.Alike.balances {w w' : World} (h : w.Alike w') : w.balances = w'.balances := by
  rw [World.balances, h.journal, World.balances]

/-- The same journal on both sides. -/
theorem World.Alike.withJournal {w w' : World} (h : w.Alike w') (j : Journal Address 256) :
    World.Alike { w with journal := j } { w' with journal := j } :=
  ⟨rfl, h.stakes⟩

theorem alike_delegate {w w' : World} (h : w.Alike w') (j : Journal Address 256)
    (d v : Address) (amount : U256) :
    World.Alike ⟨j, w.staking.delegate d v amount⟩ ⟨j, w'.staking.delegate d v amount⟩ :=
  ⟨rfl, fun d' v' => by
    simp only [getStake_delegate, h.stakes]⟩

/-- An unbonding ends the same way on both sides and leaves the same
stakes. -/
theorem alike_unbond {w w' : World} (h : w.Alike w') (d v : Address) (amount : U256) :
    (w.staking.unbond d v amount).1 = (w'.staking.unbond d v amount).1 ∧
      ∀ d' v', (w.staking.unbond d v amount).2.getStake d' v'
        = (w'.staking.unbond d v amount).2.getStake d' v' := by
  unfold StakingState.unbond
  simp only [h.stakes d v]
  split
  · refine ⟨rfl, fun d' v' => ?_⟩
    rw [getStake_insert, getStake_insert, h.stakes]
  · refine ⟨rfl, fun d' v' => ?_⟩
    rw [getStake_insert, getStake_insert, h.stakes]

/-- Two precompile runs end with the same code in alike worlds. -/
def OutcomeAlike (out out' : InterpreterResult × World) : Prop :=
  out.1.result = out'.1.result ∧ out.2.Alike out'.2

section Run

variable {w w' : World}

theorem charged_alike (h : w.Alike w') (input : Bytes) (minLen : Nat) (cost : UInt64) (gas : Gas)
    {body body' : Gas → InterpreterResult × World}
    (hbody : ∀ g, OutcomeAlike (body g) (body' g)) :
    OutcomeAlike (charged input minLen cost gas w body)
      (charged input minLen cost gas w' body') := by
  unfold charged
  split
  · exact ⟨rfl, h⟩
  · split
    · exact ⟨rfl, h⟩
    · exact hbody _

theorem runBalances_alike (h : w.Alike w') (buffer : Bytes) (inputs : CallInputs) :
    OutcomeAlike (runBalances buffer w inputs) (runBalances buffer w' inputs) := by
  unfold runBalances
  simp only
  split
  · exact ⟨rfl, h⟩
  · split
    · exact charged_alike h _ _ _ _ fun g => ⟨rfl, h⟩
    · split
      · refine charged_alike h _ _ _ _ fun g => ?_
        rw [h.journal]
        split <;> exact ⟨rfl, h.withJournal _⟩
      · exact ⟨rfl, h⟩

theorem runStaking_alike (h : w.Alike w') (it : IterOrder (Address × Address) U256)
    (buffer : Bytes) (inputs : CallInputs) :
    OutcomeAlike (runStaking it buffer w inputs) (runStaking it buffer w' inputs) := by
  unfold runStaking
  simp only
  split
  · exact ⟨rfl, h⟩
  · split
    · refine charged_alike h _ _ _ _ fun g => ?_
      rw [h.journal]
      split
      · exact ⟨rfl, h.withJournal _⟩
      · exact ⟨rfl, alike_delegate h _ _ _ _⟩
    · split
      · refine charged_alike h _ _ _ _ fun g => ?_
        obtain ⟨hend, hstakes⟩ := alike_unbond h inputs.caller
          (argAddress (extractInput buffer inputs)) (argAmount (extractInput buffer inputs))
        rcases unbond_cases w.staking inputs.caller (argAddress (extractInput buffer inputs))
          (argAmount (extractInput buffer inputs)) with ⟨e, s, hs, -⟩ | ⟨s, hs, -⟩
        · rcases unbond_cases w'.staking inputs.caller (argAddress (extractInput buffer inputs))
            (argAmount (extractInput buffer inputs)) with ⟨e', s', hs', -⟩ | ⟨s', hs', -⟩
          · rw [hs, hs'] at hstakes
            simp only [hs, hs']
            exact ⟨rfl, h.journal, hstakes⟩
          · rw [hs, hs'] at hend
            cases hend
        · rcases unbond_cases w'.staking inputs.caller (argAddress (extractInput buffer inputs))
            (argAmount (extractInput buffer inputs)) with ⟨e', s', hs', -⟩ | ⟨s', hs', -⟩
          · rw [hs, hs'] at hend
            cases hend
          · rw [hs, hs'] at hstakes
            simp only [hs, hs', h.journal]
            split
            · exact ⟨rfl, rfl, hstakes⟩
            · exact ⟨rfl, rfl, hstakes⟩
      · split
        · exact charged_alike h _ _ _ _ fun g => ⟨rfl, h⟩
        · split
          · exact charged_alike h _ _ _ _ fun g => ⟨rfl, h⟩
          · exact ⟨rfl, h⟩

/-- What the provider answers, apart from the output bytes. -/
theorem run_alike (h : w.Alike w') (p : HotmintPrecompiles) (buffer : Bytes)
    (inputs : CallInputs) :
    (p.run buffer w inputs).2.Alike (p.run buffer w' inputs).2 ∧
      ((∃ r r', (p.run buffer w inputs).1 = .ok (some r) ∧
          (p.run buffer w' inputs).1 = .ok (some r') ∧ r.result = r'.result) ∨
        (p.run buffer w inputs).1 = (p.run buffer w' inputs).1) := by
  unfold HotmintPrecompiles.run
  split
  · obtain ⟨hresult, hworld⟩ := runBalances_alike h buffer inputs
    exact ⟨hworld, .inl ⟨_, _, rfl, rfl, hresult⟩⟩
  · split
    · obtain ⟨hresult, hworld⟩ := runStaking_alike h p.tableOrder buffer inputs
      exact ⟨hworld, .inl ⟨_, _, rfl, rfl, hresult⟩⟩
    · exact ⟨h, .inr rfl⟩

end Run

/-! ## Alike frames -/

/-- Two runs of frames end alike. -/
def FrameRun.Alike (r r' : FrameRun) : Prop :=
  r.result = r'.result ∧ r.world.Alike r'.world

theorem FrameRun.Alike.settle {r r' : FrameRun} (h : r.Alike r') (checkpoint : Nat) :
    (r.settle checkpoint).Alike (r'.settle checkpoint) := by
  unfold FrameRun.settle
  rw [h.1, h.2.journal]
  split
  · exact h
  · exact ⟨rfl, h.2.withJournal _⟩

theorem callFrame_alike (p : HotmintPrecompiles) {w w' : World} (h : w.Alike w') (ctx : FrameCtx)
    (op : CallOp) (callee : FrameCtx → World → FrameRun)
    (hcallee : ∀ ctx w w', w.Alike w' → (callee ctx w).Alike (callee ctx w')) :
    (callFrame p ctx w op callee).Alike (callFrame p ctx w' op callee) := by
  unfold callFrame
  simp only [h.journal]
  refine FrameRun.Alike.settle ?_ _
  split
  · exact ⟨rfl, h.withJournal _⟩
  · rename_i j _
    obtain ⟨hworld, hanswer⟩ := run_alike (h.withJournal j) p op.memory (op.inputs ctx)
    generalize p.run op.memory { w with journal := j } (op.inputs ctx) = out at hworld hanswer
    generalize p.run op.memory { w' with journal := j } (op.inputs ctx) = out' at hworld hanswer
    obtain ⟨ans, after⟩ := out
    obtain ⟨ans', after'⟩ := out'
    rcases hanswer with ⟨r, r', rfl, rfl, hresult⟩ | heq
    · exact ⟨hresult, hworld⟩
    · obtain rfl : ans = ans' := heq
      match ans with
      | .ok (some r) => exact ⟨rfl, hworld⟩
      | .ok none => exact hcallee _ _ _ hworld
      | .error e => exact ⟨rfl, hworld⟩

theorem exec_alike (p : HotmintPrecompiles) (code : Code) (ctx : FrameCtx) {w w' : World}
    (h : w.Alike w') : (exec p ctx w code).Alike (exec p ctx w' code) := by
  induction code generalizing ctx w w' with
  | done result => exact ⟨rfl, h⟩
  | call op callee rest ihcallee ihrest =>
    unfold exec
    split
    · exact ⟨rfl, h⟩
    · have hcall := callFrame_alike p h ctx op
        (fun ctx' w' => exec p ctx' w' callee) fun ctx w w' hw => ihcallee ctx hw
      exact ihrest ctx hcall.2
  | selfDestruct target dies =>
    unfold exec
    split
    · exact ⟨rfl, h⟩
    · refine ⟨rfl, ?_⟩
      rw [h.journal]
      exact h.withJournal _

theorem World.Alike.charge {w w' : World} (h : w.Alike w') (tx : Tx) :
    (w.charge tx).Alike (w'.charge tx) := by
  refine ⟨?_, h.stakes⟩
  simp only [World.charge, h.balances, h.journal]

/-- A transaction cannot tell alike worlds apart. -/
theorem execTx_alike (p : HotmintPrecompiles) {w w' : World} (h : w.Alike w') (tx : Tx) :
    (execTx p w tx).Alike (execTx p w' tx) := by
  unfold execTx
  rw [h.balances]
  split
  · exact ⟨rfl, h⟩
  · have hcall := callFrame_alike p (h.charge tx) tx.ctx tx.op
      (fun ctx w => exec p ctx w tx.code) fun ctx w w' hw => exec_alike p tx.code ctx hw
    refine ⟨hcall.1, ?_, hcall.2.stakes⟩
    simp only [hcall.2.balances]

/-! ## Trees that leave the ledger alone -/

/-- The run is a delegation or an unbonding of a nonzero amount that goes
through, judged on the world it starts from. -/
def Invocation.MovesStake (i : Invocation) : Prop :=
  match writeOf i.buffer i.inputs with
  | some (.delegate _ amount) =>
      amount ≠ 0 ∧ (i.before.journal.transfer i.inputs.caller stakingAddr amount).1 = none
  | some (.unbond validator amount) =>
      amount ≠ 0 ∧ amount ≤ i.before.staking.getStake i.inputs.caller validator
  | _ => False

theorem satAdd_zero (x : U256) : satAdd x 0 = x := by
  apply BitVec.eq_of_toNat_eq
  have := x.isLt
  rw [satAdd_toNat]
  simp
  omega

theorem satSub_zero (x : U256) : satSub x 0 = x := by
  apply BitVec.eq_of_toNat_eq
  rw [satSub_toNat]
  simp

theorem getStake_delegate_zero (s : StakingState) (d v d' v' : Address) :
    (s.delegate d v 0).getStake d' v' = s.getStake d' v' := by
  rw [getStake_delegate, satAdd_zero]
  split
  · rename_i heq
    rw [(Prod.mk.inj heq).1, (Prod.mk.inj heq).2]
  · rfl

theorem getStake_unbond_zero {s s' : StakingState} {d v : Address} {u : Unit}
    (h : s.unbond d v 0 = (.ok u, s')) (d' v' : Address) :
    s'.getStake d' v' = s.getStake d' v' := by
  rw [(getStake_unbond_ok h).2, satSub_zero]
  split
  · rename_i heq
    rw [(Prod.mk.inj heq).1, (Prod.mk.inj heq).2]
  · rfl

/-- A run that moves no stake leaves the stakes as they were. -/
theorem stakes_of_not_moves (p : HotmintPrecompiles) {i : Invocation} (h : ¬ i.MovesStake)
    (d v : Address) :
    (p.run i.buffer i.before i.inputs).2.staking.getStake d v = i.before.staking.getStake d v := by
  rw [run_world]
  unfold Invocation.MovesStake at h
  cases hw : writeOf i.buffer i.inputs with
  | none => rfl
  | some write =>
    rw [hw] at h
    cases write with
    | transfer dst amount =>
      simp only [Write.perform]
      split <;> rfl
    | delegate validator amount =>
      simp only [Write.perform]
      simp only [not_and] at h
      split
      · rename_i j hj
        -- the transfer went through, so the amount is zero
        have hzero : amount = 0 := by
          by_contra hne
          exact h hne (by rw [hj])
        rw [hzero]
        exact getStake_delegate_zero _ _ _ d v
      · rfl
    | unbond validator amount =>
      simp only [not_and] at h
      simp only
      rw [perform_unbond_staking]
      rcases unbond_cases i.before.staking i.inputs.caller validator amount with
        ⟨e, s, hs, -⟩ | ⟨s, hs, hle⟩
      · rw [hs]
        exact getStake_unbond_error hs d v
      · have hzero : amount = 0 := by
          by_contra hne
          exact h hne hle
        subst hzero
        rw [hs]
        exact getStake_unbond_zero hs d v

/-- Rolling back the journal does not touch the ledger. -/
@[simp] theorem FrameRun.settle_staking (checkpoint : Nat) (r : FrameRun) :
    (r.settle checkpoint).world.staking = r.world.staking := by
  unfold FrameRun.settle
  split <;> rfl

/-- A run of frames from `w` leaves the stakes as they were, if nothing in
its trace moves stake. -/
def KeepsStakes (w : World) (r : FrameRun) : Prop :=
  (∀ i ∈ r.trace, ¬ i.MovesStake) → ∀ d v, r.world.staking.getStake d v = w.staking.getStake d v

theorem keepsStakes_callFrame (p : HotmintPrecompiles) (ctx : FrameCtx) (w : World) (op : CallOp)
    (callee : FrameCtx → World → FrameRun) (hcallee : ∀ ctx w, KeepsStakes w (callee ctx w)) :
    KeepsStakes w (callFrame p ctx w op callee) := by
  unfold callFrame
  intro htrace d v
  rw [FrameRun.settle_trace] at htrace
  rw [FrameRun.settle_staking]
  cases hmove : moveValue w.journal (op.inputs ctx) with
  | mk error j =>
  cases error with
  | some e => rfl
  | none =>
    simp only [hmove] at htrace ⊢
    cases hrun : p.run op.memory { w with journal := j } (op.inputs ctx) with
    | mk ans after =>
      rw [hrun] at htrace
      match ans with
      | .ok (some r) =>
        have hmoves := htrace ⟨ctx, op.inputs ctx, op.memory, { w with journal := j }⟩ (by simp)
        have hstakes := stakes_of_not_moves p hmoves d v
        simp only [hrun] at hstakes
        exact hstakes
      | .ok none =>
        have hafter := (run_none_address hrun).2
        exact (hcallee _ _ htrace d v).trans (by rw [hafter])
      | .error e =>
        have hafter := run_error_world hrun
        rw [hafter]

theorem keepsStakes_exec (p : HotmintPrecompiles) (code : Code) (ctx : FrameCtx) (w : World) :
    KeepsStakes w (exec p ctx w code) := by
  induction code generalizing ctx w with
  | done result => exact fun _ _ _ => rfl
  | call op callee rest ihcallee ihrest =>
    unfold exec
    split
    · exact fun _ _ _ => rfl
    · intro htrace d v
      simp only [FrameRun.andThen, List.mem_append] at htrace ⊢
      have hcall := keepsStakes_callFrame p ctx w op
        (fun ctx' w' => exec p ctx' w' callee) ihcallee
      rw [ihrest ctx _ (fun i hi => htrace i (.inr hi)) d v]
      exact hcall (fun i hi => htrace i (.inl hi)) d v
  | selfDestruct target dies =>
    unfold exec
    split <;> exact fun _ _ _ => rfl

/-- A transaction in which nothing moves stake leaves the stakes alone. -/
theorem execTx_stakes (p : HotmintPrecompiles) (w : World) (tx : Tx) :
    KeepsStakes w (execTx p w tx) := by
  unfold execTx
  split
  · exact fun _ _ _ => rfl
  · exact keepsStakes_callFrame p _ _ _ (fun ctx w => exec p ctx w tx.code)
      (keepsStakes_exec p tx.code)

end Nbnet.Precompile
