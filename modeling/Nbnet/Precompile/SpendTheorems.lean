/-
Nbnet.Precompile.SpendTheorems — whose money and stake a precompile call
spends.

The precompiles act for `inputs.caller`. For CALL, CALLCODE and STATICCALL
that is the account whose code executes the instruction. For DELEGATECALL
it is the caller of the frame that executes it, an account further up the
chain, and the provider does not look at the scheme.
`spends_issuer_iff` says over every tree of frames exactly when only the
issuing account is spent.
-/
import Nbnet.Precompile.Frames

namespace Nbnet.Precompile

open Lib

/-! ## Who issued a recorded run -/

/-- The inputs of a run are those revm builds in the recorded context. -/
def Issued (i : Invocation) : Prop :=
  ∃ op : CallOp, i.inputs = op.inputs i.ctx

theorem Issued.caller_eq {i : Invocation} (h : Issued i) :
    i.inputs.caller
      = if i.inputs.scheme = .delegateCall then i.ctx.caller else i.ctx.executing := by
  obtain ⟨op, hop⟩ := h
  rw [hop]
  cases hs : op.scheme <;> simp [CallOp.inputs, hs]

@[simp] theorem FrameRun.settle_trace (checkpoint : Nat) (r : FrameRun) :
    (r.settle checkpoint).trace = r.trace := by
  unfold FrameRun.settle
  split <;> rfl

/-- A call records its own run or what its callee records. -/
theorem callFrame_trace {p : HotmintPrecompiles} {ctx : FrameCtx} {w : World} {op : CallOp}
    {callee : FrameCtx → World → FrameRun} {i : Invocation}
    (h : i ∈ (callFrame p ctx w op callee).trace) :
    (i.ctx = ctx ∧ i.inputs = op.inputs ctx) ∨ ∃ ctx' w', i ∈ (callee ctx' w').trace := by
  unfold callFrame at h
  rw [FrameRun.settle_trace] at h
  split at h
  · simp at h
  · simp only at h
    split at h
    · simp only [List.mem_singleton] at h
      subst h
      exact .inl ⟨rfl, rfl⟩
    · exact .inr ⟨_, _, h⟩
    · simp at h

theorem issued_callFrame {p : HotmintPrecompiles} {ctx : FrameCtx} {w : World} {op : CallOp}
    {callee : FrameCtx → World → FrameRun}
    (hcallee : ∀ ctx' w', ∀ i ∈ (callee ctx' w').trace, Issued i) :
    ∀ i ∈ (callFrame p ctx w op callee).trace, Issued i := by
  intro i hi
  rcases callFrame_trace hi with ⟨rfl, hin⟩ | ⟨ctx', w', hi'⟩
  · exact ⟨op, hin⟩
  · exact hcallee ctx' w' i hi'

/-- Every run recorded by a frame was issued in its recorded context. -/
theorem issued_exec (p : HotmintPrecompiles) (code : Code) (ctx : FrameCtx) (w : World) :
    ∀ i ∈ (exec p ctx w code).trace, Issued i := by
  induction code generalizing ctx w with
  | done result => simp [exec]
  | call op callee rest ihcallee ihrest =>
    intro i hi
    unfold exec at hi
    split at hi
    · simp at hi
    · simp only [FrameRun.andThen, List.mem_append] at hi
      rcases hi with hi | hi
      · exact issued_callFrame (fun ctx' w' => ihcallee ctx' w') i hi
      · exact ihrest _ _ i hi
  | selfDestruct target dies =>
    intro i hi
    unfold exec at hi
    split at hi <;> simp at hi

theorem issued_execTx (p : HotmintPrecompiles) (w : World) (tx : Tx) :
    ∀ i ∈ (execTx p w tx).trace, Issued i := by
  intro i hi
  unfold execTx at hi
  split at hi
  · simp at hi
  · exact issued_callFrame (fun ctx' w' => issued_exec p tx.code ctx' w') i hi

/-! ## What a run spends -/

/-- The world a recorded run leaves. -/
def Invocation.after (p : HotmintPrecompiles) (i : Invocation) : World :=
  (p.run i.buffer i.before i.inputs).2

/-- The run debits `a` (other than by paying out an unbonding) or takes
stake away from it. -/
def Spends (p : HotmintPrecompiles) (i : Invocation) (a : Address) : Prop :=
  ((i.after p).balances a < i.before.balances a ∧
      ∀ validator amount, writeOf i.buffer i.inputs ≠ some (.unbond validator amount)) ∨
    ∃ validator,
      (i.after p).staking.getStake a validator < i.before.staking.getStake a validator

/-- When a write takes something from its caller, judged on the world it
starts from. A payee without room does not save the payer. -/
def Write.Effective (caller : Address) (w : World) : Write → Prop
  | .transfer dst amount => amount ≠ 0 ∧ amount ≤ w.balances caller ∧ caller ≠ dst
  | .delegate _ amount => amount ≠ 0 ∧ amount ≤ w.balances caller ∧ caller ≠ stakingAddr
  | .unbond validator amount => amount ≠ 0 ∧ amount ≤ w.staking.getStake caller validator

/-- The run is a write that takes effect. -/
def Invocation.Effective (i : Invocation) : Prop :=
  ∃ write, writeOf i.buffer i.inputs = some write ∧ write.Effective i.inputs.caller i.before

/-- The write takes `a`'s balance (an unbonding's payout apart) or stake. -/
def Write.Takes (w w' : World) (a : Address) (write : Write) : Prop :=
  (w'.balances a < w.balances a ∧ ∀ validator amount, write ≠ .unbond validator amount) ∨
    ∃ validator, w'.staking.getStake a validator < w.staking.getStake a validator

/-- A delegation never lowers a stake. -/
theorem le_getStake_delegate (s : StakingState) (d v d' v' : Address) (amount : U256) :
    ¬ (s.delegate d v amount).getStake d' v' < s.getStake d' v' := by
  rw [getStake_delegate]
  split
  · rename_i heq
    rw [← (Prod.mk.inj heq).1, ← (Prod.mk.inj heq).2, BitVec.lt_def, satAdd_toNat]
    have := (s.getStake d v).isLt
    omega
  · simp

/-- A write takes from its caller, exactly when it is effective. -/
theorem perform_takes_iff (caller : Address) (w : World) (write : Write) (a : Address) :
    write.Takes w (write.perform caller w).2 a ↔ a = caller ∧ write.Effective caller w := by
  cases write with
  | transfer dst amount =>
    simp only [Write.Takes, Write.Effective, perform_transfer, World.balances]
    rw [← transfer_debits_iff]
    simp
  | delegate validator amount =>
    have hkeeps : ∀ v, ¬ ((Write.delegate validator amount).perform caller w).2.staking.getStake a v
        < w.staking.getStake a v := by
      intro v
      simp only [perform_delegate]
      split
      · exact le_getStake_delegate _ _ _ _ _ _
      · simp
    simp only [Write.Takes, hkeeps, exists_false, or_false]
    simp only [perform_delegate, Write.Effective, World.balances]
    rw [← transfer_debits_iff]
    simp
  | unbond validator amount =>
    have hstake : ∀ w' : World, (Write.unbond validator amount).Takes w w' a ↔
        ∃ v, w'.staking.getStake a v < w.staking.getStake a v := by
      intro w'
      simp [Write.Takes]
    rw [hstake, perform_unbond_staking]
    simp only [Write.Effective]
    rcases unbond_cases w.staking caller validator amount with ⟨e, s', h, hlt⟩ | ⟨s', h, hle⟩
    · simp only [h, getStake_unbond_error h]
      simp only [BitVec.lt_irrefl, exists_false, false_iff, not_and]
      intro _ _ hle
      exact absurd hlt (by simpa using hle)
    · obtain ⟨hamount, hget⟩ := getStake_unbond_ok h
      simp only [h, hget]
      constructor
      · rintro ⟨v, hv⟩
        split at hv
        · rename_i heq
          obtain ⟨rfl, rfl⟩ := Prod.mk.inj heq
          refine ⟨rfl, ?_, hle⟩
          rintro rfl
          rw [BitVec.lt_def, satSub_toNat] at hv
          simp at hv
        · simp at hv
      · rintro ⟨rfl, hpos, -⟩
        refine ⟨validator, ?_⟩
        have hnz : amount.toNat ≠ 0 := fun h0 => hpos (BitVec.eq_of_toNat_eq (by simpa using h0))
        rw [if_pos rfl, BitVec.lt_def, satSub_toNat]
        omega

/-- A run spends exactly its caller, exactly when its write takes effect. -/
theorem spends_iff (p : HotmintPrecompiles) (i : Invocation) (a : Address) :
    Spends p i a ↔ a = i.inputs.caller ∧ i.Effective := by
  unfold Spends Invocation.after Invocation.Effective
  rw [run_world]
  cases hw : writeOf i.buffer i.inputs with
  | none => simp
  | some write =>
    have := perform_takes_iff i.inputs.caller i.before write a
    simpa [Write.Takes] using this

/-- **Whose funds a precompile spends.** In every tree of frames, from
every world: each precompile run spends only the account that issued the
call exactly when every effective write reached through DELEGATECALL is
issued by an account that called itself. -/
theorem spends_issuer_iff (p : HotmintPrecompiles) (w : World) (tx : Tx) :
    (∀ i ∈ (execTx p w tx).trace, ∀ a, Spends p i a → a = i.ctx.executing) ↔
      ∀ i ∈ (execTx p w tx).trace, i.inputs.scheme = .delegateCall → i.Effective →
        i.ctx.caller = i.ctx.executing := by
  refine forall_congr' fun i => forall_congr' fun hi => ?_
  have hcaller := (issued_execTx p w tx i hi).caller_eq
  constructor
  · intro h hscheme heff
    rw [if_pos hscheme] at hcaller
    exact h _ ((spends_iff p i i.ctx.caller).mpr ⟨hcaller.symm, heff⟩)
  · intro h a ha
    obtain ⟨rfl, heff⟩ := (spends_iff p i a).mp ha
    split at hcaller
    · rename_i hscheme
      rw [hcaller, h hscheme heff]
    · exact hcaller

/-! ### A contract that spends its caller -/

/-- The calldata of a selector with an address and an amount. -/
def calldata (selector : Bytes) (a : Address) (amount : U256) : Bytes :=
  selector ++ List.replicate 12 0 ++ a.asSlice ++ wordOutput amount

/-- A provider on addresses where no standard precompile sits. -/
def bareProvider : HotmintPrecompiles where
  eth _ _ := .ok none
  tableOrder := .ascending

/-- A call of a contract or a precompile with 100000 gas. -/
def plainCall (scheme : CallScheme) (address : Address) (input : Bytes) : CallOp where
  scheme := scheme
  address := address
  value := 0
  input := .bytes input
  memory := []
  gasLimit := 100000

/-- A transaction of `0xa1` that calls the contract at `0xc0`, which runs
`code`. -/
def callContract (code : Code) : Tx where
  sender := 0xa1
  upfront := 0
  refund := 0
  reward := 0
  beneficiary := 0
  op := plainCall .call 0xc0 []
  code := code

/-- `0xa1` and `0xc0` hold 1000 each, nothing is staked. -/
def twoAccounts : World where
  journal := { balances := fun a => if a = 0xa1 ∨ a = 0xc0 then 1000 else 0 }
  staking := .new

/-- The contract asks Balances for a transfer to `0xbad`, by DELEGATECALL. -/
def delegatedTransfer : Tx :=
  callContract (.call (plainCall .delegateCall balancesAddr (calldata selTransfer 0xbad 700))
    (.done .stop) (.done .stop))

theorem delegated_transfer_spends_sender :
    ¬ ∀ i ∈ (execTx bareProvider twoAccounts delegatedTransfer).trace, ∀ a,
      Spends bareProvider i a → a = i.ctx.executing := by
  intro h
  obtain ⟨i, hi, hexec, hcaller, hwrite, hfunds⟩ :
      ∃ i ∈ (execTx bareProvider twoAccounts delegatedTransfer).trace,
        i.ctx.executing = 0xc0 ∧ i.inputs.caller = 0xa1 ∧
          writeOf i.buffer i.inputs = some (.transfer 0xbad 700) ∧
          700 ≤ i.before.balances 0xa1 := by
    decide +kernel
  have hspends : Spends bareProvider i 0xa1 := by
    refine (spends_iff bareProvider i 0xa1).mpr ⟨hcaller.symm, _, hwrite, ?_⟩
    rw [hcaller]
    exact ⟨by decide, hfunds, by decide⟩
  have heq := h i hi _ hspends
  rw [hexec] at heq
  revert heq
  decide

end Nbnet.Precompile
