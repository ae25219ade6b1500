/-
Nbnet.Precompile.EffectTheorems — what a failed precompile call and a
static one leave behind.

A failed frame gets back the balances revm's journal has entries for; the
ledger is not in the journal. `delegate` moves the tokens first and touches
the ledger last, so a delegator without the tokens leaves no mark. `unbond`
works in the other order: when the payout fails the stake is already gone.
And any payment to an account without room costs the payer the amount, for
that debit has no entry (`failed_call_clean_iff`).

revm's own instructions refuse to write in a static frame. For a precompile
static mode is a flag of `CallInputs` that the provider has to look at, and
it does not: what a static run changes is what any run changes
(`static_runs_write_nothing_iff`).
-/
import Nbnet.Precompile.LedgerTheorems

namespace Nbnet.Precompile

open Lib

/-! ## How a run ends -/

/-- A run ends with `Return` or fails. -/
def Answers (out : InterpreterResult × World) : Prop :=
  out.1.result = .ret ∨ out.1.result.isOk = false

theorem charged_answers (input : Bytes) (minLen : Nat) (cost : UInt64) (gas : Gas) (w : World)
    {body : Gas → InterpreterResult × World} (hbody : ∀ g, Answers (body g)) :
    Answers (charged input minLen cost gas w body) := by
  unfold charged
  split
  · exact .inr rfl
  · split
    · exact .inr rfl
    · exact hbody _

theorem runBalances_answers (buffer : Bytes) (w : World) (inputs : CallInputs) :
    Answers (runBalances buffer w inputs) := by
  unfold runBalances
  simp only
  split
  · exact .inr rfl
  · split
    · exact charged_answers _ _ _ _ _ fun _ => .inl rfl
    · split
      · refine charged_answers _ _ _ _ _ fun _ => ?_
        split
        · exact .inl rfl
        · exact .inr rfl
      · exact .inr rfl

theorem runStaking_answers (it : IterOrder (Address × Address) U256) (buffer : Bytes) (w : World)
    (inputs : CallInputs) : Answers (runStaking it buffer w inputs) := by
  unfold runStaking
  simp only
  split
  · exact .inr rfl
  · split
    · refine charged_answers _ _ _ _ _ fun _ => ?_
      split
      · exact .inr rfl
      · exact .inl rfl
    · split
      · refine charged_answers _ _ _ _ _ fun _ => ?_
        split
        · exact .inr rfl
        · split
          · exact .inr rfl
          · exact .inl rfl
      · split
        · exact charged_answers _ _ _ _ _ fun _ => .inl rfl
        · split
          · exact charged_answers _ _ _ _ _ fun _ => .inl rfl
          · exact .inr rfl

/-! ## A failed call -/

/-- The world after a run, once revm has closed the frame it ran in;
`entry` is the world the frame was entered with. -/
def settled (entry : World) (out : InterpreterResult × World) : World :=
  (FrameRun.settle entry.journal.entries.length { world := out.2, result := out.1.result }).world

/-- A run that does not end with `Return` changes nothing of the world its
frame was entered with. -/
def FailsClean (entry : World) (out : InterpreterResult × World) : Prop :=
  out.1.result ≠ .ret →
    (∀ d v, (settled entry out).staking.getStake d v = entry.staking.getStake d v) ∧
      (settled entry out).balances = entry.balances

/-- A write that fails half way, judged on the world it starts from: the
payer has the amount and the payee no room for it, or an unbonding is
covered by the stake and not paid out. -/
def Write.LeavesMark (caller : Address) (w : World) : Write → Prop
  | .transfer dst amount => NoRoom w.balances caller dst amount
  | .delegate _ amount => NoRoom w.balances caller stakingAddr amount
  | .unbond validator amount =>
      amount ≤ w.staking.getStake caller validator ∧
        (w.balances stakingAddr < amount ∨ NoRoom w.balances stakingAddr caller amount)

/-- The call is such a write, with its calldata complete and its gas paid,
when it is made to the precompile at `home`. -/
def LeavesMark (home : Address) (buffer : Bytes) (w : World) (inputs : CallInputs) : Prop :=
  ∃ write, writeOf buffer { inputs with bytecodeAddress := home } = some write ∧
    write.LeavesMark inputs.caller w

theorem failsClean_iff {entry : World} {out : InterpreterResult × World} (h : Answers out) :
    FailsClean entry out ↔
      (out.1.result.isOk = false →
        (∀ d v, out.2.staking.getStake d v = entry.staking.getStake d v) ∧
          (out.2.journal.revertTo entry.journal.entries.length).balances = entry.balances) := by
  unfold FailsClean settled
  rcases h with hret | hfail
  · simp [hret, InstructionResult.isOk]
  · have hne : out.1.result ≠ .ret := by
      intro hret
      rw [hret] at hfail
      cases hfail
    simp [hne, hfail, FrameRun.settle]

/-- A transfer that is refused is taken back, unless the payee had no room. -/
theorem refused_transfer_iff {j j' : Journal Address 256} (hj : Restores j j')
    {src dst : Address} {amount : U256} :
    ((j'.transfer src dst amount).1.isNone = false →
        ((j'.transfer src dst amount).2.revertTo j.entries.length).balances = j.balances) ↔
      ¬ NoRoom j'.balances src dst amount := by
  rw [revertTo_transfer_iff hj]
  constructor
  · intro h hnoroom
    obtain ⟨e, he⟩ := transfer_error_iff.mpr (.inr hnoroom)
    exact h (by rw [he]; rfl) hnoroom
  · exact fun hroom _ => hroom

section Clean

variable {entry w : World}

/-- A failed write leaves every stake and, after the revert, every balance
alone exactly when it does not fail half way. -/
theorem perform_clean_iff (hj : Restores entry.journal w.journal)
    (hstaking : w.staking = entry.staking) (caller : Address) (write : Write) :
    ((write.perform caller w).1 = false →
        (∀ d v, (write.perform caller w).2.staking.getStake d v = entry.staking.getStake d v) ∧
          ((write.perform caller w).2.journal.revertTo entry.journal.entries.length).balances
            = entry.balances) ↔
      ¬ write.LeavesMark caller w := by
  cases write with
  | transfer dst amount =>
    rw [perform_transfer]
    simp only [Write.LeavesMark, World.balances, hstaking, implies_true, true_and]
    exact refused_transfer_iff hj
  | delegate validator amount =>
    rw [perform_delegate]
    simp only [Write.LeavesMark, World.balances]
    rw [← refused_transfer_iff hj]
    refine forall_congr' fun hrefused => ?_
    -- nothing was recorded
    simp [hrefused, hstaking]
  | unbond validator amount =>
    simp only [Write.LeavesMark]
    rcases unbond_cases w.staking caller validator amount with ⟨e, s, hs, hlt⟩ | ⟨s, hs, hle⟩
    · have hnot : ¬ amount ≤ w.staking.getStake caller validator := by simpa using hlt
      simp only [Write.perform, hs, hnot, false_and, not_false_eq_true, iff_true]
      intro _
      refine ⟨fun d v => by rw [getStake_unbond_error hs, hstaking], ?_⟩
      rw [hj.revertTo]
      rfl
    · obtain ⟨-, hget⟩ := getStake_unbond_ok hs
      simp only [hle, true_and, World.balances]
      rw [← transfer_error_iff]
      cases hpay : w.journal.transfer stakingAddr caller amount with
      | mk error j =>
      cases error with
      | none => simp [Write.perform, hs, hpay]
      | some e =>
        -- the stake is gone: the amount is not zero, for a payout of zero succeeds
        simp only [Write.perform, hs, hpay, forall_const, Option.some.injEq, exists_eq',
          not_true_eq_false, iff_false]
        rintro ⟨hsame, -⟩
        have hzero : amount = 0 := by
          have heq := congrArg BitVec.toNat (hsame caller validator)
          rw [hget, if_pos rfl, satSub_toNat, hstaking] at heq
          rw [BitVec.le_def, hstaking] at hle
          exact BitVec.eq_of_toNat_eq (by simp; omega)
        rw [hzero, transfer_zero] at hpay
        cases hpay

theorem performs_clean_iff (hj : Restores entry.journal w.journal)
    (hstaking : w.staking = entry.staking) {buffer : Bytes} {inputs : CallInputs}
    {out : InterpreterResult × World} (hanswers : Answers out)
    (h : Performs buffer inputs w out) :
    FailsClean entry out ↔
      ¬ ∃ write, writeOf buffer inputs = some write ∧ write.LeavesMark inputs.caller w := by
  rw [failsClean_iff hanswers]
  unfold Performs at h
  cases hw : writeOf buffer inputs with
  | none =>
    rw [hw] at h
    have hworld : out.2 = w := h
    simp only [hworld, hstaking, hj.revertTo]
    simp [World.balances]
  | some write =>
    rw [hw] at h
    have hout : (out.1.result.isOk, out.2) = write.perform inputs.caller w := h
    have hok : out.1.result.isOk = (write.perform inputs.caller w).1 := congrArg Prod.fst hout
    have hworld : out.2 = (write.perform inputs.caller w).2 := congrArg Prod.snd hout
    rw [hok, hworld, perform_clean_iff hj hstaking]
    simp

end Clean

/-- The value that a call moves can be taken back. -/
theorem restores_moveValue {j j' : Journal Address 256} {inputs : CallInputs}
    (h : moveValue j inputs = (none, j')) : Restores j j' := by
  unfold moveValue at h
  split at h
  · rename_i value _
    have hroom : ¬ NoRoom j.balances inputs.caller inputs.targetAddress value := by
      intro hnoroom
      obtain ⟨e, he⟩ := transfer_error_iff.mpr (.inr hnoroom)
      rw [h] at he
      cases he
    have := restores_transfer hroom
    rwa [h] at this
  · obtain ⟨-, rfl⟩ := Prod.mk.inj h
    exact .refl j

/-- **When a failed precompile call changes nothing.** For every world a
frame is entered with, whose value has moved, and every caller, gas limit
and calldata: each precompile fails clean exactly when it is not given a
write that fails half way. -/
theorem failed_call_clean_iff (it : IterOrder (Address × Address) U256) (buffer : Bytes)
    (entry : World) (inputs : CallInputs) (j : Journal Address 256)
    (hmove : moveValue entry.journal inputs = (none, j)) :
    let w : World := { entry with journal := j }
    (FailsClean entry (runBalances buffer w inputs) ↔
        ¬ LeavesMark balancesAddr buffer w inputs) ∧
      (FailsClean entry (runStaking it buffer w inputs) ↔
        ¬ LeavesMark stakingAddr buffer w inputs) := by
  intro w
  have hj : Restores entry.journal w.journal := restores_moveValue hmove
  -- neither precompile looks at the address it was found by
  exact ⟨performs_clean_iff hj rfl (runBalances_answers buffer w inputs)
      (runBalances_performs buffer w { inputs with bytecodeAddress := balancesAddr } rfl),
    performs_clean_iff hj rfl (runStaking_answers it buffer w inputs)
      (runStaking_performs it buffer w { inputs with bytecodeAddress := stakingAddr } rfl)⟩

/-! ### An unbonding that is not paid out, and a payee without room -/

/-- `0xa1` has staked 100 with `0xe1`; the staking address holds nothing. -/
def emptyVault : World where
  journal := { balances := fun _ => 0 }
  staking := StakingState.new.delegate 0xa1 0xe1 100

/-- `0xa1` asks for its 100 back. -/
def unbondAll : CallInputs :=
  (plainCall .call stakingAddr (calldata selUnbond 0xe1 100)).inputs ⟨0xa1, 0xa1, false⟩

/-- `0xa1` holds 1000, and nothing more fits what `0xbad` holds. -/
def fullPayee : World where
  journal := { balances := fun a => if a = 0xa1 then 1000 else if a = 0xbad then -1 else 0 }
  staking := .new

/-- `0xa1` pays 700 to `0xbad`. -/
def payFull : CallInputs :=
  (plainCall .call balancesAddr (calldata selTransfer 0xbad 700)).inputs ⟨0xa1, 0xa1, false⟩

/-- The refused payment costs `0xa1` the 700. The same calldata is no
command of the staking precompile and costs it nothing there. -/
theorem failed_call_clean_full_payee :
    (settled fullPayee (runBalances [] fullPayee payFull)).balances 0xa1 = 300 ∧
      ¬ FailsClean fullPayee (runBalances [] fullPayee payFull) ∧
      FailsClean fullPayee (runStaking .ascending [] fullPayee payFull) := by
  obtain ⟨hbalances, hstaking⟩ := failed_call_clean_iff .ascending [] fullPayee payFull
    fullPayee.journal (by rfl)
  refine ⟨by decide +kernel, fun h => hbalances.mp h ⟨.transfer 0xbad 700, ?_, ?_⟩,
    hstaking.mpr ?_⟩
  · decide +kernel
  · simp only [Write.LeavesMark]
    decide +kernel
  · rintro ⟨write, hwrite, -⟩
    have hnone : writeOf [] { payFull with bytecodeAddress := stakingAddr } = none := by
      decide +kernel
    rw [hnone] at hwrite
    cases hwrite

/-- The call reverts, and the stake is gone. -/
theorem unpaid_unbond_loses_stake :
    let out := runStaking .ascending [] emptyVault unbondAll
    out.1.result = .revert ∧
      emptyVault.staking.getStake 0xa1 0xe1 = 100 ∧
      (settled emptyVault out).staking.getStake 0xa1 0xe1 = 0 ∧
      ¬ FailsClean emptyVault out := by
  refine ⟨by decide +kernel, by decide +kernel, by decide +kernel, fun h => ?_⟩
  have hstake := (h (by decide +kernel)).1 0xa1 0xe1
  revert hstake
  decide +kernel

/-! ## A static call -/

/-- The same balances and the same stakes. -/
structure World.SameAmounts (w w' : World) : Prop where
  balances : w.balances = w'.balances
  stakes : ∀ d v, w.staking.getStake d v = w'.staking.getStake d v

theorem World.SameAmounts.refl (w : World) : w.SameAmounts w := ⟨rfl, fun _ _ => rfl⟩

/-- When a write changes a balance or a stake, judged on the world it
starts from. A payee without room does not save the payer, and a delegation
by the staking address itself moves no balance. -/
def Write.Alters (caller : Address) (w : World) : Write → Prop
  | .transfer dst amount => amount ≠ 0 ∧ amount ≤ w.balances caller ∧ caller ≠ dst
  | .delegate validator amount =>
      amount ≠ 0 ∧ amount ≤ w.balances caller ∧
        (caller ≠ stakingAddr ∨ (w.staking.getStake caller validator).toNat < 2 ^ 256 - 1)
  | .unbond validator amount => amount ≠ 0 ∧ amount ≤ w.staking.getStake caller validator

/-- The run is a write that changes something. -/
def Invocation.Alters (i : Invocation) : Prop :=
  ∃ write, writeOf i.buffer i.inputs = some write ∧ write.Alters i.inputs.caller i.before

/-- Adding a nonzero amount to a stake shows, unless the stake is full. -/
theorem delegate_stakes_iff {s : StakingState} {d v : Address} {amount : U256}
    (hpos : amount ≠ 0) :
    (∀ d' v', s.getStake d' v' = (s.delegate d v amount).getStake d' v') ↔
      ¬ (s.getStake d v).toNat < 2 ^ 256 - 1 := by
  have hbound := (s.getStake d v).isLt
  have hnz : amount.toNat ≠ 0 := fun h => hpos (BitVec.eq_of_toNat_eq (by simpa using h))
  constructor
  · intro h
    have heq := congrArg BitVec.toNat (h d v)
    rw [getStake_delegate, if_pos rfl, satAdd_toNat] at heq
    omega
  · intro hfull d' v'
    rw [getStake_delegate]
    split
    · rename_i heq
      obtain ⟨rfl, rfl⟩ := Prod.mk.inj heq
      apply BitVec.eq_of_toNat_eq
      rw [satAdd_toNat]
      omega
    · rfl

theorem transfer_same_iff (caller : Address) (w : World) (dst : Address) (amount : U256) :
    w.SameAmounts ((Write.transfer dst amount).perform caller w).2 ↔
      ¬ (Write.transfer dst amount).Alters caller w := by
  rw [perform_transfer, Write.Alters, World.balances, ← transfer_changes_iff, not_not]
  exact ⟨fun hsame => hsame.balances.symm, fun heq => ⟨heq.symm, fun _ _ => rfl⟩⟩

theorem delegate_same_iff (caller : Address) (w : World) (validator : Address) (amount : U256) :
    w.SameAmounts ((Write.delegate validator amount).perform caller w).2 ↔
      ¬ (Write.delegate validator amount).Alters caller w := by
  simp only [Write.Alters]
  by_cases hzero : amount = 0
  · subst hzero
    simp only [Write.perform, transfer_zero, ne_eq, not_true_eq_false, false_and,
      not_false_eq_true, iff_true]
    exact ⟨rfl, fun d v => (getStake_delegate_zero _ _ _ d v).symm⟩
  · by_cases hfunds : amount ≤ w.balances caller
    · simp only [hzero, hfunds, ne_eq, not_false_eq_true, true_and]
      by_cases heq : caller = stakingAddr
      · -- the staking address pays itself: only the ledger can change
        subst heq
        have hstakes := delegate_stakes_iff (s := w.staking) (d := stakingAddr)
          (v := validator) hzero
        simp only [Write.perform, transfer_self (j := w.journal) hfunds, not_true_eq_false,
          false_or]
        exact ⟨fun hsame => hstakes.mp hsame.stakes, fun hfull => ⟨rfl, hstakes.mpr hfull⟩⟩
      · refine iff_of_false (fun hsame => ?_) (not_not.mpr (.inl heq))
        refine transfer_changes_iff.mpr ⟨hzero, hfunds, heq⟩ ?_
        rw [perform_delegate] at hsame
        exact hsame.balances.symm
    · simp only [Write.perform, transfer_of_poor (j := w.journal) hfunds, hfunds, false_and,
        and_false, not_false_eq_true, iff_true]
      exact .refl w

theorem unbond_same_iff (caller : Address) (w : World) (validator : Address) (amount : U256) :
    w.SameAmounts ((Write.unbond validator amount).perform caller w).2 ↔
      ¬ (Write.unbond validator amount).Alters caller w := by
  simp only [Write.Alters]
  rcases unbond_cases w.staking caller validator amount with ⟨e, s, hs, hlt⟩ | ⟨s, hs, hle⟩
  · refine iff_of_true ?_ fun h => absurd h.2 (by simpa using hlt)
    simp only [Write.perform, hs]
    exact ⟨rfl, fun d v => (getStake_unbond_error hs d v).symm⟩
  · by_cases hzero : amount = 0
    · subst hzero
      simp only [Write.perform, hs, transfer_zero, ne_eq, not_true_eq_false, false_and,
        not_false_eq_true, iff_true]
      exact ⟨rfl, fun d v => (getStake_unbond_zero hs d v).symm⟩
    · refine iff_of_false (fun hsame => hzero ?_) (not_not.mpr ⟨hzero, hle⟩)
      have hstake := hsame.stakes caller validator
      rw [perform_unbond_staking, hs] at hstake
      have heq := congrArg BitVec.toNat hstake
      rw [(getStake_unbond_ok hs).2, if_pos rfl, satSub_toNat] at heq
      rw [BitVec.le_def] at hle
      exact BitVec.eq_of_toNat_eq (by simp; omega)

/-- A write leaves the world as it was exactly when it does not alter it. -/
theorem perform_same_iff (caller : Address) (w : World) (write : Write) :
    w.SameAmounts (write.perform caller w).2 ↔ ¬ write.Alters caller w := by
  cases write with
  | transfer dst amount => exact transfer_same_iff caller w dst amount
  | delegate validator amount => exact delegate_same_iff caller w validator amount
  | unbond validator amount => exact unbond_same_iff caller w validator amount

/-- A run leaves every balance and stake alone exactly when it does not
alter them. -/
theorem after_same_iff (p : HotmintPrecompiles) (i : Invocation) :
    i.before.SameAmounts (i.after p) ↔ ¬ i.Alters := by
  unfold Invocation.after Invocation.Alters
  rw [run_world]
  cases hw : writeOf i.buffer i.inputs with
  | none => simp [World.SameAmounts.refl]
  | some write => simpa using perform_same_iff i.inputs.caller i.before write

/-- **When static calls write nothing.** In every tree of frames, from every
world: the precompile runs under a static context leave every balance and
every stake unchanged exactly when none of them is a write that would
change something outside one. -/
theorem static_runs_write_nothing_iff (p : HotmintPrecompiles) (w : World) (tx : Tx) :
    (∀ i ∈ (execTx p w tx).trace, i.inputs.isStatic = true → i.before.SameAmounts (i.after p)) ↔
      ∀ i ∈ (execTx p w tx).trace, i.inputs.isStatic = true → ¬ i.Alters := by
  simp only [after_same_iff]

/-- The contract asks Balances for a transfer to `0xbad`, by STATICCALL. -/
def staticTransfer : Tx :=
  callContract (.call (plainCall .staticCall balancesAddr (calldata selTransfer 0xbad 700))
    (.done .stop) (.done .stop))

/-- The static call pays `0xbad` 700 out of the contract's balance. -/
theorem static_transfer_pays :
    (execTx bareProvider twoAccounts staticTransfer).world.balances 0xbad = 700 ∧
      ¬ ∀ i ∈ (execTx bareProvider twoAccounts staticTransfer).trace,
        i.inputs.isStatic = true → i.before.SameAmounts (i.after bareProvider) := by
  refine ⟨by decide +kernel, fun h => ?_⟩
  obtain ⟨i, hi, hstatic, hbefore, hafter⟩ :
      ∃ i ∈ (execTx bareProvider twoAccounts staticTransfer).trace,
        i.inputs.isStatic = true ∧ i.before.balances 0xbad = 0 ∧
          (i.after bareProvider).balances 0xbad = 700 := by
    decide +kernel
  have heq := congrFun (h i hi hstatic).balances 0xbad
  rw [hbefore, hafter] at heq
  revert heq
  decide

end Nbnet.Precompile
