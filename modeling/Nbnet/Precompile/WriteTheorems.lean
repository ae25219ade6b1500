/-
Nbnet.Precompile.WriteTheorems — what a precompile call can change.

A call changes something only when its address, selector, length and gas
make it one of three requests: `transfer`, `delegate` or `unbond`.
`writeOf` reads the request off the call, `Write.perform` is what the
request does, and `run_perform` says that `HotmintPrecompiles::run` does
exactly that. Everything else about the precompiles is derived from these
two definitions.
-/
import Nbnet.Precompile.Precompiles

namespace Nbnet.Precompile

open Lib

/-! ## The staking ledger -/

theorem getStake_insert (s : StakingState) (d v d' v' : Address) (x : U256) :
    StakingState.getStake { delegations := s.delegations.insert (d, v) x } d' v'
      = if (d, v) = (d', v') then x else s.getStake d' v' := by
  simp only [StakingState.getStake]
  rw [FMap.get_insert]
  split <;> rfl

theorem getStake_delegate (s : StakingState) (d v d' v' : Address) (amount : U256) :
    (s.delegate d v amount).getStake d' v'
      = if (d, v) = (d', v') then satAdd (s.getStake d v) amount else s.getStake d' v' :=
  getStake_insert s d v d' v' _

/-- A failing `unbond` changes no stake. -/
theorem getStake_unbond_error {s s' : StakingState} {d v : Address} {amount : U256} {e : String}
    (h : s.unbond d v amount = (.error e, s')) (d' v' : Address) :
    s'.getStake d' v' = s.getStake d' v' := by
  unfold StakingState.unbond at h
  simp only at h
  split at h
  · obtain ⟨-, rfl⟩ := Prod.mk.inj h
    rw [getStake_insert]
    split
    · rename_i heq
      rw [(Prod.mk.inj heq).1, (Prod.mk.inj heq).2]
    · rfl
  · simp at h

/-- A successful `unbond` takes exactly the amount off one stake. -/
theorem getStake_unbond_ok {s s' : StakingState} {d v : Address} {amount : U256} {u : Unit}
    (h : s.unbond d v amount = (.ok u, s')) :
    amount.toNat ≤ (s.getStake d v).toNat ∧
      ∀ d' v', s'.getStake d' v'
        = if (d, v) = (d', v') then satSub (s.getStake d v) amount else s.getStake d' v' := by
  unfold StakingState.unbond at h
  simp only at h
  split at h
  · simp at h
  · rename_i hlt
    obtain ⟨-, rfl⟩ := Prod.mk.inj h
    rw [BitVec.lt_def] at hlt
    exact ⟨by omega, fun d' v' => getStake_insert s d v d' v' _⟩

theorem unbond_cases (s : StakingState) (d v : Address) (amount : U256) :
    (∃ e s', s.unbond d v amount = (.error e, s') ∧ s.getStake d v < amount) ∨
    (∃ s', s.unbond d v amount = (.ok (), s') ∧ amount ≤ s.getStake d v) := by
  unfold StakingState.unbond
  simp only
  split
  · rename_i hlt
    exact .inl ⟨_, _, rfl, hlt⟩
  · rename_i hlt
    exact .inr ⟨_, rfl, by simpa using hlt⟩

/-! ## Writes -/

/-- A request to change something. -/
inductive Write where
  | transfer (dst : Address) (amount : U256)
  | delegate (validator : Address) (amount : U256)
  | unbond (validator : Address) (amount : U256)
  deriving DecidableEq, Repr

/-- The write a call asks for, once its length and gas suffice. -/
def writeOf (buffer : Bytes) (inputs : CallInputs) : Option Write :=
  let input := extractInput buffer inputs
  if input.length < 68 ∨ inputs.gasLimit < precompileWriteGas then none
  else if inputs.bytecodeAddress = balancesAddr then
    if input.take 4 = selTransfer then some (.transfer (argAddress input) (argAmount input))
    else none
  else if inputs.bytecodeAddress = stakingAddr then
    if input.take 4 = selDelegate then some (.delegate (argAddress input) (argAmount input))
    else if input.take 4 = selUnbond then some (.unbond (argAddress input) (argAmount input))
    else none
  else none

/-- What a write does: whether the precompile reports success, and the
world after it. -/
def Write.perform (caller : Address) (w : World) : Write → Bool × World
  | .transfer dst amount =>
      match w.journal.transfer caller dst amount with
      | (none, journal) => (true, { w with journal })
      | (some _, journal) => (false, { w with journal })
  | .delegate validator amount =>
      match w.journal.transfer caller stakingAddr amount with
      | (none, journal) => (true, ⟨journal, w.staking.delegate caller validator amount⟩)
      | (some _, journal) => (false, { w with journal })
  | .unbond validator amount =>
      match w.staking.unbond caller validator amount with
      | (.error _, staking) => (false, { w with staking })
      | (.ok (), staking) =>
          match w.journal.transfer stakingAddr caller amount with
          | (none, journal) => (true, ⟨journal, staking⟩)
          | (some _, journal) => (false, ⟨journal, staking⟩)

/-- A transfer reports what the journal does. -/
theorem perform_transfer (caller dst : Address) (amount : U256) (w : World) :
    (Write.transfer dst amount).perform caller w
      = ((w.journal.transfer caller dst amount).1.isNone,
          { w with journal := (w.journal.transfer caller dst amount).2 }) := by
  simp only [Write.perform]
  rcases w.journal.transfer caller dst amount with ⟨_ | _, _⟩ <;> rfl

/-- So does a delegation, and the ledger records it if the tokens moved. -/
theorem perform_delegate (caller validator : Address) (amount : U256) (w : World) :
    (Write.delegate validator amount).perform caller w
      = ((w.journal.transfer caller stakingAddr amount).1.isNone,
          { journal := (w.journal.transfer caller stakingAddr amount).2
            staking :=
              if (w.journal.transfer caller stakingAddr amount).1.isNone then
                w.staking.delegate caller validator amount
              else w.staking }) := by
  simp only [Write.perform]
  rcases w.journal.transfer caller stakingAddr amount with ⟨_ | _, _⟩ <;> rfl

/-- Paid out or not, an unbonding leaves the same ledger. -/
theorem perform_unbond_staking (caller validator : Address) (amount : U256) (w : World) :
    ((Write.unbond validator amount).perform caller w).2.staking
      = (w.staking.unbond caller validator amount).2 := by
  simp only [Write.perform]
  split
  · rename_i h
    rw [h]
  · rename_i h
    rw [h]
    split <;> rfl

/-- The branch head of a read-only selector changes nothing. -/
theorem charged_world (input : Bytes) (minLen : Nat) (cost : UInt64) (gas : Gas) (w : World)
    (body : Gas → InterpreterResult × World) (hbody : ∀ g, (body g).2 = w) :
    (charged input minLen cost gas w body).2 = w := by
  unfold charged
  split
  · rfl
  · split
    · rfl
    · exact hbody _

/-- The branch head of a writing selector lets the body run exactly when
the input is long enough and the gas suffices. -/
theorem charged_write (input : Bytes) (limit : UInt64) (w : World)
    (body : Gas → InterpreterResult × World) :
    charged input 68 precompileWriteGas (Gas.new limit) w body
      = if input.length < 68 then (⟨.precompileError, Gas.new limit, []⟩, w)
        else if limit < precompileWriteGas then (⟨.precompileOOG, Gas.new limit, []⟩, w)
        else body ⟨limit, limit - precompileWriteGas⟩ := by
  unfold charged
  by_cases hgas : limit < precompileWriteGas <;> simp [Gas.recordCost, Gas.new, hgas]

/-- A writing branch performs its write when length and gas suffice, and
nothing otherwise. -/
theorem charged_perform (input : Bytes) (limit : UInt64) (w : World) (caller : Address)
    (write : Write) (body : Gas → InterpreterResult × World)
    (hbody : ∀ g, ((body g).1.result.isOk, (body g).2) = write.perform caller w) :
    let out := charged input 68 precompileWriteGas (Gas.new limit) w body
    (out.1.result.isOk, out.2)
      = if input.length < 68 ∨ limit < precompileWriteGas then (false, w)
        else write.perform caller w := by
  simp only
  rw [charged_write]
  by_cases hlen : input.length < 68
  · simp [hlen, InstructionResult.isOk]
  · by_cases hgas : limit < precompileWriteGas
    · simp [hlen, hgas, InstructionResult.isOk]
    · simp only [hlen, hgas, if_false, or_self]
      exact hbody _

/-- What `out` reports is what the call of `inputs` does. -/
def Performs (buffer : Bytes) (inputs : CallInputs) (w : World)
    (out : InterpreterResult × World) : Prop :=
  match writeOf buffer inputs with
  | none => out.2 = w
  | some write => (out.1.result.isOk, out.2) = write.perform inputs.caller w

/-- A branch that changes nothing fits a call that asks for no write. -/
theorem performs_of_none {buffer : Bytes} {inputs : CallInputs} {w : World}
    {out : InterpreterResult × World} (hwrite : writeOf buffer inputs = none)
    (hout : out.2 = w) : Performs buffer inputs w out := by
  simp [Performs, hwrite, hout]

/-- A writing branch fits the call whose write it is. -/
theorem performs_of_charged {buffer : Bytes} {inputs : CallInputs} {w : World} (write : Write)
    {body : Gas → InterpreterResult × World}
    (hwrite : writeOf buffer inputs
      = if (extractInput buffer inputs).length < 68 ∨ inputs.gasLimit < precompileWriteGas
        then none else some write)
    (hbody : ∀ g, ((body g).1.result.isOk, (body g).2) = write.perform inputs.caller w) :
    Performs buffer inputs w (charged (extractInput buffer inputs) 68 precompileWriteGas
      (Gas.new inputs.gasLimit) w body) := by
  have hout := charged_perform (extractInput buffer inputs) inputs.gasLimit w inputs.caller write
    body hbody
  simp only at hout
  unfold Performs
  rw [hwrite]
  split at hout
  · rename_i hshort
    rw [if_pos hshort]
    exact (Prod.mk.inj hout).2
  · rename_i hlong
    rw [if_neg hlong]
    exact hout

theorem writeOf_of_short {buffer : Bytes} {inputs : CallInputs}
    (h : (extractInput buffer inputs).length < 68) : writeOf buffer inputs = none := by
  simp [writeOf, h]

/-- `run_balances` performs the write of its call. -/
theorem runBalances_performs (buffer : Bytes) (w : World) (inputs : CallInputs)
    (haddr : inputs.bytecodeAddress = balancesAddr) :
    Performs buffer inputs w (runBalances buffer w inputs) := by
  unfold runBalances
  simp only
  split
  · rename_i hlen
    exact performs_of_none (writeOf_of_short (by omega)) rfl
  · split
    · rename_i hsel
      refine performs_of_none ?_ (charged_world _ _ _ _ _ _ fun _ => rfl)
      have hne : ¬ (extractInput buffer inputs).take 4 = selTransfer := by rw [hsel]; decide
      simp [writeOf, haddr, hne]
    · split
      · rename_i hsel
        refine performs_of_charged (.transfer (argAddress (extractInput buffer inputs))
          (argAmount (extractInput buffer inputs))) (by simp [writeOf, haddr, hsel]) fun g => ?_
        simp only [Write.perform]
        rcases w.journal.transfer inputs.caller (argAddress (extractInput buffer inputs))
          (argAmount (extractInput buffer inputs)) with ⟨_ | _, _⟩ <;> rfl
      · rename_i hsel
        exact performs_of_none (by simp [writeOf, haddr, hsel]) rfl

theorem stakingAddr_ne_balancesAddr : stakingAddr ≠ balancesAddr := by decide

/-- `run_staking` performs the write of its call. -/
theorem runStaking_performs (it : IterOrder (Address × Address) U256) (buffer : Bytes)
    (w : World) (inputs : CallInputs) (haddr : inputs.bytecodeAddress = stakingAddr) :
    Performs buffer inputs w (runStaking it buffer w inputs) := by
  have hbal : ¬ inputs.bytecodeAddress = balancesAddr := by
    rw [haddr]
    exact stakingAddr_ne_balancesAddr
  unfold runStaking
  simp only
  split
  · rename_i hlen
    exact performs_of_none (writeOf_of_short (by omega)) rfl
  · split
    · rename_i hsel
      refine performs_of_charged (.delegate (argAddress (extractInput buffer inputs))
        (argAmount (extractInput buffer inputs)))
        (by simp [writeOf, haddr, hsel, stakingAddr_ne_balancesAddr]) fun g => ?_
      simp only [Write.perform]
      rcases w.journal.transfer inputs.caller stakingAddr
        (argAmount (extractInput buffer inputs)) with ⟨_ | _, _⟩ <;> rfl
    · rename_i hdel
      split
      · rename_i hsel
        refine performs_of_charged (.unbond (argAddress (extractInput buffer inputs))
          (argAmount (extractInput buffer inputs))) ?_ fun g => ?_
        · have hne : ¬ selUnbond = selDelegate := by decide
          simp [writeOf, haddr, hsel, hne, stakingAddr_ne_balancesAddr]
        · simp only [Write.perform]
          rcases unbond_cases w.staking inputs.caller (argAddress (extractInput buffer inputs))
            (argAmount (extractInput buffer inputs)) with ⟨e, s', h, -⟩ | ⟨s', h, -⟩
          · simp only [h, InstructionResult.isOk]
          · simp only [h]
            rcases w.journal.transfer stakingAddr inputs.caller
              (argAmount (extractInput buffer inputs)) with ⟨_ | _, _⟩ <;> rfl
      · rename_i hunb
        have hnone : writeOf buffer inputs = none := by
          simp [writeOf, haddr, hdel, hunb, stakingAddr_ne_balancesAddr]
        split
        · exact performs_of_none hnone (charged_world _ _ _ _ _ _ fun _ => rfl)
        · split
          · exact performs_of_none hnone (charged_world _ _ _ _ _ _ fun _ => rfl)
          · exact performs_of_none hnone rfl

/-- Every precompile run performs the write of its call, and a call that
is no precompile changes nothing. -/
theorem run_performs {p : HotmintPrecompiles} {buffer : Bytes} {w w' : World}
    {inputs : CallInputs} {result : InterpreterResult}
    (h : p.run buffer w inputs = (.ok (some result), w')) :
    Performs buffer inputs w (result, w') := by
  unfold HotmintPrecompiles.run at h
  split at h
  · rename_i haddr
    have := runBalances_performs buffer w inputs haddr
    simp only [Prod.mk.injEq, Except.ok.injEq, Option.some.injEq] at h
    rwa [← h.1, ← h.2]
  · rename_i hbal
    split at h
    · rename_i haddr
      have := runStaking_performs p.tableOrder buffer w inputs haddr
      simp only [Prod.mk.injEq, Except.ok.injEq, Option.some.injEq] at h
      rwa [← h.1, ← h.2]
    · rename_i hstk
      refine performs_of_none (by simp [writeOf, hbal, hstk]) (Prod.mk.inj h).2.symm

/-- What a run leaves behind, whatever it reports. -/
theorem run_world (p : HotmintPrecompiles) (buffer : Bytes) (w : World) (inputs : CallInputs) :
    (p.run buffer w inputs).2
      = match writeOf buffer inputs with
        | none => w
        | some write => (write.perform inputs.caller w).2 := by
  have hcase : ∀ out, Performs buffer inputs w out →
      out.2 = match writeOf buffer inputs with
        | none => w
        | some write => (write.perform inputs.caller w).2 := by
    intro out hout
    unfold Performs at hout
    split at hout
    · exact hout
    · rw [← hout]
  unfold HotmintPrecompiles.run
  split
  · rename_i haddr
    exact hcase _ (runBalances_performs buffer w inputs haddr)
  · rename_i hbal
    split
    · rename_i haddr
      exact hcase _ (runStaking_performs p.tableOrder buffer w inputs haddr)
    · rename_i hstk
      simp [writeOf, hbal, hstk]

theorem run_none_address {p : HotmintPrecompiles} {buffer : Bytes} {w w' : World}
    {inputs : CallInputs} (h : p.run buffer w inputs = (.ok none, w')) :
    inputs.bytecodeAddress ≠ stakingAddr ∧ w' = w := by
  unfold HotmintPrecompiles.run at h
  split at h
  · simp at h
  · split at h
    · simp at h
    · rename_i hstk
      exact ⟨hstk, (Prod.mk.inj h).2.symm⟩

theorem run_error_world {p : HotmintPrecompiles} {buffer : Bytes} {w w' : World}
    {inputs : CallInputs} {e : String} (h : p.run buffer w inputs = (.error e, w')) : w' = w := by
  unfold HotmintPrecompiles.run at h
  split at h
  · simp at h
  · split at h
    · simp at h
    · exact (Prod.mk.inj h).2.symm

end Nbnet.Precompile
