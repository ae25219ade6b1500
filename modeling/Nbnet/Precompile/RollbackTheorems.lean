/-
Nbnet.Precompile.RollbackTheorems — the staking ledger against the tokens
locked at `STAKING_ADDR`.

The tokens live in revm's journal, the ledger does not. A frame that fails
gives the tokens back and leaves the ledger as it is, so a delegation
inside a failing frame is stake without tokens and an unbonding inside one
is tokens without stake (`lost_delegation`). That the tokens come back at
all needs a supply that fits a word: then no payee is ever without room,
and every change of a balance has its entry in the journal.

`ledger_balanced` is what does hold: over every run of transactions in
which no failing frame encloses a successful `delegate` or `unbond` of a
nonzero amount, the ledger is exactly what was delegated minus what was
unbonded, and all of it is backed. The proof carries `Solvent` through
every point of every frame; it is also what rules out the one failure the
precompile itself could not undo, a payout that fails after `unbond` has
already lowered the stake.
-/
import Mathlib.Data.FinEnum
import Nbnet.Lib.Runs
import Nbnet.Precompile.SpendTheorems
import Nbnet.Types.Chain

namespace Nbnet.Precompile

open Lib

/-! ## Stake events -/

/-- The amounts delegated for a pair. -/
def delegatedFor (d v : Address) (es : List StakeEvent) : Nat :=
  (es.map fun e => if e.delegator = d ∧ e.validator = v then e.delegated.toNat else 0).sum

/-- The amounts unbonded for a pair. -/
def unbondedFor (d v : Address) (es : List StakeEvent) : Nat :=
  (es.map fun e => if e.delegator = d ∧ e.validator = v then e.unbonded.toNat else 0).sum

/-- The event moved nothing. -/
def StakeEvent.IsZero (e : StakeEvent) : Prop := e.delegated = 0 ∧ e.unbonded = 0

instance : DecidablePred StakeEvent.IsZero :=
  fun e => inferInstanceAs (Decidable (e.delegated = 0 ∧ e.unbonded = 0))

theorem delegatedFor_append (d v : Address) (es es' : List StakeEvent) :
    delegatedFor d v (es ++ es') = delegatedFor d v es + delegatedFor d v es' := by
  simp [delegatedFor]

theorem unbondedFor_append (d v : Address) (es es' : List StakeEvent) :
    unbondedFor d v (es ++ es') = unbondedFor d v es + unbondedFor d v es' := by
  simp [unbondedFor]

theorem events_zero {es : List StakeEvent} (h : ∀ e ∈ es, e.IsZero) (d v : Address) :
    delegatedFor d v es = 0 ∧ unbondedFor d v es = 0 := by
  induction es with
  | nil => exact ⟨rfl, rfl⟩
  | cons e es ih =>
    obtain ⟨hd, hu⟩ := h e (List.mem_cons_self ..)
    obtain ⟨ihd, ihu⟩ := ih fun e' he' => h e' (List.mem_cons_of_mem _ he')
    simp only [delegatedFor, unbondedFor, List.map_cons, List.sum_cons, hd, hu] at ihd ihu ⊢
    rw [ihd, ihu]
    simp

theorem events_delegate (caller validator d v : Address) (amount : U256) :
    delegatedFor d v ((Write.delegate validator amount).events caller)
        = (if (caller, validator) = (d, v) then amount.toNat else 0) ∧
      unbondedFor d v ((Write.delegate validator amount).events caller) = 0 := by
  simp [delegatedFor, unbondedFor, Write.events]

theorem events_unbond (caller validator d v : Address) (amount : U256) :
    unbondedFor d v ((Write.unbond validator amount).events caller)
        = (if (caller, validator) = (d, v) then amount.toNat else 0) ∧
      delegatedFor d v ((Write.unbond validator amount).events caller) = 0 := by
  simp [delegatedFor, unbondedFor, Write.events]

/-! ## Solvency -/

/-- The stake of every pair. -/
def stakes (s : StakingState) : Address × Address → U256 :=
  fun pair => s.getStake pair.1 pair.2

/-- All stake is backed by tokens at `STAKING_ADDR`, and the supply fits a
word. -/
structure Solvent (w : World) : Prop where
  backed : total (stakes w.staking) ≤ (w.balances stakingAddr).toNat
  supply : total w.balances < 2 ^ 256

theorem stake_le_total (s : StakingState) (d v : Address) :
    (s.getStake d v).toNat ≤ total (stakes s) :=
  le_total (stakes s) (d, v)

theorem stake_le_sum (s : StakingState) (d v : Address) :
    (s.getStake d v).toNat ≤ ∑ pair : Address × Address, (s.getStake pair.1 pair.2).toNat := by
  have hle := stake_le_total s d v
  unfold total stakes at hle
  exact hle

theorem total_stakes_update (s : StakingState) (d v : Address) (x : U256) :
    total (Function.update (stakes s) (d, v) x) + (s.getStake d v).toNat
      = total (stakes s) + x.toNat :=
  total_update (stakes s) (d, v) x

theorem stakes_delegate (s : StakingState) (d v : Address) (amount : U256) :
    stakes (s.delegate d v amount)
      = Function.update (stakes s) (d, v) (satAdd (s.getStake d v) amount) := by
  funext pair
  obtain ⟨d', v'⟩ := pair
  simp only [stakes, Function.update_apply]
  rw [getStake_delegate]
  simp only [eq_comm]

theorem stakes_unbond {s s' : StakingState} {d v : Address} {amount : U256} {u : Unit}
    (h : s.unbond d v amount = (.ok u, s')) :
    stakes s' = Function.update (stakes s) (d, v) (satSub (s.getStake d v) amount) := by
  funext pair
  obtain ⟨d', v'⟩ := pair
  simp only [stakes, Function.update_apply]
  rw [(getStake_unbond_ok h).2]
  simp only [eq_comm]

/-- What a run did to a solvent world it started from: the supply did not
grow, the stake is still backed, and each stake changed by exactly the kept
events. -/
structure Booked (w : World) (r : FrameRun) : Prop where
  backed : total (stakes r.world.staking) ≤ (r.world.balances stakingAddr).toNat
  supply : total r.world.balances ≤ total w.balances
  accounts : ∀ d v, (r.world.staking.getStake d v).toNat + unbondedFor d v r.kept
    = (w.staking.getStake d v).toNat + delegatedFor d v r.kept

/-- Such a run inside a transaction: all it did to the journal can be taken
back. -/
structure Sound (w : World) (r : FrameRun) : Prop extends Booked w r where
  restores : Restores w.journal r.world.journal

theorem Booked.solvent {w : World} {r : FrameRun} (h : Booked w r) (hw : Solvent w) :
    Solvent r.world :=
  ⟨h.backed, lt_of_le_of_lt h.supply hw.supply⟩

/-- A run that changed no balance and no stake. -/
theorem sound_unchanged {w : World} (hw : Solvent w) (result : InstructionResult)
    (trace : List Invocation) : Sound w { world := w, result, trace } where
  backed := hw.backed
  supply := le_rfl
  restores := .refl _
  accounts _ _ := by simp [delegatedFor, unbondedFor]

/-! ## One write -/

/-- The world a run leaves and the events it keeps are all that `Sound`
looks at. -/
theorem Sound.congr {w : World} {r r' : FrameRun} (h : Sound w r) (hworld : r'.world = r.world)
    (hkept : r'.kept = r.kept) : Sound w r' :=
  ⟨⟨hworld ▸ h.backed, hworld ▸ h.supply, by rw [hworld, hkept]; exact h.accounts⟩,
    hworld ▸ h.restores⟩

/-- The tokens at `STAKING_ADDR` only grow when somebody else pays. -/
theorem sound_transfer {w : World} (hw : Solvent w) {src : Address} (dst : Address)
    (amount : U256) (hsrc : src ≠ stakingAddr) (result : InstructionResult) :
    Sound w { world := { w with journal := (w.journal.transfer src dst amount).2 }, result } where
  backed := hw.backed.trans (transfer_mono dst amount hsrc.symm)
  supply := (total_transfer hw.supply).le
  restores := restores_transfer (room_of_total hw.supply)
  accounts _ _ := by simp [delegatedFor, unbondedFor]

/-- What a transfer that goes through leaves of a solvent world. -/
theorem solvent_transfer {w : World} (hw : Solvent w) {src dst : Address} {amount : U256}
    {j : Journal Address 256} (h : w.journal.transfer src dst amount = (none, j)) :
    total j.balances ≤ total w.balances ∧ Restores w.journal j := by
  have htotal : total (w.journal.transfer src dst amount).2.balances = total w.balances :=
    total_transfer hw.supply
  have hrestores : Restores w.journal (w.journal.transfer src dst amount).2 :=
    restores_transfer (room_of_total hw.supply)
  rw [h] at htotal hrestores
  exact ⟨htotal.le, hrestores⟩

theorem sound_delegate {w : World} (hw : Solvent w) {caller validator : Address} {amount : U256}
    {j : Journal Address 256} (hcaller : caller ≠ stakingAddr)
    (h : w.journal.transfer caller stakingAddr amount = (none, j)) (result : InstructionResult) :
    Sound w { world := ⟨j, w.staking.delegate caller validator amount⟩, result,
              kept := (Write.delegate validator amount).events caller } := by
  obtain ⟨hsupply, hrestores⟩ := solvent_transfer hw h
  have hbal := transfer_payee hcaller h
  have hfit := (j.balances stakingAddr).isLt
  have hbacked := hw.backed
  have hone := stake_le_total w.staking caller validator
  have htotal := total_stakes_update w.staking caller validator
    (satAdd (w.staking.getStake caller validator) amount)
  rw [satAdd_toNat] at htotal
  refine ⟨⟨?_, hsupply, fun d v => ?_⟩, hrestores⟩
  · rw [stakes_delegate]
    simp only [World.balances] at hbacked ⊢
    omega
  · obtain ⟨hdel, hunb⟩ := events_delegate caller validator d v amount
    rw [hdel, hunb, getStake_delegate]
    simp only [World.balances] at hbacked
    split
    · rename_i heq
      obtain ⟨rfl, rfl⟩ := Prod.mk.inj heq
      rw [satAdd_toNat]
      omega
    · rfl

theorem sound_unbond {w : World} (hw : Solvent w) {caller validator : Address} {amount : U256}
    {j : Journal Address 256} {s : StakingState} (hcaller : caller ≠ stakingAddr)
    (hs : w.staking.unbond caller validator amount = (.ok (), s))
    (h : w.journal.transfer stakingAddr caller amount = (none, j)) (result : InstructionResult) :
    Sound w { world := ⟨j, s⟩, result,
              kept := (Write.unbond validator amount).events caller } := by
  obtain ⟨hsupply, hrestores⟩ := solvent_transfer hw h
  have hbal := transfer_payer hcaller.symm (transfer_funds h)
  simp only [h] at hbal
  obtain ⟨hle, hget⟩ := getStake_unbond_ok hs
  have hbacked := hw.backed
  have htotal := total_stakes_update w.staking caller validator
    (satSub (w.staking.getStake caller validator) amount)
  rw [satSub_toNat] at htotal
  refine ⟨⟨?_, hsupply, fun d v => ?_⟩, hrestores⟩
  · rw [stakes_unbond hs]
    simp only [World.balances] at hbacked ⊢
    omega
  · obtain ⟨hunb, hdel⟩ := events_unbond caller validator d v amount
    rw [hdel, hunb, hget]
    split
    · rename_i heq
      obtain ⟨rfl, rfl⟩ := Prod.mk.inj heq
      rw [satSub_toNat]
      omega
    · rfl

/-- In a solvent world the payout of an unbonding cannot fail. -/
theorem unbond_pays {w : World} (hw : Solvent w) {caller validator : Address} {amount : U256}
    (hle : amount.toNat ≤ (w.staking.getStake caller validator).toNat) :
    ∃ j, w.journal.transfer stakingAddr caller amount = (none, j) := by
  have hfunds := hle.trans ((stake_le_total w.staking caller validator).trans hw.backed)
  rcases transfer_of_total hw.supply stakingAddr caller amount with ⟨hlt, -⟩ | ⟨-, h⟩
  · exact absurd (BitVec.lt_def.mp hlt) (Nat.not_lt.mpr hfunds)
  · exact h

/-- Every write of somebody other than `STAKING_ADDR` is sound. -/
theorem sound_perform {w w' : World} (hw : Solvent w) {caller : Address}
    (hcaller : caller ≠ stakingAddr) (write : Write) {ok : Bool}
    (hperform : write.perform caller w = (ok, w')) (result : InstructionResult) :
    Sound w { world := w', result, kept := if ok then write.events caller else [] } := by
  cases write with
  | transfer dst amount =>
    rw [perform_transfer] at hperform
    obtain ⟨rfl, rfl⟩ := Prod.mk.inj hperform
    exact (sound_transfer hw dst amount hcaller result).congr rfl (by simp [Write.events])
  | delegate validator amount =>
    have hrefused := sound_transfer hw stakingAddr amount hcaller result
    simp only [Write.perform] at hperform
    split at hperform
    · rename_i j h
      obtain ⟨rfl, rfl⟩ := Prod.mk.inj hperform
      exact sound_delegate hw hcaller h result
    · rename_i e j h
      obtain ⟨rfl, rfl⟩ := Prod.mk.inj hperform
      rw [h] at hrefused
      exact hrefused.congr rfl rfl
  | unbond validator amount =>
    simp only [Write.perform] at hperform
    split at hperform
    · -- a refused unbonding leaves every stake as it was
      rename_i e s h
      obtain ⟨rfl, rfl⟩ := Prod.mk.inj hperform
      have hstakes : stakes s = stakes w.staking := by
        funext pair
        exact getStake_unbond_error h pair.1 pair.2
      refine ⟨⟨hstakes ▸ hw.backed, le_rfl, fun d v => ?_⟩, .refl _⟩
      simp [delegatedFor, unbondedFor, getStake_unbond_error h]
    · rename_i s h
      obtain ⟨j, hj⟩ := unbond_pays hw (getStake_unbond_ok h).1
      rw [hj] at hperform
      obtain ⟨rfl, rfl⟩ := Prod.mk.inj hperform
      exact sound_unbond hw hcaller h hj result

/-! ## Frames -/

/-- Neither the executing account nor its caller is `STAKING_ADDR`. -/
def FrameCtx.Plain (ctx : FrameCtx) : Prop :=
  ctx.caller ≠ stakingAddr ∧ ctx.executing ≠ stakingAddr

theorem CallOp.inputs_caller_ne {ctx : FrameCtx} (h : ctx.Plain) (op : CallOp) :
    (op.inputs ctx).caller ≠ stakingAddr := by
  cases hs : op.scheme <;> simp only [CallOp.inputs, hs] <;> first | exact h.1 | exact h.2

/-- Code never runs as `STAKING_ADDR`: a call there is the precompile's. -/
theorem CallOp.inputs_target_ne {ctx : FrameCtx} (h : ctx.Plain) {op : CallOp}
    (haddr : op.address ≠ stakingAddr) : (op.inputs ctx).targetAddress ≠ stakingAddr := by
  cases hs : op.scheme <;> simp only [CallOp.inputs, hs] <;> first | exact haddr | exact h.2

theorem settle_rolledBack {checkpoint : Nat} {r : FrameRun} {e : StakeEvent}
    (h : e ∈ r.rolledBack) : e ∈ (r.settle checkpoint).rolledBack := by
  unfold FrameRun.settle
  split
  · exact h
  · exact List.mem_append_left _ h

/-- The end of a frame: a failing one gives the journal back and, having
kept nothing that moved stake, leaves every stake as it was. -/
theorem sound_settle {w : World} {r : FrameRun} (hw : Solvent w) (h : Sound w r)
    (hzero : ∀ e ∈ (r.settle w.journal.entries.length).rolledBack, e.IsZero) :
    Sound w (r.settle w.journal.entries.length) := by
  unfold FrameRun.settle at hzero ⊢
  split
  · exact h
  · rename_i hfailed
    rw [if_neg hfailed] at hzero
    have hsame : ∀ d v, r.world.staking.getStake d v = w.staking.getStake d v := by
      intro d v
      obtain ⟨hdel, hunb⟩ := events_zero
        (fun e he => hzero e (List.mem_append_right _ he)) d v
      have := h.accounts d v
      exact BitVec.eq_of_toNat_eq (by omega)
    have hstakes : stakes r.world.staking = stakes w.staking := by
      funext pair
      exact hsame pair.1 pair.2
    simp only [h.restores.revertTo]
    refine ⟨⟨hstakes ▸ hw.backed, le_rfl, fun d v => ?_⟩, .refl _⟩
    simp [hsame, delegatedFor, unbondedFor]

theorem sound_andThen {w : World} {r r' : FrameRun} (h : Sound w r) (h' : Sound r.world r') :
    Sound w (r.andThen r') where
  backed := h'.backed
  supply := h'.supply.trans h.supply
  restores := h.restores.trans h'.restores
  accounts d v := by
    have h1 := h.accounts d v
    have h2 := h'.accounts d v
    simp only [FrameRun.andThen, delegatedFor_append, unbondedFor_append]
    omega

/-- Moving the value of a call. -/
theorem sound_moveValue {w : World} (hw : Solvent w) {inputs : CallInputs}
    (hcaller : inputs.caller ≠ stakingAddr) (result : InstructionResult) :
    Sound w { world := { w with journal := (moveValue w.journal inputs).2 }, result } := by
  unfold moveValue
  split
  · exact sound_transfer hw _ _ hcaller result
  · exact sound_unchanged hw result []

/-- A run from the world in which the value has moved, seen from the frame's
start. -/
theorem sound_of_moved {w w' : World} {r : FrameRun} {result : InstructionResult}
    (hmoved : Sound w { world := w', result }) (hstaking : w'.staking = w.staking)
    (h : Sound w' r) : Sound w r where
  backed := h.backed
  supply := h.supply.trans hmoved.supply
  restores := hmoved.restores.trans h.restores
  accounts := hstaking ▸ h.accounts

theorem sound_callFrame {p : HotmintPrecompiles} {ctx : FrameCtx} {w : World} {op : CallOp}
    {callee : FrameCtx → World → FrameRun} (hw : Solvent w) (hctx : ctx.Plain)
    (hcallee : ∀ ctx' w', FrameCtx.Plain ctx' → Solvent w' →
      (∀ e ∈ (callee ctx' w').rolledBack, e.IsZero) → Sound w' (callee ctx' w'))
    (hzero : ∀ e ∈ (callFrame p ctx w op callee).rolledBack, e.IsZero) :
    Sound w (callFrame p ctx w op callee) := by
  have hcaller := CallOp.inputs_caller_ne hctx op
  unfold callFrame at hzero ⊢
  refine sound_settle hw ?_ hzero
  cases hmove : moveValue w.journal (op.inputs ctx) with
  | mk error j =>
  have hmoved : Sound w { world := { w with journal := j }, result := .stop } := by
    have := sound_moveValue hw hcaller .stop
    rwa [hmove] at this
  cases error with
  | some e => exact hmoved.congr rfl rfl
  | none =>
    simp only [hmove] at hzero ⊢
    have hbefore : Solvent { w with journal := j } := hmoved.solvent hw
    refine sound_of_moved hmoved rfl ?_
    split
    · -- the provider ran the call
      rename_i result after hrun
      have hperf := run_performs hrun
      unfold Performs at hperf
      unfold stakeEvents
      split at hperf
      · rename_i hnone
        simp only [hnone]
        obtain rfl : after = _ := hperf
        exact sound_unchanged hbefore _ _
      · rename_i write hsome
        simp only [hsome]
        exact (sound_perform hbefore hcaller write hperf.symm result.result).congr rfl rfl
    · rename_i after hrun
      obtain ⟨haddr, rfl⟩ := run_none_address hrun
      rw [hrun] at hzero
      exact hcallee _ _ ⟨hcaller, CallOp.inputs_target_ne hctx haddr⟩ hbefore
        fun e he => hzero e (settle_rolledBack he)
    · rename_i after hrun
      obtain rfl := run_error_world hrun
      exact sound_unchanged hbefore _ []

/-- SELFDESTRUCT of an account other than `STAKING_ADDR`. -/
theorem sound_destroy {w : World} (hw : Solvent w) {a : Address} (ha : a ≠ stakingAddr)
    (target : Address) (dies : Bool) (result : InstructionResult) :
    Sound w { world := { w with journal := destroy w.journal a target dies }, result } := by
  have hbacked := hw.backed
  have hsupply := hw.supply
  unfold destroy
  split
  · split
    · have hburn := total_burn w.journal a
      refine ⟨⟨?_, ?_, fun d v => by simp [delegatedFor, unbondedFor]⟩, restores_burn _ a⟩
      · simp only [World.balances, Journal.burn] at hbacked ⊢
        rwa [Function.update_of_ne ha.symm]
      · simp only [World.balances]
        omega
    · exact sound_unchanged hw result []
  · rename_i hne
    have hsum := add_le_total w.balances hne
    have hfits : (w.journal.balances target).toNat + (w.journal.balances a).toNat < 2 ^ 256 := by
      simp only [World.balances] at hsum hsupply
      omega
    refine ⟨⟨?_, (total_move (Ne.symm hne) (BitVec.le_refl _) hfits).le,
      fun d v => by simp [delegatedFor, unbondedFor]⟩, restores_move (Ne.symm hne) _ _⟩
    simp only [World.balances] at hbacked ⊢
    by_cases ht : target = stakingAddr
    · subst ht
      rw [move_dst, BitVec.toNat_add, Nat.mod_eq_of_lt hfits]
      omega
    · rwa [move_other ha.symm (Ne.symm ht)]

/-- Every frame of a solvent world is sound, as long as nothing that moved
stake is rolled back. -/
theorem sound_exec (p : HotmintPrecompiles) (code : Code) (ctx : FrameCtx) (w : World)
    (hw : Solvent w) (hctx : ctx.Plain)
    (hzero : ∀ e ∈ (exec p ctx w code).rolledBack, e.IsZero) :
    Sound w (exec p ctx w code) := by
  induction code generalizing ctx w with
  | done result => exact sound_unchanged hw result []
  | call op callee rest ihcallee ihrest =>
    unfold exec at hzero ⊢
    split at hzero
    · rename_i hstatic
      rw [if_pos hstatic]
      exact sound_unchanged hw _ []
    · rename_i hstatic
      rw [if_neg hstatic]
      simp only [FrameRun.andThen, List.mem_append] at hzero
      have hcall := sound_callFrame hw hctx (fun ctx' w' hctx' hw' => ihcallee ctx' w' hw' hctx')
        fun e he => hzero e (.inl he)
      exact sound_andThen hcall (ihrest ctx _ (hcall.solvent hw) hctx fun e he => hzero e (.inr he))
  | selfDestruct target dies =>
    unfold exec
    split
    · exact sound_unchanged hw _ []
    · exact sound_destroy hw hctx.2 target dies _

/-! ## Transactions -/

/-- A credit that fits the supply adds exactly the amount. -/
theorem credit_total {b : Address → U256} (a : Address) (amount : U256)
    (h : total b + amount.toNat < 2 ^ 256) :
    total (credit b a amount) = total b + amount.toNat ∧
      ∀ a', (b a').toNat ≤ (credit b a amount a').toNat := by
  have hle := le_total b a
  have hadd : (b a + amount).toNat = (b a).toNat + amount.toNat := by
    rw [BitVec.toNat_add, Nat.mod_eq_of_lt (by omega)]
  have hupd := total_update b a (b a + amount)
  rw [hadd] at hupd
  refine ⟨by unfold credit; omega, fun a' => ?_⟩
  unfold credit
  rw [Function.update_apply]
  split
  · rename_i heq
    rw [heq, hadd]
    omega
  · exact le_rfl

/-- A whole transaction. It ends with an empty log, so only its books can be
compared. -/
theorem booked_execTx {p : HotmintPrecompiles} {w : World} {tx : SignedTx} (hw : Solvent w)
    (hzero : ∀ e ∈ (execTx p w tx.toTx).rolledBack, e.IsZero) :
    Booked w (execTx p w tx.toTx) := by
  unfold execTx at hzero ⊢
  split
  · exact ⟨hw.backed, le_rfl, fun _ _ => by simp [delegatedFor, unbondedFor]⟩
  · rename_i hpays
    rw [if_neg hpays] at hzero
    rw [BitVec.lt_def] at hpays
    have hsupply := hw.supply
    have hfees := tx.fees
    -- the fee is taken from the sender and leaves the supply for now
    have htotal : total (w.charge tx.toTx).balances + tx.upfront.toNat = total w.balances := by
      have := total_update w.balances tx.sender (w.balances tx.sender - tx.upfront)
      rw [BitVec.toNat_sub_of_le (BitVec.le_def.mpr (by omega))] at this
      simp only [World.charge, World.balances_mk]
      omega
    have hsolvent : Solvent (w.charge tx.toTx) := by
      refine ⟨?_, by omega⟩
      simp only [World.charge, World.balances_mk]
      rw [Function.update_of_ne tx.sender_ne.symm]
      exact hw.backed
    have hcall := sound_callFrame hsolvent ⟨tx.sender_ne, tx.sender_ne⟩
      (fun ctx' w' hctx' hw' => sound_exec p tx.code ctx' w' hw' hctx') hzero
    set r := callFrame p tx.ctx (w.charge tx.toTx) tx.op fun ctx w => exec p ctx w tx.code
    have hcallSupply := hcall.supply
    obtain ⟨hrefund, hge⟩ := credit_total (b := r.world.balances) tx.sender tx.refund (by omega)
    obtain ⟨hreward, hge'⟩ := credit_total (b := credit r.world.balances tx.sender tx.refund)
      tx.beneficiary tx.reward (by omega)
    exact ⟨hcall.backed.trans ((hge stakingAddr).trans (hge' stakingAddr)), by
      simp only [World.balances_mk]; omega, hcall.accounts⟩

/-! ## Runs -/

/-- A chain of committed transactions: the world, and the stake events of
all frames that were not rolled back. -/
structure Chain where
  world : World
  kept : List StakeEvent := []

/-- Commit one transaction. -/
def Chain.commit (p : HotmintPrecompiles) (c : Chain) (tx : SignedTx) : Chain where
  world := (execTx p c.world tx.toTx).world
  kept := c.kept ++ (execTx p c.world tx.toTx).kept

/-- The world a genesis allocates. -/
def World.ofGenesis (genesis : EvmGenesis) : World where
  journal := { balances := fun a => ((genesis.alloc[a]?).map (·.balance)).getD 0 }
  staking := .new

/-- No failing frame of the transaction encloses a `delegate` or `unbond`
of a nonzero amount that the precompile carried out. -/
def RollsBackNoStake (p : HotmintPrecompiles) (c : Chain) (tx : SignedTx) : Prop :=
  ∀ e ∈ (execTx p c.world tx.toTx).rolledBack, e.IsZero

/-- The invariant of a chain. -/
structure Balanced (c : Chain) : Prop where
  solvent : Solvent c.world
  accounts : ∀ d v, (c.world.staking.getStake d v).toNat + unbondedFor d v c.kept
    = delegatedFor d v c.kept

theorem balanced_commit {p : HotmintPrecompiles} (c : Chain) (tx : SignedTx) (h : Balanced c)
    (hzero : RollsBackNoStake p c tx) : Balanced (c.commit p tx) := by
  have hbooked := booked_execTx h.solvent hzero
  refine ⟨hbooked.solvent h.solvent, fun d v => ?_⟩
  have h1 := h.accounts d v
  have h2 := hbooked.accounts d v
  simp only [Chain.commit, delegatedFor_append, unbondedFor_append]
  omega

theorem balanced_ofGenesis {genesis : EvmGenesis}
    (hsupply : total (World.ofGenesis genesis).balances < 2 ^ 256) :
    Balanced { world := World.ofGenesis genesis } := by
  have hzero : ∀ d v, StakingState.new.getStake d v = 0 := by
    intro d v
    simp [StakingState.getStake, StakingState.new]
  have hstakes : stakes StakingState.new = fun _ => 0 := by
    funext pair
    exact hzero pair.1 pair.2
  refine ⟨⟨?_, hsupply⟩, fun d v => ?_⟩
  · simp only [World.ofGenesis]
    rw [hstakes, total_zero]
    exact Nat.zero_le _
  · simp [World.ofGenesis, hzero, delegatedFor, unbondedFor]

/-- **Ledger and tokens stay together.** Over every run of transactions
from any genesis in which nothing staked is rolled back: each stake is
what was delegated minus what was unbonded, and the stakes together are
backed by the balance of `STAKING_ADDR`. -/
theorem ledger_balanced (p : HotmintPrecompiles) (genesis : EvmGenesis) (txs : List SignedTx)
    (hsupply : total (World.ofGenesis genesis).balances < 2 ^ 256)
    (hrun : StepsMeet (Chain.commit p) (RollsBackNoStake p)
      { world := World.ofGenesis genesis } txs) :
    let c := txs.foldl (Chain.commit p) { world := World.ofGenesis genesis }
    (∀ d v, ((c.world.staking.getStake d v).toNat : Int)
        = delegatedFor d v c.kept - unbondedFor d v c.kept) ∧
      ∑ pair : Address × Address, (c.world.staking.getStake pair.1 pair.2).toNat
        ≤ (c.world.balances stakingAddr).toNat := by
  have hinv := run_invariant Balanced balanced_commit txs _ (balanced_ofGenesis hsupply) hrun
  refine ⟨fun d v => ?_, ?_⟩
  · have := hinv.accounts d v
    omega
  · have := hinv.solvent.backed
    unfold total stakes at this
    exact this

/-! ### One delegation, kept and rolled back -/

/-- `0xa1` and `0xc0` hold 1000 each. -/
def stakingGenesis : EvmGenesis where
  chainId := 1337
  alloc := ((∅ : FMap Address GenesisAlloc).insert 0xa1 { balance := 1000 }).insert 0xc0
    { balance := 1000 }

theorem stakingGenesis_supply : total (World.ofGenesis stakingGenesis).balances < 2 ^ 256 := by
  have hbal : (World.ofGenesis stakingGenesis).balances
      = Function.update (Function.update (fun _ => 0) 0xa1 1000) 0xc0 1000 := by
    funext a
    simp only [World.ofGenesis, World.balances_mk, stakingGenesis, Function.update_apply]
    rw [FMap.get_insert, FMap.get_insert]
    by_cases h1 : (0xc0 : Address) = a
    · simp [← h1]
    · by_cases h2 : (0xa1 : Address) = a
      · simp [← h2]
      · rw [if_neg h1, if_neg h2, if_neg (Ne.symm h1), if_neg (Ne.symm h2)]
        rfl
  rw [hbal]
  exact lt_of_le_of_lt (total_two_le 0xa1 0xc0 1000 1000) (by decide)

/-- The contract at `0xc0` delegates 100 to `0x11` and then ends. -/
def delegateThen (ending : InstructionResult) : SignedTx where
  toTx := callContract (.call (plainCall .call stakingAddr (calldata selDelegate 0x11 100))
    (.done .stop) (.done ending))
  sender_ne := by simp only [callContract]; decide
  topLevel := rfl
  fees := by simp only [callContract]; decide

def keptChain : Chain :=
  [delegateThen .stop].foldl (Chain.commit bareProvider)
    { world := World.ofGenesis stakingGenesis }

theorem kept_delegation :
    StepsMeet (Chain.commit bareProvider) (RollsBackNoStake bareProvider)
        { world := World.ofGenesis stakingGenesis } [delegateThen .stop] ∧
      keptChain.world.staking.getStake 0xc0 0x11 = 100 ∧
      ∑ pair : Address × Address, (keptChain.world.staking.getStake pair.1 pair.2).toNat
        ≤ (keptChain.world.balances stakingAddr).toNat := by
  have hrun : StepsMeet (Chain.commit bareProvider) (RollsBackNoStake bareProvider)
      { world := World.ofGenesis stakingGenesis } [delegateThen .stop] := by
    refine ⟨?_, trivial⟩
    unfold RollsBackNoStake
    decide +kernel
  exact ⟨hrun, by decide +kernel,
    (ledger_balanced bareProvider stakingGenesis _ stakingGenesis_supply hrun).2⟩

def lostChain : Chain :=
  [delegateThen .revert].foldl (Chain.commit bareProvider)
    { world := World.ofGenesis stakingGenesis }

theorem lost_delegation :
    total (World.ofGenesis stakingGenesis).balances < 2 ^ 256 ∧
      (¬ ∀ d v, ((lostChain.world.staking.getStake d v).toNat : Int)
          = delegatedFor d v lostChain.kept - unbondedFor d v lostChain.kept) ∧
      ¬ ∑ pair : Address × Address, (lostChain.world.staking.getStake pair.1 pair.2).toNat
          ≤ (lostChain.world.balances stakingAddr).toNat := by
  refine ⟨stakingGenesis_supply, fun h => ?_, fun h => ?_⟩
  · have := h 0xc0 0x11
    revert this
    decide +kernel
  · have hbound := (stake_le_sum lostChain.world.staking 0xc0 0x11).trans h
    revert hbound
    decide +kernel

end Nbnet.Precompile
