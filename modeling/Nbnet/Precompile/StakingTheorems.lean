/-
Nbnet.Precompile.StakingTheorems — the staking ledger over a whole
history of calls.

A history is a list of `delegate` and `unbond` calls. What a pair put in
can be read off the list; what it got back depends on the ledger each
`unbond` met, so `unbondedIn` follows the run. One call moves a stake by
exactly what it puts in or pays out, except that an addition saturates
(`apply_stake`); the bound over a history is the sum of these.
-/
import Nbnet.Precompile.WriteTheorems
import Mathlib.Data.FinEnum

namespace Nbnet.Precompile

open Lib

/-! ## Histories -/

/-- A call of the ledger. -/
inductive StakeOp where
  | delegate (delegator validator : Address) (amount : U256)
  | unbond (delegator validator : Address) (amount : U256)
  deriving DecidableEq, Repr

/-- The pair a call is for. -/
def StakeOp.pair : StakeOp → Address × Address
  | .delegate d v _ => (d, v)
  | .unbond d v _ => (d, v)

/-- The ledger after a call. -/
def StakingState.apply (s : StakingState) : StakeOp → StakingState
  | .delegate d v amount => s.delegate d v amount
  | .unbond d v amount => (s.unbond d v amount).2

/-- What a call puts in for a pair. -/
def StakeOp.putIn (pair : Address × Address) : StakeOp → Nat
  | .delegate d v amount => if (d, v) = pair then amount.toNat else 0
  | .unbond _ _ _ => 0

/-- What a call pays out to a pair: the amount of an `unbond` that
succeeds. -/
def StakeOp.paidOut (s : StakingState) (pair : Address × Address) : StakeOp → Nat
  | .delegate _ _ _ => 0
  | .unbond d v amount =>
      if (d, v) = pair ∧ (s.unbond d v amount).1.isOk = true then amount.toNat else 0

/-- All delegations of a pair. -/
def delegatedIn (pair : Address × Address) (ops : List StakeOp) : Nat :=
  (ops.map (StakeOp.putIn pair)).sum

/-- All successful unbondings of a pair, in a run from `s`. -/
def unbondedIn (pair : Address × Address) : StakingState → List StakeOp → Nat
  | _, [] => 0
  | s, op :: ops => op.paidOut s pair + unbondedIn pair (s.apply op) ops

/-! ## One call -/

/-- A call for another pair leaves a stake alone. -/
theorem getStake_apply_of_ne {op : StakeOp} {d v : Address} (h : op.pair ≠ (d, v))
    (s : StakingState) : (s.apply op).getStake d v = s.getStake d v := by
  cases op with
  | delegate d' v' amount =>
    simp only [StakingState.apply]
    rw [getStake_delegate, if_neg (show (d', v') ≠ (d, v) from h)]
  | unbond d' v' amount =>
    simp only [StakingState.apply]
    rcases unbond_cases s d' v' amount with ⟨e, s', hs, -⟩ | ⟨s', hs, -⟩
    · rw [hs]
      exact getStake_unbond_error hs d v
    · rw [hs, (getStake_unbond_ok hs).2, if_neg (show (d', v') ≠ (d, v) from h)]

/-- A failing `unbond` leaves every stake alone. -/
theorem getStake_unbond_failed {s : StakingState} {d v : Address} {amount : U256}
    (h : (s.unbond d v amount).1.isOk = false) (d' v' : Address) :
    (s.unbond d v amount).2.getStake d' v' = s.getStake d' v' := by
  rcases unbond_cases s d v amount with ⟨e, s', hs, -⟩ | ⟨s', hs, -⟩
  · rw [hs]
    exact getStake_unbond_error hs d' v'
  · rw [hs] at h
    cases h

/-- What is left after a call, with what it paid out, is what was there and
what was put in, up to the largest word. -/
theorem apply_stake (s : StakingState) (op : StakeOp) (d v : Address) :
    ((s.apply op).getStake d v).toNat + op.paidOut s (d, v)
      = min ((s.getStake d v).toNat + op.putIn (d, v)) (2 ^ 256 - 1) := by
  have hbound := (s.getStake d v).isLt
  cases op with
  | delegate d' v' amount =>
    simp only [StakingState.apply, StakeOp.paidOut, StakeOp.putIn]
    rw [getStake_delegate]
    split
    · rename_i heq
      obtain ⟨rfl, rfl⟩ := Prod.mk.inj heq
      rw [satAdd_toNat]
      omega
    · omega
  | unbond d' v' amount =>
    simp only [StakingState.apply, StakeOp.paidOut, StakeOp.putIn]
    rcases unbond_cases s d' v' amount with ⟨e, s', hs, -⟩ | ⟨s', hs, -⟩
    · simp only [hs, getStake_unbond_error hs, Except.isOk, Except.toBool, Bool.false_eq_true,
        and_false, if_false]
      omega
    · obtain ⟨hle, hget⟩ := getStake_unbond_ok hs
      simp only [hs, hget, Except.isOk, Except.toBool, and_true]
      split
      · rename_i heq
        obtain ⟨rfl, rfl⟩ := Prod.mk.inj heq
        rw [satSub_toNat]
        omega
      · omega

/-! ## A history -/

/-- What is left, with everything paid out, was there or was put in. -/
theorem history_stake_le (ops : List StakeOp) (s : StakingState) (d v : Address) :
    ((ops.foldl StakingState.apply s).getStake d v).toNat + unbondedIn (d, v) s ops
      ≤ (s.getStake d v).toNat + delegatedIn (d, v) ops := by
  induction ops generalizing s with
  | nil => simp [unbondedIn, delegatedIn]
  | cons op ops ih =>
    have hstep := apply_stake s op d v
    have hrest := ih (s.apply op)
    simp only [List.foldl_cons, unbondedIn, delegatedIn, List.map_cons, List.sum_cons] at hrest ⊢
    omega

/-- Nothing is lost where everything put in fits a word. -/
theorem history_stake_eq (ops : List StakeOp) (s : StakingState) (d v : Address)
    (hfits : (s.getStake d v).toNat + delegatedIn (d, v) ops < 2 ^ 256) :
    ((ops.foldl StakingState.apply s).getStake d v).toNat + unbondedIn (d, v) s ops
      = (s.getStake d v).toNat + delegatedIn (d, v) ops := by
  induction ops generalizing s with
  | nil => simp [unbondedIn, delegatedIn]
  | cons op ops ih =>
    have hstep := apply_stake s op d v
    simp only [List.foldl_cons, unbondedIn, delegatedIn, List.map_cons, List.sum_cons]
      at hfits ih ⊢
    have hrest := ih (s.apply op) (by omega)
    omega

/-! ## The total of a validator -/

/-- The delegators of a validator, as a walk over the table meets them. -/
theorem delegators_sum (it : IterOrder (Address × Address) U256) (s : StakingState)
    (v : Address) :
    (((it.order s.delegations).filter fun p => p.2 = v).map
        fun p => (s.getStake p.1 p.2).toNat).sum
      = ∑ d : Address, (s.getStake d v).toNat := by
  have hnodup := (it.nodup s.delegations).filter fun p => p.2 = v
  have hfst : (((it.order s.delegations).filter fun p => p.2 = v).map Prod.fst).Nodup := by
    refine hnodup.map_on fun p hp q hq heq => Prod.ext heq ?_
    simp only [List.mem_filter, decide_eq_true_eq] at hp hq
    rw [hp.2, hq.2]
  have hmap : ((it.order s.delegations).filter fun p => p.2 = v).map
        (fun p => (s.getStake p.1 p.2).toNat)
      = (((it.order s.delegations).filter fun p => p.2 = v).map Prod.fst).map
        fun d => (s.getStake d v).toNat := by
    rw [List.map_map]
    refine List.map_congr_left fun p hp => ?_
    simp only [List.mem_filter, decide_eq_true_eq] at hp
    simp only [Function.comp, hp.2]
  rw [hmap, ← List.sum_toFinset _ hfst]
  refine Finset.sum_subset (Finset.subset_univ _) fun d _ hd => ?_
  -- a delegator the walk does not meet has no record
  have hnone : s.delegations[(d, v)]? = none := by
    by_contra hsome
    refine hd (List.mem_toFinset.mpr (List.mem_map.mpr ⟨(d, v), ?_, rfl⟩))
    rw [List.mem_filter, it.mem_order]
    exact ⟨Option.isSome_iff_ne_none.mpr hsome, by simp⟩
  rw [StakingState.getStake, hnone]
  rfl

/-- The total is the sum of the stakes, clamped once. -/
theorem toNat_totalStake (it : IterOrder (Address × Address) U256) (s : StakingState)
    (v : Address) :
    (s.totalStake it v).toNat = min (∑ d : Address, (s.getStake d v).toNat) (2 ^ 256 - 1) := by
  have hzero : (0 : U256).toNat = 0 := rfl
  rw [StakingState.totalStake, foldl_satAdd, delegators_sum, hzero, Nat.zero_add]

/-! ## Every history -/

/-- The accounts of the ledger after a history from the empty one. -/
structure PaysWhatItTook (ops : List StakeOp) (s : StakingState) : Prop where
  /-- No pair gets back more than it put in. -/
  unbonded_le : ∀ d v, unbondedIn (d, v) .new ops ≤ delegatedIn (d, v) ops
  stake_le : ∀ d v,
    (s.getStake d v).toNat ≤ delegatedIn (d, v) ops - unbondedIn (d, v) .new ops
  stake_eq : ∀ d v, delegatedIn (d, v) ops < 2 ^ 256 →
    (s.getStake d v).toNat = delegatedIn (d, v) ops - unbondedIn (d, v) .new ops
  /-- The next call: a failing `unbond` and a call for another pair. -/
  failed : ∀ d v amount, (s.unbond d v amount).1.isOk = false →
    ∀ d' v', (s.apply (.unbond d v amount)).getStake d' v' = s.getStake d' v'
  other : ∀ op d v, StakeOp.pair op ≠ (d, v) → (s.apply op).getStake d v = s.getStake d v
  total : ∀ (it : IterOrder (Address × Address) U256) v,
    (s.totalStake it v).toNat = min (∑ d : Address, (s.getStake d v).toNat) (2 ^ 256 - 1)

/-- **The ledger never pays out more than was put in**, after every history
of calls. -/
theorem ledger_pays_what_it_took (ops : List StakeOp) :
    PaysWhatItTook ops (ops.foldl StakingState.apply .new) := by
  have hnew : ∀ d v, (StakingState.new.getStake d v).toNat = 0 := by
    intro d v
    simp [StakingState.getStake, StakingState.new]
  have hle : ∀ d v, ((ops.foldl StakingState.apply .new).getStake d v).toNat
      + unbondedIn (d, v) .new ops ≤ delegatedIn (d, v) ops := by
    intro d v
    have := history_stake_le ops .new d v
    rwa [hnew, Nat.zero_add] at this
  refine ⟨fun d v => ?_, fun d v => ?_, fun d v hfits => ?_, fun d v amount => ?_,
    fun op d v hne => getStake_apply_of_ne hne _, fun it v => toNat_totalStake it _ v⟩
  · have := hle d v
    omega
  · have := hle d v
    omega
  · have := history_stake_eq ops .new d v (by rw [hnew]; omega)
    rw [hnew] at this
    omega
  · exact getStake_unbond_failed

end Nbnet.Precompile
