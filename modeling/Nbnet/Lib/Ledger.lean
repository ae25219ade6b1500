/-
Nbnet.Lib.Ledger — balances in machine words and what they add up to.

A ledger is a function from accounts to words. Over a finite type of
accounts its `total` is a natural number, and one account or a column of
accounts is bounded by it.
-/
import Mathlib.Algebra.BigOperators.Ring.Finset
import Mathlib.Algebra.Order.BigOperators.Group.Finset
import Mathlib.Data.Fintype.BigOperators
import Mathlib.Tactic.Common

namespace Nbnet.Lib

variable {A : Type} [DecidableEq A] [Fintype A] {w : Nat}

/-- Everything held. Irreducible: nothing should ever try to enumerate the
accounts. -/
@[irreducible] def total (b : A → BitVec w) : Nat := ∑ a, (b a).toNat

theorem total_update (b : A → BitVec w) (a : A) (x : BitVec w) :
    total (Function.update b a x) + (b a).toNat = total b + x.toNat := by
  have hcell : (fun a' => (Function.update b a x a').toNat)
      = Function.update (fun a' => (b a').toNat) a x.toNat :=
    Function.comp_update BitVec.toNat b a x
  have hold :=
    Finset.sum_eq_add_sum_sdiff_singleton_of_mem (Finset.mem_univ a) fun a' => (b a').toNat
  simp only [total]
  rw [hcell, Finset.sum_update_of_mem (Finset.mem_univ a)]
  omega

omit [DecidableEq A] in
theorem total_zero : total (fun _ : A => (0 : BitVec w)) = 0 := by
  unfold total
  exact Finset.sum_eq_zero fun _ _ => by simp

/-- A ledger with two funded accounts. -/
theorem total_two_le (a a' : A) (x x' : BitVec w) :
    total (Function.update (Function.update (fun _ => 0) a x) a' x') ≤ x.toNat + x'.toNat := by
  have h0 := total_zero (A := A) (w := w)
  have h1 := total_update (fun _ => 0) a x
  have h2 := total_update (Function.update (fun _ => 0) a x) a' x'
  omega

omit [DecidableEq A] in
theorem le_total (b : A → BitVec w) (a : A) : (b a).toNat ≤ total b := by
  unfold total
  exact Finset.single_le_sum (f := fun a => (b a).toNat) (fun _ _ => Nat.zero_le _)
    (Finset.mem_univ a)

omit [DecidableEq A] in
/-- A column of a table of words. -/
theorem column_le_total {B : Type} [DecidableEq B] [Fintype B] (b : A × B → BitVec w) (y : B) :
    ∑ x : A, (b (x, y)).toNat ≤ total b := by
  unfold total
  rw [Fintype.sum_prod_type]
  exact Finset.sum_le_sum fun x _ => Finset.single_le_sum (f := fun y => (b (x, y)).toNat)
    (fun _ _ => Nat.zero_le _) (Finset.mem_univ y)

theorem add_le_total (b : A → BitVec w) {a a' : A} (h : a ≠ a') :
    (b a).toNat + (b a').toNat ≤ total b := by
  have hzero := total_update b a 0
  have hle := le_total (Function.update b a 0) a'
  rw [Function.update_of_ne h.symm] at hle
  have : (0 : BitVec w).toNat = 0 := by simp
  omega

end Nbnet.Lib
