/-
Nbnet.Lib.Words — saturating arithmetic on machine words.

Plain `+`, `-` and `*` on `UInt64` and `BitVec w` wrap, as a release build
does. The saturating forms clamp at the ends of the range instead; each
one comes with its value as a natural number, which is the form every
bound is proved in.
-/
import Mathlib.Algebra.Ring.Nat
import Mathlib.Tactic.Common

namespace Nbnet.Lib

/-- The order of words is that of their values. -/
theorem compare_lt_iff (a b : UInt64) : compare a b = .lt ↔ a.toNat < b.toNat := by
  rw [Std.compare_eq_lt, UInt64.lt_iff_toNat_lt]

/-- The least common upper bound of a sum and the largest `UInt64`. -/
def satAdd64 (a b : UInt64) : UInt64 :=
  UInt64.ofNat (min (a.toNat + b.toNat) (2 ^ 64 - 1))

/-- Subtraction that stops at zero. -/
def satSub64 (a b : UInt64) : UInt64 :=
  UInt64.ofNat (a.toNat - b.toNat)

/-- Multiplication that stops at the largest `UInt64`. -/
def satMul64 (a b : UInt64) : UInt64 :=
  UInt64.ofNat (min (a.toNat * b.toNat) (2 ^ 64 - 1))

@[simp] theorem satAdd64_toNat (a b : UInt64) :
    (satAdd64 a b).toNat = min (a.toNat + b.toNat) (2 ^ 64 - 1) := by
  rw [satAdd64, UInt64.toNat_ofNat']
  omega

@[simp] theorem satSub64_toNat (a b : UInt64) :
    (satSub64 a b).toNat = a.toNat - b.toNat := by
  rw [satSub64, UInt64.toNat_ofNat']
  have := a.toNat_lt
  omega

@[simp] theorem satMul64_toNat (a b : UInt64) :
    (satMul64 a b).toNat = min (a.toNat * b.toNat) (2 ^ 64 - 1) := by
  rw [satMul64, UInt64.toNat_ofNat']
  omega

variable {w : Nat}

/-- Addition that stops at the largest `w`-bit word. -/
def satAdd (a b : BitVec w) : BitVec w :=
  BitVec.ofNat w (min (a.toNat + b.toNat) (2 ^ w - 1))

/-- Subtraction that stops at zero. -/
def satSub (a b : BitVec w) : BitVec w :=
  BitVec.ofNat w (a.toNat - b.toNat)

@[simp] theorem satAdd_toNat (a b : BitVec w) :
    (satAdd a b).toNat = min (a.toNat + b.toNat) (2 ^ w - 1) := by
  have := Nat.two_pow_pos w
  rw [satAdd, BitVec.toNat_ofNat, Nat.mod_eq_of_lt]
  omega

@[simp] theorem satSub_toNat (a b : BitVec w) :
    (satSub a b).toNat = a.toNat - b.toNat := by
  have := a.isLt
  rw [satSub, BitVec.toNat_ofNat, Nat.mod_eq_of_lt]
  omega

/-- A saturating sum clamps once. -/
theorem foldl_satAdd {α : Type*} (f : α → BitVec w) (l : List α) (acc : BitVec w) :
    (l.foldl (fun acc x => satAdd acc (f x)) acc).toNat
      = min (acc.toNat + (l.map fun x => (f x).toNat).sum) (2 ^ w - 1) := by
  induction l generalizing acc with
  | nil =>
    have := acc.isLt
    simp
    omega
  | cons x l ih =>
    rw [List.foldl_cons, ih, satAdd_toNat, List.map_cons, List.sum_cons]
    omega

theorem toNat_ofNat64 {n : Nat} (h : n < 2 ^ 64) : (UInt64.ofNat n).toNat = n := by
  rw [UInt64.toNat_ofNat', Nat.mod_eq_of_lt h]

/-- A sum that does not wrap is compared by its value. -/
theorem add64_gt_iff {a b m : UInt64} (h : a.toNat + b.toNat < 2 ^ 64) :
    a + b > m ↔ a.toNat + b.toNat > m.toNat := by
  rw [gt_iff_lt, UInt64.lt_iff_toNat_lt, UInt64.toNat_add, Nat.mod_eq_of_lt h]

/-- A sum that wraps is below a bound that its first term is within: it is
`2 ^ 64` less than the exact one. -/
theorem not_add64_gt_of_wrap {a b m : UInt64} (ha : a.toNat ≤ m.toNat)
    (h : ¬ a.toNat + b.toNat < 2 ^ 64) : ¬ a + b > m := by
  have hb := b.toNat_lt
  rw [gt_iff_lt, UInt64.lt_iff_toNat_lt, UInt64.toNat_add]
  omega

/-- The successor of a `UInt64`, wrapping at the top. -/
theorem toNat_succ64 (n : UInt64) (h : n.toNat + 1 < 2 ^ 64) : (n + 1).toNat = n.toNat + 1 := by
  rw [UInt64.toNat_add, UInt64.toNat_one]
  exact Nat.mod_eq_of_lt h

theorem succ64_top {n : UInt64} (h : n.toNat + 1 = 2 ^ 64) : n + 1 = 0 := by
  apply UInt64.toNat_inj.mp
  rw [UInt64.toNat_add, UInt64.toNat_one, h]
  rfl

end Nbnet.Lib
