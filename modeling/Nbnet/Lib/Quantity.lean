/-
Nbnet.Lib.Quantity — numbers in hexadecimal, without zeros in front.

`Nat.toDigits 16` writes the digits of a number and `valueOfDigits` reads
digits as one. What is written is `Canonical`, and the two are inverse to
each other between numbers and canonical digits: each number has one
spelling.
-/
import Mathlib.Data.List.Induction
import Nbnet.Lib.Utf8

namespace Nbnet.Lib

/-- The number that digits stand for. -/
def valueOfDigits (ds : List Char) : Nat := ds.foldl (fun acc c => acc * 16 + digitOf c) 0

@[simp] theorem valueOfDigits_snoc (ds : List Char) (c : Char) :
    valueOfDigits (ds ++ [c]) = valueOfDigits ds * 16 + digitOf c := by
  simp [valueOfDigits]

/-- One digit, or the digits of a sixteenth and a last one. -/
theorem toDigits_induct {P : Nat → Prop} (hsmall : ∀ n < 16, P n)
    (hlarge : ∀ n, 16 ≤ n → P (n / 16) → P n) (n : Nat) : P n := by
  induction n using Nat.strongRecOn with
  | ind n ih =>
    by_cases h : n < 16
    · exact hsmall n h
    · exact hlarge n (not_lt.mp h) (ih (n / 16) (by omega))

theorem valueOfDigits_toDigits (n : Nat) : valueOfDigits (Nat.toDigits 16 n) = n := by
  induction n using toDigits_induct with
  | hsmall n h =>
    rw [Nat.toDigits_of_lt_base h]
    simp [valueOfDigits, (digitOf_digitChar n h).2]
  | hlarge n h ih =>
    rw [Nat.toDigits_of_base_le (by decide) h, valueOfDigits_snoc, ih,
      (digitOf_digitChar _ (Nat.mod_lt n (by decide))).2]
    omega

theorem toDigits_hexDigits (n : Nat) : ∀ c ∈ Nat.toDigits 16 n, c ∈ hexDigits := by
  induction n using toDigits_induct with
  | hsmall n h =>
    rw [Nat.toDigits_of_lt_base h]
    simpa using (digitOf_digitChar n h).1
  | hlarge n h ih =>
    rw [Nat.toDigits_of_base_le (by decide) h]
    intro c hc
    rcases List.mem_append.mp hc with hc | hc
    · exact ih c hc
    · rw [List.mem_singleton.mp hc]
      exact (digitOf_digitChar _ (Nat.mod_lt n (by decide))).1

theorem toDigits_injective {m n : Nat} (h : Nat.toDigits 16 m = Nat.toDigits 16 n) : m = n := by
  rw [← valueOfDigits_toDigits m, h, valueOfDigits_toDigits]

/-- The digits of a number: lower case, no zero in front of others. -/
structure Canonical (ds : List Char) : Prop where
  nonempty : ds ≠ []
  digits : ∀ c ∈ ds, c ∈ hexDigits ∧ c.toLower = c
  lead : ds.head? = some '0' → ds = ['0']

theorem digitChar_lower : ∀ d < 16, (Nat.digitChar d).toLower = Nat.digitChar d := by
  decide

theorem canonical_toDigits (n : Nat) : Canonical (Nat.toDigits 16 n) := by
  induction n using toDigits_induct with
  | hsmall n h =>
    rw [Nat.toDigits_of_lt_base h]
    refine ⟨by simp, ?_, by simp⟩
    simpa using ⟨(digitOf_digitChar n h).1, digitChar_lower n h⟩
  | hlarge n h ih =>
    have hlast := Nat.mod_lt n (show 16 > 0 by decide)
    rw [Nat.toDigits_of_base_le (by decide) h]
    refine ⟨by simp, fun c hc => ?_, fun hhead => ?_⟩
    · rcases List.mem_append.mp hc with hc | hc
      · exact ih.digits c hc
      · rw [List.mem_singleton.mp hc]
        exact ⟨(digitOf_digitChar _ hlast).1, digitChar_lower _ hlast⟩
    · -- a leading zero would be the whole of a sixteenth that is not zero
      have hfront : (Nat.toDigits 16 (n / 16)).head? = some '0' := by
        rwa [List.head?_append_of_ne_nil _ ih.nonempty] at hhead
      have hzero := congrArg valueOfDigits (ih.lead hfront)
      rw [valueOfDigits_toDigits] at hzero
      have : n / 16 = 0 := hzero
      omega

/-- Digits that do not begin with a zero stand for a positive number. -/
theorem valueOfDigits_pos {ds : List Char} (h : ∀ c ∈ ds, c ∈ hexDigits ∧ c.toLower = c)
    {c : Char} (hc : ds.head? = some c) (hne : c ≠ '0') : 0 < valueOfDigits ds := by
  induction ds using List.reverseRecOn with
  | nil => cases hc
  | append_singleton ds d ih =>
    rw [valueOfDigits_snoc]
    cases ds with
    | nil =>
      obtain rfl : d = c := by simpa using hc
      obtain ⟨hmem, hlower⟩ := h d (by simp)
      have hback := digitChar_digitOf d hmem
      rw [hlower] at hback
      have hpos : digitOf d ≠ 0 := by
        intro hzero
        rw [hzero] at hback
        exact hne hback.symm
      omega
    | cons d' ds =>
      have := ih (fun c hc => h c (List.mem_append_left _ hc)) (by simpa using hc)
      omega

/-- **Canonical digits are the digits of their number.** -/
theorem toDigits_valueOfDigits {ds : List Char} (h : Canonical ds) :
    Nat.toDigits 16 (valueOfDigits ds) = ds := by
  have hback : ∀ c ∈ ds, Nat.digitChar (digitOf c) = c := by
    intro c hc
    obtain ⟨hmem, hlower⟩ := h.digits c hc
    rw [digitChar_digitOf c hmem, hlower]
  induction ds using List.reverseRecOn with
  | nil => exact absurd rfl h.nonempty
  | append_singleton ds d ih =>
    obtain ⟨hd, -⟩ := h.digits d (by simp)
    have hlt := digitOf_lt d hd
    rw [valueOfDigits_snoc]
    cases ds with
    | nil =>
      rw [show valueOfDigits [] = 0 from rfl, Nat.zero_mul, Nat.zero_add,
        Nat.toDigits_of_lt_base hlt, hback d (by simp), List.nil_append]
    | cons c ds =>
      have hlead : c ≠ '0' := by
        rintro rfl
        have hone := h.lead (by simp)
        simp at hone
      have hfront : Canonical (c :: ds) :=
        { nonempty := by simp
          digits := fun c' hc' => h.digits c' (List.mem_append_left _ hc')
          lead := fun hzero => absurd (Option.some.inj hzero) hlead }
      have hpos := valueOfDigits_pos hfront.digits rfl hlead
      have hrec := ih hfront fun c' hc' => hback c' (List.mem_append_left _ hc')
      have hdiv : (valueOfDigits (c :: ds) * 16 + digitOf d) / 16 = valueOfDigits (c :: ds) := by
        omega
      have hmod : (valueOfDigits (c :: ds) * 16 + digitOf d) % 16 = digitOf d := by omega
      rw [Nat.toDigits_of_base_le (by decide) (by omega), hdiv, hmod, hrec, hback d (by simp)]

end Nbnet.Lib
