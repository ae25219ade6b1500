/-
Nbnet.Lib.Bytes — fixed-width big-endian byte strings.

`beBytes n x` is the `n`-byte big-endian encoding of a number (its residue
modulo `256 ^ n`) and `ofBe` reads a byte string back. `FixedBytes n` is
the type of byte strings of length `n`, so that a value of the wrong width
cannot be built; the word encoders below land in it.
-/
import Mathlib.Tactic.Linarith
import Mathlib.Tactic.Ring

namespace Nbnet.Lib

/-- A byte string of exactly `n` bytes. -/
abbrev FixedBytes (n : Nat) := { l : List UInt8 // l.length = n }

/-- The `n`-byte big-endian encoding of `x`, most significant byte first. -/
def beBytes : Nat → Nat → List UInt8
  | 0, _ => []
  | n + 1, x => UInt8.ofNat (x / 256 ^ n) :: beBytes n x

/-- The number a big-endian byte string denotes. -/
def ofBe : List UInt8 → Nat
  | [] => 0
  | b :: l => b.toNat * 256 ^ l.length + ofBe l

@[simp] theorem beBytes_length : ∀ n x : Nat, (beBytes n x).length = n
  | 0, _ => rfl
  | n + 1, x => by rw [beBytes, List.length_cons, beBytes_length n x]

/-- Reading an encoding back gives the number, up to its width. -/
theorem ofBe_beBytes : ∀ n x : Nat, ofBe (beBytes n x) = x % 256 ^ n
  | 0, x => by rw [beBytes, ofBe, Nat.pow_zero, Nat.mod_one]
  | n + 1, x => by
      -- the leading byte carries the quotient by `256 ^ n`, the rest the remainder
      have hlead : (UInt8.ofNat (x / 256 ^ n)).toNat = x / 256 ^ n % 256 :=
        UInt8.toNat_ofNat'
      rw [beBytes, ofBe, beBytes_length, ofBe_beBytes n x, hlead, Nat.pow_succ, Nat.mod_mul]
      ring

theorem ofBe_lt : ∀ l : List UInt8, ofBe l < 256 ^ l.length
  | [] => by simp [ofBe]
  | b :: l => by
      have hb : b.toNat < 256 := b.toNat_lt
      have hl := ofBe_lt l
      rw [ofBe, List.length_cons, Nat.pow_succ]
      nlinarith

/-- Encoding what a byte string denotes gives the string, whatever stands
above its width. -/
theorem beBytes_ofBe_add : ∀ (l : List UInt8) (y : Nat),
    beBytes l.length (ofBe l + 256 ^ l.length * y) = l
  | [], _ => rfl
  | b :: l, y => by
      -- the leading byte joins what stands above the rest
      have hsplit : ofBe (b :: l) + 256 ^ (b :: l).length * y
          = ofBe l + 256 ^ l.length * (b.toNat + 256 * y) := by
        rw [ofBe, List.length_cons, Nat.pow_succ]
        ring
      have hlead : (ofBe l + 256 ^ l.length * (b.toNat + 256 * y)) / 256 ^ l.length
          = b.toNat + 256 * y := by
        rw [Nat.add_mul_div_left _ _ (Nat.pow_pos (by decide)), Nat.div_eq_of_lt (ofBe_lt l),
          Nat.zero_add]
      have hbyte : UInt8.ofNat (b.toNat + 256 * y) = b := by
        refine UInt8.toNat_inj.mp ?_
        have hb := b.toNat_lt
        rw [UInt8.toNat_ofNat']
        omega
      rw [hsplit, List.length_cons, beBytes, hlead, hbyte, beBytes_ofBe_add l]

/-! ## Words -/

/-- A `w`-bit word as `n` big-endian bytes. -/
def wordBytes (n : Nat) {w : Nat} (x : BitVec w) : FixedBytes n :=
  ⟨beBytes n x.toNat, beBytes_length n _⟩

/-- The `w`-bit word a byte string denotes. -/
def ofWordBytes (w : Nat) (l : List UInt8) : BitVec w :=
  BitVec.ofNat w (ofBe l)

theorem toNat_lt_of_width {n w : Nat} (hw : w = 8 * n) (x : BitVec w) : x.toNat < 256 ^ n := by
  subst hw
  have h := x.isLt
  rwa [Nat.pow_mul] at h

/-- A word survives its own encoding. -/
theorem ofWordBytes_wordBytes {n w : Nat} (hw : w = 8 * n) (x : BitVec w) :
    ofWordBytes w (wordBytes n x).val = x := by
  simp only [ofWordBytes, wordBytes, ofBe_beBytes, Nat.mod_eq_of_lt (toNat_lt_of_width hw x),
    BitVec.ofNat_toNat, BitVec.setWidth_eq]

/-- A byte string of the word's width survives being read. -/
theorem wordBytes_ofWordBytes {n w : Nat} (hw : w = 8 * n) (l : FixedBytes n) :
    wordBytes n (ofWordBytes w l.val) = l := by
  have hlen := l.property
  have hlt : ofBe l.val < 256 ^ n := by
    have hl := ofBe_lt l.val
    rwa [hlen] at hl
  have hpow : 2 ^ w = 256 ^ n := by rw [hw, Nat.pow_mul]
  have hval : (ofWordBytes w l.val).toNat = ofBe l.val + 256 ^ l.val.length * 0 := by
    rw [ofWordBytes, BitVec.toNat_ofNat, hpow, Nat.mod_eq_of_lt hlt, Nat.mul_zero, Nat.add_zero]
  refine Subtype.ext ?_
  have hback := beBytes_ofBe_add l.val 0
  rw [← hval, hlen] at hback
  exact hback

theorem wordBytes_injective {n w : Nat} (hw : w = 8 * n) {x y : BitVec w}
    (h : (wordBytes n x).val = (wordBytes n y).val) : x = y := by
  rw [← ofWordBytes_wordBytes hw x, h, ofWordBytes_wordBytes hw y]

end Nbnet.Lib
