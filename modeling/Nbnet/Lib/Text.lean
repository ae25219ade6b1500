/-
Nbnet.Lib.Text — strings by their UTF-8 bytes, and hexadecimal numbers in
them.

A program that indexes a string by byte offsets can cut a character in
two, which Rust answers with a panic; `Outcome` keeps that apart from an
error. `strSlice` is the slice of a string at byte offsets and
`u8FromStrRadix16` the integer parser of the standard library, which also
takes a leading plus sign.
-/
import Mathlib.Tactic.Common
import Mathlib.Tactic.FinCases

namespace Nbnet.Lib

/-! ## How code ends -/

/-- A value, an error, or a panic. -/
inductive Outcome (ε α : Type) where
  | ok (a : α)
  | err (e : ε)
  | panicked
  deriving DecidableEq, Repr

namespace Outcome

variable {ε α β : Type}

def bind (x : Outcome ε α) (f : α → Outcome ε β) : Outcome ε β :=
  match x with
  | .ok a => f a
  | .err e => .err e
  | .panicked => .panicked

@[simp] theorem bind_ok (a : α) (f : α → Outcome ε β) : (Outcome.ok a).bind f = f a := rfl

/-- `collect` into a result: the first item that fails ends it. -/
def collect (f : α → Outcome ε β) : List α → Outcome ε (List β)
  | [] => .ok []
  | a :: l => (f a).bind fun x => (collect f l).bind fun xs => .ok (x :: xs)

end Outcome

/-! ## Strings -/

/-- The bytes of a string, `as_bytes`. -/
def utf8 (s : String) : List UInt8 := s.toList.flatMap String.utf8EncodeChar

/-- `is_char_boundary`: the offset is at an end, or the byte there does
not continue a character. -/
def isCharBoundary (b : List UInt8) (i : Nat) : Bool :=
  if i = 0 then true
  else if i < b.length then decide (b.getD i 0 < 0x80 ∨ 0xc0 ≤ b.getD i 0)
  else decide (i = b.length)

/-- `&s[i..j]`; `none` is a panic. -/
def strSlice (b : List UInt8) (i j : Nat) : Option (List UInt8) :=
  if i ≤ j ∧ isCharBoundary b i = true ∧ isCharBoundary b j = true then
    some ((b.take j).drop i)
  else none

/-- `strip_prefix("0x")`, the string itself where there is none. -/
def strip0x (b : List UInt8) : List UInt8 :=
  if b.take 2 = [0x30, 0x78] then b.drop 2 else b

/-- `str::from_utf8`. -/
def fromUtf8 (b : List UInt8) : Option (List UInt8) :=
  if b.toByteArray.IsValidUTF8 then some b else none

/-! ## Hexadecimal -/

/-- `to_digit(16)` of a character given by its byte. -/
def hexDigitValue (x : UInt8) : Option Nat :=
  if 0x30 ≤ x ∧ x ≤ 0x39 then some (x.toNat - 0x30)
  else if 0x61 ≤ x ∧ x ≤ 0x66 then some (x.toNat - 0x61 + 10)
  else if 0x41 ≤ x ∧ x ≤ 0x46 then some (x.toNat - 0x41 + 10)
  else none

inductive IntErrorKind where
  | empty
  | invalidDigit
  | posOverflow
  deriving DecidableEq, Repr

/-- `Display for ParseIntError`. -/
def IntErrorKind.display : IntErrorKind → String
  | .empty => "cannot parse integer from empty string"
  | .invalidDigit => "invalid digit found in string"
  | .posOverflow => "number too large to fit in target type"

/-- The digits of an integer that has to fit a byte. -/
def u8Digits : List UInt8 → Nat → Except IntErrorKind UInt8
  | [], acc => .ok (UInt8.ofNat acc)
  | x :: rest, acc =>
      match hexDigitValue x with
      | none => .error .invalidDigit
      | some d => if 255 < acc * 16 + d then .error .posOverflow else u8Digits rest (acc * 16 + d)

/-- `u8::from_str_radix(_, 16)`: a plus sign may stand before the digits,
a lone sign is no number. -/
def u8FromStrRadix16 (b : List UInt8) : Except IntErrorKind UInt8 :=
  if b = [] then .error .empty
  else if b = [0x2b] ∨ b = [0x2d] then .error .invalidDigit
  else if b.head? = some 0x2b then u8Digits b.tail 0
  else u8Digits b 0

/-- `{b:02x}`: two lower-case digits. -/
def hexPair (x : UInt8) : String :=
  String.ofList [Nat.digitChar (x.toNat / 16), Nat.digitChar (x.toNat % 16)]

/-- The characters `0`-`9`, `a`-`f` and `A`-`F`. -/
def hexDigits : List Char :=
  ['0', '1', '2', '3', '4', '5', '6', '7', '8', '9', 'a', 'b', 'c', 'd', 'e', 'f',
    'A', 'B', 'C', 'D', 'E', 'F']

/-- The value of a hexadecimal digit. -/
def digitOf (c : Char) : Nat := (hexDigitValue (UInt8.ofNat c.toNat)).getD 0

/-! ### The digits one by one -/

theorem utf8Size_hexDigit : ∀ c ∈ hexDigits, c.utf8Size = 1 := by
  intro c hc
  fin_cases hc <;> decide

/-- The byte of a digit is not a plus sign and has a value. -/
theorem hexDigit_byte : ∀ c ∈ hexDigits, UInt8.ofNat c.toNat ≠ 0x2b ∧
    hexDigitValue (UInt8.ofNat c.toNat) = some (digitOf c) := by
  intro c hc
  fin_cases hc <;> decide

theorem digitOf_lt : ∀ c ∈ hexDigits, digitOf c < 16 := by
  intro c hc
  fin_cases hc <;> decide

/-- Writing a value gives the lower-case digit. -/
theorem digitChar_digitOf : ∀ c ∈ hexDigits, Nat.digitChar (digitOf c) = c.toLower := by
  intro c hc
  fin_cases hc <;> decide

/-- What is written is a digit and reads as the value. -/
theorem digitOf_digitChar : ∀ d < 16, Nat.digitChar d ∈ hexDigits ∧
    digitOf (Nat.digitChar d) = d := by
  decide

/-! ### Strings of digits -/

/-- The bytes that pairs of digits stand for. -/
def bytesOfDigits : List Char → List UInt8
  | c :: c' :: rest => UInt8.ofNat (16 * digitOf c + digitOf c') :: bytesOfDigits rest
  | _ => []

/-- The digits that bytes are written with. -/
def digitsOfBytes (b : List UInt8) : List Char :=
  b.flatMap fun x => [Nat.digitChar (x.toNat / 16), Nat.digitChar (x.toNat % 16)]

/-- A longer string of even length has two characters in front. -/
theorem exists_two_of_length {α : Type*} {l : List α} {n : Nat} (h : l.length = 2 * (n + 1)) :
    ∃ a a' rest, l = a :: a' :: rest ∧ rest.length = 2 * n := by
  obtain ⟨a, l, rfl⟩ := List.exists_cons_of_length_pos (by omega : 0 < l.length)
  rw [List.length_cons] at h
  obtain ⟨a', l, rfl⟩ := List.exists_cons_of_length_pos (by omega : 0 < l.length)
  rw [List.length_cons] at h
  exact ⟨a, a', l, rfl, by omega⟩

theorem toList_join (l : List String) : (String.join l).toList = l.flatMap String.toList := by
  have hfold : ∀ (l : List String) (acc : String),
      (l.foldl (fun r s => r ++ s) acc).toList = acc.toList ++ l.flatMap String.toList := by
    intro l
    induction l with
    | nil => simp
    | cons s l ih =>
      intro acc
      rw [List.foldl_cons, ih, String.toList_append, List.flatMap_cons, List.append_assoc]
  simpa [String.join] using hfold l ""

theorem toList_hexPairs (b : List UInt8) :
    (String.join (b.map hexPair)).toList = digitsOfBytes b := by
  rw [toList_join, List.flatMap_map]
  simp [hexPair, digitsOfBytes]

variable {ds : List Char}

/-- Two digits parse as the byte they stand for. -/
theorem u8FromStrRadix16_digits {c c' : Char} (hc : c ∈ hexDigits) (hc' : c' ∈ hexDigits) :
    u8FromStrRadix16 [UInt8.ofNat c.toNat, UInt8.ofNat c'.toNat]
      = .ok (UInt8.ofNat (16 * digitOf c + digitOf c')) := by
  obtain ⟨hplus, hvalue⟩ := hexDigit_byte c hc
  obtain ⟨-, hvalue'⟩ := hexDigit_byte c' hc'
  have hlt := digitOf_lt c hc
  have hlt' := digitOf_lt c' hc'
  have hfirst : ¬ 255 < 0 * 16 + digitOf c := by omega
  have hboth : ¬ 255 < 16 * digitOf c + digitOf c' := by omega
  have hsum : (0 * 16 + digitOf c) * 16 + digitOf c' = 16 * digitOf c + digitOf c' := by omega
  simp only [u8FromStrRadix16, u8Digits, hvalue, hvalue', hfirst, hboth, hsum, List.head?_cons,
    Option.some.injEq, hplus, if_false, List.cons.injEq, reduceCtorEq, and_false, or_self]

/-! ### Writing and reading back -/

theorem digitsOfBytes_hexDigits (b : List UInt8) : ∀ c ∈ digitsOfBytes b, c ∈ hexDigits := by
  intro c hc
  obtain ⟨x, -, hx⟩ := List.mem_flatMap.mp hc
  have hlt := x.toNat_lt
  simp only [List.mem_cons, List.not_mem_nil, or_false] at hx
  rcases hx with rfl | rfl
  · exact (digitOf_digitChar _ (by omega)).1
  · exact (digitOf_digitChar _ (by omega)).1

@[simp] theorem digitsOfBytes_length (b : List UInt8) :
    (digitsOfBytes b).length = 2 * b.length := by
  induction b with
  | nil => rfl
  | cons x b ih =>
    simp only [digitsOfBytes, List.flatMap_cons, List.length_append, List.length_cons] at ih ⊢
    simp only [List.length_nil]
    omega

theorem bytesOfDigits_digitsOfBytes (b : List UInt8) : bytesOfDigits (digitsOfBytes b) = b := by
  induction b with
  | nil => rfl
  | cons x b ih =>
    have hlt := x.toNat_lt
    simp only [digitsOfBytes, List.flatMap_cons, List.cons_append, List.nil_append,
      bytesOfDigits] at ih ⊢
    rw [ih, (digitOf_digitChar _ (by omega)).2, (digitOf_digitChar _ (by omega)).2,
      Nat.div_add_mod, UInt8.ofNat_toNat]

/-- Reading digits and writing them again puts them in lower case. -/
theorem digitsOfBytes_bytesOfDigits (n : Nat) (h : ∀ c ∈ ds, c ∈ hexDigits)
    (hlen : ds.length = 2 * n) : digitsOfBytes (bytesOfDigits ds) = ds.map Char.toLower := by
  induction n generalizing ds with
  | zero =>
    obtain rfl := List.eq_nil_of_length_eq_zero hlen
    rfl
  | succ n ih =>
    obtain ⟨c, c', rest, rfl, hrestlen⟩ := exists_two_of_length hlen
    simp only [List.mem_cons, forall_eq_or_imp] at h
    obtain ⟨hc, hc', hrest⟩ := h
    have hlt := digitOf_lt c hc
    have hlt' := digitOf_lt c' hc'
    have hbyte : (UInt8.ofNat (16 * digitOf c + digitOf c')).toNat
        = 16 * digitOf c + digitOf c' := by
      rw [UInt8.toNat_ofNat']
      omega
    have htail := ih hrest hrestlen
    have hhigh : (16 * digitOf c + digitOf c') / 16 = digitOf c := by omega
    have hlow : (16 * digitOf c + digitOf c') % 16 = digitOf c' := by omega
    simp only [digitsOfBytes, bytesOfDigits, List.flatMap_cons] at htail ⊢
    rw [htail, hbyte, hhigh, hlow, digitChar_digitOf c hc, digitChar_digitOf c' hc']
    rfl

end Nbnet.Lib
