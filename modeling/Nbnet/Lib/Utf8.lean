/-
Nbnet.Lib.Utf8 — which byte offsets of a text cut a character.

A character takes one byte below `0x80`, or a lead byte from `0xc0` on and
continuation bytes after it (`utf8EncodeChar_shape`). A reader that goes
through a text two bytes at a time can meet four things in front of it
(`Front`): two characters of one byte, one character of two bytes, a
character of one byte with a longer one behind it, or a character of three
or four bytes. In the first two cases the next two bytes are a slice of
the text, in the others the slice ends inside a character.

`strSlice_drop` takes a slice at an offset back to the front of what is
left there, so that an induction over the rest needs only the four cases.
-/
import Nbnet.Lib.Text

namespace Nbnet.Lib

/-! ## Bytes of characters -/

/-- The bytes of a list of characters. -/
def encodeChars (cs : List Char) : List UInt8 := cs.flatMap String.utf8EncodeChar

theorem utf8_eq_encodeChars (s : String) : utf8 s = encodeChars s.toList := rfl

@[simp] theorem encodeChars_nil : encodeChars [] = [] := rfl

theorem encodeChars_cons (c : Char) (cs : List Char) :
    encodeChars (c :: cs) = String.utf8EncodeChar c ++ encodeChars cs :=
  List.flatMap_cons

theorem encodeChars_eq_nil {cs : List Char} (h : encodeChars cs = []) : cs = [] := by
  cases cs with
  | nil => rfl
  | cons c cs =>
    rw [encodeChars_cons, List.append_eq_nil_iff] at h
    exact absurd h.1 String.utf8EncodeChar_ne_nil

/-- A byte that continues a character. -/
def Continues (x : UInt8) : Prop := 0x80 ≤ x ∧ x < 0xc0

/-- The first byte tells the characters of one byte from the others, and
all bytes after it are continuations. -/
theorem utf8EncodeChar_shape (c : Char) : ∃ x tl, String.utf8EncodeChar c = x :: tl ∧
    tl.length + 1 = c.utf8Size ∧ (c.utf8Size = 1 → x = UInt8.ofNat c.toNat ∧ x < 0x80) ∧
    (c.utf8Size ≠ 1 → 0xc0 ≤ x) ∧ ∀ y ∈ tl, Continues y := by
  have hlen := String.length_utf8EncodeChar c
  have hval : c.toNat = c.val.toNat := rfl
  rw [← hlen]
  unfold String.utf8EncodeChar
  simp only [Continues, UInt8.lt_iff_toNat_lt, UInt8.le_iff_toNat_le, hval]
  split
  · refine ⟨_, _, rfl, rfl, ?_, ?_, ?_⟩ <;> simp
    omega
  · split
    · refine ⟨_, _, rfl, rfl, ?_, ?_, ?_⟩ <;> simp <;> omega
    · split
      · refine ⟨_, _, rfl, rfl, ?_, ?_, ?_⟩ <;> simp <;> omega
      · refine ⟨_, _, rfl, rfl, ?_, ?_, ?_⟩ <;> simp <;> omega

/-- A character of one byte is its code. -/
theorem utf8EncodeChar_one {c : Char} (h : c.utf8Size = 1) :
    String.utf8EncodeChar c = [UInt8.ofNat c.toNat] ∧ UInt8.ofNat c.toNat < 0x80 := by
  obtain ⟨x, tl, heq, hlen, hone, -, -⟩ := utf8EncodeChar_shape c
  obtain ⟨rfl, hlt⟩ := hone h
  have htl : tl = [] := List.eq_nil_of_length_eq_zero (by omega)
  exact ⟨by rw [heq, htl], hlt⟩

/-- Characters of one byte are counted by their bytes. -/
theorem length_encodeChars {cs : List Char} (h : ∀ c ∈ cs, c.utf8Size = 1) :
    (encodeChars cs).length = cs.length := by
  induction cs with
  | nil => rfl
  | cons c cs ih =>
    obtain ⟨hc, hcs⟩ := List.forall_mem_cons.mp h
    rw [encodeChars_cons, List.length_append, String.length_utf8EncodeChar, hc, ih hcs,
      List.length_cons, Nat.add_comm]

/-- A text does not begin inside a character. -/
theorem head_encodeChars {cs : List Char} {x : UInt8} {tl : List UInt8}
    (h : encodeChars cs = x :: tl) : x < 0x80 ∨ 0xc0 ≤ x := by
  cases cs with
  | nil => cases h
  | cons c cs =>
    obtain ⟨y, tl', heq, -, hone, hmore, -⟩ := utf8EncodeChar_shape c
    rw [encodeChars_cons, heq, List.cons_append, List.cons.injEq] at h
    obtain ⟨rfl, -⟩ := h
    by_cases hsize : c.utf8Size = 1
    · exact .inl (hone hsize).2
    · exact .inr (hmore hsize)

theorem not_continues_of_head {x : UInt8} (h : x < 0x80 ∨ 0xc0 ≤ x) : ¬ Continues x := by
  rintro ⟨hlo, hhi⟩
  simp only [UInt8.lt_iff_toNat_lt, UInt8.le_iff_toNat_le] at h hlo hhi
  omega

/-! ## What is in front -/

/-- The characters that the next two bytes belong to. -/
inductive Front : List Char → Prop
  | two {c c' : Char} (rest : List Char) (h : c.utf8Size = 1) (h' : c'.utf8Size = 1) :
      Front (c :: c' :: rest)
  | astride {c c' : Char} (rest : List Char) (h : c.utf8Size = 1) (h' : 2 ≤ c'.utf8Size) :
      Front (c :: c' :: rest)
  | double {c : Char} (rest : List Char) (h : c.utf8Size = 2) : Front (c :: rest)
  | wide {c : Char} (rest : List Char) (h : 3 ≤ c.utf8Size) : Front (c :: rest)

/-- Two bytes are enough for one of the four. -/
theorem front_of_length {cs : List Char} (h : 2 ≤ (encodeChars cs).length) : Front cs := by
  cases cs with
  | nil => simp at h
  | cons c cs =>
    have hpos := c.utf8Size_pos
    by_cases hthree : 3 ≤ c.utf8Size
    · exact .wide cs hthree
    · by_cases htwo : c.utf8Size = 2
      · exact .double cs htwo
      · have hone : c.utf8Size = 1 := by omega
        cases cs with
        | nil =>
          rw [encodeChars_cons, encodeChars_nil, List.append_nil,
            String.length_utf8EncodeChar] at h
          omega
        | cons c' cs =>
          have hpos' := c'.utf8Size_pos
          by_cases hone' : c'.utf8Size = 1
          · exact .two cs hone hone'
          · exact .astride cs hone (by omega)

/-- A byte below `0x80` is the code of one character only. -/
theorem char_of_byte {c : Char} (h : c.utf8Size = 1) {x : UInt8}
    (hx : UInt8.ofNat c.toNat = x) : c = Char.ofNat x.toNat := by
  have hcode : c.toNat < 256 := by
    have hle : c.val ≤ 127 := Char.utf8Size_eq_one_iff.mp h
    have hval : c.toNat ≤ 127 := UInt32.le_iff_toNat_le.mp hle
    omega
  rw [← hx, UInt8.toNat_ofNat', Nat.mod_eq_of_lt hcode, Char.ofNat_toNat]

theorem encodeChars_two {c c' : Char} (h : c.utf8Size = 1) (h' : c'.utf8Size = 1)
    (rest : List Char) :
    encodeChars (c :: c' :: rest)
      = UInt8.ofNat c.toNat :: UInt8.ofNat c'.toNat :: encodeChars rest := by
  rw [encodeChars_cons, encodeChars_cons, (utf8EncodeChar_one h).1, (utf8EncodeChar_one h').1]
  rfl

/-- A character of several bytes begins with two high ones. -/
theorem encodeChars_long {c : Char} (h : 2 ≤ c.utf8Size) (rest : List Char) :
    ∃ x y tl, encodeChars (c :: rest) = x :: y :: tl ∧ 0xc0 ≤ x ∧ Continues y := by
  obtain ⟨x, tl, heq, hlen, -, hmore, hcont⟩ := utf8EncodeChar_shape c
  obtain ⟨y, tl, rfl⟩ := List.exists_cons_of_length_pos (by omega : 0 < tl.length)
  refine ⟨x, y, tl ++ encodeChars rest, ?_, hmore (by omega), hcont y (by simp)⟩
  rw [encodeChars_cons, heq]
  rfl

theorem encodeChars_double {c : Char} (h : c.utf8Size = 2) (rest : List Char) :
    ∃ x y, encodeChars (c :: rest) = x :: y :: encodeChars rest ∧ 0xc0 ≤ x := by
  obtain ⟨x, tl, heq, hlen, -, hmore, -⟩ := utf8EncodeChar_shape c
  obtain ⟨y, rfl⟩ := List.length_eq_one_iff.mp (by omega : tl.length = 1)
  exact ⟨x, y, by rw [encodeChars_cons, heq]; rfl, hmore (by omega)⟩

theorem encodeChars_astride {c c' : Char} (h : c.utf8Size = 1) (h' : 2 ≤ c'.utf8Size)
    (rest : List Char) :
    ∃ x y z tl, encodeChars (c :: c' :: rest) = x :: y :: z :: tl ∧ 0xc0 ≤ y ∧ Continues z := by
  obtain ⟨y, z, tl, heq, hlead, hcont⟩ := encodeChars_long h' rest
  refine ⟨UInt8.ofNat c.toNat, y, z, tl, ?_, hlead, hcont⟩
  rw [encodeChars_cons, heq, (utf8EncodeChar_one h).1]
  rfl

theorem encodeChars_wide {c : Char} (h : 3 ≤ c.utf8Size) (rest : List Char) :
    ∃ x y z tl, encodeChars (c :: rest) = x :: y :: z :: tl ∧ 0xc0 ≤ x ∧ Continues z := by
  obtain ⟨x, tl, heq, hlen, -, hmore, hcont⟩ := utf8EncodeChar_shape c
  obtain ⟨y, tl, rfl⟩ := List.exists_cons_of_length_pos (by omega : 0 < tl.length)
  rw [List.length_cons] at hlen
  obtain ⟨z, tl, rfl⟩ := List.exists_cons_of_length_pos (by omega : 0 < tl.length)
  refine ⟨x, y, z, tl ++ encodeChars rest, ?_, hmore (by omega), hcont z (by simp)⟩
  rw [encodeChars_cons, heq]
  rfl

/-! ## Slices -/

/-- An offset beyond the first byte of what is left from `i` on. -/
theorem isCharBoundary_drop {b : List UInt8} {i k : Nat} (hi : i ≤ b.length) (hk : 0 < k) :
    isCharBoundary b (i + k) = isCharBoundary (b.drop i) k := by
  have hget : (b.drop i).getD k 0 = b.getD (i + k) 0 := by
    simp [List.getD_eq_getElem?_getD, List.getElem?_drop]
  have hsum : i + k ≠ 0 := by omega
  have hlt : (k < b.length - i) = (i + k < b.length) := propext (by omega)
  have heq : (k = b.length - i) = (i + k = b.length) := propext (by omega)
  rw [isCharBoundary, isCharBoundary, hget, List.length_drop, if_neg hsum,
    if_neg (Nat.ne_of_gt hk)]
  simp only [hlt, heq]

/-- Where a text begins is a boundary. -/
theorem isCharBoundary_of_drop {b : List UInt8} {i : Nat} {cs : List Char} (hi : i ≤ b.length)
    (hdrop : b.drop i = encodeChars cs) : isCharBoundary b i = true := by
  unfold isCharBoundary
  split
  · rfl
  · split
    · rename_i hlt
      rw [List.drop_eq_getElem_cons hlt] at hdrop
      have hget : b.getD i 0 = b[i] := by simp [hlt]
      rw [hget]
      exact decide_eq_true (head_encodeChars hdrop.symm)
    · exact decide_eq_true (by omega)

/-- A slice at an offset is one at the front of what is left there. -/
theorem strSlice_drop {b : List UInt8} {i k : Nat} {cs : List Char} (hi : i ≤ b.length)
    (hk : 0 < k) (hdrop : b.drop i = encodeChars cs) :
    strSlice b i (i + k) = strSlice (encodeChars cs) 0 k := by
  have hend := isCharBoundary_drop hi hk
  have hstart : isCharBoundary (encodeChars cs) 0 = true := rfl
  have htext : (b.take (i + k)).drop i = (encodeChars cs).take k := by
    rw [List.drop_take, Nat.add_sub_cancel_left, hdrop]
  rw [strSlice, strSlice, isCharBoundary_of_drop hi hdrop, hend, hdrop, hstart, htext,
    List.drop_zero]
  simp

/-- Two bytes that end where a character does. -/
theorem strSlice_two (x y : UInt8) (cs : List Char) :
    strSlice (x :: y :: encodeChars cs) 0 2 = some [x, y] := by
  have hend : isCharBoundary (x :: y :: encodeChars cs) 2 = true :=
    isCharBoundary_of_drop (by simp) rfl
  have hstart : isCharBoundary (x :: y :: encodeChars cs) 0 = true := rfl
  rw [strSlice, if_pos ⟨by omega, hstart, hend⟩]
  rfl

/-- Two bytes that end before a continuation. -/
theorem strSlice_cut {z : UInt8} (h : Continues z) (x y : UInt8) (tl : List UInt8) :
    strSlice (x :: y :: z :: tl) 0 2 = none := by
  have hend : isCharBoundary (x :: y :: z :: tl) 2 = false := by
    have hz : ¬ (z < 0x80 ∨ 0xc0 ≤ z) := fun hz => not_continues_of_head hz h
    simpa [isCharBoundary] using hz
  rw [strSlice, hend]
  simp

/-- What is left after two bytes. -/
theorem drop_two {b : List UInt8} {i : Nat} {x y : UInt8} {tl : List UInt8}
    (h : b.drop i = x :: y :: tl) : i + 2 ≤ b.length ∧ b.drop (i + 2) = tl := by
  constructor
  · have hlen := congrArg List.length h
    simp only [List.length_drop, List.length_cons] at hlen
    omega
  · rw [← List.drop_drop, h]
    rfl

/-- Two characters of one byte are a string of their own. -/
theorem fromUtf8_two {c c' : Char} (h : c.utf8Size = 1) (h' : c'.utf8Size = 1) :
    fromUtf8 [UInt8.ofNat c.toNat, UInt8.ofNat c'.toNat]
      = some [UInt8.ofNat c.toNat, UInt8.ofNat c'.toNat] := by
  have hvalid : (encodeChars [c, c']).toByteArray.IsValidUTF8 := ⟨[c, c'], rfl⟩
  rw [encodeChars_two h h', encodeChars_nil] at hvalid
  rw [fromUtf8, if_pos hvalid]

/-! ## The text after `0x` -/

/-- The characters without a leading `0x`. -/
def after0x : List Char → List Char
  | '0' :: 'x' :: rest => rest
  | cs => cs

theorem take_two_ne_of_long {c : Char} (h : 2 ≤ c.utf8Size) (rest : List Char) :
    (encodeChars (c :: rest)).take 2 ≠ [0x30, 0x78] := by
  intro htake
  obtain ⟨x, y, tl, heq, hlead, -⟩ := encodeChars_long h rest
  rw [heq, List.take_succ_cons, List.cons.injEq] at htake
  rw [htake.1] at hlead
  exact absurd hlead (by decide)

theorem take_two_encodeChars {cs : List Char} (h : (encodeChars cs).take 2 = [0x30, 0x78]) :
    ∃ rest, cs = '0' :: 'x' :: rest := by
  have hlen : 2 ≤ (encodeChars cs).length := by
    have := congrArg List.length h
    rw [List.length_take] at this
    simp only [List.length_cons, List.length_nil] at this
    omega
  cases front_of_length hlen with
  | two rest hone hone' =>
    rw [encodeChars_two hone hone', List.take_succ_cons, List.take_succ_cons, List.take_zero,
      List.cons.injEq, List.cons.injEq] at h
    exact ⟨rest, by rw [char_of_byte hone h.1, char_of_byte hone' h.2.1]; rfl⟩
  | astride rest hone hmore =>
    obtain ⟨x, y, z, tl, heq, hlead, -⟩ := encodeChars_astride hone hmore rest
    rw [heq, List.take_succ_cons, List.take_succ_cons, List.take_zero, List.cons.injEq,
      List.cons.injEq] at h
    rw [h.2.1] at hlead
    exact absurd hlead (by decide)
  | double rest hsize => exact absurd h (take_two_ne_of_long (by omega) rest)
  | wide rest hsize => exact absurd h (take_two_ne_of_long (by omega) rest)

/-- Stripping bytes strips characters. -/
theorem strip0x_encodeChars (cs : List Char) :
    strip0x (encodeChars cs) = encodeChars (after0x cs) := by
  unfold after0x
  split
  · rename_i rest
    have hbytes : encodeChars ('0' :: 'x' :: rest) = 0x30 :: 0x78 :: encodeChars rest :=
      encodeChars_two (by decide) (by decide) rest
    rw [hbytes, strip0x]
    simp
  · rename_i hother
    refine if_neg fun h => ?_
    obtain ⟨rest, heq⟩ := take_two_encodeChars h
    exact hother rest heq

/-! ## Bytes that parse -/

/-- No high byte is a digit. -/
theorem hexDigitValue_high {x : UInt8} (h : 0x80 ≤ x) : hexDigitValue x = none := by
  simp only [hexDigitValue, UInt8.le_iff_toNat_le] at h ⊢
  rw [if_neg, if_neg, if_neg] <;> simp at h ⊢ <;> omega

theorem hexDigitValue_lt {x : UInt8} {d : Nat} (h : hexDigitValue x = some d) : d < 16 := by
  simp only [hexDigitValue, UInt8.le_iff_toNat_le, UInt8.reduceToNat] at h
  split at h
  · rw [Option.some.injEq] at h
    omega
  · split at h
    · rw [Option.some.injEq] at h
      omega
    · split at h
      · rw [Option.some.injEq] at h
        omega
      · cases h

/-- **Two bytes parse as a number** exactly when the second is a digit and
the first a digit or a plus sign. -/
theorem u8FromStrRadix16_two (x y : UInt8) :
    (∃ v, u8FromStrRadix16 [x, y] = .ok v) ↔
      ((hexDigitValue x).isSome ∨ x = 0x2b) ∧ (hexDigitValue y).isSome := by
  by_cases hx : x = 0x2b
  · subst hx
    cases hy : hexDigitValue y with
    | none => simp [u8FromStrRadix16, u8Digits, hy]
    | some d =>
      have hd : ¬ 255 < d := by have := hexDigitValue_lt hy; omega
      simp [u8FromStrRadix16, u8Digits, hy, hd]
  · cases hx' : hexDigitValue x with
    | none => simp [u8FromStrRadix16, u8Digits, hx', hx]
    | some d =>
      have hd : ¬ 255 < d := by have := hexDigitValue_lt hx'; omega
      cases hy : hexDigitValue y with
      | none => simp [u8FromStrRadix16, u8Digits, hx', hy, hx, hd]
      | some d' =>
        have hd' : ¬ 255 < d * 16 + d' := by
          have := hexDigitValue_lt hx'
          have := hexDigitValue_lt hy
          omega
        simp [u8FromStrRadix16, u8Digits, hx', hy, hx, hd, hd']

/-- A high byte among the two is refused. -/
theorem u8FromStrRadix16_high {x y : UInt8} (h : 0xc0 ≤ x ∨ 0xc0 ≤ y) :
    ¬ ∃ v, u8FromStrRadix16 [x, y] = .ok v := by
  have hle : ∀ z : UInt8, 0xc0 ≤ z → 0x80 ≤ z := by
    intro z hz
    simp only [UInt8.le_iff_toNat_le] at hz ⊢
    simp at hz ⊢
    omega
  rw [u8FromStrRadix16_two]
  rcases h with hx | hy
  · have hplus : x ≠ 0x2b := by rintro rfl; exact absurd hx (by decide)
    simp [hexDigitValue_high (hle x hx), hplus]
  · simp [hexDigitValue_high (hle y hy)]

end Nbnet.Lib
