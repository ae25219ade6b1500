/-
Nbnet.Types.GrammarTheorems — which texts the hexadecimal decoders take,
and which make one of them panic.

The grammar is an even number of digits, 512 of them for a bloom. Both
decoders hand two bytes at a time to the integer parser, which takes a
plus sign in front of a digit; so the texts they take are those made of
such pairs (`Pairs`), and the ones with a plus among them are outside the
grammar. `hex_bytes` moreover slices the string at byte offsets: after any
number of good pairs, a character that the next slice ends inside is a
panic (`CutAhead`). `bloom_serde` goes over the bytes instead, and what is
no string there is an error.

Both loops are followed with one case analysis of what stands in front
(`Front`). `hex_decoders_exact_iff` puts the two together.
-/
import Nbnet.Types.HexTheorems

namespace Nbnet

open Lib

/-! ## Texts by pairs -/

/-- Two characters that the integer parser takes. -/
def Pair (c c' : Char) : Prop := (c ∈ hexDigits ∨ c = '+') ∧ c' ∈ hexDigits

/-- A text of such pairs. -/
def Pairs : List Char → Prop
  | [] => True
  | [_] => False
  | c :: c' :: rest => Pair c c' ∧ Pairs rest

/-- After good pairs comes a character of three or four bytes, or one of a
single byte with a longer one behind it. -/
def CutAhead : List Char → Prop
  | [] => False
  | [c] => 3 ≤ c.utf8Size
  | c :: c' :: rest =>
      3 ≤ c.utf8Size ∨ (c.utf8Size = 1 ∧ 2 ≤ c'.utf8Size) ∨ (Pair c c' ∧ CutAhead rest)

instance (c c' : Char) : Decidable (Pair c c') := inferInstanceAs (Decidable (_ ∧ _))

theorem Pair.sizes {c c' : Char} (h : Pair c c') : c.utf8Size = 1 ∧ c'.utf8Size = 1 := by
  refine ⟨?_, utf8Size_hexDigit c' h.2⟩
  rcases h.1 with hc | rfl
  · exact utf8Size_hexDigit c hc
  · decide

theorem not_pairs_of_long {c : Char} (h : 2 ≤ c.utf8Size) (rest : List Char) :
    ¬ Pairs (c :: rest) := by
  cases rest with
  | nil => exact id
  | cons c' rest =>
    rintro ⟨hpair, -⟩
    have hsize := hpair.sizes.1
    omega

theorem cutAhead_of_wide {c : Char} (h : 3 ≤ c.utf8Size) (rest : List Char) :
    CutAhead (c :: rest) := by
  cases rest with
  | nil => exact h
  | cons c' rest => exact .inl h

theorem not_cutAhead_of_double {c : Char} (h : c.utf8Size = 2) (rest : List Char) :
    ¬ CutAhead (c :: rest) := by
  cases rest with
  | nil =>
    intro hcut
    have hwide : 3 ≤ c.utf8Size := hcut
    omega
  | cons c' rest =>
    rintro (hwide | ⟨hone, -⟩ | ⟨hpair, -⟩)
    · omega
    · omega
    · have hsize := hpair.sizes.1
      omega

/-- With two characters of one byte in front, only a good pair is read
over. -/
theorem cutAhead_two {c c' : Char} (h : c.utf8Size = 1) (h' : c'.utf8Size = 1)
    (rest : List Char) : CutAhead (c :: c' :: rest) ↔ Pair c c' ∧ CutAhead rest := by
  have hwide : ¬ 3 ≤ c.utf8Size := by omega
  have hastride : ¬ (c.utf8Size = 1 ∧ 2 ≤ c'.utf8Size) := by omega
  rw [CutAhead, or_iff_right hwide, or_iff_right hastride]

/-- In a text without a plus sign the pairs are the digits. -/
theorem pairs_iff_digits {cs : List Char} (h : '+' ∉ cs) :
    Pairs cs ↔ (∀ c ∈ cs, c ∈ hexDigits) ∧ cs.length % 2 = 0 := by
  induction cs using Pairs.induct with
  | case1 => simp [Pairs]
  | case2 c => simp [Pairs]
  | case3 c c' rest ih =>
    simp only [List.mem_cons, not_or] at h
    have hplus : c ≠ '+' := fun heq => h.1 heq.symm
    have hlen : (c :: c' :: rest).length % 2 = rest.length % 2 := by
      rw [List.length_cons, List.length_cons]
      omega
    rw [Pairs, ih h.2.2, Pair, or_iff_left hplus, hlen]
    simp only [List.mem_cons, forall_eq_or_imp]
    constructor
    · intro hpairs
      obtain ⟨⟨hc, hc'⟩, hrest, heven⟩ := hpairs
      exact ⟨⟨hc, hc', hrest⟩, heven⟩
    · intro hdigits
      obtain ⟨⟨hc, hc', hrest⟩, heven⟩ := hdigits
      exact ⟨⟨hc, hc'⟩, hrest, heven⟩

theorem plus_notMem_of_digits {cs : List Char} (h : ∀ c ∈ cs, c ∈ hexDigits) : '+' ∉ cs :=
  fun hmem => absurd (h '+' hmem) (by decide)

theorem Pairs.sizes {cs : List Char} (h : Pairs cs) : ∀ c ∈ cs, c.utf8Size = 1 := by
  induction cs using Pairs.induct with
  | case1 => simp
  | case2 c => exact h.elim
  | case3 c c' rest ih =>
    simp only [List.mem_cons, forall_eq_or_imp]
    exact ⟨h.1.sizes.1, h.1.sizes.2, ih h.2⟩

theorem Pairs.length_even {cs : List Char} (h : Pairs cs) : cs.length % 2 = 0 := by
  induction cs using Pairs.induct with
  | case1 => rfl
  | case2 c => exact h.elim
  | case3 c c' rest ih =>
    have hrest := ih h.2
    rw [List.length_cons, List.length_cons]
    omega

/-! ## Two characters -/

theorem hexDigitValue_char {c : Char} (h : c.utf8Size = 1) :
    (hexDigitValue (UInt8.ofNat c.toNat)).isSome ↔ c ∈ hexDigits := by
  have hbytes : ∀ n < 256, (hexDigitValue (UInt8.ofNat n)).isSome →
      Char.ofNat (UInt8.ofNat n).toNat ∈ hexDigits := by
    decide +kernel
  constructor
  · intro hsome
    have hlt := (UInt8.ofNat c.toNat).toNat_lt
    have hmem := hbytes (UInt8.ofNat c.toNat).toNat hlt (by rwa [UInt8.ofNat_toNat])
    rwa [UInt8.ofNat_toNat, ← char_of_byte h rfl] at hmem
  · intro hc
    rw [(hexDigit_byte c hc).2]
    rfl

theorem plus_byte {c : Char} (h : c.utf8Size = 1) : UInt8.ofNat c.toNat = 0x2b ↔ c = '+' := by
  constructor
  · intro hx
    rw [char_of_byte h hx]
    rfl
  · rintro rfl
    rfl

/-- The integer parser on two characters of one byte. -/
theorem u8FromStrRadix16_chars {c c' : Char} (h : c.utf8Size = 1) (h' : c'.utf8Size = 1) :
    (∃ v, u8FromStrRadix16 [UInt8.ofNat c.toNat, UInt8.ofNat c'.toNat] = .ok v) ↔
      Pair c c' := by
  rw [u8FromStrRadix16_two, hexDigitValue_char h, hexDigitValue_char h', plus_byte h, Pair]

/-! ## `hex_bytes` -/

section HexBytes

open HexBytes

/-- A slice that is no number is an error. -/
theorem decodeAt_err {b digits : Bytes} (hslice : strSlice b 0 2 = some digits)
    (h : ¬ ∃ v, u8FromStrRadix16 digits = .ok v) : ∃ e, decodeAt b 0 = .err e := by
  rw [decodeAt, Nat.zero_add, hslice]
  cases hparse : u8FromStrRadix16 digits with
  | ok v => exact absurd ⟨v, hparse⟩ h
  | error e => exact ⟨"invalid hex: " ++ e.display, by simp only [hparse]⟩

theorem decodeAt_cut {b : Bytes} (hslice : strSlice b 0 2 = none) : decodeAt b 0 = .panicked := by
  rw [decodeAt, Nat.zero_add, hslice]

/-- How a run over a text ends: it is taken exactly when it is of pairs,
and panics exactly when a character is cut. -/
structure EndsBy {ε α : Type} (cs : List Char) (run : Outcome ε α) : Prop where
  ok_iff : (∃ v, run = .ok v) ↔ Pairs cs
  panicked_iff : run = .panicked ↔ CutAhead cs

section Ends

variable {ε α : Type} {cs : List Char}

theorem endsBy_err (e : ε) (hpairs : ¬ Pairs cs) (hcut : ¬ CutAhead cs) :
    EndsBy cs (.err e : Outcome ε α) where
  ok_iff := by simp [hpairs]
  panicked_iff := by simp [hcut]

theorem endsBy_panicked (hpairs : ¬ Pairs cs) (hcut : CutAhead cs) :
    EndsBy cs (.panicked : Outcome ε α) where
  ok_iff := by simp [hpairs]
  panicked_iff := by simp [hcut]

/-- A good pair in front leaves the end to the rest. -/
theorem EndsBy.cons {c c' : Char} {run : Outcome ε (List α)} (h : EndsBy cs run)
    (hpair : Pair c c') (v : α) :
    EndsBy (c :: c' :: cs) (run.bind fun xs => .ok (v :: xs)) where
  ok_iff := by
    rw [Pairs, and_iff_right hpair, ← h.ok_iff]
    cases run <;> simp [Outcome.bind]
  panicked_iff := by
    rw [cutAhead_two hpair.sizes.1 hpair.sizes.2, and_iff_right hpair, ← h.panicked_iff]
    cases run <;> simp [Outcome.bind]

end Ends

/-- One turn of the loop: what is in front decides, unless it is a good
pair. -/
theorem decodeAt_endsBy {cs : List Char} (hfront : Front cs) (next : UInt8 → Outcome String Bytes)
    (hnext : ∀ c c' rest, cs = c :: c' :: rest → Pair c c' → ∀ v, EndsBy cs (next v)) :
    EndsBy cs ((decodeAt (encodeChars cs) 0).bind next) := by
  cases hfront with
  | @two c c' rest h h' =>
    have hslice := strSlice_two (UInt8.ofNat c.toNat) (UInt8.ofNat c'.toNat) rest
    rw [encodeChars_two h h']
    by_cases hpair : Pair c c'
    · obtain ⟨v, hv⟩ := (u8FromStrRadix16_chars h h').mpr hpair
      rw [decodeAt_ok hslice hv]
      exact hnext c c' rest rfl hpair v
    · obtain ⟨e, he⟩ := decodeAt_err hslice fun hv =>
        hpair ((u8FromStrRadix16_chars h h').mp hv)
      rw [he]
      refine endsBy_err e (fun hp => hpair hp.1) fun hcut => ?_
      exact hpair ((cutAhead_two h h' rest).mp hcut).1
  | @astride c c' rest h h' =>
    obtain ⟨x, y, z, tl, heq, -, hz⟩ := encodeChars_astride h h' rest
    rw [heq, decodeAt_cut (strSlice_cut hz x y tl)]
    refine endsBy_panicked (fun hp => ?_) (.inr (.inl ⟨h, h'⟩))
    have hsize := hp.1.sizes.2
    omega
  | @double c rest h =>
    obtain ⟨x, y, heq, hlead⟩ := encodeChars_double h rest
    obtain ⟨e, he⟩ := decodeAt_err (strSlice_two x y rest) (u8FromStrRadix16_high (.inl hlead))
    rw [heq, he]
    exact endsBy_err e (not_pairs_of_long (by omega) rest) (not_cutAhead_of_double h rest)
  | @wide c rest h =>
    obtain ⟨x, y, z, tl, heq, -, hz⟩ := encodeChars_wide h rest
    rw [heq, decodeAt_cut (strSlice_cut hz x y tl)]
    exact endsBy_panicked (not_pairs_of_long (by omega) rest) (cutAhead_of_wide h rest)

/-- The loop from offset `i` on. -/
theorem collect_endsBy {b : Bytes} (n i : Nat) {cs : List Char} (hi : i ≤ b.length)
    (hdrop : b.drop i = encodeChars cs) (hlen : (encodeChars cs).length = 2 * n) :
    EndsBy cs (Outcome.collect (decodeAt b) (List.range' i n 2)) := by
  induction n generalizing i cs with
  | zero =>
    obtain rfl := encodeChars_eq_nil (List.eq_nil_of_length_eq_zero hlen)
    exact ⟨by simp [Outcome.collect, Pairs], by simp [Outcome.collect, CutAhead]⟩
  | succ n ih =>
    rw [List.range'_succ, Outcome.collect, decodeAt_drop hi hdrop]
    refine decodeAt_endsBy (front_of_length (by omega)) _ ?_
    intro c c' rest hcs hpair v
    subst hcs
    rw [encodeChars_two hpair.sizes.1 hpair.sizes.2] at hdrop hlen
    simp only [List.length_cons] at hlen
    obtain ⟨hfits, hnext⟩ := drop_two hdrop
    exact (ih (i + 2) hfits hnext (by omega)).cons hpair v

/-- The text of an odd number of bytes is an error. -/
theorem decode_odd {b : Bytes} (h : b.length % 2 ≠ 0) :
    decode b = .err "odd length hex string" := by
  rw [decode, if_pos h]

theorem decode_even {cs : List Char} (h : (encodeChars cs).length % 2 = 0) :
    EndsBy cs (decode (encodeChars cs)) := by
  rw [decode, if_neg (not_not.mpr h)]
  exact collect_endsBy _ 0 (Nat.zero_le _) rfl (by omega)

end HexBytes

/-! ## `bloom_serde` -/

section BloomSerde

open BloomSerde

theorem fromUtf8_eq {b b' : Bytes} (h : fromUtf8 b = some b') : b' = b := by
  rw [fromUtf8] at h
  split at h
  · exact (Option.some.inj h).symm
  · cases h

/-- A chunk that is no number ends the loop. -/
theorem fill_refused {chunk : Bytes} (h : ¬ ∃ v, u8FromStrRadix16 chunk = .ok v) (i : Nat)
    (rest : List (Bytes × Nat)) (arr : Bytes) :
    ¬ ∃ a, fill ((chunk, i) :: rest) arr = .ok a := by
  rintro ⟨a, ha⟩
  rw [fill] at ha
  cases hutf : fromUtf8 chunk with
  | none => simp [hutf] at ha
  | some text =>
    obtain rfl := fromUtf8_eq hutf
    cases hparse : u8FromStrRadix16 text with
    | ok v => exact h ⟨v, hparse⟩
    | error e => simp [hutf, hparse] at ha

/-- The loop does not panic while every index is in the array. -/
theorem fill_ne_panicked (l : List (Bytes × Nat)) (arr : Bytes)
    (h : ∀ e ∈ l, e.2 < arr.length) : fill l arr ≠ .panicked := by
  induction l generalizing arr with
  | nil => simp [fill]
  | cons e l ih =>
    obtain ⟨chunk, i⟩ := e
    obtain ⟨hroom, hrest⟩ := List.forall_mem_cons.mp h
    rw [fill]
    split
    · simp
    · split
      · rw [if_pos hroom]
        refine ih _ ?_
        rwa [List.length_set]
      · simp

theorem length_chunks (b : Bytes) : (chunks b).length = (b.length + 1) / 2 := by
  induction b using chunks.induct with
  | case1 x y rest ih =>
    rw [chunks, List.length_cons, ih, List.length_cons, List.length_cons]
    omega
  | case2 x => simp [chunks]
  | case3 => simp [chunks]

/-- One turn of the loop. -/
theorem fill_front {cs : List Char} (hfront : Front cs) {i : Nat} {arr : Bytes}
    (hroom : i < arr.length)
    (hnext : ∀ c c' rest, cs = c :: c' :: rest → Pair c c' → ∀ arr', arr'.length = arr.length →
      ((∃ a, fill ((chunks (encodeChars rest)).zipIdx (i + 1)) arr' = .ok a) ↔ Pairs rest)) :
    (∃ a, fill ((chunks (encodeChars cs)).zipIdx i) arr = .ok a) ↔ Pairs cs := by
  cases hfront with
  | @two c c' rest h h' =>
    rw [encodeChars_two h h', chunks, List.zipIdx_cons]
    by_cases hpair : Pair c c'
    · obtain ⟨v, hv⟩ := (u8FromStrRadix16_chars h h').mpr hpair
      simp only [fill, fromUtf8_two h h', hv, hroom, if_true]
      rw [hnext c c' rest rfl hpair _ List.length_set, Pairs, and_iff_right hpair]
    · have hparse : ¬ ∃ v, u8FromStrRadix16 [UInt8.ofNat c.toNat, UInt8.ofNat c'.toNat] = .ok v :=
        fun hv => hpair ((u8FromStrRadix16_chars h h').mp hv)
      exact iff_of_false (fill_refused hparse i _ arr) fun hp => hpair hp.1
  | @astride c c' rest h h' =>
    obtain ⟨x, y, z, tl, heq, hlead, -⟩ := encodeChars_astride h h' rest
    rw [heq, chunks, List.zipIdx_cons]
    refine iff_of_false (fill_refused (u8FromStrRadix16_high (.inr hlead)) i _ arr) fun hp => ?_
    have hsize := hp.1.sizes.2
    omega
  | @double c rest h =>
    obtain ⟨x, y, tl, heq, hlead, -⟩ := encodeChars_long (by omega : 2 ≤ c.utf8Size) rest
    rw [heq, chunks, List.zipIdx_cons]
    exact iff_of_false (fill_refused (u8FromStrRadix16_high (.inl hlead)) i _ arr)
      (not_pairs_of_long (by omega) rest)
  | @wide c rest h =>
    obtain ⟨x, y, tl, heq, hlead, -⟩ := encodeChars_long (by omega : 2 ≤ c.utf8Size) rest
    rw [heq, chunks, List.zipIdx_cons]
    exact iff_of_false (fill_refused (u8FromStrRadix16_high (.inl hlead)) i _ arr)
      (not_pairs_of_long (by omega) rest)

/-- The loop over the chunks from index `i` on. -/
theorem fill_ok_iff (n : Nat) {cs : List Char} (hlen : (encodeChars cs).length = 2 * n) (i : Nat)
    (arr : Bytes) (harr : arr.length = i + n) :
    (∃ a, fill ((chunks (encodeChars cs)).zipIdx i) arr = .ok a) ↔ Pairs cs := by
  induction n generalizing cs i arr with
  | zero =>
    obtain rfl := encodeChars_eq_nil (List.eq_nil_of_length_eq_zero hlen)
    simp [chunks, fill, Pairs]
  | succ n ih =>
    refine fill_front (front_of_length (by omega)) (by omega) ?_
    intro c c' rest hcs hpair arr' harr'
    subst hcs
    rw [encodeChars_two hpair.sizes.1 hpair.sizes.2] at hlen
    simp only [List.length_cons] at hlen
    exact ih (by omega) (i + 1) arr' (by omega)

end BloomSerde

/-! ## The decoders against the grammar -/

theorem hexDeserialize_eq (s : String) :
    HexBytes.deserialize s = HexBytes.decode (encodeChars (after0x s.toList)) := by
  rw [HexBytes.deserialize, utf8_eq_encodeChars, strip0x_encodeChars]

/-- `hex_bytes` takes the texts of pairs. -/
theorem hexDeserialize_ok_iff (s : String) :
    (∃ b, HexBytes.deserialize s = .ok b) ↔ Pairs (after0x s.toList) := by
  rw [hexDeserialize_eq]
  by_cases heven : (encodeChars (after0x s.toList)).length % 2 = 0
  · exact (decode_even heven).ok_iff
  · rw [decode_odd heven]
    refine iff_of_false (by simp) fun hp => heven ?_
    rw [length_encodeChars hp.sizes]
    exact hp.length_even

/-- It panics on the texts of even length with a character that is cut. -/
theorem hexDeserialize_panicked_iff (s : String) :
    HexBytes.deserialize s = .panicked ↔
      (encodeChars (after0x s.toList)).length % 2 = 0 ∧ CutAhead (after0x s.toList) := by
  rw [hexDeserialize_eq]
  by_cases heven : (encodeChars (after0x s.toList)).length % 2 = 0
  · rw [and_iff_right heven]
    exact (decode_even heven).panicked_iff
  · rw [decode_odd heven]
    exact iff_of_false (by simp) fun h => heven h.1

theorem bloomDeserialize_ok_iff (s : String) :
    (∃ b, BloomSerde.deserialize s = .ok b) ↔
      Pairs (after0x s.toList) ∧ (after0x s.toList).length = 512 := by
  simp only [BloomSerde.deserialize, utf8_eq_encodeChars, strip0x_encodeChars]
  by_cases hlen : (encodeChars (after0x s.toList)).length = 512
  · rw [if_neg (not_not.mpr hlen), fill_ok_iff 256 hlen 0 _ List.length_replicate]
    constructor
    · intro hp
      exact ⟨hp, by rw [← length_encodeChars hp.sizes, hlen]⟩
    · intro h
      exact h.1
  · rw [if_pos hlen]
    refine iff_of_false (by simp) fun h => hlen ?_
    rw [length_encodeChars h.1.sizes, h.2]

/-- It never panics: 512 bytes are 256 chunks. -/
theorem bloomDeserialize_ne_panicked (s : String) : BloomSerde.deserialize s ≠ .panicked := by
  unfold BloomSerde.deserialize
  dsimp only
  split
  · simp
  · rename_i hlen
    refine fill_ne_panicked _ _ fun e he => ?_
    have hindex := (List.mem_zipIdx' he).1
    rw [length_chunks, not_not.mp hlen] at hindex
    rw [List.length_replicate]
    exact hindex

/-- A decoder that takes what is in its grammar and answers everything else
with an error. -/
def ExactFor {ε α : Type} (run : Outcome ε α) (grammar : Prop) : Prop :=
  ((∃ a, run = .ok a) ↔ grammar) ∧ (¬ grammar → ∃ e, run = .err e)

theorem exactFor_iff {ε α : Type} {run : Outcome ε α} {grammar : Prop} :
    ExactFor run grammar ↔ ((∃ a, run = .ok a) ↔ grammar) ∧ run ≠ .panicked := by
  refine and_congr_right fun hok => ?_
  rw [← hok]
  cases run <;> simp

/-- What the two decoders are to do with a string: take an even number of
digits, 512 for a bloom, after an optional `0x`, refuse everything else,
and never slice inside a character. -/
def DecodesExactly (s : String) : Prop :=
  ExactFor (HexBytes.deserialize s)
    ((∀ c ∈ after0x s.toList, c ∈ hexDigits) ∧ (after0x s.toList).length % 2 = 0) ∧
  ExactFor (BloomSerde.deserialize s)
    ((∀ c ∈ after0x s.toList, c ∈ hexDigits) ∧ (after0x s.toList).length = 512)

/-- Pairs with a plus sign in one of them. -/
def SignedPairs (cs : List Char) : Prop := Pairs cs ∧ '+' ∈ cs

/-- An even number of bytes, with a character that a slice ends inside. -/
def CutsCharacter (cs : List Char) : Prop :=
  (encodeChars cs).length % 2 = 0 ∧ CutAhead cs

/-- Without signed pairs, the pairs are the grammar. -/
theorem pairs_iff_of_unsigned {cs : List Char} (h : ¬ SignedPairs cs) :
    Pairs cs ↔ (∀ c ∈ cs, c ∈ hexDigits) ∧ cs.length % 2 = 0 := by
  by_cases hplus : '+' ∈ cs
  · exact iff_of_false (fun hp => h ⟨hp, hplus⟩) fun hd => plus_notMem_of_digits hd.1 hplus
  · exact pairs_iff_digits hplus

/-- **The decoders are exact** on a string if and only if, after an
optional `0x`, it is not made of pairs with a plus sign among them and no
slice ends inside one of its characters. -/
theorem hex_decoders_exact_iff (s : String) :
    DecodesExactly s ↔
      ¬ SignedPairs (after0x s.toList) ∧ ¬ CutsCharacter (after0x s.toList) := by
  rw [DecodesExactly, exactFor_iff, exactFor_iff, hexDeserialize_ok_iff, bloomDeserialize_ok_iff,
    ne_eq, hexDeserialize_panicked_iff]
  constructor
  · intro hexact
    obtain ⟨⟨hgrammar, hcut⟩, -⟩ := hexact
    refine ⟨fun hsigned => ?_, hcut⟩
    exact plus_notMem_of_digits (hgrammar.mp hsigned.1).1 hsigned.2
  · intro hcond
    obtain ⟨hunsigned, hcut⟩ := hcond
    have hpairs := pairs_iff_of_unsigned hunsigned
    refine ⟨⟨hpairs, hcut⟩, ⟨?_, bloomDeserialize_ne_panicked s⟩⟩
    rw [hpairs]
    constructor
    · intro h
      exact ⟨h.1.1, h.2⟩
    · intro h
      have hlen := h.2
      exact ⟨⟨h.1, by omega⟩, hlen⟩

/-- A plus sign is taken for a digit, and a character of two bytes at an
odd offset is a panic. -/
theorem hex_decoders_not_exact :
    (HexBytes.deserialize "+a" = .ok [10] ∧ ¬ DecodesExactly "+a") ∧
    (HexBytes.deserialize "aéa" = .panicked ∧ ¬ DecodesExactly "aéa") := by
  have hsigned : HexBytes.deserialize "+a" = .ok [10] := by decide +kernel
  have hcut : HexBytes.deserialize "aéa" = .panicked := by decide +kernel
  refine ⟨⟨hsigned, fun h => ?_⟩, ⟨hcut, fun h => ?_⟩⟩
  · have hdigits := (h.1.1.mp ⟨_, hsigned⟩).1
    exact absurd (hdigits '+' (by decide)) (by decide)
  · exact (exactFor_iff.mp h.1).2 hcut

end Nbnet
