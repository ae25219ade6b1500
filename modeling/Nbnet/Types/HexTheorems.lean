/-
Nbnet.Types.HexTheorems — the hexadecimal codecs are inverse to each other.

Both decoders are followed over a string of digits two characters at a
time: `decode_digits` says what `hex_bytes` makes of it, slicing at byte
offsets, and `fill_digits` what the bloom loop does, and both make the same
bytes (`bytesOfDigits`). What the encoders write is such a string, so the
round trips are two facts about digits. A string of digits never begins
with `0x`, so nothing is stripped off it by mistake.
-/
import Nbnet.Lib.Utf8
import Nbnet.Types.Hex

namespace Nbnet

open Lib

variable {ds : List Char}

/-! ## The text both decoders see -/

theorem after0x_digits (h : ∀ c ∈ ds, c ∈ hexDigits) : after0x ds = ds := by
  unfold after0x
  split
  · exact absurd (h 'x' (by simp)) (by decide)
  · rfl

/-- A string of digits, with or without `0x`, is its digits to the
decoders. -/
theorem strip0x_digits (h : ∀ c ∈ ds, c ∈ hexDigits) {lead : String}
    (hlead : lead ∈ ["", "0x"]) :
    strip0x (utf8 (lead ++ String.ofList ds)) = encodeChars ds := by
  rw [utf8_eq_encodeChars, strip0x_encodeChars, String.toList_append, String.toList_ofList]
  simp only [List.mem_cons, List.not_mem_nil, or_false] at hlead
  rcases hlead with rfl | rfl
  · rw [String.toList_empty, List.nil_append, after0x_digits h]
  · rfl

theorem length_encodeChars_digits (h : ∀ c ∈ ds, c ∈ hexDigits) :
    (encodeChars ds).length = ds.length :=
  length_encodeChars fun c hc => utf8Size_hexDigit c (h c hc)

/-! ## `hex_bytes` -/

section HexBytes

open HexBytes

/-- The slice at an offset is the one in front of what is left there. -/
theorem decodeAt_drop {b : Bytes} {i : Nat} {cs : List Char} (hi : i ≤ b.length)
    (hdrop : b.drop i = encodeChars cs) : decodeAt b i = decodeAt (encodeChars cs) 0 := by
  rw [decodeAt, decodeAt, strSlice_drop hi (by omega) hdrop, Nat.zero_add]

theorem decodeAt_ok {b digits : Bytes} {v : UInt8} (hslice : strSlice b 0 2 = some digits)
    (h : u8FromStrRadix16 digits = .ok v) : decodeAt b 0 = .ok v := by
  rw [decodeAt, Nat.zero_add, hslice]
  simp only [h]

/-- The loop over digits, from offset `i` on. -/
theorem collect_digits {b : Bytes} (n i : Nat) (h : ∀ c ∈ ds, c ∈ hexDigits) (hi : i ≤ b.length)
    (hdrop : b.drop i = encodeChars ds) (hlen : ds.length = 2 * n) :
    Outcome.collect (decodeAt b) (List.range' i n 2) = .ok (bytesOfDigits ds) := by
  induction n generalizing i ds with
  | zero =>
    obtain rfl := List.eq_nil_of_length_eq_zero hlen
    rfl
  | succ n ih =>
    obtain ⟨c, c', rest, rfl, hrestlen⟩ := exists_two_of_length hlen
    simp only [List.mem_cons, forall_eq_or_imp] at h
    obtain ⟨hc, hc', hrest⟩ := h
    have hbytes := encodeChars_two (utf8Size_hexDigit c hc) (utf8Size_hexDigit c' hc') rest
    have hbyte : decodeAt b i = .ok (UInt8.ofNat (16 * digitOf c + digitOf c')) := by
      rw [decodeAt_drop hi hdrop, hbytes]
      exact decodeAt_ok (strSlice_two _ _ rest) (u8FromStrRadix16_digits hc hc')
    rw [hbytes] at hdrop
    obtain ⟨hfits, hnext⟩ := drop_two hdrop
    have htail := ih (i + 2) hrest hfits hnext hrestlen
    rw [List.range'_succ, Outcome.collect, hbyte, Outcome.bind_ok, htail]
    rfl

/-- An even number of digits decodes. -/
theorem decode_digits (h : ∀ c ∈ ds, c ∈ hexDigits) (heven : ds.length % 2 = 0) :
    decode (encodeChars ds) = .ok (bytesOfDigits ds) := by
  rw [decode, length_encodeChars_digits h, if_neg (not_not.mpr heven)]
  exact collect_digits _ 0 h (Nat.zero_le _) rfl (by omega)

theorem deserialize_digits (h : ∀ c ∈ ds, c ∈ hexDigits) (heven : ds.length % 2 = 0)
    {lead : String} (hlead : lead ∈ ["", "0x"]) :
    HexBytes.deserialize (lead ++ String.ofList ds) = .ok (bytesOfDigits ds) := by
  rw [HexBytes.deserialize, strip0x_digits h hlead, decode_digits h heven]

end HexBytes

/-! ## `bloom_serde` -/

section BloomSerde

open BloomSerde

/-- The loop over the chunks of a string of digits, from index `i` on. -/
theorem fill_digits (n : Nat) (h : ∀ c ∈ ds, c ∈ hexDigits) (hlen : ds.length = 2 * n) (i : Nat)
    (arr : Bytes) (harr : arr.length = i + n) :
    fill ((chunks (encodeChars ds)).zipIdx i) arr
      = .ok (arr.take i ++ bytesOfDigits ds) := by
  induction n generalizing ds i arr with
  | zero =>
    obtain rfl := List.eq_nil_of_length_eq_zero hlen
    have htake : arr.take i = arr := List.take_of_length_le (by omega)
    rw [htake]
    simp [chunks, fill, bytesOfDigits]
  | succ n ih =>
    obtain ⟨c, c', rest, rfl, hrestlen⟩ := exists_two_of_length hlen
    simp only [List.mem_cons, forall_eq_or_imp] at h
    obtain ⟨hc, hc', hrest⟩ := h
    have htail := ih hrest hrestlen (i + 1)
      (arr.set i (UInt8.ofNat (16 * digitOf c + digitOf c'))) (by rw [List.length_set]; omega)
    have htake : (arr.set i (UInt8.ofNat (16 * digitOf c + digitOf c'))).take (i + 1)
        = arr.take i ++ [UInt8.ofNat (16 * digitOf c + digitOf c')] := by
      rw [List.take_succ_eq_append_getElem (by rw [List.length_set]; omega),
        List.take_set_of_le le_rfl, List.getElem_set_self]
    have hsize := utf8Size_hexDigit c hc
    have hsize' := utf8Size_hexDigit c' hc'
    have hroom : i < arr.length := by omega
    simp only [encodeChars_two hsize hsize', chunks, List.zipIdx_cons, fill,
      fromUtf8_two hsize hsize', u8FromStrRadix16_digits hc hc', hroom, if_true]
    rw [htail, htake, bytesOfDigits, List.append_assoc]
    rfl

theorem bloomDeserialize_digits (h : ∀ c ∈ ds, c ∈ hexDigits) (hlen : ds.length = 512)
    {lead : String} (hlead : lead ∈ ["", "0x"]) :
    BloomSerde.deserialize (lead ++ String.ofList ds) = .ok (bytesOfDigits ds) := by
  have hbytes := fill_digits 256 h hlen 0 (List.replicate 256 0) List.length_replicate
  simp only [BloomSerde.deserialize, strip0x_digits h hlead, length_encodeChars_digits h, hlen,
    ne_eq, not_true_eq_false, if_false]
  rw [hbytes]
  rfl

end BloomSerde

/-! ## Round trips -/

/-- What the encoders write, as digits after `0x`. -/
theorem hexPairs_digits (b : Bytes) :
    String.join (b.map hexPair) = String.ofList (digitsOfBytes b) := by
  rw [← String.toList_inj, toList_hexPairs, String.toList_ofList]

/-- **The hex codecs round-trip.** Decoding what was encoded gives the
bytes; an even number of digits (512 for a bloom), with or without `0x` and
in any case, decodes to bytes that are encoded as the same digits in lower
case after `0x`. -/
theorem hex_codecs_round_trip :
    (∀ b : Bytes, HexBytes.deserialize (HexBytes.serialize b) = .ok b) ∧
    (∀ bloom : FixedBytes 256,
      BloomSerde.deserialize (BloomSerde.serialize bloom.val) = .ok bloom.val) ∧
    (∀ ds : List Char, (∀ c ∈ ds, c ∈ hexDigits) → ds.length % 2 = 0 → ∀ lead ∈ ["", "0x"],
      ∃ b, HexBytes.deserialize (lead ++ String.ofList ds) = .ok b ∧
        HexBytes.serialize b = "0x" ++ String.ofList (ds.map Char.toLower)) ∧
    (∀ ds : List Char, (∀ c ∈ ds, c ∈ hexDigits) → ds.length = 512 → ∀ lead ∈ ["", "0x"],
      ∃ bloom : FixedBytes 256,
        BloomSerde.deserialize (lead ++ String.ofList ds) = .ok bloom.val ∧
        BloomSerde.serialize bloom.val = "0x" ++ String.ofList (ds.map Char.toLower)) := by
  refine ⟨fun b => ?_, fun bloom => ?_, fun ds h heven lead hlead => ?_,
    fun ds h hlen lead hlead => ?_⟩
  · rw [HexBytes.serialize, HexBytes.encode, hexPairs_digits,
      deserialize_digits (digitsOfBytes_hexDigits b) (by simp) (by simp),
      bytesOfDigits_digitsOfBytes]
  · rw [BloomSerde.serialize, hexPairs_digits,
      bloomDeserialize_digits (digitsOfBytes_hexDigits bloom.val) (by simp [bloom.property])
        (by simp),
      bytesOfDigits_digitsOfBytes]
  · refine ⟨bytesOfDigits ds, deserialize_digits h heven hlead, ?_⟩
    rw [HexBytes.serialize, HexBytes.encode, hexPairs_digits,
      digitsOfBytes_bytesOfDigits (ds.length / 2) h (by omega)]
  · have hback := digitsOfBytes_bytesOfDigits 256 h hlen
    have hsize : (bytesOfDigits ds).length = 256 := by
      have hdigits := congrArg List.length hback
      rw [digitsOfBytes_length, List.length_map, hlen] at hdigits
      omega
    refine ⟨⟨bytesOfDigits ds, hsize⟩, bloomDeserialize_digits h hlen hlead, ?_⟩
    rw [BloomSerde.serialize, hexPairs_digits, hback]

theorem hex_mixed_case :
    ∃ b, HexBytes.deserialize ("0x" ++ String.ofList ['A', 'B', 'c', 'd']) = .ok b ∧
      HexBytes.serialize b = "0x" ++ String.ofList ['a', 'b', 'c', 'd'] :=
  hex_codecs_round_trip.2.2.1 ['A', 'B', 'c', 'd'] (by simp [hexDigits]) rfl "0x" (by simp)

end Nbnet
