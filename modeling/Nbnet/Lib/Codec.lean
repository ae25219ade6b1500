/-
Nbnet.Lib.Codec — decoders that read one value from the front of a buffer.

`ReadsFront` relates such a decoder to an encoder: it succeeds exactly on
the encoding of a value followed by anything, and returns what follows.
Encodings are then prefix-free. A caller that drops what follows accepts
`Padded` buffers too, and these are the only ones on which it cannot get
back from the value to the buffer.
-/
import Mathlib.Tactic.Common

namespace Nbnet.Lib

variable {α β ε : Type*} {decode : List β → Except ε (α × List β)} {encode : α → List β}
  {valid : α → Prop}

/-- `decode` reads the encoding of a valid value from the front of the
buffer and leaves the rest. -/
structure ReadsFront (decode : List β → Except ε (α × List β)) (encode : α → List β)
    (valid : α → Prop) : Prop where
  decode_iff : ∀ (buf : List β) (a : α) (rest : List β),
    decode buf = .ok (a, rest) ↔ valid a ∧ buf = encode a ++ rest

/-- The encoding of a valid value with something behind it. -/
def Padded (encode : α → List β) (valid : α → Prop) (buf : List β) : Prop :=
  ∃ a rest, valid a ∧ rest ≠ [] ∧ buf = encode a ++ rest

namespace ReadsFront

/-- A buffer starts with the encoding of one value at most. -/
theorem eq_of_append (h : ReadsFront decode encode valid) {a a' : α} {rest rest' : List β}
    (ha : valid a) (ha' : valid a') (heq : encode a ++ rest = encode a' ++ rest') :
    a = a' ∧ rest = rest' := by
  have hread := (h.decode_iff (encode a ++ rest) a rest).mpr ⟨ha, rfl⟩
  have hread' := (h.decode_iff (encode a ++ rest) a' rest').mpr ⟨ha', heq⟩
  rw [hread] at hread'
  simpa using hread'

/-- What the decoder leaves tells a padded buffer. -/
theorem padded_iff (h : ReadsFront decode encode valid) {buf rest : List β} {a : α}
    (hread : decode buf = .ok (a, rest)) : Padded encode valid buf ↔ rest ≠ [] := by
  obtain ⟨ha, rfl⟩ := (h.decode_iff _ _ _).mp hread
  constructor
  · rintro ⟨a', rest', ha', hne, heq⟩
    rw [(h.eq_of_append ha ha' heq).2]
    exact hne
  · exact fun hne => ⟨a, rest, ha, hne, rfl⟩

/-- A buffer is the encoding of what is read from it exactly when it is not
padded. -/
theorem eq_encode_iff (h : ReadsFront decode encode valid) {buf rest : List β} {a : α}
    (hread : decode buf = .ok (a, rest)) : buf = encode a ↔ ¬ Padded encode valid buf := by
  rw [h.padded_iff hread, not_not]
  obtain ⟨-, rfl⟩ := (h.decode_iff _ _ _).mp hread
  exact List.append_right_eq_self

end ReadsFront

end Nbnet.Lib
