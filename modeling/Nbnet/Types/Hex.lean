/-
Nbnet.Types.Hex — the hexadecimal codecs of the genesis document and of a
receipt's bloom (`crates/types/src/genesis.rs`, `receipt.rs`).

Both write two lower-case digits per byte after `0x`, and both read with or
without the `0x`. They were written separately: `hex_bytes` slices the
string at byte offsets, `bloom_serde` cuts its bytes in chunks. A slice
inside a character panics; a chunk that is no string is an error.
-/
import Nbnet.Lib.Text
import Nbnet.Types.Primitives

namespace Nbnet

open Lib

/-! ## `hex_bytes` -/

namespace HexBytes

/-- `hex::encode`. -/
def encode (bytes : Bytes) : String := String.join (bytes.map hexPair)

/-- The byte at offset `i` of a string of digits. -/
def decodeAt (s : Bytes) (i : Nat) : Outcome String UInt8 :=
  match strSlice s i (i + 2) with
  | none => .panicked
  | some digits =>
      match u8FromStrRadix16 digits with
      | .ok x => .ok x
      | .error e => .err ("invalid hex: " ++ e.display)

/-- `hex::decode`. The length is the number of bytes; the offsets are
`(0..s.len()).step_by(2)`. -/
def decode (s : Bytes) : Outcome String Bytes :=
  if s.length % 2 ≠ 0 then .err "odd length hex string"
  else Outcome.collect (decodeAt s) (List.range' 0 (s.length / 2) 2)

def serialize (bytes : Bytes) : String := "0x" ++ encode bytes

def deserialize (s : String) : Outcome String Bytes := decode (strip0x (utf8 s))

end HexBytes

/-! ## `bloom_serde` -/

namespace BloomSerde

/-- Why a bloom is refused; the texts of the last two are the standard
library's. -/
inductive BloomError where
  /-- "bloom must be 256 bytes hex" -/
  | length
  | utf8
  | digits (e : IntErrorKind)
  deriving DecidableEq, Repr

def serialize (bloom : Bytes) : String := "0x" ++ String.join (bloom.map hexPair)

/-- `chunks(2)`. -/
def chunks : Bytes → List Bytes
  | x :: y :: rest => [x, y] :: chunks rest
  | [x] => [[x]]
  | [] => []

/-- The loop over the enumerated chunks; `arr[i]` beyond the end panics. -/
def fill : List (Bytes × Nat) → Bytes → Outcome BloomError Bytes
  | [], arr => .ok arr
  | (chunk, i) :: rest, arr =>
      match fromUtf8 chunk with
      | none => .err .utf8
      | some hexStr =>
          match u8FromStrRadix16 hexStr with
          | .ok x => if i < arr.length then fill rest (arr.set i x) else .panicked
          | .error e => .err (.digits e)

def deserialize (s : String) : Outcome BloomError Bytes :=
  let s := strip0x (utf8 s)
  if s.length ≠ 512 then .err .length
  else fill (chunks s).zipIdx (List.replicate 256 0)

end BloomSerde

end Nbnet
