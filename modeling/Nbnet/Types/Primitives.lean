/-
Nbnet.Types.Primitives — the word types the node is built from.

`Address`, `U256` and `B256` are alloy's; `Bytes` is any byte string. A
`u64` of the source is a `UInt64`, a `u128` a `BitVec 128`; plain
arithmetic on both wraps, as it does in a release build, and alloy's
`U256` operators are modulo `2 ^ 256`.
-/
import Nbnet.Lib.Bytes
import Nbnet.Lib.Maps
import Nbnet.Lib.Words

namespace Nbnet

open Lib

abbrev Address := BitVec 160
abbrev U256 := BitVec 256
abbrev B256 := BitVec 256
abbrev U128 := BitVec 128
abbrev Bytes := List UInt8

/-- Pairs of addresses index the delegation table. -/
instance : Ord (Address × Address) := lexOrd

/-! The orders of the key types, under names of their own. -/

instance Address.transOrd : Std.TransOrd Address := inferInstance
instance Address.lawfulEqOrd : Std.LawfulEqOrd Address := inferInstance
instance B256.transOrd : Std.TransOrd B256 := inferInstance
instance B256.lawfulEqOrd : Std.LawfulEqOrd B256 := inferInstance
instance Bytes.transOrd : Std.TransOrd Bytes := inferInstance
instance Bytes.lawfulEqOrd : Std.LawfulEqOrd Bytes := inferInstance
instance AddressPair.transOrd : Std.TransOrd (Address × Address) :=
  inferInstanceAs (Std.TransCmp (compareLex (compareOn Prod.fst) (compareOn Prod.snd)))
instance AddressPair.lawfulEqOrd : Std.LawfulEqOrd (Address × Address) where
  eq_of_compare {a b} h := by
    obtain ⟨h1, h2⟩ : compare a.1 b.1 = .eq ∧ compare a.2 b.2 = .eq :=
      Ordering.then_eq_eq.mp h
    exact Prod.ext (Std.LawfulEqOrd.eq_of_compare h1) (Std.LawfulEqOrd.eq_of_compare h2)

/-- `Address::as_slice`. -/
def Address.asSlice (a : Address) : Bytes := (wordBytes 20 a).val

/-- `Address::from_slice`: the address a 20-byte slice holds. -/
def Address.fromSlice (b : Bytes) : Address := ofWordBytes 160 b

/-- `U256::to_be_bytes::<32>`. -/
def U256.toBeBytes (x : U256) : FixedBytes 32 := wordBytes 32 x

/-- `U256::from_be_slice`. -/
def U256.fromBeSlice (b : Bytes) : U256 := ofWordBytes 256 b

/-- `u64::to_be_bytes`. -/
def u64BeBytes (n : UInt64) : FixedBytes 8 := wordBytes 8 n.toBitVec

theorem Address.asSlice_injective {a b : Address} (h : a.asSlice = b.asSlice) : a = b :=
  wordBytes_injective (n := 20) rfl h

@[simp] theorem U256.fromBeSlice_toBeBytes (x : U256) :
    U256.fromBeSlice (U256.toBeBytes x).val = x :=
  ofWordBytes_wordBytes (n := 32) rfl x

theorem u64BeBytes_injective {m n : UInt64} (h : (u64BeBytes m).val = (u64BeBytes n).val) :
    m = n :=
  UInt64.toBitVec_inj.mp (wordBytes_injective (n := 8) rfl h)

end Nbnet
