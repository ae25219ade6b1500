/-
Nbnet.Lib.Records — byte strings in a row, each after its length.

`frame w bs` puts the length of `bs` in front of it, in `w` little-endian
bytes; `parseRecords w` reads a row of such records back and fails unless
it consumes every byte. What was framed is what is read, as long as the
lengths fit their `w` bytes.
-/
import Nbnet.Lib.Bytes

namespace Nbnet.Lib

variable {w : Nat}

/-- A record: the length in `w` little-endian bytes, then the bytes. -/
def frame (w : Nat) (bs : List UInt8) : List UInt8 := (beBytes w bs.length).reverse ++ bs

/-- Read records until nothing is left. The fuel bounds their number. -/
def parseFrames (w : Nat) : Nat → List UInt8 → Option (List (List UInt8))
  | 0, bs => if bs = [] then some [] else none
  | fuel + 1, bs =>
      if bs = [] then some []
      else if bs.length < w then none
      else
        let len := ofBe (bs.take w).reverse
        let rest := bs.drop w
        if rest.length < len then none
        else (parseFrames w fuel (rest.drop len)).map (rest.take len :: ·)

/-- Every record has a byte of its own, so the length is fuel enough. -/
def parseRecords (w : Nat) (bs : List UInt8) : Option (List (List UInt8)) :=
  parseFrames w bs.length bs

@[simp] theorem length_frame (w : Nat) (bs : List UInt8) :
    (frame w bs).length = w + bs.length := by
  simp [frame]

/-- A row is at least as long as each byte string in it. -/
theorem length_le_frames {l : List (List UInt8)} {bs : List UInt8} (h : bs ∈ l) :
    bs.length ≤ (l.flatMap (frame w)).length := by
  induction l with
  | nil => cases h
  | cons b l ih =>
    rw [List.flatMap_cons, List.length_append, length_frame]
    rcases List.mem_cons.mp h with rfl | h
    · omega
    · have := ih h
      omega

/-- The first record of a row. -/
theorem parseFrames_frame (hw : 0 < w) {bs : List UInt8} (hfit : bs.length < 256 ^ w) (fuel : Nat)
    (rest : List UInt8) :
    parseFrames w (fuel + 1) (frame w bs ++ rest) = (parseFrames w fuel rest).map (bs :: ·) := by
  have hlen : (beBytes w bs.length).reverse.length = w := by simp
  have hne : frame w bs ++ rest ≠ [] := by
    intro hnil
    have hzero := congrArg List.length hnil
    simp at hzero
    omega
  have htake : (frame w bs ++ rest).take w = (beBytes w bs.length).reverse := by
    rw [frame, List.append_assoc, List.take_left' hlen]
  have hdrop : (frame w bs ++ rest).drop w = bs ++ rest := by
    rw [frame, List.append_assoc, List.drop_left' hlen]
  have hlong : ¬ (frame w bs ++ rest).length < w := by
    rw [List.length_append, length_frame]
    omega
  have hread : ofBe (beBytes w bs.length).reverse.reverse = bs.length := by
    rw [List.reverse_reverse, ofBe_beBytes, Nat.mod_eq_of_lt hfit]
  rw [parseFrames, if_neg hne, if_neg hlong]
  simp only [htake, hdrop, hread]
  rw [if_neg (by rw [List.length_append]; omega), List.drop_left, List.take_left]

theorem parseFrames_flatMap (hw : 0 < w) (l : List (List UInt8)) (fuel : Nat)
    (hfit : ∀ bs ∈ l, bs.length < 256 ^ w) (hfuel : (l.flatMap (frame w)).length ≤ fuel) :
    parseFrames w fuel (l.flatMap (frame w)) = some l := by
  induction l generalizing fuel with
  | nil => cases fuel <;> rfl
  | cons bs l ih =>
    rw [List.flatMap_cons, List.length_append, length_frame] at hfuel
    cases fuel with
    | zero => omega
    | succ fuel =>
      have hrest := ih fuel (fun b hb => hfit b (List.mem_cons_of_mem _ hb)) (by omega)
      rw [List.flatMap_cons, parseFrames_frame hw (hfit bs (by simp)), hrest]
      rfl

/-- What was framed is what is read. -/
theorem parseRecords_flatMap (hw : 0 < w) (l : List (List UInt8))
    (hfit : ∀ bs ∈ l, bs.length < 256 ^ w) : parseRecords w (l.flatMap (frame w)) = some l :=
  parseFrames_flatMap hw l _ hfit le_rfl

end Nbnet.Lib
