/-
Nbnet.State.WindowTheorems — the block hashes kept in memory.

`record_block_hash` writes each hash twice: in the store, which keeps all
of them, and in an ordered map that drops its least number as soon as it
holds more than 256. Numbers may come in any order and again, so the map
is not a queue: a number it has dropped can be recorded once more, and one
it holds can get a new hash.

A sequence of calls is summarised by the set of its numbers (`recorded`)
and by the hash each one was given last (`latestHash`). `InWindow` says what
the state is after the calls in these terms; a call keeps it
(`InWindow.record`), because what insertion and eviction do to the numbers
held is what an arrival does to the 256 largest of a set.
-/
import Mathlib.Data.List.Induction
import Nbnet.Lib.Largest
import Nbnet.State.ReferenceTheorems

namespace Nbnet.State

open Lib VsdbStateDb

/-! ## The numbers of a table -/

section Numbers

variable {V : Type}

/-- The numbers a table has entries for. -/
def numbers (m : FMap UInt64 V) : Finset Nat := (m.keys.map UInt64.toNat).toFinset

theorem mem_numbers (m : FMap UInt64 V) (n : UInt64) :
    n.toNat ∈ numbers m ↔ (m[n]?).isSome := by
  rw [numbers, List.mem_toFinset, List.mem_map, ← FMap.mem_keys_iff]
  constructor
  · rintro ⟨a, ha, heq⟩
    rwa [← UInt64.toNat_inj.mp heq]
  · intro hn
    exact ⟨n, hn, rfl⟩

/-- Every number of a table is a block number. -/
theorem exists_of_mem_numbers {m : FMap UInt64 V} {x : Nat} (hx : x ∈ numbers m) :
    ∃ n : UInt64, n.toNat = x ∧ (m[n]?).isSome := by
  obtain ⟨n, hn, rfl⟩ := List.mem_map.mp (List.mem_toFinset.mp hx)
  exact ⟨n, rfl, (FMap.mem_keys_iff m n).mp hn⟩

theorem card_numbers (m : FMap UInt64 V) : (numbers m).card = m.size := by
  have hnodup : (m.keys.map UInt64.toNat).Nodup :=
    m.keys_nodup.map fun _ _ h => UInt64.toNat_inj.mp h
  rw [numbers, List.toFinset_card_of_nodup hnodup, List.length_map, Std.ExtTreeMap.length_keys]

theorem numbers_insert (m : FMap UInt64 V) (n : UInt64) (v : V) :
    numbers (m.insert n v) = insert n.toNat (numbers m) := by
  ext x
  rw [Finset.mem_insert]
  constructor
  · intro hx
    obtain ⟨a, rfl, ha⟩ := exists_of_mem_numbers hx
    rw [FMap.get_insert] at ha
    by_cases hna : n = a
    · exact .inl (by rw [hna])
    · exact .inr ((mem_numbers m a).mpr (by rwa [if_neg hna] at ha))
  · rintro (rfl | hx)
    · exact (mem_numbers _ n).mpr (by simp)
    · obtain ⟨a, rfl, ha⟩ := exists_of_mem_numbers hx
      refine (mem_numbers _ a).mpr ?_
      rw [FMap.get_insert]
      split
      · rfl
      · exact ha

theorem numbers_erase (m : FMap UInt64 V) (n : UInt64) :
    numbers (m.erase n) = (numbers m).erase n.toNat := by
  ext x
  rw [Finset.mem_erase]
  constructor
  · intro hx
    obtain ⟨a, rfl, ha⟩ := exists_of_mem_numbers hx
    rw [FMap.get_erase] at ha
    by_cases hna : n = a
    · simp [hna] at ha
    · rw [if_neg hna] at ha
      exact ⟨fun h => hna (UInt64.toNat_inj.mp h.symm), (mem_numbers m a).mpr ha⟩
  · rintro ⟨hne, hx⟩
    obtain ⟨a, rfl, ha⟩ := exists_of_mem_numbers hx
    refine (mem_numbers _ a).mpr ?_
    rwa [FMap.get_erase, if_neg fun h => hne (by rw [h])]

/-- The first key is the least number. -/
theorem numbers_first {m : FMap UInt64 V} {f : UInt64} (hf : m.keys.head? = some f) :
    f.toNat ∈ numbers m ∧ ∀ x ∈ numbers m, f.toNat ≤ x := by
  obtain ⟨hmem, hleast⟩ := m.first_key hf
  refine ⟨(mem_numbers m f).mpr hmem, fun x hx => ?_⟩
  obtain ⟨a, rfl, ha⟩ := exists_of_mem_numbers hx
  rcases hleast a ha with rfl | hlt
  · exact le_rfl
  · exact le_of_lt ((compare_lt_iff f a).mp hlt)

end Numbers

/-! ## Eviction -/

/-- A table of more than 256 entries without the first. -/
def evictOldest (hashes : FMap UInt64 B256) : FMap UInt64 B256 :=
  if hashes.size > 256 then
    match hashes.keys.head? with
    | some oldest => hashes.erase oldest
    | none => hashes
  else hashes

theorem recordBlockHash_blockHashes (st : EvmState) (n : UInt64) (h : B256) :
    (st.recordBlockHash n h).blockHashes = evictOldest (st.blockHashes.insert n h) := rfl

theorem recordBlockHash_store (st : EvmState) (n : UInt64) (h : B256) :
    (st.recordBlockHash n h).db.db = st.db.db.insertBlockHash n h := rfl

/-- Either there is room, or the least number goes. -/
theorem evictOldest_cases (hashes : FMap UInt64 B256) :
    (hashes.size ≤ 256 ∧ evictOldest hashes = hashes) ∨
      ∃ oldest, 256 < hashes.size ∧ hashes.keys.head? = some oldest ∧
        evictOldest hashes = hashes.erase oldest := by
  by_cases hsize : hashes.size > 256
  · refine .inr ?_
    cases hhead : hashes.keys.head? with
    | none =>
      have hlen : hashes.keys.length = hashes.size := Std.ExtTreeMap.length_keys
      rw [List.head?_eq_none_iff.mp hhead, List.length_nil] at hlen
      omega
    | some oldest =>
      refine ⟨oldest, hsize, rfl, ?_⟩
      rw [evictOldest, if_pos hsize, hhead]
  · exact .inl ⟨by omega, by rw [evictOldest, if_neg hsize]⟩

/-- What is left after eviction was there before it. -/
theorem get_evictOldest {hashes : FMap UInt64 B256} {n : UInt64} {h : B256}
    (hget : (evictOldest hashes)[n]? = some h) : hashes[n]? = some h := by
  rcases evictOldest_cases hashes with ⟨-, heq⟩ | ⟨oldest, -, -, heq⟩
  · rwa [heq] at hget
  · rw [heq, FMap.get_erase] at hget
    split at hget
    · cases hget
    · exact hget

/-- A table of the 256 largest numbers of a set stays one when a number
comes in and the oldest goes. -/
theorem numbers_evictOldest {hashes : FMap UInt64 B256} {s : Finset Nat}
    (hnum : numbers hashes = largest 256 s) (n : UInt64) (h : B256) :
    numbers (evictOldest (hashes.insert n h)) = largest 256 (insert n.toNat s) := by
  have hins : numbers (hashes.insert n h) = insert n.toNat (largest 256 s) := by
    rw [numbers_insert, hnum]
  have hsize : (insert n.toNat (largest 256 s)).card = (hashes.insert n h).size := by
    rw [← hins, card_numbers]
  rcases evictOldest_cases (hashes.insert n h) with ⟨hle, heq⟩ | ⟨oldest, hlt, hhead, heq⟩
  · rw [heq, hins, largest_insert_of_card_le (by omega)]
  · obtain ⟨hmem, hleast⟩ := numbers_first hhead
    rw [hins] at hmem hleast
    rw [heq, numbers_erase, hins, largest_insert_of_lt_card (by omega) hmem hleast]

/-! ## Sequences of calls -/

/-- The numbers of the calls. -/
def recorded (calls : List (UInt64 × B256)) : Finset Nat :=
  (calls.map fun c => c.1.toNat).toFinset

/-- The hash of the last call for a number. -/
def latestHash (calls : List (UInt64 × B256)) (n : UInt64) : Option B256 :=
  (calls.reverse.find? fun c => c.1 = n).map Prod.snd

/-- The calls made one after the other. -/
def EvmState.recordAll (st : EvmState) (calls : List (UInt64 × B256)) : EvmState :=
  calls.foldl (fun st c => st.recordBlockHash c.1 c.2) st

theorem recorded_append (calls : List (UInt64 × B256)) (n : UInt64) (h : B256) :
    recorded (calls ++ [(n, h)]) = insert n.toNat (recorded calls) := by
  ext x
  simp [recorded, eq_comm]

theorem latestHash_append (calls : List (UInt64 × B256)) (n m : UInt64) (h : B256) :
    latestHash (calls ++ [(n, h)]) m = if n = m then some h else latestHash calls m := by
  rw [latestHash, List.reverse_append, List.reverse_singleton, List.singleton_append,
    List.find?_cons]
  by_cases hnm : n = m
  · simp [hnm]
  · simp [hnm, latestHash]

theorem recordAll_append (st : EvmState) (calls : List (UInt64 × B256)) (n : UInt64) (h : B256) :
    st.recordAll (calls ++ [(n, h)]) = (st.recordAll calls).recordBlockHash n h := by
  rw [EvmState.recordAll, List.foldl_append]
  rfl

/-! ## The window -/

/-- What the two tables are after the calls. -/
structure InWindow (calls : List (UInt64 × B256)) (st : EvmState) : Prop where
  /-- the map holds the 256 largest numbers -/
  held : numbers st.blockHashes = largest 256 (recorded calls)
  /-- with their latest hashes -/
  fresh : ∀ n h, st.blockHashes[n]? = some h → latestHash calls n = some h
  /-- the store has the latest hash of every number -/
  stored : ∀ n h, latestHash calls n = some h → st.db.db.blockHash n = h

theorem inWindow_fromGenesis (an : CodeAnalysis) (genesis : EvmGenesis) :
    InWindow [] (EvmState.fromGenesis an genesis) where
  held := rfl
  fresh n h hget := by
    have hnone : (EvmState.fromGenesis an genesis).blockHashes[n]? = none := by
      simp [EvmState.fromGenesis]
    rw [hnone] at hget
    cases hget
  stored n h hlatest := by cases hlatest

/-- **One call keeps the window.** -/
theorem InWindow.record {calls : List (UInt64 × B256)} {st : EvmState} (hw : InWindow calls st)
    (n : UInt64) (h : B256) : InWindow (calls ++ [(n, h)]) (st.recordBlockHash n h) where
  held := by
    rw [recordBlockHash_blockHashes, recorded_append]
    exact numbers_evictOldest hw.held n h
  fresh m g hget := by
    rw [recordBlockHash_blockHashes] at hget
    have hins := get_evictOldest hget
    rw [FMap.get_insert] at hins
    rw [latestHash_append]
    split
    · rename_i hnm
      rwa [if_pos hnm] at hins
    · rename_i hnm
      rw [if_neg hnm] at hins
      exact hw.fresh m g hins
  stored m g hlatest := by
    rw [recordBlockHash_store, blockHash_insertBlockHash]
    rw [latestHash_append] at hlatest
    split
    · rename_i hnm
      rw [if_pos hnm] at hlatest
      exact Option.some.inj hlatest
    · rename_i hnm
      rw [if_neg hnm] at hlatest
      exact hw.stored m g hlatest

theorem inWindow_recordAll (an : CodeAnalysis) (genesis : EvmGenesis)
    (calls : List (UInt64 × B256)) :
    InWindow calls ((EvmState.fromGenesis an genesis).recordAll calls) := by
  induction calls using List.reverseRecOn with
  | nil => exact inWindow_fromGenesis an genesis
  | append_singleton calls c ih =>
    rw [recordAll_append]
    exact ih.record c.1 c.2

/-- **The map holds the 256 largest recorded numbers with their latest
hashes, and the store agrees**: after any calls on a fresh state, an entry
is there exactly when its number is among the 256 largest and its hash is
the one recorded last; there are 256 entries, or as many as distinct
numbers; and the store returns the same hash for each. -/
theorem recordAll_window (an : CodeAnalysis) (genesis : EvmGenesis)
    (calls : List (UInt64 × B256)) :
    (∀ n h, ((EvmState.fromGenesis an genesis).recordAll calls).blockHashes[n]? = some h ↔
      n.toNat ∈ largest 256 (recorded calls) ∧ latestHash calls n = some h) ∧
    ((EvmState.fromGenesis an genesis).recordAll calls).blockHashes.size
      = min 256 (recorded calls).card ∧
    ∀ n h, ((EvmState.fromGenesis an genesis).recordAll calls).blockHashes[n]? = some h →
      ((EvmState.fromGenesis an genesis).recordAll calls).db.db.blockHash n = h := by
  have hw := inWindow_recordAll an genesis calls
  generalize (EvmState.fromGenesis an genesis).recordAll calls = st at hw
  refine ⟨fun n h => ?_, ?_, fun n h hget => hw.stored n h (hw.fresh n h hget)⟩
  · rw [← hw.held, mem_numbers]
    constructor
    · intro hget
      exact ⟨by rw [hget]; rfl, hw.fresh n h hget⟩
    · rintro ⟨hsome, hlatest⟩
      obtain ⟨g, hg⟩ := Option.isSome_iff_exists.mp hsome
      rw [hg, ← hw.fresh n g hg, hlatest]
  · rw [← card_numbers, hw.held, card_largest]

end Nbnet.State
