/-
Nbnet.Lib.Index — a map that indexes a collection of items by a key.

`Indexes key owner m l` says that the items of `l` have pairwise different
keys and that `m` sends exactly those keys, each to its item's owner. The
collection is a list up to permutation, so the rules below follow the
mutations of an indexed store: an item comes in with a fresh key, an item
leaves, items move around inside the store.
-/
import Nbnet.Lib.Maps

namespace Nbnet.Lib

/-- Where at most one item meets the test, searching finds it in any
order. -/
theorem find?_eq_of_perm {α : Type} {l l' : List α} {p : α → Bool} (h : l.Perm l')
    (huniq : ∀ x ∈ l, ∀ y ∈ l, p x = true → p y = true → x = y) : l.find? p = l'.find? p := by
  cases hl : l.find? p with
  | none =>
    have hno := List.find?_eq_none.mp hl
    exact (List.find?_eq_none.mpr fun x hx => hno x (h.mem_iff.mpr hx)).symm
  | some x =>
    have hx := List.mem_of_find?_eq_some hl
    have hpx := List.find?_some hl
    cases hl' : l'.find? p with
    | none => exact absurd hpx (List.find?_eq_none.mp hl' x (h.mem_iff.mp hx))
    | some y =>
      have hy := h.mem_iff.mpr (List.mem_of_find?_eq_some hl')
      rw [huniq x hx y hy hpx (List.find?_some hl')]

section Index

variable {α K V : Type} [Ord K] [Std.TransOrd K] [Std.LawfulEqOrd K] [DecidableEq K]
variable {key : α → K} {owner : α → V} {m : FMap K V} {l l' : List α} {x : α}

/-- `m` is the exact index of `l`. -/
structure Indexes (key : α → K) (owner : α → V) (m : FMap K V) (l : List α) : Prop where
  nodup : (l.map key).Nodup
  spec : ∀ k v, m[k]? = some v ↔ ∃ x ∈ l, key x = k ∧ owner x = v

namespace Indexes

omit [DecidableEq K] [Std.LawfulEqOrd K] in
theorem empty : Indexes key owner (∅ : FMap K V) [] :=
  ⟨by simp, by simp⟩

omit [DecidableEq K] [Std.LawfulEqOrd K] in
/-- Moving items around does not disturb the index. -/
theorem perm (h : Indexes key owner m l) (hp : l.Perm l') : Indexes key owner m l' :=
  ⟨(hp.map key).nodup_iff.mp h.nodup, fun k v => by
    simp only [h.spec, hp.mem_iff]⟩

omit [DecidableEq K] [Std.LawfulEqOrd K] in
theorem get_of_mem (h : Indexes key owner m l) (hx : x ∈ l) : m[key x]? = some (owner x) :=
  (h.spec _ _).mpr ⟨x, hx, rfl, rfl⟩

omit [DecidableEq K] [Std.LawfulEqOrd K] in
theorem get_eq_none_iff (h : Indexes key owner m l) (k : K) :
    m[k]? = none ↔ k ∉ l.map key := by
  constructor
  · intro hk hmem
    obtain ⟨x, hx, rfl⟩ := List.mem_map.mp hmem
    rw [h.get_of_mem hx] at hk
    cases hk
  · intro hk
    cases hm : m[k]? with
    | none => rfl
    | some v =>
      obtain ⟨x, hx, rfl, -⟩ := (h.spec k v).mp hm
      exact absurd (List.mem_map.mpr ⟨x, hx, rfl⟩) hk

/-- An item with a fresh key comes in. -/
theorem cons (h : Indexes key owner m l) (hx : m[key x]? = none) :
    Indexes key owner (m.insert (key x) (owner x)) (x :: l) := by
  have hfresh : key x ∉ l.map key := (h.get_eq_none_iff _).mp hx
  refine ⟨List.nodup_cons.mpr ⟨hfresh, h.nodup⟩, fun k v => ?_⟩
  rw [FMap.get_insert]
  by_cases hk : key x = k
  · subst hk
    have hno : ¬ ∃ y ∈ l, key y = key x ∧ owner y = v := by
      rintro ⟨y, hy, hky, -⟩
      exact hfresh (List.mem_map.mpr ⟨y, hy, hky⟩)
    simp [hno]
  · simp [hk, h.spec]

/-- An item leaves. -/
theorem tail (h : Indexes key owner m (x :: l)) : Indexes key owner (m.erase (key x)) l := by
  obtain ⟨hx, hl⟩ := List.nodup_cons.mp h.nodup
  refine ⟨hl, fun k v => ?_⟩
  rw [FMap.get_erase]
  by_cases hk : key x = k
  · subst hk
    have hno : ¬ ∃ y ∈ l, key y = key x ∧ owner y = v := by
      rintro ⟨y, hy, hky, -⟩
      exact hx (List.mem_map.mpr ⟨y, hy, hky⟩)
    simp [hno]
  · rw [if_neg hk, h.spec]
    simp [hk]

/-- Several items leave, the index being cleaned up afterwards. -/
theorem drop : ∀ (gone : List α) {m : FMap K V}, Indexes key owner m (gone ++ l) →
    Indexes key owner ((gone.map key).foldl (fun m k => m.erase k) m) l
  | [], _, h => h
  | _ :: gone, _, h => drop gone h.tail

omit [DecidableEq K] in
/-- The index has one key per item. -/
theorem size_eq (h : Indexes key owner m l) :
    m.size = l.length := by
  have hperm : m.keys.Perm (l.map key) := by
    refine (List.perm_ext_iff_of_nodup m.keys_nodup h.nodup).mpr fun k => ?_
    rw [FMap.mem_keys_iff, ← not_iff_not, ← h.get_eq_none_iff]
    simp
  rw [← Std.ExtTreeMap.length_keys, hperm.length_eq, List.length_map]

omit [Std.LawfulEqOrd K] in
/-- A key is in the index with a given owner exactly when one single item
has that key, and it has that owner. -/
theorem get_iff_filter (h : Indexes key owner m l) (k : K) (v : V) :
    m[k]? = some v ↔ ∃ x, l.filter (fun y => key y = k) = [x] ∧ owner x = v := by
  rw [h.spec]
  constructor
  · rintro ⟨x, hx, rfl, hv⟩
    refine ⟨x, ?_, hv⟩
    have hnd : ((l.filter fun y => key y = key x).map key).Nodup :=
      h.nodup.sublist (List.filter_sublist.map key)
    have hmem : x ∈ l.filter fun y => key y = key x := by simp [hx]
    -- all items of the filtered list have one key, so there is one of them
    cases hf : l.filter fun y => key y = key x with
    | nil => rw [hf] at hmem; cases hmem
    | cons y rest =>
      cases rest with
      | nil =>
        rw [hf] at hmem
        rw [List.mem_singleton.mp hmem]
      | cons z rest =>
        have hkey : ∀ a ∈ l.filter (fun y => key y = key x), key a = key x := by
          intro a ha
          simpa using (List.mem_filter.mp ha).2
        rw [hf] at hkey hnd
        have hy := hkey y (by simp)
        have hz := hkey z (by simp)
        exact absurd hnd (by simp [hy, hz])
  · rintro ⟨x, hf, hv⟩
    have hmem : x ∈ l.filter fun y => key y = k := by rw [hf]; simp
    obtain ⟨hx, hk⟩ := List.mem_filter.mp hmem
    exact ⟨x, hx, by simpa using hk, hv⟩

end Indexes

end Index

end Nbnet.Lib
