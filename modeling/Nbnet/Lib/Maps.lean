/-
Nbnet.Lib.Maps — finite maps whose iteration order is a separate choice.

A map here is extensional (`Std.ExtTreeMap`): two maps are equal exactly
when every lookup agrees, so nothing about insertion history or layout can
be observed through it. A program that walks over a hash table sees more
than that, namely SOME order of the keys. That order is not a function of
the map, so it is supplied from outside: an `IterOrder` is one way of
enumerating every map, carrying the proof that it lists each key exactly
once. A statement proved for all `IterOrder`s holds whatever the table
does.

`filter_insertionSort` says that taking keys out of a walk and sorting
stably can be done in either order.

`foldl_pointwise` is the rule the loops over such a map are read with: a
loop body that touches only the cell of the key it visits has, after any
duplicate-free traversal, acted once on each visited cell and on no other.
-/
import Mathlib.Tactic.Common
import Mathlib.Data.List.Nodup
import Mathlib.Data.List.Perm.Subperm
import Mathlib.Data.List.Sort

namespace Nbnet.Lib

/-- A finite map, compared by lookups only. -/
abbrev FMap (K V : Type) [Ord K] := Std.ExtTreeMap K V compare

section Lookup

variable {K V : Type} [Ord K] [Std.TransOrd K] [Std.LawfulEqOrd K]

theorem FMap.get_insert [DecidableEq K] (m : FMap K V) (k a : K) (v : V) :
    (m.insert k v)[a]? = if k = a then some v else m[a]? := by
  simp [Std.ExtTreeMap.getElem?_insert]

theorem FMap.get_erase [DecidableEq K] (m : FMap K V) (k a : K) :
    (m.erase k)[a]? = if k = a then none else m[a]? := by
  simp [Std.ExtTreeMap.getElem?_erase]

theorem FMap.get_insert_of_ne (m : FMap K V) {k a : K} (v : V) (h : k ≠ a) :
    (m.insert k v)[a]? = m[a]? := by
  simp [Std.ExtTreeMap.getElem?_insert, h]

theorem FMap.get_erase_of_ne (m : FMap K V) {k a : K} (h : k ≠ a) :
    (m.erase k)[a]? = m[a]? := by
  simp [Std.ExtTreeMap.getElem?_erase, h]

theorem FMap.mem_keys_iff (m : FMap K V) (k : K) : k ∈ m.keys ↔ (m[k]?).isSome := by
  rw [Std.ExtTreeMap.mem_keys, Std.ExtTreeMap.isSome_getElem?_iff_mem]

omit [Std.LawfulEqOrd K] in
theorem FMap.keys_nodup (m : FMap K V) : m.keys.Nodup :=
  Std.ExtTreeMap.nodup_keys

/-- Membership in the entry list is a lookup. -/
theorem FMap.mem_toList_iff (m : FMap K V) (k : K) (v : V) :
    (k, v) ∈ m.toList ↔ m[k]? = some v :=
  Std.ExtTreeMap.mem_toList_iff_getElem?_eq_some

/-- Erasing along a list of keys. -/
theorem FMap.get_foldl_erase [DecidableEq K] (l : List K) (m : FMap K V) (a : K) :
    (l.foldl (fun m k => m.erase k) m)[a]? = if a ∈ l then none else m[a]? := by
  induction l generalizing m with
  | nil => simp
  | cons k l ih =>
    rw [List.foldl_cons, ih, FMap.get_erase]
    by_cases hk : k = a
    · subst hk; simp
    · simp [hk, Ne.symm hk]

/-! ### Entry lists -/

omit [Std.LawfulEqOrd K] in
theorem FMap.toList_nodup (m : FMap K V) : m.toList.Nodup :=
  List.Nodup.of_map Prod.fst (by rw [Std.ExtTreeMap.map_fst_toList_eq_keys]; exact m.keys_nodup)

/-- A fresh key adds one entry. -/
theorem FMap.toList_insert_perm (m : FMap K V) {k : K} (v : V) (h : m[k]? = none) :
    (m.insert k v).toList.Perm ((k, v) :: m.toList) := by
  classical
  have hk : (k, v) ∉ m.toList := by
    rw [FMap.mem_toList_iff, h]
    exact fun h => nomatch h
  refine (List.perm_ext_iff_of_nodup (FMap.toList_nodup _)
    (List.nodup_cons.mpr ⟨hk, m.toList_nodup⟩)).mpr ?_
  rintro ⟨a, w⟩
  rw [FMap.mem_toList_iff, FMap.get_insert, List.mem_cons, FMap.mem_toList_iff, Prod.mk.injEq]
  by_cases hka : k = a
  · subst hka; simp [h, eq_comm]
  · simp [hka, Ne.symm hka]

/-- Erasing a present key drops exactly its entry. -/
theorem FMap.toList_erase_perm (m : FMap K V) {k : K} {v : V} (h : m[k]? = some v) :
    m.toList.Perm ((k, v) :: (m.erase k).toList) := by
  classical
  have hk : (k, v) ∉ (m.erase k).toList := by
    rw [FMap.mem_toList_iff, FMap.get_erase, if_pos rfl]
    exact fun h => nomatch h
  refine (List.perm_ext_iff_of_nodup m.toList_nodup
    (List.nodup_cons.mpr ⟨hk, FMap.toList_nodup _⟩)).mpr ?_
  rintro ⟨a, w⟩
  rw [FMap.mem_toList_iff, List.mem_cons, FMap.mem_toList_iff, FMap.get_erase, Prod.mk.injEq]
  by_cases hka : k = a
  · subst hka; simp [h, eq_comm]
  · simp [hka, Ne.symm hka]

theorem FMap.erase_of_none (m : FMap K V) {k : K} (h : m[k]? = none) : m.erase k = m := by
  classical
  refine Std.ExtTreeMap.ext_getElem? fun a => ?_
  rw [FMap.get_erase]
  by_cases hka : k = a
  · subst hka; simp [h]
  · simp [hka]

/-- Writing a key twice keeps the second value. -/
theorem FMap.erase_insert (m : FMap K V) (k : K) (v : V) :
    (m.insert k v).erase k = m.erase k := by
  classical
  refine Std.ExtTreeMap.ext_getElem? fun a => ?_
  rw [FMap.get_erase, FMap.get_erase, FMap.get_insert]
  by_cases hka : k = a <;> simp [hka]

/-- Two writes can be swapped when they do not disagree about one key. -/
theorem FMap.insert_comm (m : FMap K V) {k k' : K} {v v' : V} (h : k = k' → v = v') :
    (m.insert k v).insert k' v' = (m.insert k' v').insert k v := by
  classical
  refine Std.ExtTreeMap.ext_getElem? fun a => ?_
  rw [FMap.get_insert, FMap.get_insert, FMap.get_insert, FMap.get_insert]
  by_cases hk : k = a
  · by_cases hk' : k' = a
    · simp [hk, hk', h (hk.trans hk'.symm)]
    · simp [hk, hk']
  · simp [hk]

/-- The size after erasing a present key. -/
theorem FMap.size_erase_of_some (m : FMap K V) {k : K} {v : V} (h : m[k]? = some v) :
    (m.erase k).size + 1 = m.size := by
  have := (m.toList_erase_perm h).length_eq
  simpa using this.symm

/-- The size after adding entries at fresh keys. -/
theorem FMap.size_of_added (m m' : FMap K V) {l : List K} (hl : l.Nodup)
    (hfree : ∀ k ∈ l, m[k]? = none) (hadded : ∀ k ∈ l, (m'[k]?).isSome)
    (hother : ∀ k, k ∉ l → m'[k]? = m[k]?) : m'.size = m.size + l.length := by
  have hnew : (l ++ m.keys).Nodup := by
    refine List.nodup_append'.mpr ⟨hl, m.keys_nodup, fun k hk hkm => ?_⟩
    rw [FMap.mem_keys_iff, hfree k hk] at hkm
    cases hkm
  have hperm : m'.keys.Perm (l ++ m.keys) := by
    refine (List.perm_ext_iff_of_nodup m'.keys_nodup hnew).mpr fun k => ?_
    rw [FMap.mem_keys_iff, List.mem_append, FMap.mem_keys_iff]
    by_cases hk : k ∈ l
    · simp [hk, hadded k hk]
    · simp [hk, hother k hk]
  have hlen := hperm.length_eq
  rw [List.length_append, Std.ExtTreeMap.length_keys, Std.ExtTreeMap.length_keys] at hlen
  omega

/-- A map whose keys are among another's is no larger. -/
theorem FMap.size_le_of_keys (m m' : FMap K V) (h : ∀ k : K, (m[k]?).isSome → (m'[k]?).isSome) :
    m.size ≤ m'.size := by
  have hsub : m.keys.Subperm m'.keys := by
    refine m.keys_nodup.subperm fun k hk => ?_
    rw [FMap.mem_keys_iff] at hk ⊢
    exact h k hk
  have hlen := hsub.length_le
  rwa [Std.ExtTreeMap.length_keys, Std.ExtTreeMap.length_keys] at hlen

end Lookup

/-! ## First and last key -/

section Extremes

variable {K V : Type} [Ord K] [Std.TransOrd K] [Std.LawfulEqOrd K]

/-- Every key is at most the last one of the ascending key list. -/
theorem FMap.le_last (m : FMap K V) {k l : K} (hl : m.keys.getLast? = some l)
    (hk : (m[k]?).isSome) : k = l ∨ compare k l = .lt := by
  obtain ⟨pre, hpre⟩ := List.getLast?_eq_some_iff.mp hl
  have hmem : k ∈ m.keys := (FMap.mem_keys_iff m k).mpr hk
  have hord : m.keys.Pairwise fun a b => compare a b = .lt := Std.ExtTreeMap.ordered_keys
  rw [hpre] at hmem hord
  rcases List.mem_append.mp hmem with h | h
  · exact .inr ((List.pairwise_append.mp hord).2.2 k h l (by simp))
  · exact .inl (by simpa using h)

theorem FMap.last_mem (m : FMap K V) {l : K} (hl : m.keys.getLast? = some l) :
    (m[l]?).isSome :=
  (FMap.mem_keys_iff m l).mp (List.mem_of_getLast? hl)

theorem FMap.eq_none_of_last_none (m : FMap K V) (hl : m.keys.getLast? = none) (k : K) :
    m[k]? = none := by
  have hkeys : m.keys = [] := List.getLast?_eq_none_iff.mp hl
  have hk : k ∉ m.keys := by rw [hkeys]; simp
  rw [FMap.mem_keys_iff] at hk
  simpa using hk

/-- The head of the ascending key list is the least key. -/
theorem FMap.first_key (m : FMap K V) {f : K} (hf : m.keys.head? = some f) :
    (m[f]?).isSome ∧ ∀ k, (m[k]?).isSome → k = f ∨ compare f k = .lt := by
  obtain ⟨tl, htl⟩ := List.head?_eq_some_iff.mp hf
  have hord : m.keys.Pairwise fun a b => compare a b = .lt := Std.ExtTreeMap.ordered_keys
  refine ⟨(FMap.mem_keys_iff m f).mp (List.mem_of_head? hf), fun k hk => ?_⟩
  have hmem : k ∈ m.keys := (FMap.mem_keys_iff m k).mpr hk
  rw [htl] at hmem hord
  rcases List.mem_cons.mp hmem with h | h
  · exact .inl h
  · exact .inr ((List.pairwise_cons.mp hord).1 k h)

/-- The first entry of the ascending list is the one at the least key. -/
theorem FMap.first_entry (m : FMap K V) {f : K} {v : V} (hf : m.toList.head? = some (f, v)) :
    m[f]? = some v ∧ ∀ k, (m[k]?).isSome → k = f ∨ compare f k = .lt := by
  have hkey : m.keys.head? = some f := by
    rw [← Std.ExtTreeMap.map_fst_toList_eq_keys, List.head?_map, hf]
    rfl
  exact ⟨(FMap.mem_toList_iff m f v).mp (List.mem_of_head? hf), (m.first_key hkey).2⟩

/-- A map is its first entry and the rest. -/
theorem FMap.toList_eq_cons (m : FMap K V) {k : K} {v : V} (hget : m[k]? = some v)
    (hfirst : ∀ k', (m[k']?).isSome → k' = k ∨ compare k k' = .lt) :
    m.toList = (k, v) :: (m.erase k).toList := by
  have hsorted : ∀ m : FMap K V, m.toList.Pairwise fun a b => compare a.1 b.1 = .lt :=
    fun m => Std.ExtTreeMap.ordered_keys_toList
  refine (m.toList_erase_perm hget).eq_of_pairwise ?_ (hsorted m)
    (List.pairwise_cons.mpr ⟨fun e he => ?_, hsorted _⟩)
  · intro a b _ _ hab hba
    have hself : compare a.1 a.1 = .eq := Std.ReflCmp.compare_self
    cases hself.symm.trans (Std.TransCmp.lt_trans hab hba)
  · have hrest := (FMap.mem_toList_iff (m.erase k) e.1 e.2).mp he
    by_cases hk : k = e.1
    · rw [hk] at hrest
      simp at hrest
    · rw [FMap.get_erase_of_ne m hk] at hrest
      exact (hfirst e.1 (by simp [hrest])).resolve_left fun heq => hk heq.symm

end Extremes

/-! ## Iteration orders -/

/-- One way of enumerating the keys of every map, each exactly once. -/
structure IterOrder (K V : Type) [Ord K] [Std.TransOrd K] where
  order : FMap K V → List K
  perm : ∀ m, (order m).Perm m.keys

namespace IterOrder

variable {K V : Type} [Ord K] [Std.TransOrd K] [Std.LawfulEqOrd K]

/-- The ascending order, as an ordered map would be walked. -/
def ascending : IterOrder K V where
  order := fun m => m.keys
  perm := fun _ => .refl _

/-- The descending order: a second order, for statements that compare two. -/
def descending : IterOrder K V where
  order := fun m => m.keys.reverse
  perm := fun _ => List.reverse_perm _

omit [Std.LawfulEqOrd K] in
theorem nodup (it : IterOrder K V) (m : FMap K V) : (it.order m).Nodup :=
  (it.perm m).nodup_iff.mpr m.keys_nodup

theorem mem_order (it : IterOrder K V) (m : FMap K V) (k : K) :
    k ∈ it.order m ↔ (m[k]?).isSome := by
  rw [(it.perm m).mem_iff, FMap.mem_keys_iff]

open Classical in
/-- The map without `k` listed as `it` lists the map. -/
noncomputable def without (it : IterOrder K V) (m : FMap K V) (k : K) : IterOrder K V where
  order m' := if m' = m.erase k then (it.order m).filter (· ≠ k) else it.order m'
  perm m' := by
    split
    · rename_i heq
      subst heq
      refine (List.perm_ext_iff_of_nodup ((it.nodup m).filter _) (FMap.keys_nodup _)).mpr
        fun a => ?_
      rw [List.mem_filter, it.mem_order, FMap.mem_keys_iff, FMap.get_erase]
      by_cases hka : k = a
      · simp [hka]
      · simp [hka, Ne.symm hka]
    · exact it.perm m'

theorem without_order (it : IterOrder K V) (m : FMap K V) [DecidableEq K] (k : K) :
    (it.without m k).order (m.erase k) = (it.order m).filter (· ≠ k) := by
  simp only [without, if_true]
  exact List.filter_congr fun _ _ => by simp

end IterOrder

/-! ## Sorting what a walk lists -/

section Sorting

variable {α : Type*} {r : α → α → Prop} [DecidableRel r] [IsTrans α r]

/-- Inserting in a sorted list, seen through a filter. -/
theorem filter_orderedInsert (p : α → Bool) (a : α) (l : List α) (h : l.Pairwise r) :
    (l.orderedInsert r a).filter p
      = if p a then (l.filter p).orderedInsert r a else l.filter p := by
  induction l with
  | nil => cases hp : p a <;> simp [hp]
  | cons b l ih =>
    obtain ⟨hb, hl⟩ := List.pairwise_cons.mp h
    rw [List.orderedInsert_cons]
    split
    · rename_i hab
      cases hp : p a with
      | false => simp [hp]
      | true =>
        -- what the filter leaves of the list comes after `a`
        rw [List.filter_cons_of_pos hp, if_pos rfl]
        cases hf : (b :: l).filter p with
        | nil => rfl
        | cons d ds =>
          have hd : d ∈ (b :: l).filter p := by simp [hf]
          have had : r a d := by
            rcases List.mem_cons.mp (List.mem_filter.mp hd).1 with rfl | hmem
            · exact hab
            · exact IsTrans.trans a b d hab (hb d hmem)
          rw [List.orderedInsert_cons_of_le r ds had]
    · rename_i hab
      cases hpb : p b with
      | false =>
        rw [List.filter_cons_of_neg (by simp [hpb]), ih hl, List.filter_cons_of_neg (by simp [hpb])]
      | true =>
        rw [List.filter_cons_of_pos hpb, ih hl, List.filter_cons_of_pos hpb]
        split
        · rw [List.orderedInsert_of_not_le r _ hab]
        · rfl

/-- A stable sort keeps what a filter leaves in the order it has. -/
theorem filter_insertionSort [Std.Total r] (p : α → Bool) (l : List α) :
    (l.insertionSort r).filter p = (l.filter p).insertionSort r := by
  induction l with
  | nil => rfl
  | cons a l ih =>
    rw [List.insertionSort_cons, filter_orderedInsert p a _ (List.pairwise_insertionSort r l), ih]
    cases hp : p a with
    | false => rw [List.filter_cons_of_neg (by simp [hp])]; rfl
    | true => rw [List.filter_cons_of_pos hp, List.insertionSort_cons]; rfl

end Sorting

/-! ## What each of a list of keys offers -/

section Offered

variable {κ α : Type} {f : κ → Option α} {key : α → κ}

/-- At most one thing per key, in the order of the keys. -/
theorem filterMap_key_sublist (hkey : ∀ k a, f k = some a → key a = k) (l : List κ) :
    ((l.filterMap f).map key).Sublist l := by
  induction l with
  | nil => exact .slnil
  | cons k l ih =>
    cases hk : f k with
    | none =>
      rw [List.filterMap_cons_none hk]
      exact ih.cons k
    | some a =>
      rw [List.filterMap_cons_some hk, List.map_cons, hkey k a hk]
      exact ih.cons_cons k

/-- What the keys left offer is what is left of what all of them offer. -/
theorem filter_filterMap_key (hkey : ∀ k a, f k = some a → key a = k) (p : κ → Bool)
    (l : List κ) : (l.filterMap f).filter (fun a => p (key a)) = (l.filter p).filterMap f := by
  rw [List.filter_filterMap, List.filterMap_filter]
  refine List.filterMap_congr fun k _ => ?_
  cases hk : f k with
  | none => simp
  | some a => rw [Option.filter_some, hkey k a hk]

end Offered

/-! ## Loops that act on one cell per visited key -/

section Pointwise

variable {σ κ β : Type*} [DecidableEq κ]

/-- A loop body that only rewrites the cell of the key it visits, by a
function `g` of that key and that cell, has rewritten exactly the visited
cells once the traversal is over. -/
theorem foldl_pointwise (obs : σ → κ → β) (step : σ → κ → σ) (g : κ → β → β)
    (hself : ∀ s k, obs (step s k) k = g k (obs s k))
    (hother : ∀ s k k', k' ≠ k → obs (step s k) k' = obs s k') :
    ∀ (l : List κ), l.Nodup → ∀ (s : σ) (k : κ),
      obs (l.foldl step s) k = if k ∈ l then g k (obs s k) else obs s k
  | [], _, s, k => by simp
  | a :: l, hl, s, k => by
      obtain ⟨ha, hl'⟩ := List.nodup_cons.mp hl
      rw [List.foldl_cons, foldl_pointwise obs step g hself hother l hl' (step s a) k]
      by_cases hk : k = a
      · subst hk
        simp [ha, hself]
      · simp [hk, hother s a k hk]

omit [DecidableEq κ] in
/-- A field no step of the loop writes is unchanged by the loop. -/
theorem foldl_unchanged {γ : Type*} (obs : σ → γ) (step : σ → κ → σ)
    (h : ∀ s k, obs (step s k) = obs s) (l : List κ) (s : σ) :
    obs (l.foldl step s) = obs s := by
  induction l generalizing s with
  | nil => rfl
  | cons a l ih => rw [List.foldl_cons, ih, h]

/-- A loop over a map's entries, each turn acting on the cell of its own
key only, has acted once on every cell the map has an entry for. -/
theorem foldl_entries {K V : Type} [Ord K] [Std.TransOrd K] [Std.LawfulEqOrd K] {σ β : Type*}
    (obs : σ → K → β) (step : σ → K × V → σ) (g : V → β → β)
    (hself : ∀ s e, obs (step s e) e.1 = g e.2 (obs s e.1))
    (hother : ∀ s e k, k ≠ e.1 → obs (step s e) k = obs s k) (m : FMap K V) (s : σ) (k : K) :
    obs (m.toList.foldl step s) k
      = match m[k]? with
        | some v => g v (obs s k)
        | none => obs s k := by
  have hloop : ∀ (l : List (K × V)) (s : σ), (l.map Prod.fst).Nodup →
      (∀ v, (k, v) ∈ l → obs (l.foldl step s) k = g v (obs s k)) ∧
        (k ∉ l.map Prod.fst → obs (l.foldl step s) k = obs s k) := by
    intro l
    induction l with
    | nil => intro s _; simp
    | cons e l ih =>
      intro s hl
      obtain ⟨he, hl'⟩ := List.nodup_cons.mp hl
      obtain ⟨hin, hout⟩ := ih (step s e) hl'
      rw [List.foldl_cons]
      constructor
      · intro v hv
        rcases List.mem_cons.mp hv with rfl | hv
        · rw [hout he, hself]
        · have hne : k ≠ e.1 := by
            rintro rfl
            exact he (List.mem_map.mpr ⟨_, hv, rfl⟩)
          rw [hin v hv, hother s e k hne]
      · intro hk
        obtain ⟨hne, hk'⟩ := List.ne_and_not_mem_of_not_mem_cons hk
        rw [hout hk', hother s e k hne]
  have hkeys : (m.toList.map Prod.fst).Nodup := by
    rw [Std.ExtTreeMap.map_fst_toList_eq_keys]
    exact m.keys_nodup
  obtain ⟨hin, hout⟩ := hloop m.toList s hkeys
  cases hk : m[k]? with
  | some v => exact hin v ((FMap.mem_toList_iff m k v).mpr hk)
  | none =>
    refine hout ?_
    rw [Std.ExtTreeMap.map_fst_toList_eq_keys, FMap.mem_keys_iff, hk]
    exact Bool.false_ne_true

end Pointwise

end Nbnet.Lib
