/-
Nbnet.Lib.Largest — the `k` largest elements of a finite set.

An element is among the `k` largest when fewer than `k` elements stand
above it. The definition looks at the set alone; how a bounded table keeps
up with it while elements arrive one by one, in any order, is said by the
two insertion rules: `largest_insert_of_card_le` while there is room, and
`largest_insert_of_lt_card` once the least element has to go. Both follow
from the size of the result (`card_largest`) and from the fact that an
element outside the `k` largest never comes back when others arrive
(`largest_insert_subset`).
-/
import Mathlib.Data.Finset.Max

namespace Nbnet.Lib

variable {α : Type*} [LinearOrder α] {k : Nat} {s : Finset α}

/-- The elements with fewer than `k` elements above them. -/
def largest (k : Nat) (s : Finset α) : Finset α :=
  s.filter fun a => (s.filter (a < ·)).card < k

theorem mem_largest {a : α} : a ∈ largest k s ↔ a ∈ s ∧ (s.filter (a < ·)).card < k :=
  Finset.mem_filter

theorem largest_subset : largest k s ⊆ s :=
  Finset.filter_subset _ _

/-! ## Size -/

/-- An element below all others is among the `k` largest only while there
are fewer than `k` others, and changes nothing for them. -/
theorem largest_insert_least {m : α} (hm : ∀ x ∈ s, m < x) :
    largest k (insert m s) = if s.card < k then insert m (largest k s) else largest k s := by
  have hms : m ∉ s := fun h => lt_irrefl m (hm m h)
  have habove : ∀ x, (insert m s).filter (x < ·) = if x < m then insert m (s.filter (x < ·))
      else s.filter (x < ·) := fun x => Finset.filter_insert _ _ _
  have hself : s.filter (m < ·) = s := Finset.filter_true_of_mem hm
  ext x
  by_cases hx : x = m
  · subst hx
    have hout : x ∉ largest k s := fun h => hms (largest_subset h)
    rw [mem_largest, habove, if_neg (lt_irrefl x), hself]
    split <;> simp [*]
  · have hsame : x ∈ s → (insert m s).filter (x < ·) = s.filter (x < ·) := by
      intro hxs
      rw [habove, if_neg (not_lt_of_gt (hm x hxs))]
    have hiff : x ∈ largest k (insert m s) ↔ x ∈ largest k s := by
      rw [mem_largest, mem_largest, Finset.mem_insert, or_iff_right hx]
      exact and_congr_right fun hxs => by rw [hsame hxs]
    rw [hiff]
    split <;> simp [hx]

/-- **There are `k` largest elements, or all of them when there are
fewer.** -/
theorem card_largest (k : Nat) (s : Finset α) : (largest k s).card = min k s.card := by
  induction s using Finset.induction_on_min with
  | empty => simp [largest]
  | insert m s hm ih =>
    have hms : m ∉ s := fun h => lt_irrefl m (hm m h)
    rw [largest_insert_least hm, Finset.card_insert_of_notMem hms]
    split
    · rw [Finset.card_insert_of_notMem fun h => hms (largest_subset h), ih]
      omega
    · rw [ih]
      omega

/-! ## Arrivals -/

/-- More elements only push others out. -/
theorem largest_insert_subset (k : Nat) (s : Finset α) (a : α) :
    largest k (insert a s) ⊆ insert a (largest k s) := by
  intro b hb
  obtain ⟨hmem, hcard⟩ := mem_largest.mp hb
  rcases Finset.mem_insert.mp hmem with rfl | hbs
  · exact Finset.mem_insert_self _ _
  · refine Finset.mem_insert_of_mem (mem_largest.mpr ⟨hbs, lt_of_le_of_lt ?_ hcard⟩)
    exact Finset.card_le_card (Finset.filter_subset_filter _ (Finset.subset_insert a s))

/-- While there is room, the newcomer is taken in. -/
theorem largest_insert_of_card_le {a : α} (h : (insert a (largest k s)).card ≤ k) :
    largest k (insert a s) = insert a (largest k s) := by
  refine Finset.eq_of_subset_of_card_le (largest_insert_subset k s a) ?_
  rw [card_largest]
  exact le_min h (Finset.card_le_card (Finset.insert_subset_insert a largest_subset))

/-- With the newcomer one too many, the least element goes. -/
theorem largest_insert_of_lt_card {a m : α} (h : k < (insert a (largest k s)).card)
    (hm : m ∈ insert a (largest k s)) (hleast : ∀ b ∈ insert a (largest k s), m ≤ b) :
    largest k (insert a s) = (insert a (largest k s)).erase m := by
  have hsub : insert a (largest k s) ⊆ insert a s :=
    Finset.insert_subset_insert a largest_subset
  have hcard : ((insert a (largest k s)).erase m).card = k := by
    have hle := Finset.card_insert_le a (largest k s)
    rw [card_largest] at hle
    rw [Finset.card_erase_of_mem hm]
    omega
  -- all of the others stand above `m`
  have hout : m ∉ largest k (insert a s) := by
    intro hin
    have habove : (insert a (largest k s)).erase m ⊆ (insert a s).filter (m < ·) := by
      intro b hb
      obtain ⟨hne, hb⟩ := Finset.mem_erase.mp hb
      exact Finset.mem_filter.mpr ⟨hsub hb, lt_of_le_of_ne (hleast b hb) (Ne.symm hne)⟩
    have hle := Finset.card_le_card habove
    have hlt := (mem_largest.mp hin).2
    omega
  refine Finset.eq_of_subset_of_card_le ?_ ?_
  · exact Finset.subset_erase.mpr ⟨largest_insert_subset k s a, hout⟩
  · rw [hcard, card_largest]
    exact le_min le_rfl (le_of_lt (lt_of_lt_of_le h (Finset.card_le_card hsub)))

end Nbnet.Lib
