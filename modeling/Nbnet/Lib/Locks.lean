/-
Nbnet.Lib.Locks — threads that acquire and release mutexes.

A thread is the list of lock steps it still has to take and the locks it
holds; a configuration is a list of threads. A thread whose next step is
an acquisition moves only while nobody holds that lock (the mutexes are
not re-entrant). Any thread that can move may move next, so the reachable
configurations are those of every interleaving.

A set of threads is deadlocked when each of them waits for a lock that
another member of the set holds. Two results:

* `not_deadlocked_of_ranked` — if every program acquires locks in
  increasing rank while it holds others, no reachable configuration has a
  deadlocked set. The ranks need not be known to the program.
* `crossed_deadlock` — two programs that start by taking the same two locks
  in opposite orders do reach a deadlocked set, whatever else is in flight.
-/
import Mathlib.Data.Finset.Max
import Mathlib.Logic.Relation

namespace Nbnet.Lib

/-- One lock operation of a thread. -/
inductive LockStep (L : Type) where
  | acquire (l : L)
  | release (l : L)
  deriving DecidableEq, Repr

/-- A thread: what it holds and the lock steps still to come. -/
structure Thread (L : Type) where
  held : List L
  todo : List (LockStep L)
  deriving DecidableEq, Repr

/-- The threads in flight. -/
abbrev Config (L : Type) := List (Thread L)

variable {L : Type} [DecidableEq L]

/-- Every program at its first step, holding nothing. -/
def launch (ps : List (List (LockStep L))) : Config L :=
  ps.map fun p => ⟨[], p⟩

/-- Thread `i` takes its next step, if it can. -/
def stepAt (cfg : Config L) (i : Nat) : Option (Config L) :=
  match cfg[i]? with
  | some ⟨held, .acquire l :: rest⟩ =>
      if cfg.any (fun t => l ∈ t.held) then none else some (cfg.set i ⟨l :: held, rest⟩)
  | some ⟨held, .release l :: rest⟩ => some (cfg.set i ⟨held.erase l, rest⟩)
  | _ => none

/-- `cfg'` is reachable from `cfg` by some interleaving. -/
def Reaches (cfg cfg' : Config L) : Prop :=
  Relation.ReflTransGen (fun a b => ∃ i, stepAt a i = some b) cfg cfg'

/-- Thread `i`'s next step is to acquire `l`. -/
def WaitsFor (cfg : Config L) (i : Nat) (l : L) : Prop :=
  ∃ t ∈ cfg[i]?, ∃ rest, t.todo = .acquire l :: rest

def Holds (cfg : Config L) (i : Nat) (l : L) : Prop :=
  ∃ t ∈ cfg[i]?, l ∈ t.held

/-- Some nonempty set of threads in which each waits for a lock that
another member holds. -/
def Deadlocked (cfg : Config L) : Prop :=
  ∃ D : Finset Nat, D.Nonempty ∧
    ∀ i ∈ D, ∃ l, WaitsFor cfg i l ∧ ∃ j ∈ D, j ≠ i ∧ Holds cfg j l

/-- What a lock step does, in its two cases. -/
theorem stepAt_cases {cfg cfg' : Config L} {i : Nat} (h : stepAt cfg i = some cfg') :
    (∃ held l rest, cfg[i]? = some ⟨held, .acquire l :: rest⟩ ∧
      (∀ t ∈ cfg, l ∉ t.held) ∧ cfg' = cfg.set i ⟨l :: held, rest⟩) ∨
    (∃ held l rest, cfg[i]? = some ⟨held, .release l :: rest⟩ ∧
      cfg' = cfg.set i ⟨held.erase l, rest⟩) := by
  unfold stepAt at h
  split at h
  · rename_i held l rest hi
    split at h
    · cases h
    · rename_i hfree
      refine .inl ⟨held, l, rest, hi, ?_, by simpa using h.symm⟩
      simpa using hfree
  · rename_i held l rest hi
    exact .inr ⟨held, l, rest, hi, by simpa using h.symm⟩
  · cases h

/-! ## Ranked programs do not deadlock -/

/-- Running `todo` with `held` in hand, every acquisition is of a lock
ranked above all those held at that moment. -/
def RankedFrom (rank : L → Nat) : List L → List (LockStep L) → Prop
  | _, [] => True
  | held, .acquire l :: rest =>
      (∀ h ∈ held, rank h < rank l) ∧ RankedFrom rank (l :: held) rest
  | held, .release l :: rest => RankedFrom rank (held.erase l) rest

/-- The rank discipline of every thread survives a step. -/
theorem ranked_step {rank : L → Nat} {cfg cfg' : Config L} {i : Nat}
    (hc : ∀ t ∈ cfg, RankedFrom rank t.held t.todo) (h : stepAt cfg i = some cfg') :
    ∀ t ∈ cfg', RankedFrom rank t.held t.todo := by
  intro t ht
  rcases stepAt_cases h with ⟨held, l, rest, hi, -, rfl⟩ | ⟨held, l, rest, hi, rfl⟩
  all_goals
    have hranked := hc _ (List.mem_of_getElem? hi)
    rcases List.mem_or_eq_of_mem_set ht with ht | rfl
    · exact hc t ht
  · exact hranked.2
  · exact hranked

theorem ranked_reaches {rank : L → Nat} {cfg cfg' : Config L}
    (hc : ∀ t ∈ cfg, RankedFrom rank t.held t.todo) (h : Reaches cfg cfg') :
    ∀ t ∈ cfg', RankedFrom rank t.held t.todo := by
  induction h with
  | refl => exact hc
  | tail _ hstep ih =>
    obtain ⟨i, hi⟩ := hstep
    exact ranked_step ih hi

/-- In a ranked configuration the waits of a deadlocked set would have
ever higher ranks. -/
theorem not_deadlocked_of_ranked (rank : L → Nat) {ps : List (List (LockStep L))}
    (hps : ∀ p ∈ ps, RankedFrom rank [] p) {cfg : Config L} (h : Reaches (launch ps) cfg) :
    ¬ Deadlocked cfg := by
  rintro ⟨D, hne, hD⟩
  have hranked : ∀ t ∈ cfg, RankedFrom rank t.held t.todo := by
    refine ranked_reaches (fun t ht => ?_) h
    obtain ⟨p, hp, rfl⟩ := List.mem_map.mp ht
    exact hps p hp
  have hL : Nonempty L := by
    obtain ⟨i, hi⟩ := hne
    exact (hD i hi).nonempty
  -- the lock each member of the set waits for
  choose! want hwant using hD
  -- a member whose wanted lock is of the highest rank waits for another member
  obtain ⟨i, hi, hmax⟩ := D.exists_max_image (fun i => rank (want i)) hne
  obtain ⟨_, j, hj, _, t, htj, hheld⟩ := hwant i hi
  obtain ⟨⟨t', ht', rest, htodo⟩, _⟩ := hwant j hj
  obtain rfl : t = t' := Option.some_injective _ (htj.symm.trans ht')
  have hr := hranked t (List.mem_of_getElem? htj)
  rw [htodo] at hr
  have hlt : rank (want i) < rank (want j) := hr.1 (want i) hheld
  exact absurd (hmax j hj) (by omega)

/-! ## Crossed programs do -/

omit [DecidableEq L] in
theorem launch_getElem? (ps : List (List (LockStep L))) (i : Nat) :
    (launch ps)[i]? = (ps[i]?).map fun p => ⟨[], p⟩ := by
  simp [launch]

/-- A lock nobody holds can be taken. -/
theorem stepAt_acquire {cfg : Config L} {i : Nat} {held : List L} {l : L}
    {rest : List (LockStep L)} (hi : cfg[i]? = some ⟨held, .acquire l :: rest⟩)
    (hfree : ∀ t ∈ cfg, l ∉ t.held) : stepAt cfg i = some (cfg.set i ⟨l :: held, rest⟩) := by
  have hany : cfg.any (fun t => l ∈ t.held) = false := by
    rw [List.any_eq_false]
    intro t ht
    simpa using hfree t ht
  simp only [stepAt, hi, hany, Bool.false_eq_true, if_false]

omit [DecidableEq L] in
/-- Two threads that each wait for what the other holds. -/
theorem deadlocked_of_crossed {cfg : Config L} {i j : Nat} (hij : i ≠ j) {a b : L}
    {p q : List (LockStep L)} (hi : cfg[i]? = some ⟨[a], .acquire b :: p⟩)
    (hj : cfg[j]? = some ⟨[b], .acquire a :: q⟩) : Deadlocked cfg := by
  refine ⟨{i, j}, ⟨i, by simp⟩, fun k hk => ?_⟩
  rcases Finset.mem_insert.mp hk with rfl | hk
  · exact ⟨b, ⟨_, hi, p, rfl⟩, j, by simp, hij.symm, _, hj, by simp⟩
  · obtain rfl := Finset.mem_singleton.mp hk
    exact ⟨a, ⟨_, hj, q, rfl⟩, i, by simp, hij, _, hi, by simp⟩

/-- Two programs that begin by taking `a` then `b` and `b` then `a` can
each take their first lock, and then neither ever moves. -/
theorem crossed_deadlock {ps : List (List (LockStep L))} {a b : L} (hab : a ≠ b)
    {p q : List (LockStep L)}
    (hp : (.acquire a :: .acquire b :: p) ∈ ps) (hq : (.acquire b :: .acquire a :: q) ∈ ps) :
    ∃ cfg, Reaches (launch ps) cfg ∧ Deadlocked cfg := by
  obtain ⟨i, hi⟩ := List.mem_iff_getElem?.mp hp
  obtain ⟨j, hj⟩ := List.mem_iff_getElem?.mp hq
  have hij : i ≠ j := by
    rintro rfl
    rw [hi] at hj
    simp only [Option.some.injEq, List.cons.injEq, LockStep.acquire.injEq] at hj
    exact hab hj.1
  have hli : (launch ps)[i]? = some ⟨[], .acquire a :: .acquire b :: p⟩ := by
    rw [launch_getElem?, hi]
    rfl
  have hlj : (launch ps)[j]? = some ⟨[], .acquire b :: .acquire a :: q⟩ := by
    rw [launch_getElem?, hj]
    rfl
  have hfree : ∀ t ∈ launch ps, t.held = [] := by
    intro t ht
    obtain ⟨_, _, rfl⟩ := List.mem_map.mp ht
    rfl
  have hilt : i < (launch ps).length := (List.getElem?_eq_some_iff.mp hli).1
  -- the first program takes `a`
  have h1 := stepAt_acquire hli fun t ht => by simp [hfree t ht]
  set c1 : Config L := (launch ps).set i ⟨[a], .acquire b :: p⟩ with hc1
  have hc1i : c1[i]? = some ⟨[a], .acquire b :: p⟩ := by
    rw [hc1, List.getElem?_set_self hilt]
  have hc1j : c1[j]? = some ⟨[], .acquire b :: .acquire a :: q⟩ := by
    rw [hc1, List.getElem?_set_ne hij, hlj]
  -- nobody holds `b`, so the second takes it
  have h2 := stepAt_acquire hc1j fun t ht => by
    rcases List.mem_or_eq_of_mem_set ht with ht | rfl
    · simp [hfree t ht]
    · simp [hab.symm]
  have hjlt : j < c1.length := (List.getElem?_eq_some_iff.mp hc1j).1
  have hci : (c1.set j ⟨[b], .acquire a :: q⟩)[i]? = some ⟨[a], .acquire b :: p⟩ := by
    rw [List.getElem?_set_ne hij.symm, hc1i]
  have hcj : (c1.set j ⟨[b], .acquire a :: q⟩)[j]? = some ⟨[b], .acquire a :: q⟩ :=
    List.getElem?_set_self hjlt
  exact ⟨_, (Relation.ReflTransGen.single ⟨i, h1⟩).tail ⟨j, h2⟩,
    deadlocked_of_crossed hij hci hcj⟩

end Nbnet.Lib
