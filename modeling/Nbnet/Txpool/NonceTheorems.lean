/-
Nbnet.Txpool.NonceTheorems — which nonces a sender has pending.

The source documents the pending map as "nonce-continuous from the current
account nonce". `collect_payload` breaks that: it takes the head of a
pending map out before anything is committed, so when the collected block
is dropped the rest of the map starts too high. `pending_executable_iff`
says exactly when.

`queueOf` reads a sender's queue, an empty one for a sender with no
record; one lemma per operation says what it does to it. The invariant of
a run is `Linked`: a pending nonce above the committed one follows a nonce
that is pending or was handed out.
-/
import Nbnet.Txpool.PoolTheorems

namespace Nbnet.Txpool

open Lib

/-- The queue of a sender. -/
def queueOf (inner : PoolInner) (s : Address) : SenderQueue := (inner.senders[s]?).getD {}

/-- The account nonce `submit_tx` sees. -/
def seenNonce (nonceFn : Option (Address → UInt64)) (s : Address) : UInt64 :=
  (nonceFn.map (· s)).getD 0

/-! ## What each operation does to a queue -/

theorem queueOf_insert (inner : PoolInner) (byHash : FMap B256 Address) (s s' : Address)
    (queue : SenderQueue) :
    queueOf { senders := inner.senders.insert s queue, byHash } s'
      = if s = s' then queue else queueOf inner s' := by
  simp only [queueOf]
  rw [FMap.get_insert]
  split <;> rfl

/-- A submission either leaves every queue as it is or places its entry in
the sender's queue and promotes. -/
theorem queueOf_submitVerified (config : EvmTxPoolConfig) (nonceFn : Option (Address → UInt64))
    (inner : PoolInner) (v : VerifiedTx) :
    (∀ s, queueOf (submitVerified config nonceFn inner v).2 s = queueOf inner s) ∨
    (∃ queue' old,
      inner.byHash[v.txHash]? = none ∧ ¬ v.envelope.nonce < seenNonce nonceFn v.sender ∧
      placeEntry config (queueOf inner v.sender)
        (slotFor (queueOf inner v.sender) (seenNonce nonceFn v.sender) v.envelope.nonce)
        { verified := v, effectiveTip := effectiveGasTip v.envelope config.baseFee }
        = .ok (queue', old) ∧
      ∀ s, queueOf (submitVerified config nonceFn inner v).2 s
        = if v.sender = s then promoteQueuedStatic queue' (seenNonce nonceFn v.sender)
          else queueOf inner s) := by
  rcases submitVerified_cases config nonceFn inner v with
    ⟨e, heq⟩ | ⟨e, heq⟩ | ⟨queue', old, hnew, hnonce, hplace, heq⟩
  · exact .inl fun s => by rw [heq]
  · refine .inl fun s => ?_
    rw [heq, queueOf_insert]
    split
    · rename_i hs; subst hs; rfl
    · rfl
  · refine .inr ⟨queue', old, hnew, hnonce, hplace, fun s => ?_⟩
    rw [heq, queueOf_insert]
    rfl

theorem queueOf_removeIncluded (inner : PoolInner) (c : Candidate) (s : Address) :
    queueOf (removeIncluded inner c) s
      = if c.sender = s then
          { queueOf inner s with pending := (queueOf inner s).pending.erase c.nonce }
        else queueOf inner s := by
  unfold removeIncluded
  split
  · rename_i hnone
    by_cases hs : c.sender = s
    · subst hs
      rw [if_pos rfl, FMap.erase_of_none]
      simp [queueOf, hnone]
    · rw [if_neg hs]
  · rename_i queue hsome
    split
    · rename_i hfree
      by_cases hs : c.sender = s
      · subst hs
        have hq : queueOf inner c.sender = queue := by simp [queueOf, hsome]
        rw [if_pos rfl, hq, FMap.erase_of_none _ hfree]
      · rw [if_neg hs]
    · rw [queueOf_insert]
      by_cases hs : c.sender = s
      · subst hs
        have hq : queueOf inner c.sender = queue := by simp [queueOf, hsome]
        rw [if_pos rfl, if_pos rfl, hq]
      · rw [if_neg hs, if_neg hs]

/-- Collection takes the included nonces out of pending and touches
nothing else. -/
theorem queueOf_removeAll (l : List Candidate) (inner : PoolInner) (s : Address) :
    (∀ n : UInt64, (queueOf (l.foldl removeIncluded inner) s).pending[n]?
      = if ∃ c ∈ l, c.sender = s ∧ c.nonce = n then none else (queueOf inner s).pending[n]?) ∧
    (queueOf (l.foldl removeIncluded inner) s).queued = (queueOf inner s).queued := by
  induction l generalizing inner with
  | nil => simp
  | cons c l ih =>
    obtain ⟨hp, hq⟩ := ih (removeIncluded inner c)
    rw [List.foldl_cons]
    refine ⟨fun n => ?_, ?_⟩
    · rw [hp n, queueOf_removeIncluded]
      by_cases hs : c.sender = s
      · rw [if_pos hs, FMap.get_erase]
        by_cases hn : c.nonce = n
        · simp [hs, hn]
        · simp [hs, hn]
      · simp [hs]
    · rw [hq, queueOf_removeIncluded]
      split <;> rfl

/-- What the loop of a commit has made of one sender: its record, and
whether the record is marked for removal. -/
def CommitLoop.cell (st : CommitLoop) (s : Address) : Option SenderQueue × Prop :=
  (st.senders[s]?, s ∈ st.emptySenders)

/-- What a turn makes of its sender's. -/
def committedCell (nonceFn : Address → UInt64) (s : Address) (c : Option SenderQueue × Prop) :
    Option SenderQueue × Prop :=
  (c.1.map fun q => (commitQueue q (nonceFn s)).1,
    c.2 ∨ ∃ q, c.1 = some q ∧ (commitQueue q (nonceFn s)).1 = {})

theorem isEmpty_iff_default (queue : SenderQueue) :
    (queue.pending.isEmpty ∧ queue.queued.isEmpty) ↔ queue = {} := by
  refine ⟨eq_default_of_isEmpty, ?_⟩
  rintro rfl
  simp

theorem commitSender_cell (nonceFn : Address → UInt64) (st : CommitLoop) (s : Address) :
    (commitSender nonceFn st s).cell s = committedCell nonceFn s (st.cell s) := by
  unfold commitSender
  split
  · rename_i hnone
    simp [CommitLoop.cell, committedCell, hnone]
  · rename_i q hsome
    by_cases hempty : (commitQueue q (nonceFn s)).1 = {}
    · simp [CommitLoop.cell, committedCell, hsome, hempty]
    · have hkeep := mt (isEmpty_iff_default (commitQueue q (nonceFn s)).1).mp hempty
      simp only [CommitLoop.cell, committedCell, hsome, if_neg hkeep]
      simp [hempty]

theorem commitSender_cell_of_ne (nonceFn : Address → UInt64) (st : CommitLoop) {s b : Address}
    (hsb : b ≠ s) : (commitSender nonceFn st s).cell b = st.cell b := by
  unfold commitSender
  split
  · rfl
  · simp only [CommitLoop.cell]
    rw [FMap.get_insert_of_ne _ _ (Ne.symm hsb)]
    split
    · simp [hsb]
    · rfl

/-- The loop cleans and promotes each sender's record once and marks it
when it holds nothing. -/
theorem commitLoop_cell (inner : PoolInner) (it : IterOrder Address SenderQueue)
    (nonceFn : Address → UInt64) (s : Address) :
    ((it.order inner.senders).foldl (commitSender nonceFn) { senders := inner.senders }).cell s
      = committedCell nonceFn s (inner.senders[s]?, False) := by
  rw [foldl_pointwise CommitLoop.cell (commitSender nonceFn) (committedCell nonceFn)
    (commitSender_cell nonceFn) (fun st a b => commitSender_cell_of_ne nonceFn st)
    (it.order inner.senders) (it.nodup inner.senders)]
  split
  · simp [CommitLoop.cell]
  · rename_i hno
    rw [it.mem_order] at hno
    have hnone : inner.senders[s]? = none := by simpa using hno
    simp [CommitLoop.cell, committedCell, hnone]

/-- A commit cleans and promotes every queue and keeps a record for those
that hold something. -/
theorem senders_onCommit (it : IterOrder Address SenderQueue) (inner : PoolInner)
    (nonceFn : Address → UInt64) (s : Address) :
    (onCommit it inner nonceFn).senders[s]?
      = if (commitQueue (queueOf inner s) (nonceFn s)).1 = {} then none
        else some (commitQueue (queueOf inner s) (nonceFn s)).1 := by
  obtain ⟨hget, hmarked⟩ := Prod.mk.inj (commitLoop_cell inner it nonceFn s)
  simp only [onCommit]
  rw [FMap.get_foldl_erase, hget]
  cases hs : inner.senders[s]? with
  | none => simp [queueOf, hs]
  | some q =>
    have hq : queueOf inner s = q := by simp [queueOf, hs]
    simp only [hs, false_or, Option.some.injEq, exists_eq_left'] at hmarked
    simp only [hmarked, hq, Option.map_some]

theorem queueOf_onCommit (it : IterOrder Address SenderQueue) (inner : PoolInner)
    (nonceFn : Address → UInt64) (s : Address) :
    queueOf (onCommit it inner nonceFn) s
      = (commitQueue (queueOf inner s) (nonceFn s)).1 := by
  rw [queueOf, senders_onCommit]
  split
  · rename_i hempty
    rw [hempty]
    rfl
  · rfl

/-! ## Where pending nonces come from -/

/-- The nonce of a pending transaction is at most the committed one, or
follows a nonce that is pending or was handed out. -/
def Linked (queue : SenderQueue) (committed : UInt64) (handed : UInt64 → Prop) : Prop :=
  ∀ n : UInt64, (queue.pending[n]?).isSome → n.toNat ≤ committed.toNat ∨
    ∃ p : UInt64, p.toNat + 1 = n.toNat ∧ ((queue.pending[p]?).isSome ∨ handed p)

theorem Linked.mono {queue : SenderQueue} {c c' : UInt64} {H H' : UInt64 → Prop}
    (h : Linked queue c H) (hc : c.toNat ≤ c'.toNat) (hH : ∀ n, H n → H' n) :
    Linked queue c' H' := by
  intro n hn
  rcases h n hn with hle | ⟨p, hp, hp' | hp'⟩
  · exact .inl (by omega)
  · exact .inr ⟨p, hp, .inl hp'⟩
  · exact .inr ⟨p, hp, .inr (hH p hp')⟩

theorem linked_default (c : UInt64) (H : UInt64 → Prop) : Linked {} c H := by
  intro n hn
  simp at hn

/-- What was pending stays pending through a promotion. -/
theorem Promoted.pending_isSome {queue queue' : SenderQueue} {next : UInt64} {k : Nat}
    (h : Promoted queue queue' next k) (n : UInt64) :
    (queue'.pending[n]?).isSome ↔ (queue.pending[n]?).isSome ∨ InRun next k n := by
  rw [h.pending n]
  by_cases hr : InRun next k n
  · simp [hr, h.wasQueued n hr]
  · simp [hr]

/-- The start of a promotion that moves something is the account nonce of
an empty pending map, or follows the last pending nonce. -/
theorem promoteStart_cases (queue : SenderQueue) (currentNonce : UInt64) :
    (promoteStart queue currentNonce = currentNonce ∧
      ∀ n : UInt64, queue.pending[n]? = none) ∨
    ∃ l : UInt64, (queue.pending[l]?).isSome ∧
      (∀ n : UInt64, (queue.pending[n]?).isSome → n.toNat ≤ l.toNat) ∧
      (promoteStart queue currentNonce = 0 ∨
        (promoteStart queue currentNonce).toNat = l.toNat + 1) := by
  unfold promoteStart
  cases hl : queue.pending.keys.getLast? with
  | none => exact .inl ⟨rfl, queue.pending.eq_none_of_last_none hl⟩
  | some l =>
    refine .inr ⟨l, queue.pending.last_mem hl, fun n hn => pending_le_last hl hn, ?_⟩
    have hlt := l.toNat_lt
    by_cases hw : l.toNat + 1 = 2 ^ 64
    · exact .inl (succ64_top hw)
    · exact .inr (toNat_succ64 l (by omega))

theorem inRun_pred {next n : UInt64} {k : Nat} (h : InRun next k n)
    (hne : n.toNat ≠ next.toNat) : ∃ p : UInt64, p.toNat + 1 = n.toNat ∧ InRun next k p := by
  obtain ⟨h1, h2⟩ := h
  have hlt := n.toNat_lt
  have hp : (UInt64.ofNat (n.toNat - 1)).toNat = n.toNat - 1 := by
    rw [UInt64.toNat_ofNat']; omega
  exact ⟨UInt64.ofNat (n.toNat - 1), by omega, ⟨by omega, by omega⟩⟩

/-- Promotion adds the account nonce or successors of pending nonces. -/
theorem linked_promote {queue : SenderQueue} {c : UInt64} {H : UInt64 → Prop}
    (h0 : queue.queued[(0 : UInt64)]? = none) (h : Linked queue c H) :
    Linked (promoteQueuedStatic queue c) c H := by
  obtain ⟨k, hk⟩ := promoteQueuedStatic_spec queue c h0
  intro n hn
  rcases (hk.pending_isSome n).mp hn with hold | hrun
  · rcases h n hold with hle | ⟨p, hp, hp' | hp'⟩
    · exact .inl hle
    · exact .inr ⟨p, hp, .inl ((hk.pending_isSome p).mpr (.inl hp'))⟩
    · exact .inr ⟨p, hp, .inr hp'⟩
  · by_cases hstart : n.toNat = (promoteStart queue c).toNat
    · rcases promoteStart_cases queue c with ⟨hc, -⟩ | ⟨l, hl, -, hz | hnext⟩
      · exact .inl (by rw [hstart, hc])
      · exact absurd hz (hk.next_ne_zero h0 hrun)
      · exact .inr ⟨l, by omega, .inl ((hk.pending_isSome l).mpr (.inl hl))⟩
    · obtain ⟨p, hp, hpr⟩ := inRun_pred hrun hstart
      exact .inr ⟨p, hp, .inl ((hk.pending_isSome p).mpr (.inr hpr))⟩

/-- A submission adds the account nonce or the successor of a pending
nonce to pending. -/
theorem linked_place {config : EvmTxPoolConfig} {queue queue' : SenderQueue} {entry : PoolEntry}
    {old : Option B256} {c : UInt64} {H : UInt64 → Prop} (h : Linked queue c H)
    (hplace : placeEntry config queue (slotFor queue c entry.verified.envelope.nonce) entry
      = .ok (queue', old)) : Linked queue' c H := by
  obtain ⟨rfl, -⟩ := placeEntry_ok hplace
  cases hslot : slotFor queue c entry.verified.envelope.nonce with
  | queued => exact h
  | pending =>
    intro n hn
    simp only [SenderQueue.setMap, SenderQueue.map] at hn ⊢
    have hkeep : ∀ p : UInt64, (queue.pending[p]?).isSome →
        ((queue.pending.insert entry.verified.envelope.nonce entry)[p]?).isSome := by
      intro p hp
      rw [FMap.get_insert]
      split <;> [rfl; exact hp]
    by_cases hnn : entry.verified.envelope.nonce = n
    · subst hnn
      simp only [slotFor] at hslot
      split at hslot
      · rename_i hcond
        rcases hcond with heq | hprev
        · exact .inl (by rw [heq])
        · -- the predecessor is pending, or the nonce is 0 and so is the account's
          by_cases hz : entry.verified.envelope.nonce.toNat = 0
          · exact .inl (by omega)
          · refine .inr ⟨satSub64 entry.verified.envelope.nonce 1, ?_, .inl (hkeep _ ?_)⟩
            · rw [satSub64_toNat]
              simp only [UInt64.toNat_one]
              omega
            · simpa using hprev
      · cases hslot
    · rw [FMap.get_insert_of_ne _ _ hnn] at hn
      rcases h n hn with hle | ⟨p, hp, hp' | hp'⟩
      · exact .inl hle
      · exact .inr ⟨p, hp, .inl (hkeep p hp')⟩
      · exact .inr ⟨p, hp, .inr hp'⟩

/-- The queue after stale removal, before promotion. -/
def pruned (queue : SenderQueue) (currentNonce : UInt64) : SenderQueue where
  pending := (removeStale queue.pending currentNonce).1
  queued := (removeStale queue.queued currentNonce).1

theorem commitQueue_fst (queue : SenderQueue) (f : UInt64) :
    (commitQueue queue f).1 = promoteQueuedStatic (pruned queue f) f := rfl

/-- Both maps lose the nonces below the account's. -/
theorem pruned_get (queue : SenderQueue) (f : UInt64) (slot : Slot) (n : UInt64) :
    ((pruned queue f).map slot)[n]? = if n < f then none else (queue.map slot)[n]? := by
  cases slot with
  | pending => exact removeStale_get queue.pending f n
  | queued => exact removeStale_get queue.queued f n

theorem pruned_zero {queue : SenderQueue} (f : UInt64)
    (h0 : queue.queued[(0 : UInt64)]? = none) :
    (pruned queue f).queued[(0 : UInt64)]? = none :=
  removeStale_zero f h0

theorem pruned_pending (queue : SenderQueue) (f n : UInt64) :
    ((pruned queue f).pending[n]?).isSome ↔
      f.toNat ≤ n.toNat ∧ (queue.pending[n]?).isSome := by
  have hget : (pruned queue f).pending[n]? = if n < f then none else queue.pending[n]? :=
    pruned_get queue f .pending n
  rw [hget]
  split
  · rename_i h
    rw [UInt64.lt_iff_toNat_lt] at h
    simp only [Option.isSome_none, Bool.false_eq_true, false_iff, not_and]
    omega
  · rename_i h
    rw [UInt64.lt_iff_toNat_lt] at h
    simp only [iff_and_self]
    omega

theorem linked_pruned {queue : SenderQueue} {c f : UInt64} {H : UInt64 → Prop}
    (h : Linked queue c H) (hcf : c.toNat ≤ f.toNat) : Linked (pruned queue f) f H := by
  intro n hn
  obtain ⟨hfn, hn'⟩ := (pruned_pending queue f n).mp hn
  rcases h n hn' with hle | ⟨p, hp, hp' | hp'⟩
  · exact .inl (by omega)
  · by_cases hpf : f.toNat ≤ p.toNat
    · exact .inr ⟨p, hp, .inl ((pruned_pending queue f p).mpr ⟨hpf, hp'⟩)⟩
    · exact .inl (by omega)
  · exact .inr ⟨p, hp, .inr hp'⟩

theorem linked_commit {queue : SenderQueue} {c f : UInt64} {H : UInt64 → Prop}
    (h0 : queue.queued[(0 : UInt64)]? = none) (h : Linked queue c H)
    (hcf : c.toNat ≤ f.toNat) : Linked (commitQueue queue f).1 f H :=
  linked_promote (pruned_zero f h0) (linked_pruned h hcf)

/-! ## Pending means executable -/

/-- Walking down from a pending nonce, one pending nonce at a time. -/
theorem pending_of_downward {P : UInt64 → Prop} {f : Nat}
    (hdown : ∀ n, P n → f < n.toNat → ∃ p : UInt64, p.toNat + 1 = n.toNat ∧ P p) :
    ∀ (d : Nat) (l n : UInt64), P l → f ≤ n.toNat → n.toNat + d = l.toNat → P n
  | 0, l, n, hl, _, hd => by
      obtain rfl : n = l := UInt64.toNat_inj.mp (by omega)
      exact hl
  | d + 1, l, n, hl, hfn, hd => by
      obtain ⟨p, hp, hpP⟩ := hdown l hl (by omega)
      exact pending_of_downward hdown d p n hpP hfn (by omega)

/-- A pending map whose nonces are all at least `f` and reach down to `f`
is a run from `f`. -/
theorem exists_run {m : NonceMap} {f : UInt64}
    (hge : ∀ n : UInt64, (m[n]?).isSome → f.toNat ≤ n.toNat)
    (hdown : ∀ n : UInt64, (m[n]?).isSome → f.toNat < n.toNat →
      ∃ p : UInt64, p.toNat + 1 = n.toNat ∧ (m[p]?).isSome) :
    ∃ k, ∀ n : UInt64, (m[n]?).isSome ↔ InRun f k n := by
  cases hl : m.keys.getLast? with
  | none =>
    refine ⟨0, fun n => ?_⟩
    rw [m.eq_none_of_last_none hl n]
    simp only [Option.isSome_none, Bool.false_eq_true, false_iff, InRun]
    omega
  | some l =>
    have hmem := m.last_mem hl
    have hfl := hge l hmem
    refine ⟨l.toNat - f.toNat + 1, fun n => ⟨fun hn => ?_, fun hn => ?_⟩⟩
    · have := pending_le_last hl hn
      exact ⟨hge n hn, by omega⟩
    · obtain ⟨h1, h2⟩ := hn
      exact pending_of_downward (P := fun n => (m[n]?).isSome) hdown (l.toNat - n.toNat) l n hmem h1
        (by omega)

/-- What a commit leaves pending is at least the committed nonce. -/
theorem commitQueue_pending_ge {queue : SenderQueue} {f : UInt64}
    (h0 : queue.queued[(0 : UInt64)]? = none) (n : UInt64)
    (hn : ((commitQueue queue f).1.pending[n]?).isSome) : f.toNat ≤ n.toNat := by
  have hz0 := pruned_zero f h0
  obtain ⟨k, hk⟩ := promoteQueuedStatic_spec (pruned queue f) f hz0
  rcases (hk.pending_isSome n).mp hn with hold | hrun
  · exact ((pruned_pending queue f n).mp hold).1
  · rcases promoteStart_cases (pruned queue f) f with ⟨hc, -⟩ | ⟨l, hl, -, hz | hnext⟩
    · exact hc ▸ hrun.1
    · exact absurd hz (hk.next_ne_zero hz0 hrun)
    · have := ((pruned_pending queue f l).mp hl).1
      have := hrun.1
      omega

/-- A nonce that a commit promoted lies above everything that was pending
and not stale. -/
theorem commitQueue_promoted_gt {queue : SenderQueue} {f : UInt64}
    (h0 : queue.queued[(0 : UInt64)]? = none) {n m : UInt64}
    (hn : ((commitQueue queue f).1.pending[n]?).isSome) (hnq : ¬ (queue.pending[n]?).isSome)
    (hm : (queue.pending[m]?).isSome) (hfm : f.toNat ≤ m.toNat) : m.toNat < n.toNat := by
  have hz0 := pruned_zero f h0
  obtain ⟨k, hk⟩ := promoteQueuedStatic_spec (pruned queue f) f hz0
  have hmp := (pruned_pending queue f m).mpr ⟨hfm, hm⟩
  rcases (hk.pending_isSome n).mp hn with hold | hrun
  · exact absurd ((pruned_pending queue f n).mp hold).2 hnq
  · rcases belowNext_promoteStart (pruned queue f) f m hmp with hz | hlt
    · exact absurd hz (hk.next_ne_zero hz0 hrun)
    · exact lt_of_lt_of_le hlt hrun.1

/-- One sender, one commit: the pending nonces become the run from the
committed nonce exactly when no handed-out nonce at or above it is missing
below a pending one. -/
theorem commitQueue_run_iff {queue : SenderQueue} {c f : UInt64} {H : UInt64 → Prop}
    (h0 : queue.queued[(0 : UInt64)]? = none) (hlinked : Linked queue c H)
    (hcf : c.toNat ≤ f.toNat) :
    (∃ k, ∀ n : UInt64, ((commitQueue queue f).1.pending[n]?).isSome ↔ InRun f k n) ↔
    (∀ n : UInt64, H n → f.toNat ≤ n.toNat → (queue.pending[n]?).isSome ∨
      ∀ m : UInt64, (queue.pending[m]?).isSome → m.toNat ≤ n.toNat) := by
  have hz0 := pruned_zero f h0
  obtain ⟨j, hj⟩ := promoteQueuedStatic_spec (pruned queue f) f hz0
  have hkeep : ∀ n : UInt64, (queue.pending[n]?).isSome → f.toNat ≤ n.toNat →
      ((commitQueue queue f).1.pending[n]?).isSome := fun n hn hfn =>
    (hj.pending_isSome n).mpr (.inl ((pruned_pending queue f n).mpr ⟨hfn, hn⟩))
  constructor
  · rintro ⟨k, hk⟩ n _ hfn
    by_contra hno
    push Not at hno
    obtain ⟨hnp, m, hm, hnm⟩ := hno
    -- the run reaches `m`, so it contains `n`, which can only have been promoted
    have hrun := (hk m).mp (hkeep m hm (by omega))
    have hn := (hk n).mpr ⟨hfn, lt_trans hnm hrun.2⟩
    have := commitQueue_promoted_gt h0 hn (by simpa using hnp) hm (by omega)
    omega
  · intro hcond
    refine exists_run (fun n hn => commitQueue_pending_ge h0 n hn) fun n hn hfn => ?_
    rcases linked_commit h0 hlinked hcf n hn with hle | ⟨p, hp, hpend | hH⟩
    · omega
    · exact ⟨p, hp, hpend⟩
    · rcases hcond p hH (by omega) with hpq | hall
      · exact ⟨p, hp, hkeep p hpq (by omega)⟩
      · -- nothing pending lies above `p`, so `n` was promoted
        have hnq : ¬ (queue.pending[n]?).isSome := fun hnq => by
          have := hall n hnq
          omega
        rcases (hj.pending_isSome n).mp hn with hold | hrun
        · exact absurd ((pruned_pending queue f n).mp hold).2 hnq
        · by_cases hstart : n.toNat = (promoteStart (pruned queue f) f).toNat
          · rcases promoteStart_cases (pruned queue f) f with ⟨hc, -⟩ | ⟨l, hl, -, hz | hnext⟩
            · rw [hc] at hstart; omega
            · exact absurd hz (hj.next_ne_zero hz0 hrun)
            · exact ⟨l, by omega, (hj.pending_isSome l).mpr (.inl hl)⟩
          · obtain ⟨p', hp', hpr⟩ := inRun_pred hrun hstart
            exact ⟨p', hp', (hj.pending_isSome p').mpr (.inr hpr)⟩

/-! ### Runs with committed nonces that never decrease -/

/-- A pool together with what its history has shown: the committed nonces
last seen, and the (sender, nonce) pairs `collect_payload` has handed out. -/
structure Tracked where
  pool : PoolInner := .new
  committed : Address → UInt64 := fun _ => 0
  handedOut : List (Address × UInt64) := []

/-- The account nonces an operation sees. -/
def PoolOp.seen : PoolOp → Option (Address → UInt64)
  | .submit nonceFn _ => some (seenNonce nonceFn)
  | .collect .. => none
  | .commit _ nonceFn => some nonceFn

/-- The (sender, nonce) pairs an operation hands out. -/
def PoolOp.handsOut (inner : PoolInner) : PoolOp → List (Address × UInt64)
  | .collect it maxBytes maxGas =>
      (selection it inner maxBytes maxGas).included.map fun c => (c.sender, c.nonce)
  | _ => []

/-- One operation, tracked. -/
def track (al : Alloy) (config : EvmTxPoolConfig) (t : Tracked) (op : PoolOp) : Tracked where
  pool := applyOp al config t.pool op
  committed := op.seen.getD t.committed
  handedOut := t.handedOut ++ op.handsOut t.pool

/-- The operation sees committed nonces that have not decreased. -/
def SeesMonotone (t : Tracked) (op : PoolOp) : Prop :=
  ∀ f, op.seen = some f → ∀ s, (t.committed s).toNat ≤ (f s).toNat

/-- The invariant of tracked runs. -/
structure TrackedInv (t : Tracked) : Prop where
  pool : PoolInv t.pool
  linked : ∀ s, Linked (queueOf t.pool s) (t.committed s) fun n => (s, n) ∈ t.handedOut

theorem PoolInv.queueOf_zero {inner : PoolInner} (h : PoolInv inner) (s : Address) :
    (queueOf inner s).queued[(0 : UInt64)]? = none :=
  h.noZero.getD s

theorem linked_submitVerified {config : EvmTxPoolConfig} {nonceFn : Option (Address → UInt64)}
    {inner : PoolInner} {v : VerifiedTx} {H : Address → UInt64 → Prop} (h : PoolInv inner)
    (hlinked : ∀ s, Linked (queueOf inner s) (seenNonce nonceFn s) (H s)) (s : Address) :
    Linked (queueOf (submitVerified config nonceFn inner v).2 s) (seenNonce nonceFn s) (H s) := by
  rcases queueOf_submitVerified config nonceFn inner v with
    hsame | ⟨queue', old, -, hnonce, hplace, hq⟩
  · rw [hsame]; exact hlinked s
  · rw [hq]
    split
    · rename_i hs
      subst hs
      exact linked_promote (placeEntry_zero (h.queueOf_zero v.sender) hnonce hplace)
        (linked_place (hlinked v.sender) hplace)
    · exact hlinked s

theorem trackedInv_step {al : Alloy} {config : EvmTxPoolConfig} (t : Tracked) (op : PoolOp)
    (h : TrackedInv t) (hmono : SeesMonotone t op) : TrackedInv (track al config t op) := by
  refine ⟨poolInv_applyOp h.pool op, fun s => ?_⟩
  cases op with
  | submit nonceFn raw =>
    have hseen : ∀ s, Linked (queueOf t.pool s) (seenNonce nonceFn s)
        fun n => (s, n) ∈ t.handedOut := fun s =>
      (h.linked s).mono (hmono _ rfl s) fun _ hn => hn
    simp only [track, applyOp, PoolOp.seen, PoolOp.handsOut, Option.getD_some, List.append_nil,
      submitTx]
    split
    · exact hseen s
    · exact linked_submitVerified h.pool hseen s
  | collect it maxBytes maxGas =>
    obtain ⟨hp, -⟩ := queueOf_removeAll (selection it t.pool maxBytes maxGas).included t.pool s
    intro n hn
    simp only [track, applyOp, collectPayload, PoolOp.seen, PoolOp.handsOut, Option.getD_none,
      List.mem_append] at hn ⊢
    rw [hp] at hn
    split at hn
    · cases hn
    · rcases h.linked s n hn with hle | ⟨p, hpn, hpend | hH⟩
      · exact .inl hle
      · -- the predecessor is still there or has just been handed out
        refine .inr ⟨p, hpn, ?_⟩
        rw [hp]
        split
        · rename_i hex
          obtain ⟨c, hc, hcs, hcn⟩ := hex
          exact .inr (.inr (List.mem_map.mpr ⟨c, hc, by rw [hcs, hcn]⟩))
        · exact .inl hpend
      · exact .inr ⟨p, hpn, .inr (.inl hH)⟩
  | commit it nonceFn =>
    simp only [track, applyOp, PoolOp.seen, PoolOp.handsOut, Option.getD_some, List.append_nil]
    rw [queueOf_onCommit]
    exact linked_commit (h.pool.queueOf_zero s) (h.linked s) (hmono _ rfl s)

theorem trackedInv_run {al : Alloy} {config : EvmTxPoolConfig} {ops : List PoolOp}
    (h : StepsMeet (track al config) SeesMonotone {} ops) :
    TrackedInv (ops.foldl (track al config) {}) :=
  run_invariant TrackedInv trackedInv_step ops _
    ⟨poolInv_new, fun s => by simpa [queueOf, PoolInner.new] using linked_default _ _⟩ h

/-- Every sender's pending nonces are a run from its account nonce, and
the transaction a sender offers next has exactly that nonce. -/
def PendingExecutable (inner : PoolInner) (f : Address → UInt64) : Prop :=
  (∀ s, ∃ k, ∀ n : UInt64, ((queueOf inner s).pending[n]?).isSome ↔ InRun (f s) k n) ∧
  ∀ it c, c ∈ candidates it inner → c.nonce = f c.sender

/-- A candidate is the lowest pending transaction of its sender. -/
theorem mem_candidates {it : IterOrder Address SenderQueue} {inner : PoolInner} {c : Candidate}
    (h : c ∈ candidates it inner) :
    ((queueOf inner c.sender).pending[c.nonce]?).isSome ∧
      ∀ n : UInt64, ((queueOf inner c.sender).pending[n]?).isSome → c.nonce.toNat ≤ n.toNat := by
  obtain ⟨queue, e, hqueue, hget, hmin, -, -⟩ := candidate_first h
  have hq : queueOf inner c.sender = queue := by simp [queueOf, hqueue]
  rw [hq]
  refine ⟨by simp [hget], fun k hk => ?_⟩
  rcases hmin k hk with rfl | hlt
  · exact le_rfl
  · exact le_of_lt ((compare_lt_iff c.nonce k).mp hlt)

theorem pendingExecutable_of_runs {inner : PoolInner} {f : Address → UInt64}
    (h : ∀ s, ∃ k, ∀ n : UInt64, ((queueOf inner s).pending[n]?).isSome ↔ InRun (f s) k n) :
    PendingExecutable inner f := by
  refine ⟨h, fun it c hc => ?_⟩
  obtain ⟨hmem, hmin⟩ := mem_candidates hc
  obtain ⟨k, hk⟩ := h c.sender
  obtain ⟨hge, hlt⟩ := (hk c.nonce).mp hmem
  have := hmin (f c.sender) ((hk (f c.sender)).mpr ⟨le_rfl, by omega⟩)
  exact UInt64.toNat_inj.mp (by omega)

/-- A transaction handed out by `collect_payload`, not yet committed, is
missing from pending below another pending transaction of its sender. -/
def MissingBelowPending (t : Tracked) (f : Address → UInt64) : Prop :=
  ∃ s n, (s, n) ∈ t.handedOut ∧ (f s).toNat ≤ n.toNat ∧
    (queueOf t.pool s).pending[n]? = none ∧
    ∃ m : UInt64, ((queueOf t.pool s).pending[m]?).isSome ∧ n.toNat < m.toNat

/-- Tracking does not change what the pool does. -/
theorem track_pool (al : Alloy) (config : EvmTxPoolConfig) (ops : List PoolOp) (t : Tracked) :
    (ops.foldl (track al config) t).pool = ops.foldl (applyOp al config) t.pool := by
  induction ops generalizing t with
  | nil => rfl
  | cons op ops ih => exact ih (track al config t op)

/-- **When pending means executable.** In every run whose committed nonces
never decrease, what is pending right after a commit is executable from
the committed nonce exactly when no handed-out, uncommitted transaction is
missing below a pending one at that moment. -/
theorem pending_executable_iff (al : Alloy) (config : EvmTxPoolConfig) (ops : List PoolOp)
    (it : IterOrder Address SenderQueue) (f : Address → UInt64)
    (hmono : StepsMeet (track al config) SeesMonotone {} (ops ++ [PoolOp.commit it f])) :
    PendingExecutable ((ops ++ [PoolOp.commit it f]).foldl (applyOp al config) PoolInner.new) f ↔
      ¬ MissingBelowPending (ops.foldl (track al config) {}) f := by
  obtain ⟨hpre, hlast, -⟩ := (stepsMeet_append _ _ _ _ _).mp hmono
  have hinv := trackedInv_run hpre
  have hpool := track_pool al config ops {}
  generalize ops.foldl (track al config) {} = t at hpool hlast hinv ⊢
  rw [List.foldl_append, ← hpool, List.foldl_cons, List.foldl_nil]
  have hiff : ∀ s, (∃ k, ∀ n : UInt64,
      ((queueOf (onCommit it t.pool f) s).pending[n]?).isSome ↔ InRun (f s) k n) ↔
      (∀ n : UInt64, (s, n) ∈ t.handedOut → (f s).toNat ≤ n.toNat →
        ((queueOf t.pool s).pending[n]?).isSome ∨
          ∀ m : UInt64, ((queueOf t.pool s).pending[m]?).isSome → m.toNat ≤ n.toNat) := fun s => by
    rw [queueOf_onCommit]
    exact commitQueue_run_iff (hinv.pool.queueOf_zero s) (hinv.linked s) (hlast f rfl s)
  constructor
  · rintro ⟨hruns, -⟩ ⟨s, n, hhanded, hfn, hnone, m, hm, hlt⟩
    rcases (hiff s).mp (hruns s) n hhanded hfn with hpend | hall
    · rw [hnone] at hpend; cases hpend
    · have := hall m hm
      omega
  · intro hno
    refine pendingExecutable_of_runs fun s => (hiff s).mpr fun n hhanded hfn => ?_
    by_contra hcon
    push Not at hcon
    obtain ⟨hnp, m, hm, hlt⟩ := hcon
    exact hno ⟨s, n, hhanded, hfn, by simpa using hnp, m, hm, hlt⟩

/-- Alice sends nonces 0 and 1, both while her committed nonce is 0. -/
def aliceSubmits : List PoolOp :=
  [.submit (some fun _ => 0) alice0.raw, .submit (some fun _ => 0) alice1.raw]

theorem pending_executable_alice :
    StepsMeet (track sampleAlloy {}) SeesMonotone {}
        (aliceSubmits ++ [PoolOp.commit .ascending fun _ => 0]) ∧
      PendingExecutable ((aliceSubmits ++ [PoolOp.commit .ascending fun _ => 0]).foldl
        (applyOp sampleAlloy {}) PoolInner.new) fun _ => 0 := by
  have hmono : StepsMeet (track sampleAlloy {}) SeesMonotone {}
      (aliceSubmits ++ [PoolOp.commit .ascending fun _ => 0]) := by
    simp [aliceSubmits, StepsMeet, SeesMonotone, PoolOp.seen, track, seenNonce]
  refine ⟨hmono, (pending_executable_iff sampleAlloy {} aliceSubmits .ascending _ hmono).mpr ?_⟩
  rintro ⟨s, n, hmem, -⟩
  simp [aliceSubmits, track, PoolOp.handsOut] at hmem

/-- Nonce 0 is collected, its block is dropped, and the next commit still
sees the committed nonce 0. -/
def droppedBlock : List PoolOp :=
  aliceSubmits ++ [.collect .ascending 100000 30000000, .commit .ascending fun _ => 0]

theorem dropped_block_leaves_gap :
    StepsMeet (track sampleAlloy {}) SeesMonotone {} droppedBlock ∧
      ¬ PendingExecutable (droppedBlock.foldl (applyOp sampleAlloy {}) PoolInner.new)
        fun _ => 0 := by
  refine ⟨by simp [droppedBlock, aliceSubmits, StepsMeet, SeesMonotone, PoolOp.seen, track,
    seenNonce], ?_⟩
  rintro ⟨hruns, -⟩
  obtain ⟨k, hk⟩ := hruns alice0.sender
  -- nonce 1 is pending, so a run from 0 would have to contain 0
  obtain ⟨-, hk1⟩ := (hk 1).mp (by decide +kernel)
  have hzero := (hk 0).mpr ⟨le_rfl, by simp at hk1 ⊢; omega⟩
  revert hzero
  decide +kernel

end Nbnet.Txpool
