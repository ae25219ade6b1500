/-
Nbnet.Txpool.QueueTheorems — what promotion, insertion and stale removal
do to the queue of one sender.

`promoteQueuedStatic_spec` is the account of promotion everything else
uses: a run of consecutive queued nonces, from the start point on, moves
to pending, the run is maximal, and nothing else changes. It needs one
fact about the queue, that nonce 0 is never queued: the counter `next`
wraps to 0 after `u64::MAX`, and only the absence of a queued nonce 0 keeps
the loop from walking over the pending map again.
-/
import Nbnet.Txpool.Pool

namespace Nbnet.Txpool

open Lib

/-! ## Ordering of nonces -/

/-- No pending nonce is above the last one. -/
theorem pending_le_last {m : NonceMap} {k l : UInt64} (hl : m.keys.getLast? = some l)
    (hk : (m[k]?).isSome) : k.toNat ≤ l.toNat := by
  rcases m.le_last hl hk with rfl | h
  · exact le_rfl
  · exact le_of_lt ((compare_lt_iff k l).mp h)

/-! ## Promotion -/

/-- The nonces from `next` on, `k` of them. -/
def InRun (next : UInt64) (k : Nat) (n : UInt64) : Prop :=
  next.toNat ≤ n.toNat ∧ n.toNat < next.toNat + k

instance (next : UInt64) (k : Nat) (n : UInt64) : Decidable (InRun next k n) :=
  inferInstanceAs (Decidable (_ ∧ _))

theorem not_inRun_zero (next n : UInt64) : ¬ InRun next 0 n := by
  intro hn
  unfold InRun at hn
  omega

/-- A run without its first nonce. It may start at a counter that has
wrapped only when it is empty. -/
theorem inRun_succ_iff {next n : UInt64} {k : Nat} (hwrap : next.toNat + 1 = 2 ^ 64 → k = 0)
    (hn : n ≠ next) : InRun (next + 1) k n ↔ InRun next (k + 1) n := by
  have hlt := next.toNat_lt
  have hne : n.toNat ≠ next.toNat := fun e => hn (UInt64.toNat_inj.mp e)
  unfold InRun
  by_cases hw : next.toNat + 1 = 2 ^ 64
  · have hnlt := n.toNat_lt
    rw [hwrap hw]
    omega
  · rw [toNat_succ64 next (by omega)]
    omega

/-- `queue'` is `queue` with the `k` queued entries from nonce `next` on
moved to pending, and `k` is as large as the queue allows. -/
structure Promoted (queue queue' : SenderQueue) (next : UInt64) (k : Nat) : Prop where
  fits : next.toNat + k ≤ 2 ^ 64
  wasQueued : ∀ n : UInt64, InRun next k n → (queue.queued[n]?).isSome
  wasFree : ∀ n : UInt64, InRun next k n → queue.pending[n]? = none
  pending : ∀ n : UInt64,
    queue'.pending[n]? = if InRun next k n then queue.queued[n]? else queue.pending[n]?
  queued : ∀ n : UInt64, queue'.queued[n]? = if InRun next k n then none else queue.queued[n]?
  maximal : ∀ n : UInt64, n.toNat = next.toNat + k → queue.queued[n]? = none

/-- A wrapped counter moves nothing. -/
theorem Promoted.next_ne_zero {queue queue' : SenderQueue} {next n : UInt64} {k : Nat}
    (h : Promoted queue queue' next k) (h0 : queue.queued[(0 : UInt64)]? = none)
    (hrun : InRun next k n) : next ≠ 0 := by
  rintro rfl
  have hzero : InRun 0 k 0 := ⟨le_rfl, lt_of_le_of_lt (Nat.zero_le _) hrun.2⟩
  have := h.wasQueued 0 hzero
  rw [h0] at this
  cases this

/-- The loop invariant of promotion: every pending nonce is below the
counter, unless the counter has wrapped. -/
def BelowNext (queue : SenderQueue) (next : UInt64) : Prop :=
  ∀ n : UInt64, (queue.pending[n]?).isSome → next = 0 ∨ n.toNat < next.toNat

theorem promoted_zero {queue : SenderQueue} {next : UInt64} (h : queue.queued[next]? = none) :
    Promoted queue queue next 0 := by
  have hno := not_inRun_zero next
  refine ⟨by have := next.toNat_lt; omega, fun n hn => absurd hn (hno n),
    fun n hn => absurd hn (hno n), fun n => by simp [hno], fun n => by simp [hno], ?_⟩
  intro n hn
  obtain rfl : n = next := UInt64.toNat_inj.mp (by omega)
  exact h

/-- From the wrapped counter on, nothing more moves. -/
theorem Promoted.eq_zero_of_wrap {queue queue' : SenderQueue} {next : UInt64} {k : Nat}
    (h : Promoted queue queue' (next + 1) k) (h0 : queue.queued[(0 : UInt64)]? = none)
    (hw : next.toNat + 1 = 2 ^ 64) : k = 0 := by
  by_contra hk
  exact h.next_ne_zero h0 (n := next + 1) ⟨le_rfl, by omega⟩ (succ64_top hw)

/-- One turn of the loop in front of the rest. -/
theorem promoted_succ {queue queue' : SenderQueue} {next : UInt64} {entry : PoolEntry} {k : Nat}
    (hentry : queue.queued[next]? = some entry) (hfree : queue.pending[next]? = none)
    (h0 : queue.queued[(0 : UInt64)]? = none)
    (h : Promoted { pending := queue.pending.insert next entry
                    queued := queue.queued.erase next } queue' (next + 1) k) :
    Promoted queue queue' next (k + 1) := by
  have hlt := next.toNat_lt
  have h0' : (queue.queued.erase next)[(0 : UInt64)]? = none := by
    rw [FMap.get_erase, h0, ite_self]
  have hwrap : next.toNat + 1 = 2 ^ 64 → k = 0 := h.eq_zero_of_wrap h0'
  have hrun : ∀ n, n ≠ next → (InRun (next + 1) k n ↔ InRun next (k + 1) n) :=
    fun n hn => inRun_succ_iff hwrap hn
  have hself : InRun next (k + 1) next := ⟨le_rfl, by omega⟩
  have hnself : ¬ InRun (next + 1) k next := by
    intro hn
    have := h.wasQueued next hn
    simp at this
  refine ⟨?_, fun n hn => ?_, fun n hn => ?_, fun n => ?_, fun n => ?_, fun n hn => ?_⟩
  · by_cases hw : next.toNat + 1 = 2 ^ 64
    · rw [hwrap hw]; omega
    · have := h.fits
      rw [toNat_succ64 next (by omega)] at this
      omega
  · by_cases hnn : n = next
    · subst hnn; simp [hentry]
    · have := h.wasQueued n ((hrun n hnn).mpr hn)
      rwa [FMap.get_erase_of_ne _ (Ne.symm hnn)] at this
  · by_cases hnn : n = next
    · subst hnn; exact hfree
    · have := h.wasFree n ((hrun n hnn).mpr hn)
      rwa [FMap.get_insert_of_ne _ _ (Ne.symm hnn)] at this
  · rw [h.pending n]
    by_cases hnn : n = next
    · subst hnn; simp [hself, hnself, hentry]
    · simp only [hrun n hnn, FMap.get_erase_of_ne _ (Ne.symm hnn),
        FMap.get_insert_of_ne _ _ (Ne.symm hnn)]
  · rw [h.queued n]
    by_cases hnn : n = next
    · subst hnn; simp [hself, hnself]
    · simp only [hrun n hnn, FMap.get_erase_of_ne _ (Ne.symm hnn)]
  · have hnn : n ≠ next := by rintro rfl; omega
    by_cases hw : next.toNat + 1 = 2 ^ 64
    · have := n.toNat_lt; omega
    · have := h.maximal n (by rw [toNat_succ64 next (by omega)]; omega)
      rwa [FMap.get_erase_of_ne _ (Ne.symm hnn)] at this

/-- The invariant is kept by one turn of the loop. -/
theorem belowNext_succ {queue : SenderQueue} {next : UInt64} {entry : PoolEntry}
    (hnz : next ≠ 0) (h : BelowNext queue next) :
    BelowNext { pending := queue.pending.insert next entry
                queued := queue.queued.erase next } (next + 1) := by
  intro n hn
  by_cases hw : next.toNat + 1 = 2 ^ 64
  · exact .inl (succ64_top hw)
  · have hlt := next.toNat_lt
    rw [toNat_succ64 next (by omega)]
    by_cases hnn : n = next
    · subst hnn; exact .inr (by omega)
    · rw [FMap.get_insert_of_ne _ _ (Ne.symm hnn)] at hn
      rcases h n hn with rfl | h
      · exact absurd rfl hnz
      · exact .inr (by omega)

/-- The counter of a running loop is at no pending nonce. -/
theorem free_of_belowNext {queue : SenderQueue} {next : UInt64} (hnz : next ≠ 0)
    (h : BelowNext queue next) : queue.pending[next]? = none := by
  cases hp : queue.pending[next]? with
  | none => rfl
  | some e => rcases h next (by simp [hp]) with h | h <;> [exact absurd h hnz; omega]

theorem promoteLoop_spec : ∀ (fuel : Nat) (queue : SenderQueue) (next : UInt64),
    queue.queued.size ≤ fuel → queue.queued[(0 : UInt64)]? = none → BelowNext queue next →
    ∃ k, Promoted queue (promoteLoop fuel queue next) next k
  | 0, queue, next, hsize, _, _ => by
      have hempty : queue.queued = ∅ :=
        Std.ExtTreeMap.eq_empty_iff_size_eq_zero.mpr (by omega)
      exact ⟨0, promoted_zero (by rw [hempty]; simp)⟩
  | fuel + 1, queue, next, hsize, h0, hbelow => by
      rw [promoteLoop]
      cases hq : queue.queued[next]? with
      | none => exact ⟨0, promoted_zero hq⟩
      | some entry =>
        have hnz : next ≠ 0 := by rintro rfl; rw [h0] at hq; cases hq
        have hsz := queue.queued.size_erase_of_some hq
        obtain ⟨k, hk⟩ := promoteLoop_spec fuel
          { pending := queue.pending.insert next entry, queued := queue.queued.erase next }
          (next + 1) (by simp only; omega)
          (by rw [FMap.get_erase]; split <;> [rfl; exact h0]) (belowNext_succ hnz hbelow)
        exact ⟨k + 1, promoted_succ hq (free_of_belowNext hnz hbelow) h0 hk⟩

theorem belowNext_promoteStart (queue : SenderQueue) (currentNonce : UInt64) :
    BelowNext queue (promoteStart queue currentNonce) := by
  intro n hn
  unfold promoteStart
  cases hl : queue.pending.keys.getLast? with
  | none => rw [queue.pending.eq_none_of_last_none hl n] at hn; cases hn
  | some l =>
    have hle := pending_le_last hl hn
    have hlt := l.toNat_lt
    by_cases hw : l.toNat + 1 = 2 ^ 64
    · exact .inl (succ64_top hw)
    · refine .inr ?_
      simp only [toNat_succ64 l (by omega)]
      omega

/-- **Promotion.** With nonce 0 not queued, `promote_queued_static` moves
the maximal run of queued nonces from its start point. -/
theorem promoteQueuedStatic_spec (queue : SenderQueue) (currentNonce : UInt64)
    (h0 : queue.queued[(0 : UInt64)]? = none) :
    ∃ k, Promoted queue (promoteQueuedStatic queue currentNonce)
      (promoteStart queue currentNonce) k :=
  promoteLoop_spec _ queue _ le_rfl h0 (belowNext_promoteStart queue currentNonce)

/-! ## The entries of a queue -/

/-- The entries of one map. -/
def values (m : NonceMap) : List PoolEntry := m.toList.map Prod.snd

/-- The entries of a sender, over both maps. -/
def SenderQueue.entries (queue : SenderQueue) : List PoolEntry :=
  values queue.pending ++ values queue.queued

theorem values_insert {m : NonceMap} {n : UInt64} (e : PoolEntry) (h : m[n]? = none) :
    (values (m.insert n e)).Perm (e :: values m) :=
  (m.toList_insert_perm e h).map Prod.snd

theorem values_erase {m : NonceMap} {n : UInt64} {e : PoolEntry} (h : m[n]? = some e) :
    (values m).Perm (e :: values (m.erase n)) :=
  (m.toList_erase_perm h).map Prod.snd

/-- What a map and the map with one cell written share is the map without
that cell. -/
theorem values_exchange (m : NonceMap) (n : UInt64) (e : PoolEntry) :
    (values (m.insert n e)).Perm (e :: values (m.erase n)) ∧
      (values m).Perm ((m[n]?).toList ++ values (m.erase n)) := by
  constructor
  · have hins : ((m.insert n e)[n]?) = some e := by simp
    have hnew := values_erase hins
    rwa [FMap.erase_insert] at hnew
  · cases hm : m[n]? with
    | none => rw [FMap.erase_of_none m hm]; exact .refl _
    | some old => exact values_erase hm

/-- Promotion neither loses nor invents an entry. -/
theorem promoteLoop_perm : ∀ (fuel : Nat) (queue : SenderQueue) (next : UInt64),
    queue.queued[(0 : UInt64)]? = none → BelowNext queue next →
    (promoteLoop fuel queue next).entries.Perm queue.entries
  | 0, _, _, _, _ => .refl _
  | fuel + 1, queue, next, h0, hbelow => by
      rw [promoteLoop]
      cases hq : queue.queued[next]? with
      | none => exact .refl _
      | some entry =>
        have hnz : next ≠ 0 := by rintro rfl; rw [h0] at hq; cases hq
        refine (promoteLoop_perm fuel _ (next + 1)
          (by rw [FMap.get_erase]; split <;> [rfl; exact h0])
          (belowNext_succ hnz hbelow)).trans ?_
        have hp := values_insert entry (free_of_belowNext hnz hbelow)
        have hr := values_erase hq
        calc values (queue.pending.insert next entry) ++ values (queue.queued.erase next)
          _ |>.Perm ((entry :: values queue.pending) ++ values (queue.queued.erase next)) :=
              hp.append_right _
          _ |>.Perm (values queue.pending ++ (entry :: values (queue.queued.erase next))) :=
              List.perm_middle.symm
          _ |>.Perm (values queue.pending ++ values queue.queued) := hr.symm.append_left _

theorem promoteQueuedStatic_perm (queue : SenderQueue) (currentNonce : UInt64)
    (h0 : queue.queued[(0 : UInt64)]? = none) :
    (promoteQueuedStatic queue currentNonce).entries.Perm queue.entries :=
  promoteLoop_perm _ queue _ h0 (belowNext_promoteStart queue currentNonce)

/-- Promotion puts nothing into the queued map. -/
theorem promoteQueuedStatic_zero {queue : SenderQueue} (currentNonce : UInt64)
    (h0 : queue.queued[(0 : UInt64)]? = none) :
    (promoteQueuedStatic queue currentNonce).queued[(0 : UInt64)]? = none := by
  obtain ⟨k, hk⟩ := promoteQueuedStatic_spec queue currentNonce h0
  rw [hk.queued]
  split <;> [rfl; exact h0]

/-! ## Insertion -/

/-- What a successful placement did: it inserted the entry in the chosen
map, over a cheaper entry of the same nonce or within the capacity. -/
theorem placeEntry_ok {config : EvmTxPoolConfig} {queue queue' : SenderQueue} {slot : Slot}
    {entry : PoolEntry} {old : Option B256}
    (h : placeEntry config queue slot entry = .ok (queue', old)) :
    queue' = queue.setMap slot ((queue.map slot).insert entry.verified.envelope.nonce entry) ∧
    ((∃ existing, (queue.map slot)[entry.verified.envelope.nonce]? = some existing ∧
        old = some existing.verified.txHash ∧
        ¬ entry.effectiveTip < minReplacementTip config existing) ∨
      ((queue.map slot)[entry.verified.envelope.nonce]? = none ∧ old = none ∧
        (queue.map slot).size < config.limit slot)) := by
  unfold placeEntry at h
  simp only at h
  split at h
  · rename_i existing hex
    split at h
    · cases h
    · rename_i htip
      cases h
      exact ⟨rfl, .inl ⟨existing, hex, rfl, htip⟩⟩
  · rename_i hnone
    split at h
    · cases h
    · rename_i hsize
      cases h
      exact ⟨rfl, .inr ⟨hnone, rfl, by omega⟩⟩

@[simp] theorem SenderQueue.map_setMap_self (queue : SenderQueue) (slot : Slot) (m : NonceMap) :
    (queue.setMap slot m).map slot = m := by
  cases slot <;> rfl

theorem SenderQueue.map_setMap_of_ne (queue : SenderQueue) {slot slot' : Slot} (m : NonceMap)
    (h : slot ≠ slot') : (queue.setMap slot m).map slot' = queue.map slot' := by
  cases slot <;> cases slot' <;> first | rfl | exact absurd rfl h

/-- Rewriting one map of a sender rewrites its share of the entries. -/
theorem entries_setMap (queue : SenderQueue) (slot : Slot) (m : NonceMap) :
    ∃ others, queue.entries.Perm (values (queue.map slot) ++ others) ∧
      (queue.setMap slot m).entries.Perm (values m ++ others) := by
  cases slot with
  | pending => exact ⟨values queue.queued, .refl _, .refl _⟩
  | queued => exact ⟨values queue.pending, List.perm_append_comm, List.perm_append_comm⟩

/-- The entries after a successful placement: the new one came in, and the
one whose hash is reported back, if any, left. -/
theorem placeEntry_perm {config : EvmTxPoolConfig} {queue queue' : SenderQueue} {slot : Slot}
    {entry : PoolEntry} {old : Option B256}
    (h : placeEntry config queue slot entry = .ok (queue', old)) :
    ∃ others, queue'.entries.Perm (entry :: others) ∧
      ((old = none ∧ queue.entries.Perm others) ∨
        ∃ existing, old = some existing.verified.txHash ∧
          queue.entries.Perm (existing :: others)) := by
  obtain ⟨rfl, hcase⟩ := placeEntry_ok h
  obtain ⟨rest, hq, hq'⟩ := entries_setMap queue slot
    ((queue.map slot).insert entry.verified.envelope.nonce entry)
  obtain ⟨hnew, hmap⟩ := values_exchange (queue.map slot) entry.verified.envelope.nonce entry
  refine ⟨values ((queue.map slot).erase entry.verified.envelope.nonce) ++ rest,
    hq'.trans (hnew.append_right rest), ?_⟩
  rcases hcase with ⟨existing, hex, hold, -⟩ | ⟨hnone, hold, -⟩
  · rw [hex] at hmap
    exact .inr ⟨existing, hold, hq.trans (hmap.append_right rest)⟩
  · rw [hnone] at hmap
    exact .inl ⟨hold, hq.trans (hmap.append_right rest)⟩

/-- Only a positive nonce is ever sent to the queued map. -/
theorem placeEntry_zero {config : EvmTxPoolConfig} {queue queue' : SenderQueue}
    {entry : PoolEntry} {old : Option B256} {currentNonce : UInt64}
    (h0 : queue.queued[(0 : UInt64)]? = none)
    (hge : ¬ entry.verified.envelope.nonce < currentNonce)
    (h : placeEntry config queue (slotFor queue currentNonce entry.verified.envelope.nonce) entry
      = .ok (queue', old)) : queue'.queued[(0 : UInt64)]? = none := by
  obtain ⟨rfl, -⟩ := placeEntry_ok h
  cases hslot : slotFor queue currentNonce entry.verified.envelope.nonce with
  | pending => exact h0
  | queued =>
    have hne : entry.verified.envelope.nonce ≠ 0 := by
      intro hz
      rw [hz, UInt64.lt_iff_toNat_lt] at hge
      have : currentNonce = 0 := UInt64.toNat_inj.mp (by simpa using hge)
      simp [slotFor, hz, this] at hslot
    simp only [SenderQueue.setMap, SenderQueue.map]
    rw [FMap.get_insert_of_ne _ _ hne]
    exact h0

/-! ## Stale removal -/

theorem dropEntry_get (acc : NonceMap × List B256) (n k : UInt64) :
    (dropEntry acc n).1[k]? = if n = k then none else acc.1[k]? := by
  unfold dropEntry
  split
  · exact FMap.get_erase _ _ _
  · rename_i hnone
    by_cases h : n = k
    · subst h; simp [hnone]
    · simp [h]

theorem foldl_dropEntry_get (l : List UInt64) (acc : NonceMap × List B256) (k : UInt64) :
    (l.foldl dropEntry acc).1[k]? = if k ∈ l then none else acc.1[k]? := by
  induction l generalizing acc with
  | nil => simp
  | cons n l ih =>
    rw [List.foldl_cons, ih, dropEntry_get]
    by_cases h : n = k
    · subst h; simp
    · simp [h, Ne.symm h]

/-- Stale removal keeps exactly the nonces from the account nonce on. -/
theorem removeStale_get (m : NonceMap) (currentNonce n : UInt64) :
    (removeStale m currentNonce).1[n]? = if n < currentNonce then none else m[n]? := by
  rw [removeStale, foldl_dropEntry_get]
  by_cases hn : n < currentNonce
  · cases hm : m[n]? with
    | none => simp
    | some e =>
      have : n ∈ m.keys := (FMap.mem_keys_iff m n).mpr (by simp [hm])
      simp [hn, this]
  · simp [hn]

theorem removeStale_zero {m : NonceMap} (currentNonce : UInt64)
    (h0 : m[(0 : UInt64)]? = none) : (removeStale m currentNonce).1[(0 : UInt64)]? = none := by
  rw [removeStale_get]
  split <;> [rfl; exact h0]

/-- The entries that stale removal takes out are those whose hashes it
reports. -/
theorem foldl_dropEntry_perm (l : List UInt64) (acc : NonceMap × List B256) :
    ∃ gone : List PoolEntry,
      (l.foldl dropEntry acc).2 = acc.2 ++ gone.map (·.verified.txHash) ∧
      (values acc.1).Perm (gone ++ values (l.foldl dropEntry acc).1) := by
  induction l generalizing acc with
  | nil => exact ⟨[], by simp, .refl _⟩
  | cons n l ih =>
    obtain ⟨gone, hh, hp⟩ := ih (dropEntry acc n)
    rw [List.foldl_cons]
    cases hn : acc.1[n]? with
    | none =>
      have hd : dropEntry acc n = acc := by simp [dropEntry, hn]
      rw [hd] at hh hp ⊢
      exact ⟨gone, hh, hp⟩
    | some e =>
      have hd : dropEntry acc n = (acc.1.erase n, acc.2 ++ [e.verified.txHash]) := by
        simp [dropEntry, hn]
      rw [hd] at hh hp ⊢
      refine ⟨e :: gone, by simpa using hh, ?_⟩
      exact (values_erase hn).trans (hp.cons e)

/-- The entries `on_commit` takes out of one queue are those whose hashes
it collects. -/
theorem commitQueue_perm {queue : SenderQueue} (currentNonce : UInt64)
    (h0 : queue.queued[(0 : UInt64)]? = none) :
    ∃ gone : List PoolEntry,
      (commitQueue queue currentNonce).2 = gone.map (·.verified.txHash) ∧
      queue.entries.Perm (gone ++ (commitQueue queue currentNonce).1.entries) := by
  obtain ⟨gp, hgp, hpp⟩ := foldl_dropEntry_perm
    (queue.pending.keys.filter (· < currentNonce)) (queue.pending, [])
  obtain ⟨gq, hgq, hpq⟩ := foldl_dropEntry_perm
    (queue.queued.keys.filter (· < currentNonce)) (queue.queued, [])
  have hz := removeStale_zero currentNonce h0
  refine ⟨gp ++ gq, ?_, ?_⟩
  · simp only [commitQueue, removeStale, hgp, hgq, List.nil_append, List.map_append]
  · have hprom := promoteQueuedStatic_perm
      ⟨(removeStale queue.pending currentNonce).1, (removeStale queue.queued currentNonce).1⟩
      currentNonce hz
    refine (hpp.append hpq).trans ?_
    refine List.Perm.trans ?_ (hprom.symm.append_left (gp ++ gq))
    simp only [SenderQueue.entries, removeStale, List.append_assoc]
    exact (List.perm_append_comm_assoc _ gq _).append_left gp

theorem commitQueue_zero {queue : SenderQueue} (currentNonce : UInt64)
    (h0 : queue.queued[(0 : UInt64)]? = none) :
    (commitQueue queue currentNonce).1.queued[(0 : UInt64)]? = none := by
  have hz := removeStale_zero currentNonce h0
  exact promoteQueuedStatic_zero currentNonce hz

/-! ## Candidates -/

/-- A candidate is the first pending entry of its sender. -/
theorem candidate_first {it : IterOrder Address SenderQueue} {inner : PoolInner} {c : Candidate}
    (h : c ∈ candidates it inner) :
    ∃ queue e, inner.senders[c.sender]? = some queue ∧ queue.pending[c.nonce]? = some e ∧
      (∀ k, (queue.pending[k]?).isSome → k = c.nonce ∨ compare c.nonce k = .lt) ∧
      c.tip = e.effectiveTip ∧ c.raw = e.verified.raw := by
  obtain ⟨s, -, hs⟩ := List.mem_filterMap.mp h
  obtain ⟨queue, hqueue, hhead⟩ := Option.bind_eq_some_iff.mp hs
  obtain ⟨⟨n, e⟩, hfirst, rfl⟩ := Option.map_eq_some_iff.mp hhead
  obtain ⟨hget, hmin⟩ := queue.pending.first_entry hfirst
  exact ⟨queue, e, hqueue, hget, hmin, rfl, rfl⟩

end Nbnet.Txpool
