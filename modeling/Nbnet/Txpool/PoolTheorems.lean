/-
Nbnet.Txpool.PoolTheorems — runs of the pool and the exactness of its
hash index.

A run is any list of `PoolOp`s applied to the empty pool: submissions
with whatever nonce lookup is installed at that moment, payload
collections and commits, each walking over the senders in an order of its
own. `held` lists what the pool holds, over all senders and both maps.

The index invariant is `Indexes` of `Lib.Index`, taken over `held`: hashes
are pairwise different and `by_hash` knows exactly them. Each operation is
one permutation statement about `held` (an entry comes in, entries leave,
promotion only moves entries), and the index follows by the rules of the
library.
-/
import Nbnet.Lib.Index
import Nbnet.Lib.Runs
import Nbnet.Txpool.QueueTheorems

namespace Nbnet.Txpool

open Lib

/-! ## Runs -/

/-- One operation on the pool. -/
inductive PoolOp where
  | submit (nonceFn : Option (Address → UInt64)) (raw : Bytes)
  | collect (it : IterOrder Address SenderQueue) (maxBytes : Nat) (maxGas : UInt64)
  | commit (it : IterOrder Address SenderQueue) (nonceFn : Address → UInt64)

/-- The pool after an operation, whether or not it succeeded. -/
def applyOp (al : Alloy) (config : EvmTxPoolConfig) (inner : PoolInner) : PoolOp → PoolInner
  | .submit nonceFn raw => (submitTx al config nonceFn inner raw).2
  | .collect it maxBytes maxGas => (collectPayload it inner maxBytes maxGas).2
  | .commit it nonceFn => onCommit it inner nonceFn

/-! ## What the pool holds -/

/-- The entries under a table of senders, each with its sender. -/
def heldIn (senders : FMap Address SenderQueue) : List (Address × PoolEntry) :=
  senders.toList.flatMap fun e => e.2.entries.map fun entry => (e.1, entry)

/-- Every entry of the pool, over all senders, pending and queued. -/
def held (inner : PoolInner) : List (Address × PoolEntry) := heldIn inner.senders

theorem heldIn_cons {senders senders' : FMap Address SenderQueue} {s : Address}
    {queue : SenderQueue} (h : senders.toList.Perm ((s, queue) :: senders'.toList)) :
    (heldIn senders).Perm (queue.entries.map (fun e => (s, e)) ++ heldIn senders') :=
  h.flatMap_right _

@[simp] theorem entries_default : (({} : SenderQueue)).entries = [] := by
  simp [SenderQueue.entries, values]

/-- The entries of one sender, in front of the others'. A sender with no
record has an empty queue. -/
theorem heldIn_split (senders : FMap Address SenderQueue) (s : Address) {queue : SenderQueue}
    (h : (senders[s]?).getD {} = queue) :
    (heldIn senders).Perm (queue.entries.map (fun e => (s, e)) ++ heldIn (senders.erase s)) := by
  cases hs : senders[s]? with
  | none =>
    rw [hs] at h
    subst h
    rw [FMap.erase_of_none _ hs]
    simp
  | some q =>
    rw [hs] at h
    subst h
    exact heldIn_cons (senders.toList_erase_perm hs)

/-- Writing one sender's queue replaces that sender's share. -/
theorem heldIn_insert (senders : FMap Address SenderQueue) (s : Address) (queue : SenderQueue) :
    (heldIn (senders.insert s queue)).Perm
      (queue.entries.map (fun e => (s, e)) ++ heldIn (senders.erase s)) := by
  have hget : ((senders.insert s queue)[s]?).getD {} = queue := by simp
  have := heldIn_split (senders.insert s queue) s hget
  rwa [FMap.erase_insert] at this

/-- Taking a pending entry out takes it out of what is held. -/
theorem heldIn_erasePending {senders : FMap Address SenderQueue} {s : Address}
    {queue : SenderQueue} {n : UInt64} {entry : PoolEntry} (hs : senders[s]? = some queue)
    (hp : queue.pending[n]? = some entry) :
    (heldIn senders).Perm ((s, entry) ::
      heldIn (senders.insert s { queue with pending := queue.pending.erase n })) := by
  have hsplit := heldIn_split senders s (congrArg (·.getD {}) hs)
  have hq : queue.entries.Perm
      (entry :: ({ queue with pending := queue.pending.erase n } : SenderQueue).entries) :=
    (values_erase hp).append_right _
  exact (hsplit.trans ((hq.map _).append_right _)).trans ((heldIn_insert _ _ _).symm.cons _)

/-! ## The invariant -/

/-- No sender has nonce 0 queued. -/
def NoQueuedZero (senders : FMap Address SenderQueue) : Prop :=
  ∀ (s : Address) (queue : SenderQueue),
    senders[s]? = some queue → queue.queued[(0 : UInt64)]? = none

theorem NoQueuedZero.getD {senders : FMap Address SenderQueue} (h : NoQueuedZero senders)
    (s : Address) : ((senders[s]?).getD {}).queued[(0 : UInt64)]? = none := by
  cases hs : senders[s]? with
  | none => simp
  | some q => exact h s q hs

theorem NoQueuedZero.insert {senders : FMap Address SenderQueue} (h : NoQueuedZero senders)
    {s : Address} {queue : SenderQueue} (hq : queue.queued[(0 : UInt64)]? = none) :
    NoQueuedZero (senders.insert s queue) := by
  intro s' q hs
  rw [FMap.get_insert] at hs
  split at hs
  · cases hs; exact hq
  · exact h s' q hs

theorem NoQueuedZero.erase {senders : FMap Address SenderQueue} (h : NoQueuedZero senders)
    (s : Address) : NoQueuedZero (senders.erase s) := by
  intro s' q hs
  rw [FMap.get_erase] at hs
  split at hs
  · cases hs
  · exact h s' q hs

/-- `by_hash` is the exact index of a list of entries. -/
abbrev HashIndex (byHash : FMap B256 Address) (l : List (Address × PoolEntry)) : Prop :=
  Indexes (fun x => x.2.verified.txHash) Prod.fst byHash l

/-- The invariant of the pool. -/
structure PoolInv (inner : PoolInner) : Prop where
  index : HashIndex inner.byHash (held inner)
  noZero : NoQueuedZero inner.senders

theorem poolInv_new : PoolInv PoolInner.new :=
  ⟨Indexes.empty, fun s q h => by simp [PoolInner.new] at h⟩

/-! ## Submission -/

/-- What a submission does: nothing, or it leaves an empty record behind,
or it places the entry and promotes. -/
theorem submitVerified_cases (config : EvmTxPoolConfig) (nonceFn : Option (Address → UInt64))
    (inner : PoolInner) (v : VerifiedTx) :
    (∃ e, submitVerified config nonceFn inner v = (.error e, inner)) ∨
    (∃ e, submitVerified config nonceFn inner v = (.error e, { inner with
        senders := inner.senders.insert v.sender ((inner.senders[v.sender]?).getD {}) })) ∨
    (∃ queue' old,
      inner.byHash[v.txHash]? = none ∧
      ¬ v.envelope.nonce < (nonceFn.map (· v.sender)).getD 0 ∧
      placeEntry config ((inner.senders[v.sender]?).getD {})
        (slotFor ((inner.senders[v.sender]?).getD {}) ((nonceFn.map (· v.sender)).getD 0)
          v.envelope.nonce)
        { verified := v, effectiveTip := effectiveGasTip v.envelope config.baseFee }
        = .ok (queue', old) ∧
      submitVerified config nonceFn inner v = (.ok v.txHash,
        { senders := inner.senders.insert v.sender
            (promoteQueuedStatic queue' ((nonceFn.map (· v.sender)).getD 0))
          byHash := reindex inner.byHash old v.txHash v.sender })) := by
  unfold submitVerified
  simp only
  split
  · exact .inl ⟨_, rfl⟩
  · rename_i hnew
    split
    · exact .inl ⟨_, rfl⟩
    · rename_i hnonce
      split
      · exact .inr (.inl ⟨_, rfl⟩)
      · rename_i queue' old hplace
        refine .inr (.inr ⟨queue', old, ?_, hnonce, hplace, rfl⟩)
        simpa using hnew

theorem reindex_index {byHash : FMap B256 Address} {old : Option B256} {s : Address}
    {l : List (Address × PoolEntry)} (entry : PoolEntry) (others : List (Address × PoolEntry))
    (hidx : HashIndex byHash l) (hnew : byHash[entry.verified.txHash]? = none)
    (hl : (old = none ∧ l.Perm others) ∨
      ∃ existing : PoolEntry, old = some existing.verified.txHash ∧
        l.Perm ((s, existing) :: others)) :
    HashIndex (reindex byHash old entry.verified.txHash s) ((s, entry) :: others) := by
  rcases hl with ⟨rfl, hp⟩ | ⟨existing, rfl, hp⟩
  · exact (hidx.perm hp).cons (x := (s, entry)) hnew
  · have hrest : HashIndex (byHash.erase existing.verified.txHash) others := (hidx.perm hp).tail
    refine hrest.cons (x := (s, entry)) ?_
    rw [FMap.get_erase]
    split <;> [rfl; exact hnew]

/-- What is held before and after an entry is placed: the others, with the
entry that was replaced or the new one. -/
theorem heldIn_placed {config : EvmTxPoolConfig} {senders : FMap Address SenderQueue} {s : Address}
    {queue' : SenderQueue} {currentNonce : UInt64} {entry : PoolEntry} {old : Option B256}
    (h0 : ((senders[s]?).getD {}).queued[(0 : UInt64)]? = none)
    (hge : ¬ entry.verified.envelope.nonce < currentNonce)
    (hplace : placeEntry config ((senders[s]?).getD {})
      (slotFor ((senders[s]?).getD {}) currentNonce entry.verified.envelope.nonce) entry
        = .ok (queue', old)) :
    ∃ others,
      (heldIn (senders.insert s (promoteQueuedStatic queue' currentNonce))).Perm
        ((s, entry) :: others) ∧
      ((old = none ∧ (heldIn senders).Perm others) ∨
        ∃ existing : PoolEntry, old = some existing.verified.txHash ∧
          (heldIn senders).Perm ((s, existing) :: others)) := by
  have hsplit := heldIn_split senders s rfl
  have hz' := placeEntry_zero h0 hge hplace
  obtain ⟨others, hnewq, hold⟩ := placeEntry_perm hplace
  -- the sender's other entries and everybody else's are what both pools share
  refine ⟨others.map (fun e => (s, e)) ++ heldIn (senders.erase s), ?_, ?_⟩
  · have hprom := (promoteQueuedStatic_perm queue' currentNonce hz').trans hnewq
    exact (heldIn_insert _ _ _).trans ((hprom.map fun e => (s, e)).append_right _)
  · rcases hold with ⟨rfl, hp⟩ | ⟨existing, rfl, hp⟩
    · exact .inl ⟨rfl, hsplit.trans ((hp.map _).append_right _)⟩
    · exact .inr ⟨existing, rfl, hsplit.trans ((hp.map _).append_right _)⟩

theorem poolInv_submitVerified {config : EvmTxPoolConfig} {nonceFn : Option (Address → UInt64)}
    {inner : PoolInner} (h : PoolInv inner) (v : VerifiedTx) :
    PoolInv (submitVerified config nonceFn inner v).2 := by
  have hzero := h.noZero.getD v.sender
  have hsplit := heldIn_split inner.senders v.sender rfl
  rcases submitVerified_cases config nonceFn inner v with
    ⟨e, heq⟩ | ⟨e, heq⟩ | ⟨queue', old, hnew, hnonce, hplace, heq⟩
  · rw [heq]; exact h
  · -- the default record holds nothing
    rw [heq]
    refine ⟨h.index.perm ?_, h.noZero.insert hzero⟩
    exact hsplit.trans (heldIn_insert inner.senders v.sender _).symm
  · rw [heq]
    have hz' : queue'.queued[(0 : UInt64)]? = none := placeEntry_zero hzero hnonce hplace
    refine ⟨?_, h.noZero.insert (promoteQueuedStatic_zero _ hz')⟩
    obtain ⟨others, hafter, hbefore⟩ := heldIn_placed hzero hnonce hplace
    exact (reindex_index (s := v.sender) _ others h.index hnew hbefore).perm hafter.symm

theorem poolInv_submitTx {al : Alloy} {config : EvmTxPoolConfig}
    {nonceFn : Option (Address → UInt64)} {inner : PoolInner} (h : PoolInv inner) (raw : Bytes) :
    PoolInv (submitTx al config nonceFn inner raw).2 := by
  unfold submitTx
  split
  · exact h
  · exact poolInv_submitVerified h _

/-! ## Collection -/

theorem poolInv_removeIncluded {inner : PoolInner} (h : PoolInv inner) (c : Candidate) :
    PoolInv (removeIncluded inner c) := by
  unfold removeIncluded
  split
  · exact h
  · rename_i queue hs
    split
    · exact h
    · rename_i entry hp
      have hz : queue.queued[(0 : UInt64)]? = none := h.noZero _ _ hs
      refine ⟨?_, h.noZero.insert hz⟩
      exact (h.index.perm (heldIn_erasePending hs hp)).tail

theorem poolInv_collectPayload {inner : PoolInner} (h : PoolInv inner)
    (it : IterOrder Address SenderQueue) (maxBytes : Nat) (maxGas : UInt64) :
    PoolInv (collectPayload it inner maxBytes maxGas).2 :=
  run_invariant_all PoolInv (fun _ c hs => poolInv_removeIncluded hs c) _ inner h

/-! ## Commit -/

/-- The invariant of `on_commit`'s loop: what has left the table so far is
exactly what the loop remembers, and the senders marked empty are. -/
structure CommitInv (start : FMap Address SenderQueue) (st : CommitLoop) : Prop where
  gone : ∃ gone : List (Address × PoolEntry),
    st.hashesToRemove = gone.map (fun x => x.2.verified.txHash) ∧
    (heldIn start).Perm (gone ++ heldIn st.senders)
  noZero : NoQueuedZero st.senders
  empty : ∀ s ∈ st.emptySenders, ∀ queue, st.senders[s]? = some queue → queue = {}

@[simp] theorem commitQueue_default (currentNonce : UInt64) :
    commitQueue {} currentNonce = ({}, []) := by
  have hkeys : (∅ : NonceMap).keys = [] := Std.ExtTreeMap.keys_eq_nil_iff.mpr rfl
  simp [commitQueue, removeStale, hkeys, promoteQueuedStatic, promoteLoop]

theorem eq_default_of_isEmpty {queue : SenderQueue}
    (h : queue.pending.isEmpty ∧ queue.queued.isEmpty) : queue = {} := by
  obtain ⟨p, q⟩ := queue
  simp only [Std.ExtTreeMap.isEmpty_iff] at h
  rw [h.1, h.2]

theorem commitInv_step {start : FMap Address SenderQueue} {nonceFn : Address → UInt64}
    {st : CommitLoop} (h : CommitInv start st) (s : Address) :
    CommitInv start (commitSender nonceFn st s) := by
  unfold commitSender
  split
  · exact h
  · rename_i queue hs
    have hz : queue.queued[(0 : UInt64)]? = none := h.noZero s queue hs
    obtain ⟨gone, hhash, hperm⟩ := h.gone
    obtain ⟨left, hleft, hq⟩ := commitQueue_perm (nonceFn s) hz
    refine ⟨⟨gone ++ left.map fun e => (s, e), ?_, ?_⟩,
      h.noZero.insert (commitQueue_zero _ hz), ?_⟩
    · simp only [hhash, hleft, List.map_append, List.map_map]
      rfl
    · have hsplit := heldIn_split st.senders s (congrArg (·.getD {}) hs)
      refine hperm.trans ?_
      rw [List.append_assoc]
      refine List.Perm.append_left gone ?_
      refine hsplit.trans (((hq.map fun e => (s, e)).append_right _).trans ?_)
      rw [List.map_append, List.append_assoc]
      exact (heldIn_insert _ _ _).symm.append_left _
    · intro s' hs' q' hq'
      simp only at hs' hq'
      rw [FMap.get_insert] at hq'
      by_cases hss : s = s'
      · subst hss
        simp only [if_true, Option.some.injEq] at hq'
        subst hq'
        by_cases he : (commitQueue queue (nonceFn s)).1.pending.isEmpty ∧
            (commitQueue queue (nonceFn s)).1.queued.isEmpty
        · exact eq_default_of_isEmpty he
        · rw [if_neg he] at hs'
          rw [h.empty s hs' queue hs, commitQueue_default]
      · rw [if_neg hss] at hq'
        refine h.empty s' ?_ q' hq'
        split at hs'
        · rcases List.mem_append.mp hs' with hs' | hs'
          · exact hs'
          · exact absurd (List.mem_singleton.mp hs').symm hss
        · exact hs'

/-- Dropping records that hold nothing changes nothing that is held. -/
theorem heldIn_eraseEmpty : ∀ (l : List Address) (senders : FMap Address SenderQueue),
    (∀ s ∈ l, ∀ queue, senders[s]? = some queue → queue = {}) →
    (heldIn (l.foldl (fun m s => m.erase s) senders)).Perm (heldIn senders)
  | [], _, _ => .refl _
  | s :: l, senders, h => by
      refine (heldIn_eraseEmpty l (senders.erase s) fun s' hs' q hq => ?_).trans ?_
      · rw [FMap.get_erase] at hq
        split at hq
        · cases hq
        · exact h s' (List.mem_cons_of_mem _ hs') q hq
      · have hq : (senders[s]?).getD {} = {} := by
          cases hs : senders[s]? with
          | none => rfl
          | some q => exact h s (by simp) q hs
        have := heldIn_split senders s hq
        rw [entries_default, List.map_nil, List.nil_append] at this
        exact this.symm

theorem commitInv_loop {inner : PoolInner} (h : PoolInv inner)
    (it : IterOrder Address SenderQueue) (nonceFn : Address → UInt64) :
    CommitInv inner.senders
      ((it.order inner.senders).foldl (commitSender nonceFn) { senders := inner.senders }) :=
  run_invariant_all (CommitInv inner.senders) (fun _ s hs => commitInv_step hs s) _ _
    ⟨⟨[], rfl, .refl _⟩, h.noZero, by simp⟩

theorem poolInv_onCommit {inner : PoolInner} (h : PoolInv inner)
    (it : IterOrder Address SenderQueue) (nonceFn : Address → UInt64) :
    PoolInv (onCommit it inner nonceFn) := by
  have hinv := commitInv_loop h it nonceFn
  obtain ⟨gone, hhash, hperm⟩ := hinv.gone
  refine ⟨?_, ?_⟩
  · simp only [onCommit, held, hhash]
    exact (Indexes.drop gone (h.index.perm hperm)).perm
      (heldIn_eraseEmpty _ _ hinv.empty).symm
  · exact run_invariant_all NoQueuedZero (fun _ s hs => hs.erase s) _ _ hinv.noZero

/-! ## Every reachable pool -/

theorem poolInv_applyOp {al : Alloy} {config : EvmTxPoolConfig} {inner : PoolInner}
    (h : PoolInv inner) (op : PoolOp) : PoolInv (applyOp al config inner op) := by
  cases op with
  | submit nonceFn raw => exact poolInv_submitTx h raw
  | collect it maxBytes maxGas => exact poolInv_collectPayload h it maxBytes maxGas
  | commit it nonceFn => exact poolInv_onCommit h it nonceFn

/-- The invariant holds in every state a run reaches. -/
theorem poolInv_run (al : Alloy) (config : EvmTxPoolConfig) (ops : List PoolOp) :
    PoolInv (ops.foldl (applyOp al config) PoolInner.new) :=
  run_invariant_all PoolInv (fun _ op h => poolInv_applyOp h op) ops _ poolInv_new

theorem counts_eq_held (inner : PoolInner) :
    pendingCount inner + queuedCount inner = (held inner).length := by
  unfold pendingCount queuedCount held heldIn
  induction inner.senders.toList with
  | nil => rfl
  | cons e l ih =>
    have he : e.2.entries.length = e.2.pending.size + e.2.queued.size := by
      simp [SenderQueue.entries, values]
    simp only [List.map_cons, List.sum_cons, List.flatMap_cons, List.length_append,
      List.length_map, he, ← ih]
    omega

/-- **The hash index is exact.** In every state any run reaches, `by_hash`
sends a hash to a sender exactly when one single entry of the whole pool
has that hash and is held under that sender; so `contains` answers for the
transactions held, and the two counters add up to the known hashes. -/
theorem hash_index_exact (al : Alloy) (config : EvmTxPoolConfig) (ops : List PoolOp) :
    let pool := ops.foldl (applyOp al config) PoolInner.new
    (∀ h s, pool.byHash[h]? = some s ↔
      ∃ e, (held pool).filter (fun x => x.2.verified.txHash = h) = [(s, e)]) ∧
    (∀ h, containsHash pool h = true ↔ ∃ x ∈ held pool, x.2.verified.txHash = h) ∧
    pendingCount pool + queuedCount pool = pool.byHash.size := by
  intro pool
  have hidx : HashIndex pool.byHash (held pool) := (poolInv_run al config ops).index
  refine ⟨fun h s => ?_, fun h => ?_, ?_⟩
  · rw [hidx.get_iff_filter]
    constructor
    · rintro ⟨⟨s', e⟩, hf, rfl⟩
      exact ⟨e, hf⟩
    · rintro ⟨e, hf⟩
      exact ⟨(s, e), hf, rfl⟩
  · have hnone := hidx.get_eq_none_iff h
    rw [containsHash, Std.ExtTreeMap.contains_eq_isSome_getElem?, ← not_iff_not]
    simp only [Bool.not_eq_true, Option.isSome_eq_false_iff, Option.isNone_iff_eq_none, hnone,
      List.mem_map]
  · rw [counts_eq_held, hidx.size_eq]

end Nbnet.Txpool
