/-
Nbnet.Txpool.CommitTheorems — what `on_commit` evicts, promotes and
forgets.

Every entry is filed under its own sender and nonce (`Filed`), so what is
held can be named by the transaction alone. A commit with the account
nonces `f` keeps exactly the transactions from `f` on, moves the run of
queued nonces behind the pending ones to pending, and drops the hashes and
the sender records that nothing needs any more; a second one finds nothing
to do (`commit_evicts_exactly`).
-/
import Nbnet.Txpool.SubmitTheorems

namespace Nbnet.Txpool

open Lib

/-! ## Every entry is filed under its sender and nonce -/

/-- The maps' keys are the transactions' own senders and nonces. -/
def Filed (inner : PoolInner) : Prop :=
  ∀ (s : Address) (slot : Slot) (n : UInt64) (e : PoolEntry),
    ((queueOf inner s).map slot)[n]? = some e → e.verified.sender = s ∧ e.verified.envelope.nonce = n

/-- What promotion leaves in a map was in one of the two at that nonce. -/
theorem promote_from {queue : SenderQueue} {c : UInt64} (h0 : queue.queued[(0 : UInt64)]? = none)
    {slot : Slot} {n : UInt64} {e : PoolEntry}
    (h : ((promoteQueuedStatic queue c).map slot)[n]? = some e) :
    ∃ slot', (queue.map slot')[n]? = some e := by
  obtain ⟨k, hk⟩ := promoteQueuedStatic_spec queue c h0
  cases slot with
  | pending =>
    rw [SenderQueue.map, hk.pending] at h
    split at h
    · exact ⟨.queued, h⟩
    · exact ⟨.pending, h⟩
  | queued =>
    rw [SenderQueue.map, hk.queued] at h
    split at h
    · cases h
    · exact ⟨.queued, h⟩

theorem filed_submitVerified {config : EvmTxPoolConfig} {nonceFn : Option (Address → UInt64)}
    {inner : PoolInner} (h : PoolInv inner) (hfiled : Filed inner) (v : VerifiedTx) :
    Filed (submitVerified config nonceFn inner v).2 := by
  intro s slot n e he
  rcases queueOf_submitVerified config nonceFn inner v with
    hsame | ⟨queue', old, hnew, hnonce, hplace, hq⟩
  · rw [hsame] at he
    exact hfiled s slot n e he
  · obtain ⟨htakes, rfl⟩ := takes_of_placed hnew hnonce hplace
    rw [hq] at he
    split at he
    · rename_i hs
      subst hs
      obtain ⟨slot', he'⟩ := promote_from (htakes.zero (h.queueOf_zero v.sender)) he
      rw [withEntry_get] at he'
      split at he'
      · rename_i hcell
        obtain rfl := Option.some.inj he'
        exact ⟨rfl, hcell.2⟩
      · exact hfiled v.sender slot' n e he'
    · exact hfiled s slot n e he

theorem filed_collectPayload {inner : PoolInner} (hfiled : Filed inner)
    (it : IterOrder Address SenderQueue) (maxBytes : Nat) (maxGas : UInt64) :
    Filed (collectPayload it inner maxBytes maxGas).2 := by
  intro s slot n e he
  obtain ⟨hp, hq⟩ := queueOf_removeAll (selection it inner maxBytes maxGas).included inner s
  cases slot with
  | pending =>
    simp only [collectPayload, SenderQueue.map, hp] at he
    split at he
    · cases he
    · exact hfiled s .pending n e he
  | queued =>
    simp only [collectPayload, SenderQueue.map, hq] at he
    exact hfiled s .queued n e he

theorem filed_onCommit {inner : PoolInner} (h : PoolInv inner) (hfiled : Filed inner)
    (it : IterOrder Address SenderQueue) (f : Address → UInt64) :
    Filed (onCommit it inner f) := by
  intro s slot n e he
  rw [queueOf_onCommit, commitQueue_fst] at he
  obtain ⟨slot', he'⟩ := promote_from (pruned_zero _ (h.queueOf_zero s)) he
  rw [pruned_get] at he'
  split at he'
  · cases he'
  · exact hfiled s slot' n e he'

theorem filed_run (al : Alloy) (config : EvmTxPoolConfig) (ops : List PoolOp) :
    Filed (ops.foldl (applyOp al config) PoolInner.new) := by
  refine (run_invariant_all (fun inner => PoolInv inner ∧ Filed inner)
    (fun inner op h => ⟨poolInv_applyOp h.1 op, ?_⟩) ops _ ⟨poolInv_new, ?_⟩).2
  · cases op with
    | submit nonceFn raw =>
      simp only [applyOp, submitTx]
      split
      · exact h.2
      · exact filed_submitVerified h.1 h.2 _
    | collect it maxBytes maxGas => exact filed_collectPayload h.2 it maxBytes maxGas
    | commit it f => exact filed_onCommit h.1 h.2 it f
  · intro s slot n e he
    cases slot <;> simp [queueOf, PoolInner.new, SenderQueue.map] at he

/-! ## One queue -/

/-- Where promotion starts, in numbers that do not wrap: right after the
last pending nonce from `f` on, or at `f` when there is none. -/
def StartsAt (queue : SenderQueue) (f : UInt64) (start : Nat) : Prop :=
  (∃ l : UInt64, f.toNat ≤ l.toNat ∧ (queue.pending[l]?).isSome ∧
      (∀ m : UInt64, (queue.pending[m]?).isSome → m.toNat ≤ l.toNat) ∧ start = l.toNat + 1) ∨
    (∀ m : UInt64, f.toNat ≤ m.toNat → queue.pending[m]? = none) ∧ start = f.toNat

/-- The nonce lies in the unbroken run of queued nonces that starts there. -/
def InQueuedRun (queue : SenderQueue) (f n : UInt64) : Prop :=
  ∃ start, StartsAt queue f start ∧ start ≤ n.toNat ∧
    ∀ m : UInt64, start ≤ m.toNat → m.toNat ≤ n.toNat → (queue.queued[m]?).isSome

theorem startsAt_promoteStart (queue : SenderQueue) (f : UInt64) :
    ∃ start, StartsAt queue f start ∧ start ≤ 2 ^ 64 ∧
      (promoteStart (pruned queue f) f).toNat = start % 2 ^ 64 := by
  have hpruned := pruned_pending queue f
  unfold promoteStart
  cases hl : (pruned queue f).pending.keys.getLast? with
  | none =>
    refine ⟨f.toNat, .inr ⟨fun m hm => ?_, rfl⟩, le_of_lt f.toNat_lt,
      (Nat.mod_eq_of_lt f.toNat_lt).symm⟩
    by_contra hsome
    have hleft := (hpruned m).mpr ⟨hm, Option.isSome_iff_ne_none.mpr hsome⟩
    rw [FMap.eq_none_of_last_none _ hl] at hleft
    cases hleft
  | some l =>
    have hlast := (hpruned l).mp (FMap.last_mem _ hl)
    refine ⟨l.toNat + 1, .inl ⟨l, hlast.1, hlast.2, fun m hm => ?_, rfl⟩, l.toNat_lt,
      UInt64.toNat_add l 1⟩
    -- a nonce below `f` is below `l` too
    by_cases hfm : f.toNat ≤ m.toNat
    · exact pending_le_last hl ((hpruned m).mpr ⟨hfm, hm⟩)
    · have := hlast.1
      omega

theorem StartsAt.unique {queue : SenderQueue} {f : UInt64} {start start' : Nat}
    (h : StartsAt queue f start) (h' : StartsAt queue f start') : start = start' := by
  rcases h with ⟨l, hfl, hl, hmax, rfl⟩ | ⟨hnone, rfl⟩
  · rcases h' with ⟨l', hfl', hl', hmax', rfl⟩ | ⟨hnone', -⟩
    · have := hmax l' hl'
      have := hmax' l hl
      omega
    · rw [hnone' l hfl] at hl
      cases hl
  · rcases h' with ⟨l', hfl', hl', -, rfl⟩ | ⟨-, rfl⟩
    · rw [hnone l' hfl'] at hl'
      cases hl'
    · rfl

theorem pruned_queued (queue : SenderQueue) (f n : UInt64) :
    (pruned queue f).queued[n]? = if n < f then none else queue.queued[n]? :=
  pruned_get queue f .queued n

section Queue

variable {queue : SenderQueue} {f : UInt64}

/-- What a commit promotes is the run. -/
theorem inRun_iff_inQueuedRun {queue' : SenderQueue} {k : Nat}
    (hk : Promoted (pruned queue f) queue' (promoteStart (pruned queue f) f) k)
    (h0 : queue.queued[(0 : UInt64)]? = none) (n : UInt64) :
    InRun (promoteStart (pruned queue f) f) k n ↔ InQueuedRun queue f n := by
  obtain ⟨start, hstart, hle, hnext⟩ := startsAt_promoteStart queue f
  have hz0 := pruned_zero f h0
  have hlt := n.toNat_lt
  constructor
  · intro hrun
    -- a counter that has wrapped moves nothing
    have hnz : (promoteStart (pruned queue f) f).toNat ≠ 0 := fun hz =>
      hk.next_ne_zero hz0 hrun (UInt64.toNat_inj.mp hz)
    have hstart' : (promoteStart (pruned queue f) f).toNat = start := by
      rcases Nat.lt_or_ge start (2 ^ 64) with hlt | hge
      · rw [hnext, Nat.mod_eq_of_lt hlt]
      · rw [hnext, show start = 2 ^ 64 by omega] at hnz
        exact absurd rfl hnz
    refine ⟨start, hstart, hstart' ▸ hrun.1, fun m hsm hmn => ?_⟩
    have hqueued := hk.wasQueued m ⟨by omega, lt_of_le_of_lt hmn hrun.2⟩
    rw [pruned_queued] at hqueued
    split at hqueued
    · cases hqueued
    · exact hqueued
  · rintro ⟨start', hstart', hn, hall⟩
    obtain rfl := hstart.unique hstart'
    rw [Nat.mod_eq_of_lt (by omega)] at hnext
    refine ⟨by omega, ?_⟩
    by_contra hover
    -- the nonce where promotion stopped is in the run
    have hend : (UInt64.ofNat (start + k)).toNat = start + k := toNat_ofNat64 (by omega)
    have hsome := hall (UInt64.ofNat (start + k)) (by omega) (by omega)
    have hnone := hk.maximal (UInt64.ofNat (start + k)) (by omega)
    have hfs : f.toNat ≤ start := by
      rcases hstart with ⟨l, hfl, -, -, rfl⟩ | ⟨-, rfl⟩ <;> omega
    rw [pruned_queued, if_neg (by rw [UInt64.lt_iff_toNat_lt]; omega)] at hnone
    rw [hnone] at hsome
    cases hsome

/-- Where a commit leaves what it keeps. -/
structure Kept (queue queue' : SenderQueue) (f : UInt64) : Prop where
  /-- What was pending stays pending. -/
  pending : ∀ (n : UInt64) (e : PoolEntry), queue.pending[n]? = some e → f.toNat ≤ n.toNat →
    queue'.pending[n]? = some e
  /-- What was queued is pending when it lies in the run. -/
  ready : ∀ (n : UInt64) (e : PoolEntry), queue.queued[n]? = some e → f.toNat ≤ n.toNat →
    InQueuedRun queue f n → queue'.pending[n]? = some e ∧ queue'.queued[n]? = none
  /-- Otherwise it stays queued. -/
  waiting : ∀ (n : UInt64) (e : PoolEntry), queue.queued[n]? = some e → f.toNat ≤ n.toNat →
    ¬ InQueuedRun queue f n → queue'.queued[n]? = some e
  /-- Nothing else is there. -/
  only : ∀ (slot : Slot) (n : UInt64) (e : PoolEntry), (queue'.map slot)[n]? = some e →
    f.toNat ≤ n.toNat ∧ ∃ slot', (queue.map slot')[n]? = some e

theorem kept_commitQueue (h0 : queue.queued[(0 : UInt64)]? = none) :
    Kept queue (commitQueue queue f).1 f := by
  have hz0 := pruned_zero f h0
  obtain ⟨k, hk⟩ := promoteQueuedStatic_spec (pruned queue f) f hz0
  have hrun := inRun_iff_inQueuedRun hk h0
  have hpending : ∀ n : UInt64, (pruned queue f).pending[n]?
      = if n < f then none else queue.pending[n]? := pruned_get queue f .pending
  have hqueued := pruned_queued queue f
  rw [commitQueue_fst]
  refine ⟨fun n e he hfn => ?_, fun n e he hfn hr => ?_, fun n e he hfn hr => ?_,
    fun slot n e he => ?_⟩
  · have hge : ¬ n < f := by rw [UInt64.lt_iff_toNat_lt]; omega
    refine (promote_keeps f hz0 n e).1 ?_
    rw [hpending, if_neg hge, he]
  · have hge : ¬ n < f := by rw [UInt64.lt_iff_toNat_lt]; omega
    rw [hk.pending, hk.queued, if_pos ((hrun n).mpr hr), if_pos ((hrun n).mpr hr), hqueued,
      if_neg hge]
    exact ⟨he, rfl⟩
  · have hge : ¬ n < f := by rw [UInt64.lt_iff_toNat_lt]; omega
    rw [hk.queued, if_neg fun h => hr ((hrun n).mp h), hqueued, if_neg hge, he]
  · obtain ⟨slot', he'⟩ := promote_from hz0 he
    rw [pruned_get] at he'
    split at he'
    · cases he'
    · rename_i hge
      rw [UInt64.lt_iff_toNat_lt] at hge
      exact ⟨by omega, slot', he'⟩

/-- A queue with nothing left to promote. -/
theorem promoteQueuedStatic_of_none {c : UInt64} (h : queue.queued[promoteStart queue c]? = none) :
    promoteQueuedStatic queue c = queue := by
  rw [promoteQueuedStatic]
  cases queue.queued.size with
  | zero => rfl
  | succ fuel => rw [promoteLoop, h]

/-- A second commit leaves a queue as the first one did. -/
theorem commitQueue_idem (h0 : queue.queued[(0 : UInt64)]? = none) :
    (commitQueue (commitQueue queue f).1 f).1 = (commitQueue queue f).1 := by
  have hkept := kept_commitQueue (f := f) h0
  have hz0 := pruned_zero f h0
  obtain ⟨hsettled, hempty⟩ := promoteQueuedStatic_settled (pruned queue f) f hz0
  rw [← commitQueue_fst] at hsettled hempty
  generalize (commitQueue queue f).1 = after at hkept hsettled hempty
  have hstale : ∀ (slot : Slot) (n : UInt64), n < f → (after.map slot)[n]? = none := by
    intro slot n hn
    rw [UInt64.lt_iff_toNat_lt] at hn
    by_contra hsome
    obtain ⟨e, he⟩ := Option.ne_none_iff_exists'.mp hsome
    have := (hkept.only slot n e he).1
    omega
  have hclean : pruned after f = after := by
    have hget : ∀ (slot : Slot) (n : UInt64),
        ((pruned after f).map slot)[n]? = (after.map slot)[n]? := by
      intro slot n
      rw [pruned_get]
      split
      · rename_i hn
        exact (hstale slot n hn).symm
      · rfl
    exact SenderQueue.eq_of_get (hget .pending) (hget .queued)
  rw [commitQueue_fst, hclean]
  refine promoteQueuedStatic_of_none ?_
  unfold promoteStart
  cases hl : after.pending.keys.getLast? with
  | some l => exact hsettled l hl
  | none =>
    refine hempty (Std.ExtTreeMap.isEmpty_iff.mpr ?_)
    refine Std.ExtTreeMap.ext_getElem? fun {n} => ?_
    rw [FMap.eq_none_of_last_none _ hl]
    simp

end Queue

/-! ## The whole pool -/

theorem mem_values_iff (m : NonceMap) (e : PoolEntry) :
    e ∈ values m ↔ ∃ n : UInt64, m[n]? = some e := by
  unfold values
  rw [List.mem_map]
  constructor
  · rintro ⟨⟨n, e'⟩, hmem, rfl⟩
    exact ⟨n, (FMap.mem_toList_iff m n e').mp hmem⟩
  · rintro ⟨n, hn⟩
    exact ⟨(n, e), (FMap.mem_toList_iff m n e).mpr hn, rfl⟩

/-- What is held is what the maps hold. -/
theorem mem_held_iff (inner : PoolInner) (s : Address) (e : PoolEntry) :
    (s, e) ∈ held inner ↔
      ∃ (slot : Slot) (n : UInt64), ((queueOf inner s).map slot)[n]? = some e := by
  have hsplit := heldIn_split inner.senders s rfl
  have hother : (s, e) ∉ heldIn (inner.senders.erase s) := by
    unfold heldIn
    rw [List.mem_flatMap]
    rintro ⟨⟨s', q⟩, hmem, he⟩
    obtain ⟨e', -, heq⟩ := List.mem_map.mp he
    obtain ⟨rfl, rfl⟩ := Prod.mk.inj heq
    have hget := (FMap.mem_toList_iff _ _ _).mp hmem
    rw [FMap.get_erase, if_pos rfl] at hget
    cases hget
  have hmem : (s, e) ∈ held inner ↔ e ∈ (queueOf inner s).entries := by
    unfold held
    rw [hsplit.mem_iff, List.mem_append]
    simp [hother, queueOf]
  rw [hmem, SenderQueue.entries, List.mem_append, mem_values_iff, mem_values_iff]
  constructor
  · rintro (⟨n, hn⟩ | ⟨n, hn⟩)
    · exact ⟨.pending, n, hn⟩
    · exact ⟨.queued, n, hn⟩
  · rintro ⟨slot, n, hn⟩
    cases slot with
    | pending => exact .inl ⟨n, hn⟩
    | queued => exact .inr ⟨n, hn⟩

/-- The account has used up the transaction's nonce. -/
def Consumed (f : Address → UInt64) (x : Address × PoolEntry) : Prop :=
  x.2.verified.envelope.nonce < f x.1

instance Consumed.decidable (f : Address → UInt64) (x : Address × PoolEntry) :
    Decidable (Consumed f x) :=
  inferInstanceAs (Decidable (_ < _))

/-- `inner'` is `inner` without what the account nonces have used up. -/
structure Evicts (inner inner' : PoolInner) (f : Address → UInt64) : Prop where
  entries : (held inner').Perm ((held inner).filter fun x => ¬ Consumed f x)
  queues : ∀ s, Kept (queueOf inner s) (queueOf inner' s) (f s)
  /-- The hashes of the removed transactions are gone, and no others. -/
  byHash : ∀ h : B256, inner'.byHash[h]?
    = if ∃ x ∈ held inner, Consumed f x ∧ x.2.verified.txHash = h then none else inner.byHash[h]?
  /-- A record remains exactly where something is held. -/
  records : ∀ s, (inner'.senders[s]?).isSome ↔
    ((queueOf inner' s).pending.isEmpty = false ∨ (queueOf inner' s).queued.isEmpty = false)

section Evict

variable {inner : PoolInner}

theorem mem_held_onCommit (h : PoolInv inner) (hfiled : Filed inner)
    (it : IterOrder Address SenderQueue) (f : Address → UInt64) (s : Address) (e : PoolEntry) :
    (s, e) ∈ held (onCommit it inner f) ↔ (s, e) ∈ held inner ∧ ¬ Consumed f (s, e) := by
  have hkept : Kept (queueOf inner s) (queueOf (onCommit it inner f) s) (f s) := by
    rw [queueOf_onCommit]
    exact kept_commitQueue (h.queueOf_zero s)
  have hnonce : ∀ n : UInt64, (¬ n < f s) ↔ (f s).toNat ≤ n.toNat := fun n => by
    rw [UInt64.lt_iff_toNat_lt, not_lt]
  rw [mem_held_iff, mem_held_iff]
  constructor
  · rintro ⟨slot, n, he⟩
    obtain ⟨hge, slot', he'⟩ := hkept.only slot n e he
    refine ⟨⟨slot', n, he'⟩, ?_⟩
    rw [Consumed, (hfiled s slot' n e he').2, hnonce]
    exact hge
  · rintro ⟨⟨slot, n, he⟩, hlive⟩
    rw [Consumed, (hfiled s slot n e he).2, hnonce] at hlive
    cases slot with
    | pending => exact ⟨.pending, n, hkept.pending n e he hlive⟩
    | queued =>
      by_cases hrun : InQueuedRun (queueOf inner s) (f s) n
      · exact ⟨.pending, n, (hkept.ready n e he hlive hrun).1⟩
      · exact ⟨.queued, n, hkept.waiting n e he hlive hrun⟩

theorem PoolInv.held_nodup (h : PoolInv inner) : (held inner).Nodup :=
  List.Nodup.of_map _ h.index.nodup

/-- The index after a commit: the hashes of the removed entries are gone. -/
theorem byHash_onCommit (h : PoolInv inner) (hfiled : Filed inner)
    (it : IterOrder Address SenderQueue) (f : Address → UInt64) (hash : B256) :
    (onCommit it inner f).byHash[hash]?
      = if ∃ x ∈ held inner, Consumed f x ∧ x.2.verified.txHash = hash then none
        else inner.byHash[hash]? := by
  have hafter := (poolInv_onCommit h it f).index
  have hmem := mem_held_onCommit h hfiled it f
  split
  · rename_i hgone
    obtain ⟨x, hx, hcons, rfl⟩ := hgone
    rw [hafter.get_eq_none_iff, List.mem_map]
    rintro ⟨y, hy, hhash⟩
    obtain ⟨hy', hlive⟩ := (hmem y.1 y.2).mp hy
    -- one hash, one entry
    obtain rfl : y = x := List.inj_on_of_nodup_map h.index.nodup hy' hx hhash
    exact hlive hcons
  · rename_i hkept
    cases hbefore : inner.byHash[hash]? with
    | none =>
      rw [h.index.get_eq_none_iff, List.mem_map] at hbefore
      rw [hafter.get_eq_none_iff, List.mem_map]
      rintro ⟨y, hy, hhash⟩
      exact hbefore ⟨y, ((hmem y.1 y.2).mp hy).1, hhash⟩
    | some s =>
      obtain ⟨x, hx, hhash, hs⟩ := (h.index.spec hash s).mp hbefore
      refine (hafter.spec hash s).mpr ⟨x, (hmem x.1 x.2).mpr ⟨hx, fun hcons => ?_⟩, hhash, hs⟩
      exact hkept ⟨x, hx, hcons, hhash⟩

theorem evicts_onCommit (h : PoolInv inner) (hfiled : Filed inner)
    (it : IterOrder Address SenderQueue) (f : Address → UInt64) :
    Evicts inner (onCommit it inner f) f := by
  refine ⟨?_, fun s => ?_, byHash_onCommit h hfiled it f, fun s => ?_⟩
  · refine (List.perm_ext_iff_of_nodup (poolInv_onCommit h it f).held_nodup
      (h.held_nodup.filter _)).mpr fun x => ?_
    rw [List.mem_filter, decide_eq_true_iff]
    exact mem_held_onCommit h hfiled it f x.1 x.2
  · rw [queueOf_onCommit]
    exact kept_commitQueue (h.queueOf_zero s)
  · rw [queueOf_onCommit, senders_onCommit]
    have hempty := isEmpty_iff_default (commitQueue (queueOf inner s) (f s)).1
    split
    · rename_i hnone
      rw [hnone]
      simp
    · rename_i hsome
      rw [← hempty] at hsome
      simpa [-Std.ExtTreeMap.isEmpty_iff, imp_iff_not_or] using hsome

/-- A second commit with the same nonces finds nothing to do. -/
theorem onCommit_idem (h : PoolInv inner) (hfiled : Filed inner)
    (it it' : IterOrder Address SenderQueue) (f : Address → UInt64) :
    onCommit it' (onCommit it inner f) f = onCommit it inner f := by
  have hsenders : (onCommit it' (onCommit it inner f) f).senders = (onCommit it inner f).senders := by
    refine Std.ExtTreeMap.ext_getElem? fun {s} => ?_
    rw [senders_onCommit it', queueOf_onCommit, commitQueue_idem (h.queueOf_zero s),
      senders_onCommit]
  have hhashes : (onCommit it' (onCommit it inner f) f).byHash = (onCommit it inner f).byHash := by
    refine Std.ExtTreeMap.ext_getElem? fun {hash} => ?_
    rw [byHash_onCommit (poolInv_onCommit h it f) (filed_onCommit h hfiled it f) it' f, if_neg]
    rintro ⟨x, hx, hcons, -⟩
    exact ((mem_held_onCommit h hfiled it f x.1 x.2).mp hx).2 hcons
  cases hp : onCommit it' (onCommit it inner f) f
  cases hp' : onCommit it inner f
  simp_all

end Evict

/-- **A commit evicts exactly the consumed nonces**, from every pool a run
reaches and with any nonce function, and a second commit with the same one
changes nothing. -/
theorem commit_evicts_exactly (al : Alloy) (config : EvmTxPoolConfig) (ops : List PoolOp)
    (it it' : IterOrder Address SenderQueue) (f : Address → UInt64) :
    let pool := ops.foldl (applyOp al config) PoolInner.new
    Evicts pool (onCommit it pool f) f ∧
      onCommit it' (onCommit it pool f) f = onCommit it pool f :=
  ⟨evicts_onCommit (poolInv_run al config ops) (filed_run al config ops) it f,
    onCommit_idem (poolInv_run al config ops) (filed_run al config ops) it it' f⟩

end Nbnet.Txpool
