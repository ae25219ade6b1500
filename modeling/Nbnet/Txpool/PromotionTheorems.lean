/-
Nbnet.Txpool.PromotionTheorems — what is left in queued, and how much
reaches pending.

Promotion stops at the first nonce that is not queued, so right after it
nothing in queued could follow the pending transactions (`Settled`).
Collection takes the lowest pending nonce of a sender and commits promote
again, so the end of the pending map stays settled along every run
(`no_ready_tx_stranded`).

The capacity of the pending map is checked where `submit_tx` inserts, not
where promotion does. `pool_within_limits_iff` says exactly which runs
stay within the limits all the same.
-/
import Nbnet.Txpool.PayloadTheorems
import Nbnet.Txpool.UniqueTheorems

namespace Nbnet.Txpool

open Lib

/-! ## The end of the pending map -/

/-- The last key is the greatest one. -/
theorem last_of_max {m : NonceMap} {l k : UInt64} (hl : m.keys.getLast? = some l)
    (hk : (m[k]?).isSome) (hmax : ∀ n : UInt64, (m[n]?).isSome → n.toNat ≤ k.toNat) : l = k :=
  UInt64.toNat_inj.mp (le_antisymm (hmax l (m.last_mem hl)) (pending_le_last hl hk))

/-- Nothing in queued follows the last pending nonce. The successor of
`u64::MAX` is 0, as the source computes it. -/
def SenderQueue.Settled (queue : SenderQueue) : Prop :=
  ∀ m : UInt64, queue.pending.keys.getLast? = some m → queue.queued[m + 1]? = none

/-- Promotion that moved something ended at the last nonce it moved. -/
theorem Promoted.last {queue queue' : SenderQueue} {next m : UInt64} {k : Nat}
    (h : Promoted queue queue' next k) (hbelow : BelowNext queue next) (hnz : next ≠ 0)
    (hk : 0 < k) (hm : queue'.pending.keys.getLast? = some m) : m.toNat + 1 = next.toNat + k := by
  have hfits := h.fits
  have hend : (UInt64.ofNat (next.toNat + k - 1)).toNat = next.toNat + k - 1 :=
    toNat_ofNat64 (by omega)
  have hmem : (queue'.pending[UInt64.ofNat (next.toNat + k - 1)]?).isSome :=
    (h.pending_isSome _).mpr (.inr ⟨by omega, by omega⟩)
  have hmax : ∀ n : UInt64, (queue'.pending[n]?).isSome →
      n.toNat ≤ (UInt64.ofNat (next.toNat + k - 1)).toNat := by
    intro n hn
    rcases (h.pending_isSome n).mp hn with hold | hrun
    · have hlt := (hbelow n hold).resolve_left hnz
      omega
    · have hlt := hrun.2
      omega
  rw [last_of_max hm hmem hmax]
  omega

theorem SenderQueue.eq_of_get {queue queue' : SenderQueue}
    (hpending : ∀ n : UInt64, queue.pending[n]? = queue'.pending[n]?)
    (hqueued : ∀ n : UInt64, queue.queued[n]? = queue'.queued[n]?) : queue = queue' := by
  have hp : queue.pending = queue'.pending := Std.ExtTreeMap.ext_getElem? fun {n} => hpending n
  have hq : queue.queued = queue'.queued := Std.ExtTreeMap.ext_getElem? fun {n} => hqueued n
  cases queue
  cases queue'
  simp_all

/-- A promotion that moves nothing changes nothing. -/
theorem Promoted.eq_of_zero {queue queue' : SenderQueue} {next : UInt64}
    (h : Promoted queue queue' next 0) : queue' = queue := by
  have hno := not_inRun_zero next
  refine SenderQueue.eq_of_get (fun n => ?_) fun n => ?_
  · rw [h.pending, if_neg (hno n)]
  · rw [h.queued, if_neg (hno n)]

/-- What promotion leaves in queued fits nowhere: neither behind the last
pending nonce nor, with nothing pending, at the account nonce. -/
theorem promoteQueuedStatic_settled (queue : SenderQueue) (c : UInt64)
    (h0 : queue.queued[(0 : UInt64)]? = none) :
    (promoteQueuedStatic queue c).Settled ∧
      ((promoteQueuedStatic queue c).pending.isEmpty →
        (promoteQueuedStatic queue c).queued[c]? = none) := by
  obtain ⟨k, hk⟩ := promoteQueuedStatic_spec queue c h0
  have hbelow := belowNext_promoteStart queue c
  have hzero := promoteQueuedStatic_zero c h0
  rcases Nat.eq_zero_or_pos k with rfl | hpos
  · have hsame := hk.eq_of_zero
    have hstop : queue.queued[promoteStart queue c]? = none := hk.maximal _ rfl
    rw [hsame]
    refine ⟨fun m hm => ?_, fun hempty => ?_⟩
    · rwa [promoteStart, hm] at hstop
    · have hnone : queue.pending.keys.getLast? = none := by
        rw [Std.ExtTreeMap.isEmpty_iff.mp hempty]
        rfl
      rwa [promoteStart, hnone] at hstop
  · have hstart : InRun (promoteStart queue c) k (promoteStart queue c) := ⟨le_rfl, by omega⟩
    have hnz := hk.next_ne_zero h0 hstart
    refine ⟨fun m hm => ?_, fun hempty => ?_⟩
    · have hlast := hk.last hbelow hnz hpos hm
      have hlt := m.toNat_lt
      by_cases hw : m.toNat + 1 = 2 ^ 64
      · rw [succ64_top hw]
        exact hzero
      · have hnext : (m + 1).toNat = (promoteStart queue c).toNat + k := by
          rw [toNat_succ64 m (by omega)]
          exact hlast
        rw [hk.queued]
        split <;> [rfl; exact hk.maximal _ hnext]
    · -- the start of the run is pending now
      have hmem := (hk.pending_isSome _).mpr (.inr hstart)
      rw [Std.ExtTreeMap.isEmpty_iff.mp hempty] at hmem
      simp at hmem

/-- `u64::MAX`. -/
def u64Max : UInt64 := 0xffffffffffffffff

/-- With `u64::MAX` pending the counter wraps to 0, finds nothing there and
stops. -/
theorem promoteQueuedStatic_top {queue : SenderQueue} (c : UInt64)
    (h0 : queue.queued[(0 : UInt64)]? = none)
    (htop : queue.pending.keys.getLast? = some u64Max) : promoteQueuedStatic queue c = queue := by
  have hstart : promoteStart queue c = 0 := by
    rw [promoteStart, htop]
    rfl
  rw [promoteQueuedStatic, hstart]
  cases queue.queued.size with
  | zero => rfl
  | succ fuel => rw [promoteLoop, h0]

/-! ## Settled pools -/

/-- Every sender's pending map ends settled. -/
def PoolSettled (inner : PoolInner) : Prop := ∀ s, (queueOf inner s).Settled

theorem settled_submitVerified {config : EvmTxPoolConfig} {nonceFn : Option (Address → UInt64)}
    {inner : PoolInner} (h : PoolInv inner) (hset : PoolSettled inner) (v : VerifiedTx) :
    PoolSettled (submitVerified config nonceFn inner v).2 := by
  intro s
  rcases queueOf_submitVerified config nonceFn inner v with
    hsame | ⟨queue', old, -, hnonce, hplace, hq⟩
  · rw [hsame]
    exact hset s
  · rw [hq]
    split
    · have h0 := placeEntry_zero (h.queueOf_zero v.sender) hnonce hplace
      exact (promoteQueuedStatic_settled queue' _ h0).1
    · exact hset s

/-- Collection only ever takes the lowest pending nonce of a sender. -/
theorem settled_collectPayload {inner : PoolInner} (hset : PoolSettled inner)
    (it : IterOrder Address SenderQueue) (maxBytes : Nat) (maxGas : UInt64) :
    PoolSettled (collectPayload it inner maxBytes maxGas).2 := by
  intro s m hm
  obtain ⟨hp, hq⟩ := queueOf_removeAll (selection it inner maxBytes maxGas).included inner s
  simp only [collectPayload] at hm ⊢
  rw [hq]
  have hleft := FMap.last_mem _ hm
  rw [hp] at hleft
  split at hleft
  · cases hleft
  · cases hl : (queueOf inner s).pending.keys.getLast? with
    | none =>
      rw [FMap.eq_none_of_last_none _ hl] at hleft
      cases hleft
    | some l =>
      have hml := pending_le_last hl hleft
      have hlm : l = m := by
        by_contra hne
        -- the old last nonce is gone, so it was the lowest one
        have hgone : ∃ c ∈ (selection it inner maxBytes maxGas).included,
            c.sender = s ∧ c.nonce = l := by
          by_contra hkept
          have hstay := hp l
          rw [if_neg hkept] at hstay
          have hle := pending_le_last hm (hstay ▸ FMap.last_mem _ hl)
          exact hne (UInt64.toNat_inj.mp (by omega))
        obtain ⟨c, hc, rfl, rfl⟩ := hgone
        have hcand := (mem_selection hc)
        have hmin := (mem_candidates hcand).2 m hleft
        exact hne (UInt64.toNat_inj.mp (by omega))
      rw [← hlm]
      exact hset s l hl

theorem settled_onCommit {inner : PoolInner} (h : PoolInv inner)
    (it : IterOrder Address SenderQueue) (nonceFn : Address → UInt64) (s : Address) :
    (queueOf (onCommit it inner nonceFn) s).Settled ∧
      ((queueOf (onCommit it inner nonceFn) s).pending.isEmpty →
        (queueOf (onCommit it inner nonceFn) s).queued[nonceFn s]? = none) := by
  rw [queueOf_onCommit, commitQueue_fst]
  exact promoteQueuedStatic_settled _ _ (removeStale_zero _ (h.queueOf_zero s))

theorem settled_applyOp {al : Alloy} {config : EvmTxPoolConfig} {inner : PoolInner} (op : PoolOp)
    (h : PoolInv inner) (hset : PoolSettled inner) : PoolSettled (applyOp al config inner op) := by
  cases op with
  | submit nonceFn raw =>
    simp only [applyOp, submitTx]
    split
    · exact hset
    · exact settled_submitVerified h hset _
  | collect it maxBytes maxGas => exact settled_collectPayload hset it maxBytes maxGas
  | commit it nonceFn => exact fun s => (settled_onCommit h it nonceFn s).1

theorem settled_run (al : Alloy) (config : EvmTxPoolConfig) (ops : List PoolOp) :
    PoolSettled (ops.foldl (applyOp al config) PoolInner.new) := by
  refine (run_invariant_all (fun inner => PoolInv inner ∧ PoolSettled inner)
    (fun inner op h => ⟨poolInv_applyOp h.1 op, settled_applyOp op h.1 h.2⟩) ops _
    ⟨poolInv_new, fun s m hm => ?_⟩).2
  simp [queueOf, PoolInner.new]

/-! ## What a submission stores -/

/-- The map `submit_tx` chooses for a transaction. -/
def targetSlot (nonceFn : Option (Address → UInt64)) (inner : PoolInner) (v : VerifiedTx) : Slot :=
  slotFor (queueOf inner v.sender) (seenNonce nonceFn v.sender) v.envelope.nonce

def targetMap (nonceFn : Option (Address → UInt64)) (inner : PoolInner) (v : VerifiedTx) :
    NonceMap :=
  (queueOf inner v.sender).map (targetSlot nonceFn inner v)

/-- What the pool keeps of a transaction. -/
def entryOf (config : EvmTxPoolConfig) (v : VerifiedTx) : PoolEntry where
  verified := v
  effectiveTip := effectiveGasTip v.envelope config.baseFee

/-- The sender's queue with the transaction in it, before promotion. -/
def withEntry (config : EvmTxPoolConfig) (nonceFn : Option (Address → UInt64)) (inner : PoolInner)
    (v : VerifiedTx) : SenderQueue :=
  (queueOf inner v.sender).setMap (targetSlot nonceFn inner v)
    ((targetMap nonceFn inner v).insert v.envelope.nonce (entryOf config v))

/-- The checks of `submit_tx`. -/
structure Takes (config : EvmTxPoolConfig) (nonceFn : Option (Address → UInt64))
    (inner : PoolInner) (v : VerifiedTx) : Prop where
  unknown : inner.byHash[v.txHash]? = none
  nonce : ¬ v.envelope.nonce < seenNonce nonceFn v.sender
  /-- The tip is high enough for the transaction it replaces. -/
  tip : ∀ existing, (targetMap nonceFn inner v)[v.envelope.nonce]? = some existing →
    ¬ effectiveGasTip v.envelope config.baseFee < minReplacementTip config existing
  /-- There is room, unless it replaces one. -/
  room : (targetMap nonceFn inner v)[v.envelope.nonce]? = none →
    (targetMap nonceFn inner v).size < config.limit (targetSlot nonceFn inner v)

section Taking

variable {config : EvmTxPoolConfig} {nonceFn : Option (Address → UInt64)} {inner : PoolInner}
  {v : VerifiedTx}

/-- What passes the checks is placed. -/
theorem Takes.placed (h : Takes config nonceFn inner v) :
    ∃ old, placeEntry config (queueOf inner v.sender) (targetSlot nonceFn inner v)
      (entryOf config v) = .ok (withEntry config nonceFn inner v, old) := by
  have hplaced : ∃ queue' old, placeEntry config (queueOf inner v.sender)
      (targetSlot nonceFn inner v) (entryOf config v) = .ok (queue', old) := by
    cases hex : (targetMap nonceFn inner v)[v.envelope.nonce]? with
    | none =>
      obtain ⟨queue', hplace⟩ := placeEntry_free (entryOf config v) hex (h.room hex)
      exact ⟨queue', none, hplace⟩
    | some existing =>
      have hmap : ((queueOf inner v.sender).map (targetSlot nonceFn inner v))[
          (entryOf config v).verified.envelope.nonce]? = some existing := hex
      have htip : ¬ (entryOf config v).effectiveTip < minReplacementTip config existing :=
        h.tip existing hex
      simp only [placeEntry, hmap, if_neg htip]
      exact ⟨_, _, rfl⟩
  obtain ⟨queue', old, hplace⟩ := hplaced
  obtain ⟨rfl, -⟩ := placeEntry_ok hplace
  exact ⟨old, hplace⟩

/-- What is placed has passed the checks. -/
theorem takes_of_placed {queue' : SenderQueue} {old : Option B256}
    (hnew : inner.byHash[v.txHash]? = none)
    (hnonce : ¬ v.envelope.nonce < seenNonce nonceFn v.sender)
    (hplace : placeEntry config (queueOf inner v.sender) (targetSlot nonceFn inner v)
      (entryOf config v) = .ok (queue', old)) :
    Takes config nonceFn inner v ∧ queue' = withEntry config nonceFn inner v := by
  obtain ⟨hqueue, hcase⟩ := placeEntry_ok hplace
  refine ⟨⟨hnew, hnonce, ?_, ?_⟩, hqueue⟩
  · intro existing hex
    rcases hcase with ⟨existing', hex', -, htip⟩ | ⟨hnone, -, -⟩
    · rw [show existing = existing' from Option.some.inj (hex.symm.trans hex')]
      exact htip
    · exact absurd (hnone.symm.trans hex) (by simp)
  · intro hnone
    rcases hcase with ⟨existing, hex, -, -⟩ | ⟨-, -, hroom⟩
    · exact absurd (hnone.symm.trans hex) (by simp)
    · exact hroom

/-- A submission that stored its transaction. -/
theorem submitTx_ok {al : Alloy} {inner' : PoolInner} {raw : Bytes} {hash : B256}
    (hdec : decodeAndRecover al raw = .ok v)
    (h : submitTx al config nonceFn inner raw = (.ok hash, inner')) :
    ∃ old, Takes config nonceFn inner v ∧
      placeEntry config (queueOf inner v.sender) (targetSlot nonceFn inner v) (entryOf config v)
        = .ok (withEntry config nonceFn inner v, old) ∧
      inner' = { senders := inner.senders.insert v.sender
                   (promoteQueuedStatic (withEntry config nonceFn inner v)
                     (seenNonce nonceFn v.sender))
                 byHash := reindex inner.byHash old v.txHash v.sender } := by
  simp only [submitTx, hdec] at h
  rcases submitVerified_cases config nonceFn inner v with
    ⟨e, heq⟩ | ⟨e, heq⟩ | ⟨queue', old, hnew, hnonce, hplace, heq⟩
  · rw [heq] at h
    cases h
  · rw [heq] at h
    cases h
  · rw [heq] at h
    obtain ⟨htakes, rfl⟩ := takes_of_placed hnew hnonce hplace
    exact ⟨old, htakes, hplace, (Prod.mk.inj h).2.symm⟩

/-- A placed entry leaves nothing queued at nonce 0. -/
theorem Takes.zero (h : Takes config nonceFn inner v)
    (h0 : (queueOf inner v.sender).queued[(0 : UInt64)]? = none) :
    (withEntry config nonceFn inner v).queued[(0 : UInt64)]? = none := by
  obtain ⟨old, hplace⟩ := h.placed
  exact placeEntry_zero h0 h.nonce hplace

end Taking

/-! ## Nothing is stranded -/

/-- No queued transaction is ready and passed over. -/
structure NothingStranded (al : Alloy) (config : EvmTxPoolConfig) (pool : PoolInner) : Prop where
  /-- Nothing is queued right behind the last pending nonce. -/
  behindLast : ∀ (s : Address) (m : UInt64),
    (queueOf pool s).pending.keys.getLast? = some m → (queueOf pool s).queued[m + 1]? = none
  /-- With nothing pending after a submission, nothing is queued at the
  account nonce it saw. -/
  afterSubmit : ∀ nonceFn raw v hash pool', decodeAndRecover al raw = .ok v →
    submitTx al config nonceFn pool raw = (.ok hash, pool') →
    (queueOf pool' v.sender).pending.isEmpty →
      (queueOf pool' v.sender).queued[seenNonce nonceFn v.sender]? = none
  /-- The same after a commit. -/
  afterCommit : ∀ it f s, (queueOf (onCommit it pool f) s).pending.isEmpty →
    (queueOf (onCommit it pool f) s).queued[f s]? = none
  /-- The promotion of a submission, with `u64::MAX` pending, moves
  nothing. -/
  topSubmit : ∀ nonceFn v, Takes config nonceFn pool v →
    (withEntry config nonceFn pool v).pending.keys.getLast? = some u64Max →
      promoteQueuedStatic (withEntry config nonceFn pool v) (seenNonce nonceFn v.sender)
        = withEntry config nonceFn pool v
  /-- Nor does the promotion of a commit. -/
  topCommit : ∀ (f : UInt64) (s : Address),
    (pruned (queueOf pool s) f).pending.keys.getLast? = some u64Max →
      promoteQueuedStatic (pruned (queueOf pool s) f) f = pruned (queueOf pool s) f

/-- **No ready transaction is stranded**, in every state any run reaches,
with any nonce functions. -/
theorem no_ready_tx_stranded (al : Alloy) (config : EvmTxPoolConfig) (ops : List PoolOp) :
    NothingStranded al config (ops.foldl (applyOp al config) PoolInner.new) := by
  have hinv := poolInv_run al config ops
  refine ⟨settled_run al config ops, ?_, ?_, ?_, ?_⟩
  · intro nonceFn raw v hash pool' hdec hsub hempty
    obtain ⟨old, htakes, -, rfl⟩ := submitTx_ok hdec hsub
    rw [queueOf_insert, if_pos rfl] at hempty ⊢
    exact (promoteQueuedStatic_settled _ _ (htakes.zero (hinv.queueOf_zero v.sender))).2 hempty
  · intro it f s
    exact (settled_onCommit hinv it f s).2
  · intro nonceFn v htakes htop
    exact promoteQueuedStatic_top _ (htakes.zero (hinv.queueOf_zero v.sender)) htop
  · intro f s htop
    exact promoteQueuedStatic_top _ (removeStale_zero f (hinv.queueOf_zero s)) htop

/-! ## Limits -/

/-- The nonces of a run, as a list. -/
def runNonces (next : UInt64) (k : Nat) : List UInt64 :=
  (List.range' next.toNat k).map UInt64.ofNat

theorem mem_runNonces {next : UInt64} {k : Nat} (hfits : next.toNat + k ≤ 2 ^ 64) (n : UInt64) :
    n ∈ runNonces next k ↔ InRun next k n := by
  unfold runNonces InRun
  rw [List.mem_map]
  constructor
  · rintro ⟨i, hi, rfl⟩
    rw [List.mem_range'_1] at hi
    rw [toNat_ofNat64 (by omega)]
    exact hi
  · intro hn
    exact ⟨n.toNat, List.mem_range'_1.mpr hn, UInt64.ofNat_toNat⟩

theorem nodup_runNonces {next : UInt64} {k : Nat} (hfits : next.toNat + k ≤ 2 ^ 64) :
    (runNonces next k).Nodup := by
  refine List.Nodup.map_on ?_ List.nodup_range'
  intro i hi j hj hij
  rw [List.mem_range'_1] at hi hj
  have hnat := congrArg UInt64.toNat hij
  rwa [toNat_ofNat64 (by omega), toNat_ofNat64 (by omega)] at hnat

/-- Promotion adds as many pending entries as it moves. -/
theorem Promoted.pending_size {queue queue' : SenderQueue} {next : UInt64} {k : Nat}
    (h : Promoted queue queue' next k) : queue'.pending.size = queue.pending.size + k := by
  have hmem := mem_runNonces h.fits
  have hsize := FMap.size_of_added queue.pending queue'.pending (nodup_runNonces h.fits)
    (fun n hn => h.wasFree n ((hmem n).mp hn))
    (fun n hn => (h.pending_isSome n).mpr (.inr ((hmem n).mp hn)))
    (fun n hn => by rw [h.pending, if_neg fun hrun => hn ((hmem n).mpr hrun)])
  rwa [runNonces, List.length_map, List.length_range'] at hsize

theorem Promoted.queued_size {queue queue' : SenderQueue} {next : UInt64} {k : Nat}
    (h : Promoted queue queue' next k) : queue'.queued.size ≤ queue.queued.size := by
  refine FMap.size_le_of_keys _ _ fun n hn => ?_
  rw [h.queued] at hn
  split at hn
  · cases hn
  · exact hn

/-- Each sender stays within the configured limits. -/
def WithinSenderLimits (config : EvmTxPoolConfig) (inner : PoolInner) : Prop :=
  ∀ s, (queueOf inner s).pending.size ≤ config.maxPendingPerSender ∧
    (queueOf inner s).queued.size ≤ config.maxQueuedPerSender

/-- The pending transactions and the run of queued nonces behind them are
more than may be pending. -/
def ReadyOver (config : EvmTxPoolConfig) (queue : SenderQueue) (c : UInt64) : Prop :=
  ∃ k, (promoteStart queue c).toNat + k ≤ 2 ^ 64 ∧
    (∀ n : UInt64, InRun (promoteStart queue c) k n → (queue.queued[n]?).isSome) ∧
    config.maxPendingPerSender < queue.pending.size + k

theorem promote_pending_size_iff (config : EvmTxPoolConfig) (queue : SenderQueue) (c : UInt64)
    (h0 : queue.queued[(0 : UInt64)]? = none) :
    (promoteQueuedStatic queue c).pending.size ≤ config.maxPendingPerSender ↔
      ¬ ReadyOver config queue c := by
  obtain ⟨k, hk⟩ := promoteQueuedStatic_spec queue c h0
  rw [hk.pending_size]
  constructor
  · rintro hle ⟨j, hfits, hready, hover⟩
    -- a longer run would go past the nonce where promotion stopped
    have hend : (UInt64.ofNat ((promoteStart queue c).toNat + k)).toNat
        = (promoteStart queue c).toNat + k :=
      toNat_ofNat64 (by omega)
    have hsome := hready (UInt64.ofNat ((promoteStart queue c).toNat + k)) ⟨by omega, by omega⟩
    rw [hk.maximal _ hend] at hsome
    cases hsome
  · intro hno
    by_contra hover
    exact hno ⟨k, hk.fits, hk.wasQueued, by omega⟩

theorem promote_queued_size (queue : SenderQueue) (c : UInt64)
    (h0 : queue.queued[(0 : UInt64)]? = none) :
    (promoteQueuedStatic queue c).queued.size ≤ queue.queued.size := by
  obtain ⟨k, hk⟩ := promoteQueuedStatic_spec queue c h0
  exact hk.queued_size

/-- The capacity check keeps the queued map within its limit. -/
theorem placeEntry_queued_size {config : EvmTxPoolConfig} {queue queue' : SenderQueue} {slot : Slot}
    {entry : PoolEntry} {old : Option B256}
    (h : placeEntry config queue slot entry = .ok (queue', old))
    (hle : queue.queued.size ≤ config.maxQueuedPerSender) :
    queue'.queued.size ≤ config.maxQueuedPerSender := by
  obtain ⟨rfl, hcase⟩ := placeEntry_ok h
  cases slot with
  | pending => exact hle
  | queued =>
    simp only [SenderQueue.setMap, SenderQueue.map, EvmTxPoolConfig.limit] at hcase ⊢
    rw [Std.ExtTreeMap.size_insert]
    rcases hcase with ⟨existing, hex, -, -⟩ | ⟨-, -, hroom⟩
    · have hmem : queue.queued.contains entry.verified.envelope.nonce = true := by
        rw [Std.ExtTreeMap.contains_eq_isSome_getElem?, hex]
        rfl
      rw [if_pos hmem]
      exact hle
    · split <;> omega

/-- An operation that promotes more than fits: a submission that stores its
transaction, or a commit. -/
def Overflows (al : Alloy) (config : EvmTxPoolConfig) (inner : PoolInner) : PoolOp → Prop
  | .submit nonceFn raw =>
      ∃ v, decodeAndRecover al raw = .ok v ∧ Takes config nonceFn inner v ∧
        ReadyOver config (withEntry config nonceFn inner v) (seenNonce nonceFn v.sender)
  | .collect .. => False
  | .commit _ f => ∃ s, ReadyOver config (pruned (queueOf inner s) (f s)) (f s)

theorem withinLimits_submit {al : Alloy} {config : EvmTxPoolConfig}
    {nonceFn : Option (Address → UInt64)} {inner : PoolInner} {raw : Bytes} (h : PoolInv inner)
    (hlim : WithinSenderLimits config inner) :
    WithinSenderLimits config (submitTx al config nonceFn inner raw).2 ↔
      ¬ Overflows al config inner (.submit nonceFn raw) := by
  constructor
  · rintro hafter ⟨v, hdec, htakes, hover⟩
    obtain ⟨old, hplace⟩ := htakes.placed
    have h0 := htakes.zero (h.queueOf_zero v.sender)
    have hpending := (hafter v.sender).1
    simp only [submitTx, hdec,
      queueOf_submitVerified_ok htakes.unknown htakes.nonce hplace] at hpending
    exact (promote_pending_size_iff config _ _ h0).mp hpending hover
  · intro hno s
    unfold submitTx
    split
    · exact hlim s
    · rename_i v hdec
      rcases queueOf_submitVerified config nonceFn inner v with
        hsame | ⟨queue', old, hnew, hnonce, hplace, hq⟩
      · rw [hsame]
        exact hlim s
      · rw [hq]
        split
        · obtain ⟨htakes, rfl⟩ := takes_of_placed hnew hnonce hplace
          have h0 := htakes.zero (h.queueOf_zero v.sender)
          refine ⟨(promote_pending_size_iff config _ _ h0).mpr fun hover =>
            hno ⟨v, hdec, htakes, hover⟩, ?_⟩
          exact (promote_queued_size _ _ h0).trans
            (placeEntry_queued_size hplace (hlim v.sender).2)
        · exact hlim s

theorem withinLimits_step {al : Alloy} {config : EvmTxPoolConfig} (inner : PoolInner) (op : PoolOp)
    (h : PoolInv inner) (hlim : WithinSenderLimits config inner) :
    WithinSenderLimits config (applyOp al config inner op) ↔ ¬ Overflows al config inner op := by
  cases op with
  | submit nonceFn raw => exact withinLimits_submit h hlim
  | collect it maxBytes maxGas =>
    refine iff_of_true (fun s => ?_) id
    obtain ⟨hp, hq⟩ := queueOf_removeAll (selection it inner maxBytes maxGas).included inner s
    simp only [applyOp, collectPayload]
    rw [hq]
    refine ⟨(FMap.size_le_of_keys _ _ fun n hn => ?_).trans (hlim s).1, (hlim s).2⟩
    rw [hp] at hn
    split at hn
    · cases hn
    · exact hn
  | commit it f =>
    have h0 := fun s => pruned_zero (f s) (h.queueOf_zero s)
    have hpending := fun s => promote_pending_size_iff config (pruned (queueOf inner s) (f s)) (f s)
      (h0 s)
    constructor
    · rintro hafter ⟨s, hover⟩
      have hle := (hafter s).1
      simp only [applyOp] at hle
      rw [queueOf_onCommit, commitQueue_fst] at hle
      exact (hpending s).mp hle hover
    · intro hno s
      simp only [applyOp]
      rw [queueOf_onCommit, commitQueue_fst]
      refine ⟨(hpending s).mpr fun hover => hno ⟨s, hover⟩, ?_⟩
      refine (promote_queued_size _ _ (h0 s)).trans ((FMap.size_le_of_keys _ _ fun n hn => ?_).trans
        (hlim s).2)
      have hget : (pruned (queueOf inner s) (f s)).queued[n]? = _ :=
        pruned_get (queueOf inner s) (f s) .queued n
      rw [hget] at hn
      split at hn
      · cases hn
      · exact hn

/-- **When the limits hold.** Every sender stays within both limits at
every point of a run exactly when no operation of the run promotes more
than fits. -/
theorem pool_within_limits_iff (al : Alloy) (config : EvmTxPoolConfig) (ops : List PoolOp) :
    (∀ k, WithinSenderLimits config ((ops.take k).foldl (applyOp al config) PoolInner.new)) ↔
      StepsMeet (applyOp al config) (fun inner op => ¬ Overflows al config inner op)
        PoolInner.new ops :=
  always_iff_stepsMeet (fun _ op h => poolInv_applyOp h op) withinLimits_step ops _ poolInv_new
    fun s => by simp [queueOf, PoolInner.new]

/-- Alice's nonce 1 waits for nonce 0; one transaction may be pending. -/
theorem promotion_over_limit :
    ¬ WithinSenderLimits { maxPendingPerSender := 1 }
      (([.submit (some fun _ => 0) alice1.raw, .submit (some fun _ => 0) alice0.raw] :
        List PoolOp).foldl (applyOp sampleAlloy { maxPendingPerSender := 1 }) PoolInner.new) := by
  intro h
  have hpending := (h alice0.sender).1
  revert hpending
  decide +kernel

end Nbnet.Txpool
