/-
Nbnet.Txpool.UniqueTheorems — whether a (sender, nonce) pair can be held
twice.

`submit_tx` looks for the transaction to replace only in the map it is
about to insert into. Which map that is depends on the account nonce and
on the predecessor being pending, and both move: a nonce that went to
queued may be sent to pending the next time, or the other way round. The
second transaction is then stored beside the first one and no replacement
fee is asked.

`Bypasses` is that situation, read off the pool before the submission.
Every other operation keeps the two maps of a sender disjoint, and so does
every submission that is not in that situation
(`nonce_unique_iff_no_bypass`).
-/
import Nbnet.Txpool.NonceTheorems

namespace Nbnet.Txpool

open Lib

/-! ## Disjoint maps -/

/-- No nonce is both pending and queued. -/
def SenderQueue.Apart (queue : SenderQueue) : Prop :=
  ∀ n : UInt64, ¬ ((queue.pending[n]?).isSome ∧ (queue.queued[n]?).isSome)

/-- No sender has a nonce both pending and queued. -/
def NonceUnique (inner : PoolInner) : Prop :=
  ∀ s, (queueOf inner s).Apart

/-- The slot that `submit_tx` does not look into. -/
def Slot.other : Slot → Slot
  | .pending => .queued
  | .queued => .pending

theorem apart_iff_map (queue : SenderQueue) (slot : Slot) :
    queue.Apart ↔ ∀ n : UInt64,
      ¬ (((queue.map slot)[n]?).isSome ∧ ((queue.map slot.other)[n]?).isSome) := by
  cases slot with
  | pending => exact Iff.rfl
  | queued => exact forall_congr' fun n => not_congr And.comm

/-- Promotion starts above every pending nonce, so it neither makes nor
repairs an overlap. -/
theorem apart_promote {queue : SenderQueue} (c : UInt64)
    (h0 : queue.queued[(0 : UInt64)]? = none) :
    (promoteQueuedStatic queue c).Apart ↔ queue.Apart := by
  obtain ⟨k, hk⟩ := promoteQueuedStatic_spec queue c h0
  refine forall_congr' fun n => ?_
  rw [hk.pending, hk.queued]
  by_cases hr : InRun (promoteStart queue c) k n
  · simp [hr, hk.wasFree n hr]
  · simp only [hr, if_false]

/-- Storing an entry makes an overlap exactly when the other map already
holds its nonce. -/
theorem apart_place {config : EvmTxPoolConfig} {queue queue' : SenderQueue} {slot : Slot}
    {entry : PoolEntry} {old : Option B256} (h : queue.Apart)
    (hplace : placeEntry config queue slot entry = .ok (queue', old)) :
    queue'.Apart ↔ (queue.map slot.other)[entry.verified.envelope.nonce]? = none := by
  obtain ⟨rfl, -⟩ := placeEntry_ok hplace
  have hne : slot ≠ slot.other := by cases slot <;> decide
  rw [apart_iff_map _ slot, SenderQueue.map_setMap_self, SenderQueue.map_setMap_of_ne _ _ hne]
  constructor
  · intro hap
    have := hap entry.verified.envelope.nonce
    simpa using this
  · rintro hnone n ⟨hn, hother⟩
    by_cases hnn : entry.verified.envelope.nonce = n
    · subst hnn
      rw [hnone] at hother
      cases hother
    · rw [FMap.get_insert_of_ne _ _ hnn] at hn
      exact (apart_iff_map queue slot).mp h n ⟨hn, hother⟩

theorem apart_pruned {queue : SenderQueue} (f : UInt64) (h : queue.Apart) :
    (pruned queue f).Apart := by
  rintro n ⟨hp, hq⟩
  have hgetp : (pruned queue f).pending[n]? = _ := pruned_get queue f .pending n
  have hgetq : (pruned queue f).queued[n]? = _ := pruned_get queue f .queued n
  rw [hgetp] at hp
  rw [hgetq] at hq
  split at hp
  · cases hp
  · rename_i hlt
    rw [if_neg hlt] at hq
    exact h n ⟨hp, hq⟩

/-! ## One operation -/

/-- A submission that is stored in one map of its sender while the other
map holds its nonce: the hash is new, the nonce is not too low, the chosen
map has room and does not hold the nonce, the other one does. -/
def Bypasses (al : Alloy) (config : EvmTxPoolConfig) (inner : PoolInner) : PoolOp → Prop
  | .submit nonceFn raw =>
      ∃ v, decodeAndRecover al raw = .ok v ∧ inner.byHash[v.txHash]? = none ∧
        ¬ v.envelope.nonce < seenNonce nonceFn v.sender ∧
        let queue := queueOf inner v.sender
        let slot := slotFor queue (seenNonce nonceFn v.sender) v.envelope.nonce
        (queue.map slot)[v.envelope.nonce]? = none ∧
          (queue.map slot).size < config.limit slot ∧
          ((queue.map slot.other)[v.envelope.nonce]?).isSome
  | _ => False

theorem placeEntry_free {config : EvmTxPoolConfig} {queue : SenderQueue} {slot : Slot}
    (entry : PoolEntry) (hfree : (queue.map slot)[entry.verified.envelope.nonce]? = none)
    (hroom : (queue.map slot).size < config.limit slot) :
    ∃ queue', placeEntry config queue slot entry = .ok (queue', none) := by
  have hnot : ¬ (queue.map slot).size ≥ config.limit slot := by omega
  simp only [placeEntry, hfree, if_neg hnot]
  exact ⟨_, rfl⟩

/-- A submission whose placement succeeds. -/
theorem submitVerified_placed {config : EvmTxPoolConfig}
    {nonceFn : Option (Address → UInt64)} {inner : PoolInner} {v : VerifiedTx}
    {queue' : SenderQueue} {old : Option B256} (hnew : inner.byHash[v.txHash]? = none)
    (hnonce : ¬ v.envelope.nonce < seenNonce nonceFn v.sender)
    (hplace : placeEntry config (queueOf inner v.sender)
      (slotFor (queueOf inner v.sender) (seenNonce nonceFn v.sender) v.envelope.nonce)
      { verified := v, effectiveTip := effectiveGasTip v.envelope config.baseFee }
      = .ok (queue', old)) :
    submitVerified config nonceFn inner v = (.ok v.txHash,
      { senders := inner.senders.insert v.sender
          (promoteQueuedStatic queue' (seenNonce nonceFn v.sender))
        byHash := reindex inner.byHash old v.txHash v.sender }) := by
  have hknown : ¬ inner.byHash.contains v.txHash = true := by simpa using hnew
  simp only [queueOf, seenNonce] at hnonce hplace
  simp only [submitVerified, if_neg hknown, if_neg hnonce, hplace]
  rfl

theorem queueOf_submitVerified_ok {config : EvmTxPoolConfig}
    {nonceFn : Option (Address → UInt64)} {inner : PoolInner} {v : VerifiedTx}
    {queue' : SenderQueue} {old : Option B256} (hnew : inner.byHash[v.txHash]? = none)
    (hnonce : ¬ v.envelope.nonce < seenNonce nonceFn v.sender)
    (hplace : placeEntry config (queueOf inner v.sender)
      (slotFor (queueOf inner v.sender) (seenNonce nonceFn v.sender) v.envelope.nonce)
      { verified := v, effectiveTip := effectiveGasTip v.envelope config.baseFee }
      = .ok (queue', old)) :
    queueOf (submitVerified config nonceFn inner v).2 v.sender
      = promoteQueuedStatic queue' (seenNonce nonceFn v.sender) := by
  rw [submitVerified_placed hnew hnonce hplace, queueOf_insert, if_pos rfl]

/-- One submission, on a pool without overlaps: an overlap appears exactly
when the submission bypasses the replacement check. -/
theorem nonceUnique_submit {al : Alloy} {config : EvmTxPoolConfig}
    {nonceFn : Option (Address → UInt64)} {inner : PoolInner} {raw : Bytes} (h : PoolInv inner)
    (huniq : NonceUnique inner) :
    NonceUnique (submitTx al config nonceFn inner raw).2 ↔
      ¬ Bypasses al config inner (.submit nonceFn raw) := by
  unfold submitTx
  cases hd : decodeAndRecover al raw with
  | error e =>
    refine iff_of_true huniq ?_
    rintro ⟨v, hv, -⟩
    rw [hd] at hv
    cases hv
  | ok v =>
    have h0 := h.queueOf_zero v.sender
    constructor
    · rintro hu ⟨v', hv', hnew, hnonce, hfree, hroom, hother⟩
      obtain rfl : v = v' := Except.ok.inj (hd.symm.trans hv')
      obtain ⟨queue', hplace⟩ := placeEntry_free
        { verified := v, effectiveTip := effectiveGasTip v.envelope config.baseFee } hfree hroom
      have hap := hu v.sender
      simp only [queueOf_submitVerified_ok hnew hnonce hplace] at hap
      rw [apart_promote _ (placeEntry_zero h0 hnonce hplace),
        apart_place (huniq v.sender) hplace] at hap
      rw [hap] at hother
      cases hother
    · intro hno s
      rcases queueOf_submitVerified config nonceFn inner v with
        hsame | ⟨queue', old, hnew, hnonce, hplace, hq⟩
      · simp only [hsame]
        exact huniq s
      · simp only [hq]
        split
        · rw [apart_promote _ (placeEntry_zero h0 hnonce hplace),
            apart_place (huniq v.sender) hplace]
          -- the nonce is in the other map: either the chosen one holds it too, or this is a bypass
          by_contra hother
          obtain ⟨-, ⟨existing, hex, -, -⟩ | ⟨hfree, -, hroom⟩⟩ := placeEntry_ok hplace
          · exact (apart_iff_map _ _).mp (huniq v.sender) v.envelope.nonce
              ⟨by rw [hex]; rfl, Option.isSome_iff_ne_none.mpr hother⟩
          · exact hno ⟨v, hd, hnew, hnonce, hfree, hroom, Option.isSome_iff_ne_none.mpr hother⟩
        · exact huniq s

/-- One operation. -/
theorem nonceUnique_step {al : Alloy} {config : EvmTxPoolConfig} (inner : PoolInner) (op : PoolOp)
    (h : PoolInv inner) (huniq : NonceUnique inner) :
    NonceUnique (applyOp al config inner op) ↔ ¬ Bypasses al config inner op := by
  cases op with
  | submit nonceFn raw => exact nonceUnique_submit h huniq
  | collect it maxBytes maxGas =>
    refine iff_of_true (fun s n => ?_) id
    obtain ⟨hp, hq⟩ := queueOf_removeAll (selection it inner maxBytes maxGas).included inner s
    simp only [applyOp, collectPayload]
    rw [hp, hq]
    rintro ⟨hpend, hqueued⟩
    split at hpend
    · cases hpend
    · exact huniq s n ⟨hpend, hqueued⟩
  | commit it nonceFn =>
    refine iff_of_true (fun s => ?_) id
    simp only [applyOp]
    rw [queueOf_onCommit, commitQueue_fst,
      apart_promote _ (removeStale_zero _ (h.queueOf_zero s))]
    exact apart_pruned _ (huniq s)

/-! ## Every run -/

theorem nonceUnique_new : NonceUnique PoolInner.new := by
  rintro s n ⟨h, -⟩
  simp [queueOf, PoolInner.new] at h

/-- **When a (sender, nonce) is held once.** The two maps of every sender
are disjoint at every point of a run exactly when no submission of the run
bypasses the replacement check. -/
theorem nonce_unique_iff_no_bypass (al : Alloy) (config : EvmTxPoolConfig) (ops : List PoolOp) :
    (∀ k, NonceUnique ((ops.take k).foldl (applyOp al config) PoolInner.new)) ↔
      StepsMeet (applyOp al config) (fun inner op => ¬ Bypasses al config inner op)
        PoolInner.new ops :=
  always_iff_stepsMeet (fun _ op h => poolInv_applyOp h op) nonceUnique_step ops _ poolInv_new
    nonceUnique_new

/-- Alice's nonce 0 is collected; before its block is executed she sends a
second nonce 1. Nonce 0 is no longer pending, so it goes to queued. -/
def resubmission : List PoolOp :=
  aliceSubmits ++
    [.collect .ascending 100000 30000000, .submit (some fun _ => 0) alice1Cheap.raw]

theorem resubmission_held_twice :
    StepsMeet (track sampleAlloy {}) SeesMonotone {} resubmission ∧
      ¬ NonceUnique (resubmission.foldl (applyOp sampleAlloy {}) PoolInner.new) := by
  refine ⟨by simp [resubmission, aliceSubmits, StepsMeet, SeesMonotone, PoolOp.seen, track,
    seenNonce], fun h => ?_⟩
  refine h alice1.sender 1 ?_
  decide +kernel

end Nbnet.Txpool
