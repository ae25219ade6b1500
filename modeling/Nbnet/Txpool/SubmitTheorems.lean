/-
Nbnet.Txpool.SubmitTheorems — what one submission does to the whole pool.

A submission that fails leaves every queue and the hash index as they
were. One that succeeds adds its transaction and takes out at most the one
it replaces; everything else stays where it was or moves from queued to
pending (`submit_keeps_everything`).

What a replacement has to pay is computed in `u64`: the product saturates
and the quotient is rounded down, and a tip of zero needs nothing at all.
`replacement_pays_more_iff` says for which replacements that lets through
less than the configured bump.
-/
import Nbnet.Txpool.PromotionTheorems

namespace Nbnet.Txpool

open Lib

/-! ## What a submission keeps -/

/-- The entry a transaction is stored over: the one with its nonce in the
map `submit_tx` chooses. -/
def replaced (nonceFn : Option (Address → UInt64)) (inner : PoolInner) (v : VerifiedTx) :
    Option PoolEntry :=
  (targetMap nonceFn inner v)[v.envelope.nonce]?

/-- `inner'` is `inner` with the transaction stored in it. -/
structure StoredIn (config : EvmTxPoolConfig) (nonceFn : Option (Address → UInt64))
    (inner : PoolInner) (v : VerifiedTx) (inner' : PoolInner) : Prop where
  /-- What is held: the new entry comes in, the replaced one goes. -/
  exchange : ((replaced nonceFn inner v).toList.map (fun e => (v.sender, e)) ++ held inner').Perm
    ((v.sender, entryOf config v) :: held inner)
  /-- The new entry is where it was put, or was promoted at once. -/
  placed : ((queueOf inner' v.sender).map (targetSlot nonceFn inner v))[v.envelope.nonce]?
      = some (entryOf config v) ∨
    targetSlot nonceFn inner v = .queued ∧
      (queueOf inner' v.sender).pending[v.envelope.nonce]? = some (entryOf config v)
  /-- What was pending and is not replaced is pending. -/
  pending : ∀ (n : UInt64) (e : PoolEntry), (queueOf inner v.sender).pending[n]? = some e →
    ¬ (targetSlot nonceFn inner v = .pending ∧ v.envelope.nonce = n) →
      (queueOf inner' v.sender).pending[n]? = some e
  /-- What was queued and is not replaced is queued or has become pending. -/
  queued : ∀ (n : UInt64) (e : PoolEntry), (queueOf inner v.sender).queued[n]? = some e →
    ¬ (targetSlot nonceFn inner v = .queued ∧ v.envelope.nonce = n) →
      (queueOf inner' v.sender).queued[n]? = some e ∨
        (queueOf inner' v.sender).queued[n]? = none ∧
          (queueOf inner' v.sender).pending[n]? = some e
  others : ∀ s, s ≠ v.sender → queueOf inner' s = queueOf inner s

/-- Writing one cell of a map exchanges what it held. -/
theorem values_put (m : NonceMap) (n : UInt64) (e : PoolEntry) :
    ((m[n]?).toList ++ values (m.insert n e)).Perm (e :: values m) := by
  obtain ⟨hnew, hmap⟩ := values_exchange m n e
  calc (m[n]?).toList ++ values (m.insert n e)
    _ |>.Perm ((m[n]?).toList ++ e :: values (m.erase n)) := hnew.append_left _
    _ |>.Perm (e :: ((m[n]?).toList ++ values (m.erase n))) := List.perm_middle
    _ |>.Perm (e :: values m) := hmap.symm.cons e

section Storing

variable {config : EvmTxPoolConfig} {nonceFn : Option (Address → UInt64)} {inner : PoolInner}
  {v : VerifiedTx}

/-- The sender's entries before promotion. -/
theorem withEntry_perm :
    ((replaced nonceFn inner v).toList ++ (withEntry config nonceFn inner v).entries).Perm
      (entryOf config v :: (queueOf inner v.sender).entries) := by
  obtain ⟨rest, hbefore, hafter⟩ := entries_setMap (queueOf inner v.sender)
    (targetSlot nonceFn inner v)
    ((targetMap nonceFn inner v).insert v.envelope.nonce (entryOf config v))
  have hput := values_put (targetMap nonceFn inner v) v.envelope.nonce (entryOf config v)
  refine (hafter.append_left _).trans ?_
  rw [← List.append_assoc]
  exact (hput.append_right rest).trans (hbefore.symm.cons _)

/-- Promotion leaves pending entries alone and moves queued ones at most to
pending. -/
theorem promote_keeps {queue : SenderQueue} (c : UInt64) (h0 : queue.queued[(0 : UInt64)]? = none)
    (n : UInt64) (e : PoolEntry) :
    (queue.pending[n]? = some e → (promoteQueuedStatic queue c).pending[n]? = some e) ∧
    (queue.queued[n]? = some e →
      (promoteQueuedStatic queue c).queued[n]? = some e ∨
        (promoteQueuedStatic queue c).queued[n]? = none ∧
          (promoteQueuedStatic queue c).pending[n]? = some e) := by
  obtain ⟨k, hk⟩ := promoteQueuedStatic_spec queue c h0
  rw [hk.pending, hk.queued]
  by_cases hrun : InRun (promoteStart queue c) k n
  · simp only [hrun, if_true]
    refine ⟨fun hp => ?_, fun hq => .inr ⟨trivial, hq⟩⟩
    rw [hk.wasFree n hrun] at hp
    cases hp
  · simp only [hrun, if_false]
    exact ⟨id, .inl⟩

variable (config nonceFn inner v) in
/-- Putting the entry in touches one cell of one map. -/
theorem withEntry_get (slot : Slot) (n : UInt64) :
    ((withEntry config nonceFn inner v).map slot)[n]?
      = if slot = targetSlot nonceFn inner v ∧ v.envelope.nonce = n then some (entryOf config v)
        else ((queueOf inner v.sender).map slot)[n]? := by
  unfold withEntry
  by_cases hslot : slot = targetSlot nonceFn inner v
  · subst hslot
    rw [SenderQueue.map_setMap_self, FMap.get_insert]
    simp only [true_and]
    rfl
  · rw [SenderQueue.map_setMap_of_ne _ _ (Ne.symm hslot), if_neg fun h => hslot h.1]

theorem Takes.storedIn (h : Takes config nonceFn inner v)
    (h0 : (queueOf inner v.sender).queued[(0 : UInt64)]? = none) (byHash : FMap B256 Address) :
    StoredIn config nonceFn inner v
      { senders := inner.senders.insert v.sender
          (promoteQueuedStatic (withEntry config nonceFn inner v) (seenNonce nonceFn v.sender))
        byHash } := by
  have hzero := h.zero h0
  have hkeep := promote_keeps (seenNonce nonceFn v.sender) hzero
  have hget := withEntry_get config nonceFn inner v
  refine ⟨?_, ?_, fun n e hp hne => ?_, fun n e hq hne => ?_, fun s hs => ?_⟩
  · -- both pools are the sender's entries in front of everybody else's
    have hprom := promoteQueuedStatic_perm _ (seenNonce nonceFn v.sender) hzero
    have hafter := heldIn_insert inner.senders v.sender
      (promoteQueuedStatic (withEntry config nonceFn inner v) (seenNonce nonceFn v.sender))
    have hbefore := heldIn_split inner.senders v.sender rfl
    have hexchange := ((hprom.append_left _).trans withEntry_perm).map fun e => (v.sender, e)
    refine (hafter.append_left _).trans ?_
    rw [← List.append_assoc, ← List.map_append]
    exact (hexchange.append_right _).trans (hbefore.symm.cons _)
  · rw [queueOf_insert, if_pos rfl]
    have hself := hget (targetSlot nonceFn inner v) v.envelope.nonce
    rw [if_pos ⟨rfl, rfl⟩] at hself
    cases hslot : targetSlot nonceFn inner v with
    | pending =>
      rw [hslot] at hself
      exact .inl ((hkeep _ _).1 hself)
    | queued =>
      rw [hslot] at hself
      rcases (hkeep _ _).2 hself with hq | ⟨-, hp⟩
      · exact .inl hq
      · exact .inr ⟨rfl, hp⟩
  · rw [queueOf_insert, if_pos rfl]
    refine (hkeep n e).1 ((hget .pending n).trans ?_)
    rw [if_neg fun hcell => hne ⟨hcell.1.symm, hcell.2⟩]
    exact hp
  · rw [queueOf_insert, if_pos rfl]
    refine (hkeep n e).2 ((hget .queued n).trans ?_)
    rw [if_neg fun hcell => hne ⟨hcell.1.symm, hcell.2⟩]
    exact hq
  · rw [queueOf_insert, if_neg (Ne.symm hs)]

end Storing

/-- What a submission may do to a pool. -/
def Atomic (al : Alloy) (config : EvmTxPoolConfig) (nonceFn : Option (Address → UInt64))
    (inner : PoolInner) (raw : Bytes) : Except SubmitError B256 × PoolInner → Prop
  | (.error _, inner') => (∀ s, queueOf inner' s = queueOf inner s) ∧ inner'.byHash = inner.byHash
  | (.ok hash, inner') =>
      ∃ v, decodeAndRecover al raw = .ok v ∧ v.txHash = hash ∧
        StoredIn config nonceFn inner v inner'

/-- **A submission is atomic and loses nothing**, from every pool a run
reaches, with any input and any nonce function. -/
theorem submit_keeps_everything (al : Alloy) (config : EvmTxPoolConfig) (ops : List PoolOp)
    (nonceFn : Option (Address → UInt64)) (raw : Bytes) :
    let pool := ops.foldl (applyOp al config) PoolInner.new
    Atomic al config nonceFn pool raw (submitTx al config nonceFn pool raw) := by
  intro pool
  have hinv : PoolInv pool := poolInv_run al config ops
  unfold submitTx
  cases hdec : decodeAndRecover al raw with
  | error e => exact ⟨fun s => rfl, rfl⟩
  | ok v =>
    rcases submitVerified_cases config nonceFn pool v with
      ⟨e, heq⟩ | ⟨e, heq⟩ | ⟨queue', old, hnew, hnonce, hplace, heq⟩
    · simp only [heq]
      exact ⟨fun s => rfl, rfl⟩
    · simp only [heq]
      refine ⟨fun s => ?_, rfl⟩
      rw [queueOf_insert]
      split
      · rename_i hs
        subst hs
        rfl
      · rfl
    · simp only [heq]
      obtain ⟨htakes, rfl⟩ := takes_of_placed hnew hnonce hplace
      exact ⟨v, hdec, rfl, htakes.storedIn (hinv.queueOf_zero v.sender) _⟩

/-! ## What a replacement pays -/

/-- The new tip is higher, and higher by the bump, in exact numbers. -/
def PaysMore (pct : UInt64) (old new : PoolEntry) : Prop :=
  old.effectiveTip.toNat < new.effectiveTip.toNat ∧
    old.effectiveTip.toNat * (100 + pct.toNat) ≤ new.effectiveTip.toNat * 100

/-- The three ways to pay too little: both tips are zero; the bump is not a
whole number and the new tip is the bumped one rounded down; the product
does not fit a `u64` and the new tip, which only has to reach a hundredth
of `u64::MAX`, is below the exact bump. -/
def Underpays (pct : UInt64) (old new : PoolEntry) : Prop :=
  let product := old.effectiveTip.toNat * (100 + pct.toNat)
  old.effectiveTip = 0 ∧ new.effectiveTip = 0 ∨
  product < 2 ^ 64 ∧ ¬ 100 ∣ product ∧ new.effectiveTip.toNat = product / 100 ∨
  2 ^ 64 ≤ product ∧ new.effectiveTip.toNat * 100 < product

/-- The tip asked for: the exact product where it fits, rounded down. -/
theorem toNat_minReplacementTip {config : EvmTxPoolConfig} {old : PoolEntry}
    (h : old.effectiveTip.toNat * (100 + config.replacementBumpPct.toNat) < 2 ^ 64) :
    (minReplacementTip config old).toNat
      = old.effectiveTip.toNat * (100 + config.replacementBumpPct.toNat) / 100 := by
  have hpct := config.replacementBumpPct.toNat_lt
  have hsum : (100 + config.replacementBumpPct).toNat
      = (100 + config.replacementBumpPct.toNat) % 2 ^ 64 :=
    UInt64.toNat_add 100 config.replacementBumpPct
  rw [minReplacementTip, UInt64.toNat_div, satMul64_toNat, hsum]
  have hprod : old.effectiveTip.toNat * ((100 + config.replacementBumpPct.toNat) % 2 ^ 64)
      = old.effectiveTip.toNat * (100 + config.replacementBumpPct.toNat) := by
    rcases Nat.eq_zero_or_pos old.effectiveTip.toNat with hzero | hpos
    · rw [hzero, Nat.zero_mul, Nat.zero_mul]
    · -- a factor that wrapped would make the product too large
      have hle := Nat.le_mul_of_pos_left (100 + config.replacementBumpPct.toNat) hpos
      rw [Nat.mod_eq_of_lt (by omega)]
  rw [hprod, Nat.min_eq_left (by omega)]
  rfl

/-- A tip that was let through pays more exactly when it does not underpay. -/
theorem paysMore_iff {config : EvmTxPoolConfig} {old new : PoolEntry}
    (hpct : 1 ≤ config.replacementBumpPct)
    (htip : ¬ new.effectiveTip < minReplacementTip config old) :
    PaysMore config.replacementBumpPct old new ↔
      ¬ Underpays config.replacementBumpPct old new := by
  have hpct' : 1 ≤ config.replacementBumpPct.toNat := UInt64.le_iff_toNat_le.mp hpct
  have hzero : ∀ e : PoolEntry, e.effectiveTip = 0 ↔ e.effectiveTip.toNat = 0 := fun e =>
    ⟨fun h => by rw [h]; rfl, fun h => UInt64.toNat_inj.mp h⟩
  rw [UInt64.lt_iff_toNat_lt] at htip
  simp only [PaysMore, Underpays, hzero]
  have hbump : old.effectiveTip.toNat * (100 + config.replacementBumpPct.toNat)
      = 100 * old.effectiveTip.toNat
        + old.effectiveTip.toNat * config.replacementBumpPct.toNat := by ring
  -- with a tip there is a bump
  have hpos : old.effectiveTip.toNat ≤ old.effectiveTip.toNat * config.replacementBumpPct.toNat :=
    Nat.le_mul_of_pos_right _ hpct'
  by_cases hfits : old.effectiveTip.toNat * (100 + config.replacementBumpPct.toNat) < 2 ^ 64
  · rw [toNat_minReplacementTip hfits] at htip
    omega
  · omega

/-- **When a replacement pays more.** From every pool a run reaches, a
submission that succeeds over an existing entry pays a strictly higher tip,
and the whole bump, exactly when it is none of the three cases of
`Underpays`. -/
theorem replacement_pays_more_iff (al : Alloy) (config : EvmTxPoolConfig) (ops : List PoolOp)
    (nonceFn : Option (Address → UInt64)) (raw : Bytes) (v : VerifiedTx) (existing : PoolEntry)
    (hpct : 1 ≤ config.replacementBumpPct) (hdec : decodeAndRecover al raw = .ok v)
    (hok : (submitTx al config nonceFn (ops.foldl (applyOp al config) PoolInner.new) raw).1
      = .ok v.txHash)
    (hold : replaced nonceFn (ops.foldl (applyOp al config) PoolInner.new) v = some existing) :
    PaysMore config.replacementBumpPct existing (entryOf config v) ↔
      ¬ Underpays config.replacementBumpPct existing (entryOf config v) := by
  obtain ⟨-, htakes, -, -⟩ := submitTx_ok hdec (Prod.ext hok rfl)
  exact paysMore_iff hpct (htakes.tip existing hold)

/-- Alice's nonce 1 with a tip of 1 wei, replaced by the one with 2 gwei. -/
theorem replacement_pays_more_alice :
    ¬ Underpays 10 (entryOf {} alice1Cheap) (entryOf {} alice1) ∧
      PaysMore 10 (entryOf {} alice1Cheap) (entryOf {} alice1) := by
  have hfine : ¬ Underpays 10 (entryOf {} alice1Cheap) (entryOf {} alice1) := by
    unfold Underpays
    decide +kernel
  exact ⟨hfine, (replacement_pays_more_iff sampleAlloy {}
    [.submit (some fun _ => 1) alice1Cheap.raw] (some fun _ => 1) alice1.raw alice1
    (entryOf {} alice1Cheap) (by decide) (by decide +kernel) (by decide +kernel)
    (by decide +kernel)).mpr hfine⟩

/-- Alice's legacy transaction at 30 gwei is replaced by one at 20 gwei:
legacy transactions have no priority fee, so both tips are zero. -/
theorem cheaper_legacy_replaces :
    let pool := ([.submit (some fun _ => 0) aliceLegacy.raw] : List PoolOp).foldl
      (applyOp legacyAlloy {}) PoolInner.new
    (submitTx legacyAlloy {} (some fun _ => 0) pool aliceLegacyLow.raw).1
        = .ok aliceLegacyLow.txHash ∧
      replaced (some fun _ => 0) pool aliceLegacyLow = some (entryOf {} aliceLegacy) ∧
      ¬ PaysMore 10 (entryOf {} aliceLegacy) (entryOf {} aliceLegacyLow) := by
  refine ⟨by decide +kernel, by decide +kernel, fun h => ?_⟩
  exact absurd h.1 (by decide +kernel)

end Nbnet.Txpool
