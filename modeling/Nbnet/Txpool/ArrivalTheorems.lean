/-
Nbnet.Txpool.ArrivalTheorems — the order in which transactions arrive.

While the account nonces stand still and nothing is replaced, the pool is a
function of the SET of transactions it has taken: a sender's pending map is
the maximal run of submitted nonces from the account nonce on and its
queued map is the rest (`Holds`). Whichever way a nonce gets there, by
being next, by closing a gap or by being promoted behind one, the
description is the same, so two orders of the same transactions that are
accepted throughout end in the same pool (`arrival_order_irrelevant`).
-/
import Nbnet.Txpool.PromotionTheorems

namespace Nbnet.Txpool

open Lib

/-! ## Runs of submissions -/

/-- Submit a list of transactions; `none` as soon as one is refused. -/
def submitAll (al : Alloy) (config : EvmTxPoolConfig) (nonceFn : Option (Address → UInt64)) :
    PoolInner → List Bytes → Option PoolInner
  | inner, [] => some inner
  | inner, raw :: rest =>
      match submitTx al config nonceFn inner raw with
      | (.ok _, inner') => submitAll al config nonceFn inner' rest
      | (.error _, _) => none

/-- The transactions of a list that decode. -/
def decoded (al : Alloy) (raws : List Bytes) : List VerifiedTx :=
  raws.filterMap fun raw => (decodeAndRecover al raw).toOption

/-- Sender and nonce, which no two transactions of a list share. -/
def slotKey (v : VerifiedTx) : Address × UInt64 := (v.sender, v.envelope.nonce)

/-- The submitted transaction of a sender at a nonce. -/
def submitted (config : EvmTxPoolConfig) (vs : List VerifiedTx) (s : Address) (n : UInt64) :
    Option PoolEntry :=
  (vs.find? fun v => slotKey v = (s, n)).map (entryOf config)

/-- The sender of the submitted transaction with a hash. -/
def senderOf (vs : List VerifiedTx) (hash : B256) : Option Address :=
  (vs.find? fun v => v.txHash = hash).map (·.sender)

/-! ## A queue laid out along a run -/

/-- The first `k` nonces from the account nonce on are pending, everything
else is queued. -/
structure Laid (given : UInt64 → Option PoolEntry) (c : UInt64) (k : Nat) (queue : SenderQueue) :
    Prop where
  fits : c.toNat + k ≤ 2 ^ 64
  present : ∀ n : UInt64, InRun c k n → (given n).isSome
  pending : ∀ n : UInt64, queue.pending[n]? = if InRun c k n then given n else none
  queued : ∀ n : UInt64, queue.queued[n]? = if InRun c k n then none else given n

/-- Pending is the maximal run of the given transactions from the account
nonce on, queued is the rest. -/
def MaximalRun (given : UInt64 → Option PoolEntry) (c : UInt64) (queue : SenderQueue) : Prop :=
  ∃ k, Laid given c k queue ∧ ∀ n : UInt64, n.toNat = c.toNat + k → given n = none

variable {given : UInt64 → Option PoolEntry} {c : UInt64} {k : Nat} {queue queue' : SenderQueue}

theorem Laid.pending_isSome (h : Laid given c k queue) (n : UInt64) :
    (queue.pending[n]?).isSome ↔ InRun c k n := by
  rw [h.pending]
  split
  · rename_i hrun
    simp [hrun, h.present n hrun]
  · rename_i hrun
    simp [hrun]

/-- Promotion starts right behind the run, or nowhere. -/
theorem Laid.promoteStart (h : Laid given c k queue) :
    (promoteStart queue c).toNat = c.toNat + k ∨
      (promoteStart queue c = 0 ∧ c.toNat + k = 2 ^ 64) := by
  have hfits := h.fits
  unfold Txpool.promoteStart
  cases hl : queue.pending.keys.getLast? with
  | none =>
    -- nothing is pending, so the run is empty
    refine .inl ?_
    have hnone := queue.pending.eq_none_of_last_none hl c
    have hrun : ¬ InRun c k c := by
      rw [← h.pending_isSome, hnone]
      exact Bool.false_ne_true
    unfold InRun at hrun
    simp only
    omega
  | some l =>
    have hrun := (h.pending_isSome l).mp (queue.pending.last_mem hl)
    have hend : (UInt64.ofNat (c.toNat + k - 1)).toNat = c.toNat + k - 1 :=
      toNat_ofNat64 (by unfold InRun at hrun; omega)
    have hmem : (queue.pending[UInt64.ofNat (c.toNat + k - 1)]?).isSome :=
      (h.pending_isSome _).mpr (by unfold InRun at hrun ⊢; omega)
    have hle := pending_le_last hl hmem
    unfold InRun at hrun
    by_cases hw : l.toNat + 1 = 2 ^ 64
    · exact .inr ⟨succ64_top hw, by omega⟩
    · refine .inl ?_
      have hlt := l.toNat_lt
      simp only [toNat_succ64 l (by omega)]
      omega

/-- Promotion makes the run maximal. -/
theorem Laid.promote (h : Laid given c k queue) (h0 : queue.queued[(0 : UInt64)]? = none) :
    MaximalRun given c (promoteQueuedStatic queue c) := by
  obtain ⟨j, hj⟩ := promoteQueuedStatic_spec queue c h0
  have hoff : ∀ n : UInt64, c.toNat + k ≤ n.toNat → given n = queue.queued[n]? := by
    intro n hn
    rw [h.queued, if_neg]
    unfold InRun
    omega
  rcases h.promoteStart with hstart | ⟨hwrap, hfull⟩
  · have hrun : ∀ n, InRun c (k + j) n ↔ InRun c k n ∨ InRun (Txpool.promoteStart queue c) j n := by
      intro n
      unfold InRun
      omega
    have hpast : ∀ n, InRun (Txpool.promoteStart queue c) j n → given n = queue.queued[n]? :=
      fun n hn => hoff n (by unfold InRun at hn; omega)
    refine ⟨k + j, ⟨by have := hj.fits; omega, fun n hn => ?_, fun n => ?_, fun n => ?_⟩,
      fun n hn => ?_⟩
    · rcases (hrun n).mp hn with hold | hnew
      · exact h.present n hold
      · rw [hpast n hnew]
        exact hj.wasQueued n hnew
    · rw [hj.pending, h.pending]
      simp only [hrun]
      by_cases hnew : InRun (Txpool.promoteStart queue c) j n
      · simp [hnew, hpast n hnew]
      · simp [hnew]
    · rw [hj.queued, h.queued]
      simp only [hrun]
      by_cases hnew : InRun (Txpool.promoteStart queue c) j n
      · simp [hnew]
      · simp [hnew]
    · rw [hoff n (by omega)]
      exact hj.maximal n (by omega)
  · -- the run reaches the last nonce there is, so nothing is left to move
    have hzero : j = 0 := by
      by_contra hpos
      exact hj.next_ne_zero h0 ⟨le_rfl, by omega⟩ hwrap
    subst hzero
    rw [hj.eq_of_zero]
    exact ⟨k, h, fun n hn => by have := n.toNat_lt; omega⟩

/-- A maximal run is determined by the transactions, and so is the queue. -/
theorem MaximalRun.unique (h : MaximalRun given c queue) (h' : MaximalRun given c queue') :
    queue = queue' := by
  obtain ⟨k, hlaid, hmax⟩ := h
  obtain ⟨k', hlaid', hmax'⟩ := h'
  -- the longer of two runs would contain the nonce that ends the shorter one
  have hle : ∀ {i j : Nat} {q : SenderQueue}, Laid given c j q →
      (∀ n : UInt64, n.toNat = c.toNat + i → given n = none) → j ≤ i := by
    intro i j q hj hi
    by_contra hlt
    have hfits := hj.fits
    have hend : (UInt64.ofNat (c.toNat + i)).toNat = c.toNat + i := toNat_ofNat64 (by omega)
    have hsome := hj.present (UInt64.ofNat (c.toNat + i)) ⟨by omega, by omega⟩
    rw [hi _ hend] at hsome
    cases hsome
  obtain rfl : k = k' := le_antisymm (hle hlaid hmax') (hle hlaid' hmax)
  refine SenderQueue.eq_of_get (fun n => ?_) fun n => ?_
  · rw [hlaid.pending, hlaid'.pending]
  · rw [hlaid.queued, hlaid'.queued]

theorem Laid.not_inRun (h : Laid given c k queue) {n : UInt64} (hfresh : given n = none) :
    ¬ InRun c k n := by
  intro hrun
  have hsome := h.present n hrun
  rw [hfresh] at hsome
  cases hsome

/-- A nonce sent to pending is the one right behind the maximal run. -/
theorem Laid.behind_of_slot (h : Laid given c k queue) {n : UInt64} (hfresh : given n = none)
    (hslot : slotFor queue c n = .pending) : n.toNat = c.toNat + k := by
  have hout := h.not_inRun hfresh
  unfold slotFor at hslot
  split at hslot
  · rename_i hcond
    rcases hcond with rfl | hprev
    · unfold InRun at hout
      omega
    · have hrun : InRun c k (satSub64 n 1) := by
        rw [← h.pending_isSome, ← Std.ExtTreeMap.contains_eq_isSome_getElem?]
        exact hprev
      have hpred : (satSub64 n 1).toNat = n.toNat - 1 := by
        rw [satSub64_toNat, UInt64.toNat_one]
      unfold InRun at hrun hout
      omega
  · cases hslot

/-- A transaction stored right behind the run makes it longer. -/
theorem Laid.place_pending (h : Laid given c k queue) {n : UInt64} (entry : PoolEntry)
    (hfresh : given n = none) (hbehind : n.toNat = c.toNat + k) :
    Laid (fun m => if n = m then some entry else given m) c (k + 1)
      (queue.setMap .pending (queue.pending.insert n entry)) := by
  have hlt := n.toNat_lt
  have hrun : ∀ m, InRun c (k + 1) m ↔ n = m ∨ InRun c k m := by
    intro m
    rw [← UInt64.toNat_inj]
    unfold InRun
    omega
  refine ⟨by omega, fun m hm => ?_, fun m => ?_, fun m => ?_⟩
  · rcases (hrun m).mp hm with rfl | hold
    · simp
    · have hne : n ≠ m := by
        rintro rfl
        exact h.not_inRun hfresh hold
      rw [if_neg hne]
      exact h.present m hold
  · simp only [SenderQueue.setMap]
    rw [FMap.get_insert, h.pending]
    simp only [hrun]
    by_cases hnm : n = m <;> simp [hnm]
  · simp only [SenderQueue.setMap]
    rw [h.queued]
    simp only [hrun]
    by_cases hnm : n = m
    · subst hnm
      simp [hfresh]
    · simp [hnm]

/-- A transaction that goes to queued leaves the run alone. -/
theorem Laid.place_queued (h : Laid given c k queue) {n : UInt64} (entry : PoolEntry)
    (hfresh : given n = none) :
    Laid (fun m => if n = m then some entry else given m) c k
      (queue.setMap .queued (queue.queued.insert n entry)) := by
  have hout : ∀ m, InRun c k m → n ≠ m := by
    rintro m hrun rfl
    exact h.not_inRun hfresh hrun
  refine ⟨h.fits, fun m hm => ?_, fun m => ?_, fun m => ?_⟩
  · rw [if_neg (hout m hm)]
    exact h.present m hm
  · simp only [SenderQueue.setMap]
    rw [h.pending]
    split
    · rename_i hm
      rw [if_neg (hout m hm)]
    · rfl
  · simp only [SenderQueue.setMap]
    rw [FMap.get_insert, h.queued]
    by_cases hnm : n = m
    · subst hnm
      rw [if_pos rfl, if_pos rfl, if_neg fun hm => hout n hm rfl]
    · rw [if_neg hnm, if_neg hnm]

/-- Storing a new transaction keeps the layout, with a longer run if it
goes to pending. -/
theorem Laid.place (h : Laid given c k queue) {n : UInt64} (entry : PoolEntry)
    (hfresh : given n = none) :
    ∃ j, Laid (fun m => if n = m then some entry else given m) c j
      (queue.setMap (slotFor queue c n) ((queue.map (slotFor queue c n)).insert n entry)) := by
  cases hslot : slotFor queue c n with
  | pending => exact ⟨k + 1, h.place_pending entry hfresh (h.behind_of_slot hfresh hslot)⟩
  | queued => exact ⟨k, h.place_queued entry hfresh⟩

/-- Neither map holds the nonce of a transaction that was not submitted. -/
theorem Laid.free (h : Laid given c k queue) {n : UInt64} (hfresh : given n = none)
    (slot : Slot) : (queue.map slot)[n]? = none := by
  cases slot with
  | pending =>
    simp only [SenderQueue.map]
    rw [h.pending, hfresh, ite_self]
  | queued =>
    simp only [SenderQueue.map]
    rw [h.queued, hfresh, ite_self]

/-! ## The pool after each prefix -/

/-- The pool holds exactly the submitted transactions, each where its nonce
belongs. -/
structure Holds (config : EvmTxPoolConfig) (nonceFn : Option (Address → UInt64))
    (vs : List VerifiedTx) (inner : PoolInner) : Prop where
  inv : PoolInv inner
  runs : ∀ s, MaximalRun (submitted config vs s) (seenNonce nonceFn s) (queueOf inner s)
  hashes : ∀ hash : B256, inner.byHash[hash]? = senderOf vs hash

section Prefixes

variable {al : Alloy} {config : EvmTxPoolConfig} {nonceFn : Option (Address → UInt64)}
  {vs : List VerifiedTx} {inner inner' : PoolInner}

theorem holds_new : Holds config nonceFn [] PoolInner.new where
  inv := poolInv_new
  runs s := by
    have hno := not_inRun_zero
    have hlt := (seenNonce nonceFn s).toNat_lt
    exact ⟨0, ⟨by omega, fun n hn => absurd hn (hno _ n),
      fun n => by simp [queueOf, PoolInner.new, hno],
      fun n => by simp [queueOf, PoolInner.new, hno, submitted]⟩, fun n _ => rfl⟩
  hashes hash := by simp [PoolInner.new, senderOf]

theorem submitted_snoc {v : VerifiedTx}
    (hfresh : submitted config vs v.sender v.envelope.nonce = none) (s : Address) (n : UInt64) :
    submitted config (vs ++ [v]) s n
      = if slotKey v = (s, n) then some (entryOf config v) else submitted config vs s n := by
  unfold submitted at hfresh ⊢
  rw [List.find?_append]
  by_cases hkey : slotKey v = (s, n)
  · rw [slotKey, Prod.mk.injEq] at hkey
    obtain ⟨rfl, rfl⟩ := hkey
    rw [Option.map_eq_none_iff] at hfresh
    rw [hfresh, Option.none_or]
    simp [slotKey]
  · simp [hkey]

theorem senderOf_snoc {v : VerifiedTx} (hfresh : senderOf vs v.txHash = none) (hash : B256) :
    senderOf (vs ++ [v]) hash = if v.txHash = hash then some v.sender else senderOf vs hash := by
  unfold senderOf at hfresh ⊢
  rw [List.find?_append]
  by_cases hkey : v.txHash = hash
  · subst hkey
    rw [Option.map_eq_none_iff] at hfresh
    simp [hfresh]
  · simp [hkey]

/-- One accepted submission of a new (sender, nonce). -/
theorem Holds.submit (h : Holds config nonceFn vs inner) {raw : Bytes} {hash : B256}
    {v : VerifiedTx} (hdec : decodeAndRecover al raw = .ok v)
    (hsub : submitTx al config nonceFn inner raw = (.ok hash, inner'))
    (hfresh : submitted config vs v.sender v.envelope.nonce = none) :
    Holds config nonceFn (vs ++ [v]) inner' := by
  have hinv : PoolInv inner' := by
    have hafter : PoolInv (submitTx al config nonceFn inner raw).2 := poolInv_submitTx h.inv raw
    rwa [hsub] at hafter
  obtain ⟨old, htakes, hplace, rfl⟩ := submitTx_ok hdec hsub
  have h0 := htakes.zero (h.inv.queueOf_zero v.sender)
  obtain ⟨k, hlaid, -⟩ := h.runs v.sender
  obtain ⟨-, ⟨existing, hex, -, -⟩ | ⟨-, rfl, -⟩⟩ := placeEntry_ok hplace
  · have hfree := hlaid.free hfresh (targetSlot nonceFn inner v)
    exact absurd (hfree.symm.trans hex) (by simp)
  · refine ⟨hinv, fun s => ?_, fun hash => ?_⟩
    · rw [queueOf_insert]
      by_cases hs : v.sender = s
      · subst hs
        have hgiven : submitted config (vs ++ [v]) v.sender = fun m =>
            if v.envelope.nonce = m then some (entryOf config v)
            else submitted config vs v.sender m := by
          funext m
          rw [submitted_snoc hfresh]
          simp only [slotKey, Prod.mk.injEq, true_and]
        obtain ⟨j, hj⟩ := hlaid.place (entryOf config v) hfresh
        rw [if_pos rfl, hgiven]
        exact hj.promote h0
      · have hgiven : submitted config (vs ++ [v]) s = submitted config vs s := by
          funext m
          rw [submitted_snoc hfresh, if_neg]
          simp [slotKey, hs]
        rw [if_neg hs, hgiven]
        exact h.runs s
    · simp only [reindex]
      rw [FMap.get_insert, h.hashes, senderOf_snoc]
      rw [← h.hashes]
      exact htakes.unknown

theorem submitted_eq_none {s : Address} {n : UInt64} (h : (s, n) ∉ vs.map slotKey) :
    submitted config vs s n = none := by
  unfold submitted
  rw [Option.map_eq_none_iff, List.find?_eq_none]
  intro v hv hkey
  exact h (List.mem_map.mpr ⟨v, hv, by simpa using hkey⟩)

theorem holds_submitAll {raws : List Bytes} (h : Holds config nonceFn vs inner)
    (hkeys : ((vs ++ decoded al raws).map slotKey).Nodup)
    (hsub : submitAll al config nonceFn inner raws = some inner') :
    Holds config nonceFn (vs ++ decoded al raws) inner' := by
  induction raws generalizing vs inner with
  | nil =>
    obtain rfl := Option.some.inj hsub
    simpa [decoded] using h
  | cons raw raws ih =>
    simp only [submitAll] at hsub
    split at hsub
    · rename_i hash inner1 hone
      cases hdec : decodeAndRecover al raw with
      | error e =>
        simp only [submitTx, hdec] at hone
        cases hone
      | ok v =>
        have hcons : decoded al (raw :: raws) = v :: decoded al raws := by
          simp [decoded, hdec, Except.toOption]
        rw [hcons, List.append_cons] at hkeys ⊢
        refine ih (h.submit hdec hone (submitted_eq_none ?_)) hkeys hsub
        -- the key of the new transaction occurs nowhere before it
        intro hmem
        rw [List.map_append, List.map_append] at hkeys
        have hpre := (List.nodup_append'.mp (List.nodup_append'.mp hkeys).1).2.2
        exact hpre hmem (by simp [slotKey])
    · cases hsub

end Prefixes

/-! ## Two orders -/

theorem submitted_perm {config : EvmTxPoolConfig} {vs vs' : List VerifiedTx} (h : vs.Perm vs')
    (hkeys : (vs.map slotKey).Nodup) : submitted config vs = submitted config vs' := by
  funext s n
  unfold submitted
  rw [find?_eq_of_perm h]
  intro v hv v' hv' hkey hkey'
  simp only [decide_eq_true_eq] at hkey hkey'
  exact List.inj_on_of_nodup_map hkeys hv hv' (hkey.trans hkey'.symm)

theorem senderOf_perm {vs vs' : List VerifiedTx} (h : vs.Perm vs')
    (hhashes : (vs.map (·.txHash)).Nodup) : senderOf vs = senderOf vs' := by
  funext hash
  unfold senderOf
  rw [find?_eq_of_perm h]
  intro v hv v' hv' hkey hkey'
  simp only [decide_eq_true_eq] at hkey hkey'
  exact List.inj_on_of_nodup_map hhashes hv hv' (hkey.trans hkey'.symm)

/-- **Arrival order does not matter.** Two orders of transactions with
different hashes and different (sender, nonce) pairs, each accepted
throughout from an empty pool under one nonce function, end with the same
maps for every sender and the same index; pending is the maximal run of the
submitted nonces from the account nonce on and queued is the rest. -/
theorem arrival_order_irrelevant (al : Alloy) (config : EvmTxPoolConfig)
    (nonceFn : Option (Address → UInt64)) (raws raws' : List Bytes) (pool pool' : PoolInner)
    (hperm : raws.Perm raws') (hhashes : ((decoded al raws).map (·.txHash)).Nodup)
    (hkeys : ((decoded al raws).map slotKey).Nodup)
    (h : submitAll al config nonceFn .new raws = some pool)
    (h' : submitAll al config nonceFn .new raws' = some pool') :
    (∀ s, (queueOf pool s).pending = (queueOf pool' s).pending ∧
        (queueOf pool s).queued = (queueOf pool' s).queued) ∧
      pool.byHash = pool'.byHash ∧
      ∀ s, MaximalRun (submitted config (decoded al raws) s) (seenNonce nonceFn s)
        (queueOf pool s) := by
  have hvs : (decoded al raws).Perm (decoded al raws') := hperm.filterMap _
  have hkeys' : ((decoded al raws').map slotKey).Nodup := (hvs.map slotKey).nodup_iff.mp hkeys
  have hpool : Holds config nonceFn (decoded al raws) pool := by
    have hall := holds_submitAll holds_new (by simpa using hkeys) h
    simpa using hall
  have hpool' : Holds config nonceFn (decoded al raws') pool' := by
    have hall := holds_submitAll holds_new (by simpa using hkeys') h'
    simpa using hall
  have hqueue : ∀ s, queueOf pool s = queueOf pool' s := by
    intro s
    have hrun := hpool.runs s
    rw [submitted_perm hvs hkeys] at hrun
    exact hrun.unique (hpool'.runs s)
  refine ⟨fun s => ⟨by rw [hqueue], by rw [hqueue]⟩, ?_, hpool.runs⟩
  refine Std.ExtTreeMap.ext_getElem? fun hash => ?_
  rw [hpool.hashes, hpool'.hashes, senderOf_perm hvs hhashes]

/-- Alice's nonces 0 and 1 and Bob's nonce 0, in two orders: once in
sequence, once with a gap that closes last. -/
theorem arrival_order_alice_bob :
    ∃ pool pool',
      submitAll sampleAlloy {} (some fun _ => 0) .new [alice0.raw, alice1.raw, bob0.raw]
        = some pool ∧
      submitAll sampleAlloy {} (some fun _ => 0) .new [alice1.raw, bob0.raw, alice0.raw]
        = some pool' ∧
      pool.byHash = pool'.byHash ∧
      ∀ s, (queueOf pool s).pending = (queueOf pool' s).pending ∧
        (queueOf pool s).queued = (queueOf pool' s).queued := by
  have hsome : (submitAll sampleAlloy {} (some fun _ => 0) .new
      [alice0.raw, alice1.raw, bob0.raw]).isSome := by decide +kernel
  have hsome' : (submitAll sampleAlloy {} (some fun _ => 0) .new
      [alice1.raw, bob0.raw, alice0.raw]).isSome := by decide +kernel
  obtain ⟨pool, hpool⟩ := Option.isSome_iff_exists.mp hsome
  obtain ⟨pool', hpool'⟩ := Option.isSome_iff_exists.mp hsome'
  have hperm : [alice0.raw, alice1.raw, bob0.raw].Perm [alice1.raw, bob0.raw, alice0.raw] := by
    decide +kernel
  obtain ⟨hqueues, hindex, -⟩ := arrival_order_irrelevant sampleAlloy {} (some fun _ => 0) _ _
    pool pool' hperm (by decide +kernel) (by decide +kernel) hpool hpool'
  exact ⟨pool, pool', hpool, hpool', hindex, hqueues⟩

end Nbnet.Txpool
