/-
Nbnet.Txpool.CollectTheorems — what `collect_payload` writes and removes.

Candidates, payload and removal are three loops over data collected
separately. They agree: the payload reads back as the raw bytes of a list
of pool transactions, each the lowest pending one of its sender, best tip
first, and exactly these leave the pool (`collect_removes_what_it_emits`).

A candidate that exceeds the byte limit ends the selection, one that
exceeds the gas limit is only passed over. So a transaction that is not
included can still keep others out of the payload;
`payload_independent_iff` says when.
-/
import Nbnet.Lib.Records
import Nbnet.Txpool.PayloadTheorems
import Nbnet.Txpool.NonceTheorems

namespace Nbnet.Txpool

open Lib

/-! ## Candidates -/

/-- A transaction of the pool, with its place. -/
structure Pick where
  sender : Address
  nonce : UInt64
  entry : PoolEntry

/-- The lowest pending transaction of its sender. -/
structure Pick.Lowest (inner : PoolInner) (p : Pick) : Prop where
  pending : (queueOf inner p.sender).pending[p.nonce]? = some p.entry
  lowest : ∀ n : UInt64, ((queueOf inner p.sender).pending[n]?).isSome → p.nonce.toNat ≤ n.toNat

/-- What the candidate list keeps of a transaction. -/
def Pick.candidate (p : Pick) : Candidate where
  sender := p.sender
  nonce := p.nonce
  tip := p.entry.effectiveTip
  raw := p.entry.verified.raw

theorem exists_pick {it : IterOrder Address SenderQueue} {inner : PoolInner} {c : Candidate}
    (h : c ∈ candidates it inner) : ∃ p : Pick, p.Lowest inner ∧ p.candidate = c := by
  obtain ⟨queue, e, hqueue, hget, -, htip, hraw⟩ := candidate_first h
  have hq : queueOf inner c.sender = queue := by simp [queueOf, hqueue]
  refine ⟨⟨c.sender, c.nonce, e⟩, ⟨?_, (mem_candidates h).2⟩, ?_⟩
  · rw [hq]
    exact hget
  · rw [Pick.candidate, ← htip, ← hraw]

/-- A list whose elements all have a preimage is the image of a list. -/
theorem exists_picks {inner : PoolInner} (cs : List Candidate)
    (h : ∀ c ∈ cs, ∃ p : Pick, p.Lowest inner ∧ p.candidate = c) :
    ∃ ps : List Pick, (∀ p ∈ ps, p.Lowest inner) ∧ ps.map Pick.candidate = cs := by
  induction cs with
  | nil => exact ⟨[], by simp, rfl⟩
  | cons c cs ih =>
    obtain ⟨p, hp, rfl⟩ := h c (by simp)
    obtain ⟨ps, hps, rfl⟩ := ih fun c hc => h c (List.mem_cons_of_mem _ hc)
    refine ⟨p :: ps, fun q hq => ?_, rfl⟩
    rcases List.mem_cons.mp hq with rfl | hq
    · exact hp
    · exact hps q hq

/-- A candidate is offered under its sender. -/
theorem candidate_sender (senders : FMap Address SenderQueue) (s : Address) (c : Candidate)
    (h : ((senders[s]?).bind fun queue => queue.pending.toList.head?.map fun x =>
      ({ sender := s, nonce := x.1, tip := x.2.effectiveTip, raw := x.2.verified.raw } :
        Candidate)) = some c) : c.sender = s := by
  obtain ⟨queue, -, hhead⟩ := Option.bind_eq_some_iff.mp h
  obtain ⟨x, -, rfl⟩ := Option.map_eq_some_iff.mp hhead
  rfl

/-- One candidate per sender. -/
theorem candidates_nodup (it : IterOrder Address SenderQueue) (inner : PoolInner) :
    ((candidates it inner).map Candidate.sender).Nodup :=
  (it.nodup inner.senders).sublist (filterMap_key_sublist (candidate_sender inner.senders) _)

theorem sortByTip_perm (cs : List Candidate) : (sortByTip cs).Perm cs :=
  List.perm_insertionSort _ cs

instance tipTrans : IsTrans Candidate fun a b => b.tip ≤ a.tip where
  trans _ _ _ hab hbc := UInt64.le_trans hbc hab

instance tipTotal : Std.Total fun a b : Candidate => b.tip ≤ a.tip where
  total a b := UInt64.le_total b.tip a.tip

theorem sortByTip_sorted (cs : List Candidate) :
    (sortByTip cs).Pairwise fun a b => b.tip ≤ a.tip :=
  List.pairwise_insertionSort _ cs

/-- The stable sort keeps what a filter leaves in the order it has. -/
theorem sortByTip_filter (p : Candidate → Bool) (cs : List Candidate) :
    (sortByTip cs).filter p = sortByTip (cs.filter p) :=
  filter_insertionSort p cs

/-! ## Removal -/

/-- Removing a pending transaction takes its entry and its hash out. -/
theorem removeIncluded_pick {inner : PoolInner} {p : Pick}
    (h : (queueOf inner p.sender).pending[p.nonce]? = some p.entry) :
    (held inner).Perm ((p.sender, p.entry) :: held (removeIncluded inner p.candidate)) ∧
      (removeIncluded inner p.candidate).byHash
        = inner.byHash.erase p.entry.verified.txHash := by
  cases hs : inner.senders[p.sender]? with
  | none => simp [queueOf, hs] at h
  | some queue =>
    have hq : queueOf inner p.sender = queue := by simp [queueOf, hs]
    rw [hq] at h
    have hremoved : removeIncluded inner p.candidate
        = { senders := inner.senders.insert p.sender
              { queue with pending := queue.pending.erase p.nonce }
            byHash := inner.byHash.erase p.entry.verified.txHash } := by
      simp only [removeIncluded, Pick.candidate, hs, h]
    rw [hremoved]
    exact ⟨heldIn_erasePending hs h, rfl⟩

/-- Removing several, of different senders. -/
theorem removeAll_picks (ps : List Pick) (inner : PoolInner)
    (hnodup : (ps.map Pick.sender).Nodup)
    (h : ∀ p ∈ ps, (queueOf inner p.sender).pending[p.nonce]? = some p.entry) :
    (held inner).Perm (ps.map (fun p => (p.sender, p.entry))
        ++ held ((ps.map Pick.candidate).foldl removeIncluded inner)) ∧
      ((ps.map Pick.candidate).foldl removeIncluded inner).byHash
        = (ps.map fun p => p.entry.verified.txHash).foldl (fun m k => m.erase k)
            inner.byHash := by
  induction ps generalizing inner with
  | nil => exact ⟨.refl _, rfl⟩
  | cons p ps ih =>
    obtain ⟨hfirst, hrest⟩ := List.nodup_cons.mp hnodup
    obtain ⟨hheld, hhash⟩ := removeIncluded_pick (h p (by simp))
    -- the other senders' queues are still as they were
    have hkept : ∀ q ∈ ps, (queueOf (removeIncluded inner p.candidate) q.sender).pending[q.nonce]?
        = some q.entry := by
      intro q hq
      have hne : ¬ p.candidate.sender = q.sender := fun heq =>
        hfirst (List.mem_map.mpr ⟨q, hq, heq.symm⟩)
      rw [queueOf_removeIncluded, if_neg hne]
      exact h q (List.mem_cons_of_mem _ hq)
    obtain ⟨hheld', hhash'⟩ := ih (removeIncluded inner p.candidate) hrest hkept
    refine ⟨hheld.trans (hheld'.cons _), ?_⟩
    rw [List.map_cons, List.foldl_cons, hhash', hhash]
    rfl

/-! ## Payload and removal agree -/

/-- A selection is a list of lowest pending transactions, one per sender,
best tip first. -/
structure Selected (inner : PoolInner) (sel : Selection) (picked : List Pick) : Prop where
  included : sel.included = picked.map Pick.candidate
  payload : sel.payload = (picked.map fun p => p.entry.verified.raw).flatMap (frame 4)
  onePerSender : (picked.map Pick.sender).Nodup
  lowest : ∀ p ∈ picked, p.Lowest inner
  bestFirst : picked.Pairwise fun p q => q.entry.effectiveTip ≤ p.entry.effectiveTip

theorem exists_selected (it : IterOrder Address SenderQueue) (inner : PoolInner) (maxBytes : Nat)
    (maxGas : UInt64) : ∃ picked, Selected inner (selection it inner maxBytes maxGas) picked := by
  obtain ⟨cs, hsub, hinc, hpay⟩ := selectLoop_picks inner maxBytes maxGas
    (sortByTip (candidates it inner)) {}
  have hsort := sortByTip_perm (candidates it inner)
  obtain ⟨picked, hlow, rfl⟩ := exists_picks cs fun c hc =>
    exists_pick (hsort.mem_iff.mp (hsub.mem hc))
  refine ⟨picked, ?_, ?_, ?_, hlow, ?_⟩
  · simpa [selection] using hinc
  · simp only [selection, hpay, List.nil_append, List.flatMap_map]
    rfl
  · have hall := (hsort.map Candidate.sender).nodup_iff.mpr (candidates_nodup it inner)
    have hpicked := hall.sublist (hsub.map Candidate.sender)
    rwa [List.map_map] at hpicked
  · have hpair := (sortByTip_sorted (candidates it inner)).sublist hsub
    exact List.pairwise_map.mp hpair

/-- The payload is the list's records, and the pool afterwards is the pool
without the list. -/
structure Emits (inner : PoolInner) (result : Bytes × PoolInner) (picked : List Pick) : Prop where
  parses : parseRecords 4 result.1 = some (picked.map fun p => p.entry.verified.raw)
  onePerSender : (picked.map Pick.sender).Nodup
  lowest : ∀ p ∈ picked, p.Lowest inner
  bestFirst : picked.Pairwise fun p q => q.entry.effectiveTip ≤ p.entry.effectiveTip
  /-- What was held is the list and what is still held. -/
  held : (held inner).Perm (picked.map (fun p => (p.sender, p.entry)) ++ held result.2)
  /-- What is still pending is where it was. -/
  pending : ∀ (s : Address) (n : UInt64), (queueOf result.2 s).pending[n]?
    = if ∃ p ∈ picked, p.sender = s ∧ p.nonce = n then none else (queueOf inner s).pending[n]?
  queued : ∀ s, (queueOf result.2 s).queued = (queueOf inner s).queued
  byHash : ∀ h : B256, result.2.byHash[h]?
    = if h ∈ picked.map (fun p => p.entry.verified.txHash) then none else inner.byHash[h]?

/-- **What is collected is what is removed.** From every pool a run reaches,
with fewer than `2 ^ 32` bytes allowed and any order of the hash table, the
payload reads back as the raw bytes of lowest pending transactions, one per
sender, best tip first, and exactly these leave the pool. -/
theorem collect_removes_what_it_emits (al : Alloy) (config : EvmTxPoolConfig) (ops : List PoolOp)
    (it : IterOrder Address SenderQueue) (maxBytes : Nat) (maxGas : UInt64)
    (hmax : maxBytes < 2 ^ 32) :
    let pool := ops.foldl (applyOp al config) PoolInner.new
    ∃ picked, Emits pool (collectPayload it pool maxBytes maxGas) picked := by
  intro pool
  obtain ⟨picked, hsel⟩ := exists_selected it pool maxBytes maxGas
  obtain ⟨hheld, hhash⟩ := removeAll_picks picked pool hsel.onePerSender
    fun p hp => (hsel.lowest p hp).pending
  refine ⟨picked, ⟨?_, hsel.onePerSender, hsel.lowest, hsel.bestFirst, ?_, fun s n => ?_,
    fun s => ?_, fun h => ?_⟩⟩
  · -- every raw transaction is shorter than the payload
    have hlen : (selection it pool maxBytes maxGas).payload.length ≤ maxBytes :=
      selectLoop_length _ {} (Nat.zero_le _)
    simp only [collectPayload, hsel.payload]
    refine parseRecords_flatMap (by decide) _ fun bs hbs => ?_
    have hle : bs.length ≤ _ := length_le_frames (w := 4) hbs
    rw [hsel.payload] at hlen
    omega
  · simp only [collectPayload, hsel.included]
    exact hheld
  · obtain ⟨hp, -⟩ := queueOf_removeAll (picked.map Pick.candidate) pool s
    have hmem : (∃ c ∈ picked.map Pick.candidate, c.sender = s ∧ c.nonce = n) ↔
        ∃ p ∈ picked, p.sender = s ∧ p.nonce = n := by
      simp [Pick.candidate]
    simp only [collectPayload, hsel.included, hp n, hmem]
  · simp only [collectPayload]
    exact (queueOf_removeAll _ pool s).2
  · simp only [collectPayload, hsel.included, hhash]
    exact FMap.get_foldl_erase _ _ _

/-- Alice's two transactions, of which the first is collected. -/
theorem collect_removes_alice :
    (100000 : Nat) < 2 ^ 32 ∧
      ∃ picked, Emits (aliceSubmits.foldl (applyOp sampleAlloy {}) PoolInner.new)
        (collectPayload .ascending (aliceSubmits.foldl (applyOp sampleAlloy {}) PoolInner.new)
          100000 30000000) picked :=
  ⟨by decide, collect_removes_what_it_emits sampleAlloy {} aliceSubmits .ascending 100000 30000000
    (by decide)⟩

/-! ## Who influences the payload -/

/-- The pool with everything of one sender taken out. -/
def withoutSender (inner : PoolInner) (s : Address) : PoolInner :=
  { inner with senders := inner.senders.erase s }

/-- With `len` bytes and `total` gas used, some candidate is taken before
one exceeds the byte limit. -/
def TakesOne (inner : PoolInner) (maxBytes : Nat) (maxGas : UInt64) (len : Nat) (total : UInt64) :
    List Candidate → Prop
  | [] => False
  | c :: rest =>
      len + 4 + c.raw.length ≤ maxBytes ∧
        (¬ (maxGas > 0 ∧ total + candidateGas inner c > maxGas) ∨
          TakesOne inner maxBytes maxGas len total rest)

/-- Walking the candidates, the one of `s` is the first to exceed the byte
limit, and one behind it would be taken. -/
def Blocks (inner : PoolInner) (maxBytes : Nat) (maxGas : UInt64) (s : Address) :
    Nat → UInt64 → List Candidate → Prop
  | _, _, [] => False
  | len, total, c :: rest =>
      if len + 4 + c.raw.length > maxBytes then
        c.sender = s ∧ TakesOne inner maxBytes maxGas len total rest
      else if maxGas > 0 ∧ total + candidateGas inner c > maxGas then
        Blocks inner maxBytes maxGas s len total rest
      else
        Blocks inner maxBytes maxGas s (len + 4 + c.raw.length)
          (total + candidateGas inner c) rest

section Influence

variable {inner : PoolInner} {maxBytes : Nat} {maxGas : UInt64} {s : Address}

theorem candidateGas_withoutSender {c : Candidate} (h : c.sender ≠ s) :
    candidateGas (withoutSender inner s) c = candidateGas inner c := by
  simp only [candidateGas, withoutSender]
  rw [FMap.get_erase_of_ne _ (Ne.symm h)]

variable (inner s) in
/-- Listed in the same order, the senders left offer the same candidates. -/
theorem candidates_withoutSender (it : IterOrder Address SenderQueue) :
    candidates (it.without inner.senders s) (withoutSender inner s)
      = (candidates it inner).filter fun c => c.sender ≠ s := by
  have hfilter := filter_filterMap_key (candidate_sender inner.senders)
    (fun a => decide (a ≠ s)) (it.order inner.senders)
  refine Eq.trans ?_ hfilter.symm
  simp only [candidates, withoutSender, IterOrder.without_order]
  refine List.filterMap_congr fun a ha => ?_
  have hne : a ≠ s := by simpa using (List.mem_filter.mp ha).2
  rw [FMap.get_erase_of_ne _ (Ne.symm hne)]

/-- The loop does not look at the sender who is gone. -/
theorem selectLoop_withoutSender (cs : List Candidate) (sel : Selection)
    (h : ∀ c ∈ cs, c.sender ≠ s) :
    selectLoop (withoutSender inner s) maxBytes maxGas sel cs
      = selectLoop inner maxBytes maxGas sel cs := by
  induction cs generalizing sel with
  | nil => rfl
  | cons c cs ih =>
    have hrest := fun c hc => h c (List.mem_cons_of_mem _ hc)
    simp only [selectLoop, candidateGas_withoutSender (h c (by simp)), ih _ hrest]

/-- The payload stays as it is exactly when nothing more is taken. -/
theorem selectLoop_idle_iff (cs : List Candidate) (sel : Selection) :
    (selectLoop inner maxBytes maxGas sel cs).payload = sel.payload ↔
      ¬ TakesOne inner maxBytes maxGas sel.payload.length sel.totalGas cs := by
  induction cs with
  | nil => simp [selectLoop, TakesOne]
  | cons c cs ih =>
    simp only [selectLoop, TakesOne]
    by_cases hbytes : sel.payload.length + 4 + c.raw.length > maxBytes
    · simp only [hbytes, if_true, true_iff, not_and]
      omega
    · have hfits : sel.payload.length + 4 + c.raw.length ≤ maxBytes := by omega
      simp only [hbytes, if_false, hfits, true_and]
      by_cases hgas : maxGas > 0 ∧ sel.totalGas + candidateGas inner c > maxGas
      · simp only [hgas, and_self, if_true, not_true_eq_false, false_or]
        exact ih
      · simp only [hgas, if_false, not_false_eq_true, true_or, not_true_eq_false, iff_false]
        intro heq
        obtain ⟨picked, -, -, hpay⟩ := selectLoop_picks inner maxBytes maxGas cs
          (sel.push c (candidateGas inner c))
        have hlen := congrArg List.length heq
        rw [hpay, List.length_append, length_push] at hlen
        omega

/-- Nothing to leave out where `s` has no candidate. -/
theorem filter_fresh {cs : List Candidate} (h : s ∉ cs.map Candidate.sender) :
    cs.filter (fun c => c.sender ≠ s) = cs := by
  refine List.filter_eq_self.mpr fun c hc => ?_
  have hne : c.sender ≠ s := by
    intro heq
    exact h (List.mem_map.mpr ⟨c, hc, heq⟩)
  simpa using hne

/-- The loop with and without the candidate of `s`, where it is not
taken. -/
theorem selectLoop_filter_iff (cs : List Candidate) (sel : Selection)
    (hnodup : (cs.map Candidate.sender).Nodup)
    (hout : ∀ c ∈ (selectLoop inner maxBytes maxGas sel cs).included, c.sender ≠ s) :
    (selectLoop inner maxBytes maxGas sel (cs.filter fun c => c.sender ≠ s)).payload
        = (selectLoop inner maxBytes maxGas sel cs).payload ↔
      ¬ Blocks inner maxBytes maxGas s sel.payload.length sel.totalGas cs := by
  induction cs generalizing sel with
  | nil => simp [Blocks]
  | cons c cs ih =>
    obtain ⟨hfresh, hnodup'⟩ := List.nodup_cons.mp hnodup
    simp only [selectLoop] at hout ⊢
    simp only [Blocks]
    by_cases hs : c.sender = s
    · rw [List.filter_cons_of_neg (by simp [hs])]
      by_cases hbytes : sel.payload.length + 4 + c.raw.length > maxBytes
      · -- the loop ends here; without `c` it goes on
        simp only [hbytes, if_true, hs, true_and]
        rw [filter_fresh (hs ▸ hfresh)]
        exact selectLoop_idle_iff cs sel
      · simp only [hbytes, if_false] at hout ⊢
        by_cases hgas : maxGas > 0 ∧ sel.totalGas + candidateGas inner c > maxGas
        · rw [if_pos hgas] at hout ⊢
          rw [if_pos hgas]
          exact ih sel hnodup' hout
        · -- it would be taken
          rw [if_neg hgas] at hout
          exact absurd hs (hout c (mem_included_push c (candidateGas inner c) cs sel))
    · rw [List.filter_cons_of_pos (by simp [hs])]
      simp only [selectLoop]
      by_cases hbytes : sel.payload.length + 4 + c.raw.length > maxBytes
      · simp [hbytes, hs]
      · simp only [hbytes, if_false] at hout ⊢
        by_cases hgas : maxGas > 0 ∧ sel.totalGas + candidateGas inner c > maxGas
        · rw [if_pos hgas] at hout ⊢
          rw [if_pos hgas, if_pos hgas]
          exact ih sel hnodup' hout
        · rw [if_neg hgas] at hout ⊢
          rw [if_neg hgas, if_neg hgas]
          have hpush := ih (sel.push c (candidateGas inner c)) hnodup' hout
          rwa [length_push] at hpush

end Influence

/-- Such an order of the pool without `s` always exists. -/
theorem exists_same_order (it : IterOrder Address SenderQueue) (inner : PoolInner) (s : Address) :
    ∃ it', sortByTip (candidates it' (withoutSender inner s))
      = (sortByTip (candidates it inner)).filter fun c => c.sender ≠ s :=
  ⟨it.without inner.senders s, by rw [candidates_withoutSender, sortByTip_filter]⟩

/-- **When a transaction that is left out has no influence.** For every
pool, every limit and every order of the candidates: where nothing of `s`
is in the payload, collecting from the pool without `s`, the other
candidates in the same order, gives the same payload exactly when the
candidate of `s` is not the one that ends the selection at the byte limit
with another behind it that would be taken. -/
theorem payload_independent_iff (inner : PoolInner) (it it' : IterOrder Address SenderQueue)
    (maxBytes : Nat) (maxGas : UInt64) (s : Address)
    (horder : sortByTip (candidates it' (withoutSender inner s))
      = (sortByTip (candidates it inner)).filter fun c => c.sender ≠ s)
    (hout : ∀ c ∈ (selection it inner maxBytes maxGas).included, c.sender ≠ s) :
    (collectPayload it' (withoutSender inner s) maxBytes maxGas).1
        = (collectPayload it inner maxBytes maxGas).1 ↔
      ¬ Blocks inner maxBytes maxGas s 0 0 (sortByTip (candidates it inner)) := by
  have hnodup := ((sortByTip_perm (candidates it inner)).map Candidate.sender).nodup_iff.mpr
    (candidates_nodup it inner)
  simp only [collectPayload, selection, horder]
  rw [selectLoop_withoutSender _ _ fun c hc => by simpa using (List.mem_filter.mp hc).2]
  exact selectLoop_filter_iff (sortByTip (candidates it inner)) {} hnodup hout

/-- Bob offers 121 bytes and all the gas there is, Alice 111 bytes for
less. -/
def bobFirst : PoolInner :=
  ([.submit (some fun _ => 0) bob0.raw, .submit (some fun _ => 1) alice1Cheap.raw] :
    List PoolOp).foldl (applyOp sampleAlloy {}) PoolInner.new

/-- Over the gas limit Bob is passed over. -/
theorem payload_independent_bob :
    (∀ c ∈ (selection .ascending bobFirst 100000 30000000).included, c.sender ≠ bob0.sender) ∧
      ¬ Blocks bobFirst 100000 30000000 bob0.sender 0 0
        (sortByTip (candidates .ascending bobFirst)) := by
  have hout : ∀ c ∈ (selection .ascending bobFirst 100000 30000000).included,
      c.sender ≠ bob0.sender := by decide +kernel
  exact ⟨hout, (payload_independent_iff bobFirst .ascending .ascending 100000 30000000 bob0.sender
    (by decide +kernel) hout).mp (by decide +kernel)⟩

/-- Over the byte limit he keeps Alice out. -/
theorem oversized_candidate_blocks :
    sortByTip (candidates .ascending (withoutSender bobFirst bob0.sender))
        = (sortByTip (candidates .ascending bobFirst)).filter (fun c => c.sender ≠ bob0.sender) ∧
      (∀ c ∈ (selection .ascending bobFirst 120 0).included, c.sender ≠ bob0.sender) ∧
      (collectPayload .ascending (withoutSender bobFirst bob0.sender) 120 0).1
        ≠ (collectPayload .ascending bobFirst 120 0).1 := by
  decide +kernel

end Nbnet.Txpool
