/-
Nbnet.Txpool.DrainTheorems — proposing again and again empties the pool's
pending transactions.

A round of `collect_payload` takes at most one transaction per sender, the
lowest pending one (`takes_lowest`), so what a sender has pending comes out
in nonce order however the rounds fall. A round that finds something
pending takes something, provided each transaction fits the limits by
itself: the best candidate then fits, whatever came before. So as many
rounds as the pool holds transactions are enough.
-/
import Nbnet.Txpool.CollectTheorems
import Nbnet.Txpool.CommitTheorems

namespace Nbnet.Txpool

open Lib

/-! ## Rounds -/

/-- Payload collections one after another, one order of the hash table
each. -/
def collectRounds (maxBytes : Nat) (maxGas : UInt64) :
    PoolInner → List (IterOrder Address SenderQueue) → List Bytes × PoolInner
  | pool, [] => ([], pool)
  | pool, it :: its =>
      let (payload, pool') := collectPayload it pool maxBytes maxGas
      let (payloads, last) := collectRounds maxBytes maxGas pool' its
      (payload :: payloads, last)

/-- Every pending transaction fits the limits by itself. -/
def EachFits (maxBytes : Nat) (maxGas : UInt64) (pool : PoolInner) : Prop :=
  ∀ (s : Address) (n : UInt64) (e : PoolEntry), (queueOf pool s).pending[n]? = some e →
    4 + e.verified.raw.length ≤ maxBytes ∧
      ¬ (maxGas > 0 ∧ e.verified.envelope.gasLimit > maxGas)

/-- The pending transactions of a sender, in nonce order. -/
def pendingOf (pool : PoolInner) (s : Address) : List (UInt64 × PoolEntry) :=
  (queueOf pool s).pending.toList

/-- What a list of picks takes from a sender. -/
def takenFrom (s : Address) (picked : List Pick) : List (UInt64 × PoolEntry) :=
  (picked.filter (·.sender = s)).map fun p => (p.nonce, p.entry)

/-! ## One round -/

section Round

variable {pool : PoolInner} {it : IterOrder Address SenderQueue} {maxBytes : Nat}
  {maxGas : UInt64} {picked : List Pick}

theorem filter_sender (hnodup : (picked.map Pick.sender).Nodup) {p : Pick} (hp : p ∈ picked) :
    picked.filter (·.sender = p.sender) = [p] := by
  induction picked with
  | nil => cases hp
  | cons q picked ih =>
    obtain ⟨hfresh, hrest⟩ := List.nodup_cons.mp hnodup
    rcases List.mem_cons.mp hp with rfl | hp
    · rw [List.filter_cons_of_pos (by simp), List.filter_eq_nil_iff.mpr]
      intro q hq heq
      exact hfresh (List.mem_map.mpr ⟨q, hq, by simpa using heq⟩)
    · have hne : ¬ q.sender = p.sender := fun heq => hfresh (List.mem_map.mpr ⟨p, hp, heq.symm⟩)
      rw [List.filter_cons_of_neg (by simpa using hne), ih hrest hp]

/-- The lowest pending transaction heads its sender's pending list. -/
theorem Pick.Lowest.toList {p : Pick} (h : p.Lowest pool) :
    pendingOf pool p.sender
      = (p.nonce, p.entry) :: ((queueOf pool p.sender).pending.erase p.nonce).toList := by
  refine FMap.toList_eq_cons _ h.pending fun n hn => ?_
  rcases Nat.eq_or_lt_of_le (h.lowest n hn) with heq | hlt
  · exact .inl (UInt64.toNat_inj.mp heq).symm
  · exact .inr ((compare_lt_iff _ _).mpr hlt)

/-- A sender's pending list is what the round takes from it, and the
rest. -/
theorem takes_lowest (hsel : Selected pool (selection it pool maxBytes maxGas) picked)
    (s : Address) :
    takenFrom s picked ++ pendingOf (collectPayload it pool maxBytes maxGas).2 s
      = pendingOf pool s := by
  obtain ⟨hpending, -⟩ := queueOf_removeAll (picked.map Pick.candidate) pool s
  simp only [collectPayload, hsel.included, pendingOf, takenFrom]
  by_cases hs : ∃ p ∈ picked, p.sender = s
  · obtain ⟨p, hp, rfl⟩ := hs
    have hfilter := filter_sender hsel.onePerSender hp
    have herase : (queueOf ((picked.map Pick.candidate).foldl removeIncluded pool)
        p.sender).pending = (queueOf pool p.sender).pending.erase p.nonce := by
      refine Std.ExtTreeMap.ext_getElem? fun n => ?_
      rw [hpending n, FMap.get_erase]
      have hiff : (∃ c ∈ picked.map Pick.candidate, c.sender = p.sender ∧ c.nonce = n) ↔
          p.nonce = n := by
        constructor
        · rintro ⟨c, hc, hsender, hn⟩
          obtain ⟨q, hq, rfl⟩ := List.mem_map.mp hc
          have hmem : q ∈ picked.filter (·.sender = p.sender) :=
            List.mem_filter.mpr ⟨hq, decide_eq_true hsender⟩
          rw [hfilter, List.mem_singleton] at hmem
          rw [← hn, hmem]
          rfl
        · exact fun hn => ⟨p.candidate, List.mem_map_of_mem hp, rfl, hn⟩
      simp only [hiff]
    rw [hfilter, herase]
    exact (hsel.lowest p hp).toList.symm
  · have hnone : picked.filter (·.sender = s) = [] := by
      refine List.filter_eq_nil_iff.mpr fun p hp heq => ?_
      exact hs ⟨p, hp, by simpa using heq⟩
    have hsame : (queueOf ((picked.map Pick.candidate).foldl removeIncluded pool) s).pending
        = (queueOf pool s).pending := by
      refine Std.ExtTreeMap.ext_getElem? fun n => ?_
      rw [hpending n, if_neg]
      rintro ⟨c, hc, hsender, -⟩
      obtain ⟨p, hp, rfl⟩ := List.mem_map.mp hc
      exact hs ⟨p, hp, hsender⟩
    rw [hnone, hsame]
    rfl

/-- It is looked up again with its own gas limit. -/
theorem Pick.Lowest.candidateGas {p : Pick} (h : p.Lowest pool) :
    Txpool.candidateGas pool p.candidate = p.entry.verified.envelope.gasLimit := by
  have hget := h.pending
  cases hq : pool.senders[p.sender]? with
  | none => simp [queueOf, hq] at hget
  | some queue =>
    simp only [queueOf, hq, Option.getD_some] at hget
    simp [Txpool.candidateGas, Pick.candidate, hq, hget]

/-- Every sender with something pending is a candidate with the first of
it. -/
theorem mem_candidates_of_toList (it : IterOrder Address SenderQueue) {s : Address}
    {x : UInt64 × PoolEntry} {rest : List (UInt64 × PoolEntry)}
    (hs : pendingOf pool s = x :: rest) : (Pick.mk s x.1 x.2).candidate ∈ candidates it pool := by
  cases hq : pool.senders[s]? with
  | none =>
    have hempty : pendingOf pool s = [] := by simp [pendingOf, queueOf, hq]
    rw [hempty] at hs
    cases hs
  | some queue =>
    have hlist : queue.pending.toList = x :: rest := by
      simpa [pendingOf, queueOf, hq] using hs
    refine List.mem_filterMap.mpr
      ⟨s, (it.mem_order pool.senders s).mpr (by simp [hq]), ?_⟩
    rw [hq, Option.bind_some, hlist]
    rfl

theorem exists_candidate (it : IterOrder Address SenderQueue) {s : Address}
    (hs : pendingOf pool s ≠ []) : ∃ c, c ∈ candidates it pool := by
  obtain ⟨x, rest, hx⟩ := List.exists_cons_of_ne_nil hs
  exact ⟨_, mem_candidates_of_toList it hx⟩

/-- The first candidate is taken if it fits by itself. -/
theorem takes_first {c : Candidate} {rest : List Candidate}
    (hsorted : sortByTip (candidates it pool) = c :: rest) (hbytes : 4 + c.raw.length ≤ maxBytes)
    (hgas : ¬ (maxGas > 0 ∧ candidateGas pool c > maxGas)) :
    ∃ cs, (selection it pool maxBytes maxGas).included = c :: cs := by
  rw [selection, hsorted, selectLoop]
  rw [if_neg (by simp; omega), if_neg (by simpa using hgas)]
  obtain ⟨cs, -, hinc, -⟩ := selectLoop_picks pool maxBytes maxGas rest
    (Selection.push {} c (candidateGas pool c))
  exact ⟨cs, hinc⟩

/-- So something is taken where something is pending. -/
theorem takes_some (hfits : EachFits maxBytes maxGas pool) {s : Address}
    (hs : pendingOf pool s ≠ []) (hsel : Selected pool (selection it pool maxBytes maxGas) picked) :
    picked ≠ [] := by
  obtain ⟨c', hc'⟩ := exists_candidate it hs
  obtain ⟨c, rest, hsorted⟩ := List.exists_cons_of_ne_nil
    (List.ne_nil_of_mem ((sortByTip_perm _).mem_iff.mpr hc'))
  have hc : c ∈ candidates it pool :=
    (sortByTip_perm _).mem_iff.mp (hsorted ▸ List.mem_cons_self ..)
  obtain ⟨p, hp, rfl⟩ := exists_pick hc
  obtain ⟨hbytes, hlimit⟩ := hfits p.sender p.nonce p.entry hp.pending
  obtain ⟨cs, hinc⟩ := takes_first hsorted hbytes (by rwa [hp.candidateGas])
  rintro rfl
  rw [hsel.included] at hinc
  cases hinc

/-- What was held is what is taken and what is still held. -/
theorem length_held_collect (hsel : Selected pool (selection it pool maxBytes maxGas) picked) :
    (held pool).length
      = picked.length + (held (collectPayload it pool maxBytes maxGas).2).length := by
  obtain ⟨hheld, -⟩ := removeAll_picks picked pool hsel.onePerSender
    fun p hp => (hsel.lowest p hp).pending
  rw [← hsel.included] at hheld
  rw [hheld.length_eq, List.length_append, List.length_map]
  rfl

/-- What is left still fits. -/
theorem EachFits.collect (hfits : EachFits maxBytes maxGas pool)
    (it : IterOrder Address SenderQueue) :
    EachFits maxBytes maxGas (collectPayload it pool maxBytes maxGas).2 := by
  intro s n e he
  obtain ⟨hpending, -⟩ := queueOf_removeAll (selection it pool maxBytes maxGas).included pool s
  simp only [collectPayload, hpending] at he
  split at he
  · cases he
  · exact hfits s n e he

end Round

/-! ## All rounds -/

/-- What rounds of collection take, one list of picks each. -/
structure Drains (maxBytes : Nat) (maxGas : UInt64) (pool : PoolInner)
    (its : List (IterOrder Address SenderQueue)) (rounds : List (List Pick)) : Prop where
  parses : (collectRounds maxBytes maxGas pool its).1.map (parseRecords 4)
    = rounds.map fun picked => some (picked.map fun p => p.entry.verified.raw)
  /-- In nonce order, with the rest still pending. -/
  inOrder : ∀ s, takenFrom s rounds.flatten
    ++ pendingOf (collectRounds maxBytes maxGas pool its).2 s = pendingOf pool s
  queued : ∀ s, (queueOf (collectRounds maxBytes maxGas pool its).2 s).queued
    = (queueOf pool s).queued
  held : (held pool).length = rounds.flatten.length
    + (held (collectRounds maxBytes maxGas pool its).2).length

section Rounds

variable {maxBytes : Nat} {maxGas : UInt64}

@[simp] theorem takenFrom_append (s : Address) (ps qs : List Pick) :
    takenFrom s (ps ++ qs) = takenFrom s ps ++ takenFrom s qs := by
  simp [takenFrom]

/-- The payload of a round reads back as its picks. -/
theorem parses_selected (hmax : maxBytes < 2 ^ 32) {pool : PoolInner}
    {it : IterOrder Address SenderQueue} {picked : List Pick}
    (hsel : Selected pool (selection it pool maxBytes maxGas) picked) :
    parseRecords 4 (collectPayload it pool maxBytes maxGas).1
      = some (picked.map fun p => p.entry.verified.raw) := by
  have hlen : (selection it pool maxBytes maxGas).payload.length ≤ maxBytes :=
    selectLoop_length _ {} (Nat.zero_le _)
  simp only [collectPayload, hsel.payload]
  refine parseRecords_flatMap (by decide) _ fun bs hbs => ?_
  have hle : bs.length ≤ _ := length_le_frames (w := 4) hbs
  rw [hsel.payload] at hlen
  omega

theorem exists_drains (maxGas : UInt64) (hmax : maxBytes < 2 ^ 32) (pool : PoolInner)
    (its : List (IterOrder Address SenderQueue)) :
    ∃ rounds, Drains maxBytes maxGas pool its rounds := by
  induction its generalizing pool with
  | nil => exact ⟨[], rfl, fun _ => rfl, fun _ => rfl, by simp [collectRounds]⟩
  | cons it its ih =>
    obtain ⟨picked, hsel⟩ := exists_selected it pool maxBytes maxGas
    obtain ⟨rounds, hrest⟩ := ih (collectPayload it pool maxBytes maxGas).2
    refine ⟨picked :: rounds, ?_, fun s => ?_, fun s => ?_, ?_⟩
    · rw [collectRounds, List.map_cons, List.map_cons, parses_selected hmax hsel, hrest.parses]
    · rw [List.flatten_cons, takenFrom_append, List.append_assoc]
      exact (congrArg _ (hrest.inOrder s)).trans (takes_lowest hsel s)
    · refine (hrest.queued s).trans ?_
      exact (queueOf_removeAll _ pool s).2
    · rw [length_held_collect hsel, hrest.held, List.flatten_cons, List.length_append,
        Nat.add_assoc]
      rfl

/-- While a sender has something pending, each round takes something. -/
theorem pending_empty_of_rounds (hmax : maxBytes < 2 ^ 32) {pool : PoolInner}
    (hfits : EachFits maxBytes maxGas pool) (its : List (IterOrder Address SenderQueue))
    (hlen : (held pool).length ≤ its.length) (s : Address) :
    pendingOf (collectRounds maxBytes maxGas pool its).2 s = [] := by
  induction its generalizing pool with
  | nil =>
    by_contra hs
    obtain ⟨c, hc⟩ := exists_candidate .ascending hs
    obtain ⟨entry, hmem, -⟩ := candidate_entry hc
    exact absurd (List.length_pos_of_mem hmem) (by simpa [collectRounds] using hlen)
  | cons it its ih =>
    by_cases hs : pendingOf pool s = []
    · obtain ⟨rounds, hdrains⟩ := exists_drains maxGas hmax pool (it :: its)
      have hall := hdrains.inOrder s
      rw [hs] at hall
      exact (List.append_eq_nil_iff.mp hall).2
    · obtain ⟨picked, hsel⟩ := exists_selected it pool maxBytes maxGas
      have hpos := List.length_pos_of_ne_nil (takes_some hfits hs hsel)
      have hheld := length_held_collect hsel
      have hless : (held (collectPayload it pool maxBytes maxGas).2).length ≤ its.length := by
        rw [List.length_cons] at hlen
        omega
      exact ih (hfits.collect it) hless

end Rounds

/-- **Repeated proposals drain the pool.** From any pool in which every
pending transaction fits the limits by itself, the byte limit below
`2 ^ 32` so that a length fits its four bytes, with any order of the hash
table in each round, as many rounds of collection as the pool holds
transactions leave nothing pending; every payload reads back, what comes
out of each sender over the rounds is its pending list in nonce order,
each transaction once, and what is queued stays queued. -/
theorem repeated_collection_drains (pool : PoolInner) (maxBytes : Nat) (maxGas : UInt64)
    (hmax : maxBytes < 2 ^ 32) (hfits : EachFits maxBytes maxGas pool)
    (its : List (IterOrder Address SenderQueue)) (hlen : (held pool).length ≤ its.length) :
    ∃ rounds : List (List Pick),
      (collectRounds maxBytes maxGas pool its).1.map (parseRecords 4)
          = rounds.map (fun picked => some (picked.map fun p => p.entry.verified.raw)) ∧
        (∀ s, takenFrom s rounds.flatten = pendingOf pool s) ∧
        ∀ s, pendingOf (collectRounds maxBytes maxGas pool its).2 s = [] ∧
          (queueOf (collectRounds maxBytes maxGas pool its).2 s).queued
            = (queueOf pool s).queued := by
  obtain ⟨rounds, hdrains⟩ := exists_drains maxGas hmax pool its
  have hempty := pending_empty_of_rounds hmax hfits its hlen
  refine ⟨rounds, hdrains.parses, fun s => ?_, fun s => ⟨hempty s, hdrains.queued s⟩⟩
  have hall := hdrains.inOrder s
  rwa [hempty s, List.append_nil] at hall

/-- Alice's two pending transactions. -/
def alicePool : PoolInner := aliceSubmits.foldl (applyOp sampleAlloy {}) PoolInner.new

/-- They come out in two rounds, whatever the orders. -/
theorem repeated_collection_drains_alice :
    (4 * 1024 * 1024 < 2 ^ 32) ∧ EachFits (4 * 1024 * 1024) 30000000 alicePool ∧
      (pendingOf alicePool alice0.sender).map (·.2.verified) = [alice0, alice1] ∧
      ∃ rounds : List (List Pick),
        takenFrom alice0.sender rounds.flatten = pendingOf alicePool alice0.sender ∧
          pendingOf (collectRounds (4 * 1024 * 1024) 30000000 alicePool
            [.ascending, .descending]).2 alice0.sender = [] := by
  have hall : ∀ x ∈ held alicePool, 4 + x.2.verified.raw.length ≤ 4 * 1024 * 1024 ∧
      ¬ ((30000000 : UInt64) > 0 ∧ x.2.verified.envelope.gasLimit > 30000000) := by
    decide +kernel
  have hfits : EachFits (4 * 1024 * 1024) 30000000 alicePool := fun s n e he =>
    hall (s, e) ((mem_held_iff alicePool s e).mpr ⟨.pending, n, he⟩)
  obtain ⟨rounds, -, htaken, hend⟩ := repeated_collection_drains alicePool (4 * 1024 * 1024)
    30000000 (by decide) hfits [.ascending, .descending] (by decide +kernel)
  exact ⟨by decide, hfits, by decide +kernel, rounds, htaken alice0.sender,
    (hend alice0.sender).1⟩

end Nbnet.Txpool
