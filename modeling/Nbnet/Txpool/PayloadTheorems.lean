/-
Nbnet.Txpool.PayloadTheorems — what `collect_payload` puts into a payload.

The selection loop adds gas limits in `u64`, so the total it compares with
the limit is the exact one only as long as no addition wraps. `NoWrap`
walks the same candidates with exact sums and says that none reaches
`2 ^ 64`; `selectLoop_exact_iff` shows that this is exactly when the exact
sum of what was picked stays within the gas limit.

The pool keeps what the decoder returned (`Genuine`), so a node that
decodes a payload again finds the gas limits the pool counted with.
-/
import Mathlib.Data.List.Induction
import Nbnet.Txpool.PoolTheorems

namespace Nbnet.Txpool

open Lib

/-! ## The selection loop -/

/-- A record of the payload: the length, then the bytes. -/
def record (c : Candidate) : Bytes := u32LeBytes c.raw.length ++ c.raw

/-- The exact sum of the gas limits of candidates. -/
def exactGas (inner : PoolInner) (cs : List Candidate) : Nat :=
  (cs.map fun c => (candidateGas inner c).toNat).sum

/-- Walking the candidates with exact sums of bytes and gas, no candidate
the walk reaches takes the sum of gas limits to `2 ^ 64`. -/
def NoWrap (inner : PoolInner) (maxBytes : Nat) (maxGas : UInt64) :
    Nat → Nat → List Candidate → Prop
  | _, _, [] => True
  | len, total, c :: rest =>
      let len' := len + 4 + c.raw.length
      let total' := total + (candidateGas inner c).toNat
      len' > maxBytes ∨
        total' < 2 ^ 64 ∧
          if total' > maxGas.toNat then NoWrap inner maxBytes maxGas len total rest
          else NoWrap inner maxBytes maxGas len' total' rest

section Select

variable {inner : PoolInner} {maxBytes : Nat} {maxGas : UInt64} {sel : Selection}

@[simp] theorem exactGas_snoc (cs : List Candidate) (c : Candidate) :
    exactGas inner (cs ++ [c]) = exactGas inner cs + (candidateGas inner c).toNat := by
  simp [exactGas]

theorem length_push (sel : Selection) (c : Candidate) (gas : UInt64) :
    (sel.push c gas).payload.length = sel.payload.length + 4 + c.raw.length := by
  simp [Selection.push, u32LeBytes]
  omega

variable (inner maxBytes maxGas) in
/-- The loop picks some of the candidates, in order, and appends their
records. -/
theorem selectLoop_picks (cs : List Candidate) (sel : Selection) :
    ∃ picked, picked.Sublist cs ∧
      (selectLoop inner maxBytes maxGas sel cs).included = sel.included ++ picked ∧
      (selectLoop inner maxBytes maxGas sel cs).payload
        = sel.payload ++ picked.flatMap record := by
  induction cs generalizing sel with
  | nil => exact ⟨[], .slnil, by simp [selectLoop], by simp [selectLoop]⟩
  | cons c cs ih =>
    rw [selectLoop]
    split
    · exact ⟨[], List.nil_sublist _, by simp, by simp⟩
    · split
      · obtain ⟨picked, hsub, hinc, hpay⟩ := ih sel
        exact ⟨picked, hsub.cons c, hinc, hpay⟩
      · obtain ⟨picked, hsub, hinc, hpay⟩ := ih (sel.push c (candidateGas inner c))
        refine ⟨c :: picked, hsub.cons_cons c, ?_, ?_⟩
        · rw [hinc]
          simp [Selection.push]
        · rw [hpay]
          simp [Selection.push, record]

/-- What was taken stays taken. -/
theorem mem_included_push (c : Candidate) (gas : UInt64) (cs : List Candidate) (sel : Selection) :
    c ∈ (selectLoop inner maxBytes maxGas (sel.push c gas) cs).included := by
  obtain ⟨picked, -, hinc, -⟩ := selectLoop_picks inner maxBytes maxGas cs (sel.push c gas)
  rw [hinc]
  simp [Selection.push]

theorem selectLoop_length (cs : List Candidate) (sel : Selection)
    (h : sel.payload.length ≤ maxBytes) :
    (selectLoop inner maxBytes maxGas sel cs).payload.length ≤ maxBytes := by
  induction cs generalizing sel with
  | nil => exact h
  | cons c cs ih =>
    rw [selectLoop]
    split
    · exact h
    · split
      · exact ih sel h
      · refine ih _ ?_
        rw [length_push]
        omega

variable (inner maxBytes maxGas) in
/-- The exact sum never goes down. -/
theorem selectLoop_exactGas_le (cs : List Candidate) (sel : Selection) :
    exactGas inner sel.included
      ≤ exactGas inner (selectLoop inner maxBytes maxGas sel cs).included := by
  obtain ⟨picked, -, hinc, -⟩ := selectLoop_picks inner maxBytes maxGas cs sel
  rw [hinc]
  simp [exactGas]

variable (inner maxBytes) in
/-- While no addition has wrapped, the loop ends within the gas limit
exactly when none of the remaining ones wraps. -/
theorem selectLoop_exact_iff (hpos : 0 < maxGas) (cs : List Candidate) (sel : Selection)
    (htotal : sel.totalGas.toNat = exactGas inner sel.included)
    (hle : exactGas inner sel.included ≤ maxGas.toNat) :
    exactGas inner (selectLoop inner maxBytes maxGas sel cs).included ≤ maxGas.toNat ↔
      NoWrap inner maxBytes maxGas sel.payload.length (exactGas inner sel.included) cs := by
  induction cs generalizing sel with
  | nil => simpa [selectLoop, NoWrap] using hle
  | cons c cs ih =>
    have hlim := maxGas.toNat_lt
    have hpush : exactGas inner (sel.push c (candidateGas inner c)).included
        = exactGas inner sel.included + (candidateGas inner c).toNat :=
      exactGas_snoc sel.included c
    rw [selectLoop]
    simp only [NoWrap]
    by_cases hbytes : sel.payload.length + 4 + c.raw.length > maxBytes
    · simp only [hbytes, if_true, true_or, iff_true]
      exact hle
    · simp only [hbytes, if_false, false_or, hpos, true_and]
      by_cases hwrap : exactGas inner sel.included + (candidateGas inner c).toNat < 2 ^ 64
      · rw [← htotal] at hwrap hpush
        have hsum : (sel.push c (candidateGas inner c)).totalGas.toNat
            = sel.totalGas.toNat + (candidateGas inner c).toNat := by
          rw [Selection.push, UInt64.toNat_add, Nat.mod_eq_of_lt hwrap]
        rw [← htotal]
        simp only [hwrap, true_and, add64_gt_iff hwrap]
        split
        · rw [htotal]
          exact ih sel htotal hle
        · have hstep := ih (sel.push c (candidateGas inner c)) (hsum.trans hpush.symm)
            (by rw [hpush]; omega)
          rwa [hpush, length_push] at hstep
      · -- the wrapped sum passes the check
        simp only [hwrap, false_and, iff_false, not_le]
        have hpass : ¬ sel.totalGas + candidateGas inner c > maxGas :=
          not_add64_gt_of_wrap (htotal ▸ hle) (htotal ▸ hwrap)
        rw [if_neg hpass]
        have hmono := selectLoop_exactGas_le inner maxBytes maxGas cs
          (sel.push c (candidateGas inner c))
        rw [hpush] at hmono
        omega

end Select

/-! ## The pool keeps what it decoded -/

/-- Every entry is what the decoder returns for the bytes it holds. -/
def Genuine (al : Alloy) (inner : PoolInner) : Prop :=
  ∀ x ∈ held inner, decodeAndRecover al x.2.verified.raw = .ok x.2.verified

/-- A submission adds at most the entry submitted. -/
theorem held_submitVerified {config : EvmTxPoolConfig} {nonceFn : Option (Address → UInt64)}
    {inner : PoolInner} (h : PoolInv inner) (v : VerifiedTx) :
    ∀ x ∈ held (submitVerified config nonceFn inner v).2, x.2.verified = v ∨ x ∈ held inner := by
  have hzero := h.noZero.getD v.sender
  have hsplit := heldIn_split inner.senders v.sender rfl
  intro x hx
  rcases submitVerified_cases config nonceFn inner v with
    ⟨e, heq⟩ | ⟨e, heq⟩ | ⟨queue', old, -, hnonce, hplace, heq⟩
  · rw [heq] at hx
    exact .inr hx
  · rw [heq] at hx
    exact .inr (hsplit.mem_iff.mpr ((heldIn_insert inner.senders v.sender _).mem_iff.mp hx))
  · rw [heq] at hx
    obtain ⟨others, hafter, hbefore⟩ := heldIn_placed hzero hnonce hplace
    rcases List.mem_cons.mp (hafter.mem_iff.mp hx) with rfl | hx
    · exact .inl rfl
    · refine .inr ?_
      rcases hbefore with ⟨-, hp⟩ | ⟨existing, -, hp⟩
      · exact hp.mem_iff.mpr hx
      · exact hp.mem_iff.mpr (List.mem_cons_of_mem _ hx)

theorem held_removeIncluded (inner : PoolInner) (c : Candidate) :
    ∀ x ∈ held (removeIncluded inner c), x ∈ held inner := by
  intro x hx
  unfold removeIncluded at hx
  split at hx
  · exact hx
  · rename_i queue hs
    split at hx
    · exact hx
    · rename_i entry hp
      exact (heldIn_erasePending hs hp).mem_iff.mpr (List.mem_cons_of_mem _ hx)

theorem held_onCommit {inner : PoolInner} (h : PoolInv inner)
    (it : IterOrder Address SenderQueue) (nonceFn : Address → UInt64) :
    ∀ x ∈ held (onCommit it inner nonceFn), x ∈ held inner := by
  intro x hx
  have hinv := commitInv_loop h it nonceFn
  obtain ⟨gone, -, hperm⟩ := hinv.gone
  exact hperm.mem_iff.mpr
    (List.mem_append_right gone ((heldIn_eraseEmpty _ _ hinv.empty).mem_iff.mp hx))

/-- An operation adds at most what it submits, as the decoder returned it. -/
theorem held_applyOp {al : Alloy} {config : EvmTxPoolConfig} {inner : PoolInner}
    (h : PoolInv inner) (op : PoolOp) :
    ∀ x ∈ held (applyOp al config inner op), x ∈ held inner ∨
      ∃ nonceFn raw, op = .submit nonceFn raw ∧
        decodeAndRecover al raw = .ok x.2.verified := by
  intro x hx
  cases op with
  | submit nonceFn raw =>
    simp only [applyOp, submitTx] at hx
    split at hx
    · exact .inl hx
    · rename_i v hdec
      rcases held_submitVerified h v x hx with rfl | hx
      · exact .inr ⟨nonceFn, raw, rfl, hdec⟩
      · exact .inl hx
  | collect it maxBytes maxGas =>
    have hsub : ∀ (l : List Candidate) (inner : PoolInner),
        ∀ x ∈ held (l.foldl removeIncluded inner), x ∈ held inner := by
      intro l
      induction l with
      | nil => exact fun inner x hx => hx
      | cons c l ih => exact fun inner x hx => held_removeIncluded inner c x (ih _ x hx)
    exact .inl (hsub _ inner x hx)
  | commit it nonceFn => exact .inl (held_onCommit h it nonceFn x hx)

/-- What a pool holds was submitted. -/
theorem held_run (al : Alloy) (config : EvmTxPoolConfig) (ops : List PoolOp) :
    ∀ x ∈ held (ops.foldl (applyOp al config) PoolInner.new),
      ∃ nonceFn raw, .submit nonceFn raw ∈ ops ∧
        decodeAndRecover al raw = .ok x.2.verified := by
  induction ops using List.reverseRecOn with
  | nil => simp [held, heldIn, PoolInner.new]
  | append_singleton ops op ih =>
    intro x hx
    rw [List.foldl_append] at hx
    rcases held_applyOp (poolInv_run al config ops) op x hx with hx | ⟨nonceFn, raw, rfl, hdec⟩
    · obtain ⟨nonceFn, raw, hmem, hdec⟩ := ih x hx
      exact ⟨nonceFn, raw, List.mem_append_left _ hmem, hdec⟩
    · exact ⟨nonceFn, raw, by simp, hdec⟩

/-- Every pool a run reaches is genuine. -/
theorem genuine_run (al : Alloy) (config : EvmTxPoolConfig) (ops : List PoolOp) :
    Genuine al (ops.foldl (applyOp al config) PoolInner.new) := by
  intro x hx
  obtain ⟨nonceFn, raw, -, hdec⟩ := held_run al config ops x hx
  rw [(decodeAndRecover_ok hdec).1, hdec]

/-- A candidate is an entry of the pool, with its bytes and its gas. -/
theorem candidate_entry {it : IterOrder Address SenderQueue} {inner : PoolInner} {c : Candidate}
    (h : c ∈ candidates it inner) :
    ∃ entry, (c.sender, entry) ∈ held inner ∧ c.raw = entry.verified.raw ∧
      candidateGas inner c = entry.verified.envelope.gasLimit := by
  obtain ⟨queue, e, hqueue, hget, -, -, hraw⟩ := candidate_first h
  refine ⟨e, ?_, hraw, by simp [candidateGas, hqueue, hget]⟩
  refine (heldIn_split inner.senders c.sender (congrArg (·.getD {}) hqueue)).mem_iff.mpr ?_
  refine List.mem_append_left _ (List.mem_map.mpr ⟨e, List.mem_append_left _ ?_, rfl⟩)
  exact List.mem_map.mpr ⟨(c.nonce, e), (FMap.mem_toList_iff queue.pending _ e).mpr hget, rfl⟩

/-- What the selection holds comes from the candidates. -/
theorem mem_selection {it : IterOrder Address SenderQueue} {inner : PoolInner} {maxBytes : Nat}
    {maxGas : UInt64} {c : Candidate} (h : c ∈ (selection it inner maxBytes maxGas).included) :
    c ∈ candidates it inner := by
  obtain ⟨picked, hsub, hinc, -⟩ := selectLoop_picks inner maxBytes maxGas
    (sortByTip (candidates it inner)) {}
  have hmem : c ∈ picked := by
    unfold selection at h
    rw [hinc] at h
    simpa using h
  exact (List.perm_insertionSort _ _).mem_iff.mp (hsub.mem hmem)

end Nbnet.Txpool
