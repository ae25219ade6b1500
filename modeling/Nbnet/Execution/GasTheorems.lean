/-
Nbnet.Execution.GasTheorems — a proposed payload against the executor's
block gas limit.

The executor stops when the gas used so far plus the next gas limit is
over the block's limit, with a saturating addition. As long as revm uses
no more gas than a transaction's limit, the stop is out of reach for any
block whose gas limits add up to at most the block's limit
(`executeLoop_not_stopped`). Whether a payload is such a block is a
question about the pool: `payload_within_limits_iff`.
-/
import Nbnet.Execution.Node
import Nbnet.Txpool.PayloadTheorems

namespace Nbnet.Execution

open Lib State Txpool

/-- A transaction uses no more gas than its limit. -/
def Revm.GasWithinLimit (revm : Revm) : Prop :=
  ∀ chainId block tx view getStake run,
    (revm.transact chainId block tx view getStake).outcome = .ok run →
      run.result.gasUsed.toNat ≤ tx.gasLimit.toNat

/-- The exact sum of the gas limits of transactions. -/
def gasLimits (vs : List VerifiedTx) : Nat := (vs.map (·.envelope.gasLimit.toNat)).sum

section Loop

variable {host : Host} {config : EvmChainConfig} {ctx : BlockContext}

/-- A block whose gas limits fit is not stopped: what has been used and
the limits still to come stay within the block's limit. -/
theorem executeLoop_not_stopped (hrevm : host.revm.GasWithinLimit) (vs : List VerifiedTx)
    (i : Nat) (l : Loop)
    (hfit : l.cumulativeGasUsed.toNat + gasLimits vs ≤ config.blockGasLimit.toNat) :
    (executeLoop host config ctx i l vs).2 = false := by
  induction vs generalizing i l with
  | nil => rfl
  | cons v vs ih =>
    have hcons : gasLimits (v :: vs) = v.envelope.gasLimit.toNat + gasLimits vs := by
      simp [gasLimits]
    have hlim := config.blockGasLimit.toNat_lt
    rcases executeTx_cases host config ctx l i v with
      ⟨-, heq⟩ | ⟨-, ⟨hover, heq⟩ | ⟨-, ⟨err, -, heq⟩ | ⟨run, hout, heq⟩⟩⟩
    · simp only [executeLoop, heq]
      exact ih (i + 1) l (by omega)
    · rw [gt_iff_lt, UInt64.lt_iff_toNat_lt, satAdd64_toNat] at hover
      omega
    · simp only [executeLoop, heq]
      refine ih (i + 1) _ ?_
      have hkeep : (l.rejected (transactTx host config ctx l v)).cumulativeGasUsed
          = l.cumulativeGasUsed := rfl
      rw [hkeep]
      omega
    · simp only [executeLoop, heq]
      refine ih (i + 1) _ ?_
      have hused := hrevm _ _ _ _ _ _ hout
      rw [txEnvOf_gasLimit] at hused
      simp only [Loop.committed, satAdd64_toNat]
      omega

end Loop

/-- Decoding a genuine pool's transactions again gives the gas limits the
pool counted with. -/
theorem gasLimits_decodeAll {host : Host} {inner : PoolInner} (hg : Genuine host.alloy inner)
    (it : IterOrder Address SenderQueue) (cs : List Candidate)
    (hcs : ∀ c ∈ cs, c ∈ candidates it inner) :
    gasLimits (decodeAll host (cs.map (·.raw))) = exactGas inner cs := by
  induction cs with
  | nil => rfl
  | cons c cs ih =>
    obtain ⟨entry, hheld, hraw, hgas⟩ := candidate_entry (hcs c (List.mem_cons_self ..))
    have hdec : decodeAndRecover host.alloy c.raw = .ok entry.verified := by
      rw [hraw]
      exact hg _ hheld
    have hhead : decodeAll host ((c :: cs).map (·.raw))
        = entry.verified :: decodeAll host (cs.map (·.raw)) := by
      simp [decodeAll, hdec]
    have hrest := ih fun c' hc' => hcs c' (List.mem_cons_of_mem c hc')
    rw [hhead]
    simp only [gasLimits, exactGas, List.map_cons, List.sum_cons] at hrest ⊢
    rw [hrest, hgas]

/-- The payload respects its limits and the executor's: its length, the
exact sum of its gas limits, and every execution of it under a block gas
limit of `maxGas`. -/
def WithinLimits (it : IterOrder Address SenderQueue) (inner : PoolInner) (maxBytes : Nat)
    (maxGas : UInt64) : Prop :=
  let sel := selection it inner maxBytes maxGas
  (collectPayload it inner maxBytes maxGas).1.length ≤ maxBytes ∧
    exactGas inner sel.included ≤ maxGas.toNat ∧
    ∀ (host : Host) (e : EvmExecutor) (ctx : BlockContext), Genuine host.alloy inner →
      host.revm.GasWithinLimit → e.config.blockGasLimit = maxGas →
      (runBlock host e (sel.included.map (·.raw)) ctx).2 = false

/-- **When a payload respects its limits.** For every pool, iteration
order, byte limit and nonzero gas limit: the payload is the records of the
transactions picked, and it respects its limits and the executor's exactly
when no candidate the walk reaches takes the exact sum of gas limits to
`2 ^ 64`. -/
theorem payload_within_limits_iff (it : IterOrder Address SenderQueue) (inner : PoolInner)
    (maxBytes : Nat) (maxGas : UInt64) (hpos : 0 < maxGas) :
    (collectPayload it inner maxBytes maxGas).1
        = (selection it inner maxBytes maxGas).included.flatMap record ∧
      (WithinLimits it inner maxBytes maxGas ↔
        NoWrap inner maxBytes maxGas 0 0 (sortByTip (candidates it inner))) := by
  have hiff := selectLoop_exact_iff inner maxBytes hpos
    (sortByTip (candidates it inner)) {} rfl (Nat.zero_le _)
  refine ⟨?_, ?_, ?_⟩
  · obtain ⟨picked, -, hinc, hpay⟩ := selectLoop_picks inner maxBytes maxGas
      (sortByTip (candidates it inner)) {}
    simp only [collectPayload, selection]
    rw [hinc, hpay]
    simp
  · rintro ⟨-, hgas, -⟩
    exact hiff.mp hgas
  · intro hwrap
    have hgas := hiff.mpr hwrap
    refine ⟨selectLoop_length _ _ (Nat.zero_le _), hgas, ?_⟩
    intro host e ctx hg hrevm hlimit
    refine executeLoop_not_stopped hrevm _ _ _ ?_
    rw [gasLimits_decodeAll hg it _ fun c hc => mem_selection hc, hlimit]
    simpa [selection] using hgas

/-! ### Two senders -/

/-- The pool after Alice and Bob have each sent a transaction. -/
def twoSenders : PoolInner :=
  [PoolOp.submit none alice0.raw, PoolOp.submit none bob0.raw].foldl
    (applyOp sampleAlloy {}) PoolInner.new

/-- Alice's transaction alone. -/
def oneSender : PoolInner :=
  [PoolOp.submit none alice0.raw].foldl (applyOp sampleAlloy {}) PoolInner.new

theorem transferRevm_gasWithinLimit : transferRevm.GasWithinLimit := by
  intro chainId block tx view getStake run hout
  obtain ⟨recipient, ⟨-, -, hgas, -⟩, -, rfl⟩ := transferRevm_ok hout
  exact UInt64.le_iff_toNat_le.mp hgas

theorem payload_within_limits_alice :
    (0 : UInt64) < 30000000 ∧ WithinLimits .ascending oneSender 100000 30000000 ∧
      (runBlock sampleHost (.fromGenesis sampleHost aliceGenesis)
        ((selection .ascending oneSender 100000 30000000).included.map (·.raw)) block1).2
        = false := by
  have hcs : sortByTip (candidates .ascending oneSender)
      = [⟨alice0.sender, 0, 2000000000, alice0.raw⟩] := by decide +kernel
  have hgas : candidateGas oneSender ⟨alice0.sender, 0, 2000000000, alice0.raw⟩ = 21000 := by
    decide +kernel
  have hwithin := (payload_within_limits_iff .ascending oneSender 100000 30000000
    (by decide)).2.mpr (by rw [hcs]; simp [NoWrap, hgas])
  refine ⟨by decide, hwithin, ?_⟩
  exact hwithin.2.2 sampleHost _ block1 (genuine_run sampleAlloy {} _)
    transferRevm_gasWithinLimit rfl

/-- Bob's gas limit takes the sum past `2 ^ 64`, so both transactions are
picked. -/
theorem wrapped_total_over_limit :
    ¬ WithinLimits .ascending twoSenders 100000 30000000 := by
  rintro ⟨-, hgas, -⟩
  revert hgas
  decide +kernel

end Nbnet.Execution
