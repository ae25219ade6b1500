/-
Nbnet.Execution.ReceiptTheorems — the gas and the price a block's receipts
report.

The loop compares the gas used so far plus the next gas limit with the
block's limit, in saturating arithmetic. Below `u64::MAX` a saturated sum
is over the limit and the loop stops, so the running total is exact; with a
limit of `u64::MAX` nothing is ever over it (`block_gas_exact_iff`).

The price in a receipt is computed apart from revm, from the base fee and
the priority fee, and legacy transactions have no priority fee
(`receipt_price_exact_iff`).
-/
import Nbnet.Execution.GasTheorems
import Nbnet.Txpool.PromotionTheorems

namespace Nbnet.Execution

open Lib State Txpool

/-! ## Gas -/

/-- The sum of the gas used, in exact numbers. -/
def gasSum (rs : List EvmReceipt) : Nat := (rs.map fun r => r.gasUsed.toNat).sum

/-- The receipts of a block account for its gas. -/
structure GasExact (limit : UInt64) (vs : List VerifiedTx) (rs : List EvmReceipt) : Prop where
  /-- Each receipt is the one of the transaction at its index. -/
  indexed : ∀ r ∈ rs, ∃ v, vs[r.txIndex]? = some v ∧ r.txHash = v.txHash ∧ r.sender = v.sender
  increasing : rs.Pairwise fun a b => a.txIndex < b.txIndex
  cumulative : ∀ (k : Nat) (r : EvmReceipt), rs[k]? = some r →
    r.cumulativeGasUsed.toNat = gasSum (rs.take (k + 1))
  bounded : ∀ r, rs.getLast? = some r → r.cumulativeGasUsed ≤ limit

/-- What the loop keeps: the receipts so far, up to index `i`, and the
running total. -/
structure Accounted (limit : UInt64) (vs : List VerifiedTx) (i : Nat) (l : Loop) : Prop where
  indexed : ∀ r ∈ l.receipts, r.txIndex < i ∧
    ∃ v, vs[r.txIndex]? = some v ∧ r.txHash = v.txHash ∧ r.sender = v.sender
  increasing : l.receipts.Pairwise fun a b => a.txIndex < b.txIndex
  cumulative : ∀ (k : Nat) (r : EvmReceipt), l.receipts[k]? = some r →
    r.cumulativeGasUsed.toNat = gasSum (l.receipts.take (k + 1))
  total : l.cumulativeGasUsed.toNat = gasSum l.receipts
  within : l.cumulativeGasUsed ≤ limit

section Gas

variable {host : Host} {config : EvmChainConfig} {ctx : BlockContext} {vs : List VerifiedTx}
  {limit : UInt64} {i : Nat} {l : Loop}

@[simp] theorem gasSum_snoc (rs : List EvmReceipt) (r : EvmReceipt) :
    gasSum (rs ++ [r]) = gasSum rs + r.gasUsed.toNat := by
  simp [gasSum]

/-- The last receipt has the running total. -/
theorem Accounted.gasExact (h : Accounted limit vs i l) : GasExact limit vs l.receipts := by
  refine ⟨fun r hr => (h.indexed r hr).2, h.increasing, h.cumulative, fun r hr => ?_⟩
  rw [List.getLast?_eq_getElem?] at hr
  have hcum := h.cumulative _ r hr
  rw [List.take_of_length_le (by omega), ← h.total] at hcum
  rw [UInt64.toNat_inj.mp hcum]
  exact h.within

theorem Accounted.mono (h : Accounted limit vs i l) : Accounted limit vs (i + 1) l :=
  { h with indexed := fun r hr => ⟨Nat.lt_succ_of_lt (h.indexed r hr).1, (h.indexed r hr).2⟩ }

/-- Below `u64::MAX`, a sum that is not over the limit has not saturated. -/
theorem toNat_add_le_of_not_over {used gas : UInt64} (hlimit : limit ≠ u64Max)
    (h : ¬ satAdd64 used gas > limit) : used.toNat + gas.toNat ≤ limit.toNat := by
  have hmax : limit.toNat ≠ 2 ^ 64 - 1 := fun heq => hlimit (UInt64.toNat_inj.mp heq)
  have hlt := limit.toNat_lt
  rw [gt_iff_lt, UInt64.lt_iff_toNat_lt, satAdd64_toNat] at h
  omega

/-- One more receipt, with the running total after it. -/
theorem totals_snoc {rs : List EvmReceipt} {new : EvmReceipt}
    (h : ∀ (k : Nat) (r : EvmReceipt), rs[k]? = some r →
      r.cumulativeGasUsed.toNat = gasSum (rs.take (k + 1)))
    (hnew : new.cumulativeGasUsed.toNat = gasSum rs + new.gasUsed.toNat) (k : Nat)
    (r : EvmReceipt) (hr : (rs ++ [new])[k]? = some r) :
    r.cumulativeGasUsed.toNat = gasSum ((rs ++ [new]).take (k + 1)) := by
  rcases Nat.lt_trichotomy k rs.length with hk | hk | hk
  · rw [List.getElem?_append_left hk] at hr
    rw [List.take_append_of_le_length (by omega)]
    exact h k r hr
  · subst hk
    rw [List.getElem?_append_right le_rfl, Nat.sub_self] at hr
    obtain rfl := Option.some.inj hr
    rw [List.take_of_length_le (by simp), gasSum_snoc]
    exact hnew
  · rw [List.getElem?_eq_none (by simp; omega)] at hr
    cases hr

/-- A transaction that ran and used no more than its limit. -/
theorem Accounted.committed (h : Accounted limit vs i l) {v : VerifiedTx} {t : Transacted}
    {run : Executed} (hv : vs[i]? = some v)
    (hfits : l.cumulativeGasUsed.toNat + v.envelope.gasLimit.toNat ≤ limit.toNat)
    (hused : run.result.gasUsed.toNat ≤ v.envelope.gasLimit.toNat) :
    Accounted limit vs (i + 1) (l.committed host config ctx i v t run) := by
  have hlt := limit.toNat_lt
  have hcum : (satAdd64 l.cumulativeGasUsed run.result.gasUsed).toNat
      = l.cumulativeGasUsed.toNat + run.result.gasUsed.toNat := by
    rw [satAdd64_toNat]
    omega
  have hnext : gasSum (l.committed host config ctx i v t run).receipts
      = gasSum l.receipts + run.result.gasUsed.toNat := by
    simp only [Loop.committed, gasSum_snoc]
    rfl
  refine ⟨fun r hr => ?_, ?_, totals_snoc h.cumulative ?_, ?_, ?_⟩
  · rcases List.mem_append.mp hr with hr | hr
    · exact h.mono.indexed r hr
    · rw [List.mem_singleton.mp hr]
      exact ⟨Nat.lt_succ_self i, v, hv, rfl, rfl⟩
  · refine List.pairwise_append.mpr ⟨h.increasing, List.pairwise_singleton _ _, ?_⟩
    intro a ha b hb
    rw [List.mem_singleton.mp hb]
    exact (h.indexed a ha).1
  · rw [← h.total]
    exact hcum
  · rw [hnext, ← h.total]
    exact hcum
  · rw [UInt64.le_iff_toNat_le]
    exact hcum.trans_le (by omega)

/-- A whole loop, over the transactions from index `i` on. -/
theorem accounted_loop (hrevm : host.revm.GasWithinLimit)
    (hlimit : config.blockGasLimit ≠ u64Max) (rest : List VerifiedTx) (hrest : vs.drop i = rest)
    (h : Accounted config.blockGasLimit vs i l) :
    GasExact config.blockGasLimit vs (executeLoop host config ctx i l rest).1.receipts := by
  induction rest generalizing i l with
  | nil => exact h.gasExact
  | cons v rest ih =>
    have hv : vs[i]? = some v := by
      rw [← List.head?_drop, hrest]
      rfl
    have htail : vs.drop (i + 1) = rest := by
      rw [← List.tail_drop, hrest]
      rfl
    rcases executeTx_cases host config ctx l i v with
      ⟨-, heq⟩ | ⟨-, ⟨-, heq⟩ | ⟨hfits, ⟨err, -, heq⟩ | ⟨run, hout, heq⟩⟩⟩
    · simp only [executeLoop, heq]
      exact ih htail h.mono
    · simp only [executeLoop, heq]
      exact h.gasExact
    · simp only [executeLoop, heq]
      have hsame : Accounted config.blockGasLimit vs i
          (l.rejected (transactTx host config ctx l v)) :=
        ⟨h.indexed, h.increasing, h.cumulative, h.total, h.within⟩
      exact ih htail hsame.mono
    · simp only [executeLoop, heq]
      have hused := hrevm _ _ _ _ _ _ hout
      exact ih htail (h.committed hv (toNat_add_le_of_not_over hlimit hfits) hused)

end Gas

/-- Whatever executor with this gas limit executes whatever block, its
receipts account for the block's gas. -/
def AccountsForGas (limit : UInt64) : Prop :=
  ∀ (host : Host) (order : FlushOrder) (e : EvmExecutor) (txs : List Bytes) (ctx : BlockContext),
    host.revm.GasWithinLimit → e.config.blockGasLimit = limit →
    ∃ rs, (e.executeBlock host order txs ctx).2.receipts = e.receipts ++ [rs] ∧
      GasExact limit (decodeAll host txs) rs

theorem accountsForGas_of_ne {limit : UInt64} (hlimit : limit ≠ u64Max) :
    AccountsForGas limit := by
  rintro host order e txs ctx hrevm rfl
  refine ⟨(runBlock host e txs ctx).1.receipts, rfl, ?_⟩
  refine accounted_loop hrevm hlimit (decodeAll host txs) rfl ?_
  exact ⟨by simp, .nil, by simp, rfl, UInt64.zero_le⟩

/-! ### A transaction that uses up everything

`burnRevm` is `transferRevm` that also runs the creation of a contract
whose init code is the invalid instruction: it halts and uses its whole
gas limit. -/

/-- The checks revm makes of such a creation. -/
def BurnValid (chainId : UInt64) (block : BlockEnv) (tx : TxEnv) : Prop :=
  tx.chainId.getD chainId = chainId ∧ tx.data = [0xfe] ∧ 53018 ≤ tx.gasLimit ∧
    tx.gasLimit ≤ block.gasLimit ∧ block.basefee.toNat ≤ tx.gasPrice.toNat ∧
    tx.gasPriorityFee.getD 0 ≤ tx.gasPrice

instance BurnValid.decidable (chainId : UInt64) (block : BlockEnv) (tx : TxEnv) :
    Decidable (BurnValid chainId block tx) :=
  inferInstanceAs (Decidable (_ ∧ _))

/-- An account after the creation has halted. -/
def burned (block : BlockEnv) (tx : TxEnv) (view : DbView) (a : Address) : AccountInfo :=
  let info := view.account a
  let price := effectivePrice block tx
  let spent := if a = tx.caller then tx.gasLimit.toNat * price else 0
  let tip :=
    if a = block.beneficiary then tx.gasLimit.toNat * (price - block.basefee.toNat) else 0
  { info with
    nonce := if a = tx.caller then info.nonce + 1 else info.nonce
    balance := BitVec.ofNat 256 (info.balance.toNat - spent + tip) }

/-- What runs of it: nothing but the fee. -/
def burnTree (block : BlockEnv) (tx : TxEnv) : Precompile.Tx where
  sender := tx.caller
  upfront := BitVec.ofNat 256 (tx.gasLimit.toNat * effectivePrice block tx)
  refund := 0
  reward := BitVec.ofNat 256
    (tx.gasLimit.toNat * (effectivePrice block tx - block.basefee.toNat))
  beneficiary := block.beneficiary
  op :=
    { scheme := .call
      address := tx.caller
      value := 0
      input := .bytes []
      memory := []
      gasLimit := tx.gasLimit - 53018 }
  code := .done .otherHalt

def burnRevm : Revm where
  transact chainId block tx view getStake :=
    match tx.kind with
    | .call _ => transferRevm.transact chainId block tx view getStake
    | .create =>
        if ¬ BurnValid chainId block tx then { loads := [], outcome := .error "Transaction" }
        else if ¬ SenderValid tx view then
          { loads := [.account tx.caller], outcome := .error "Transaction" }
        else
          { loads := [.account tx.caller, .account block.beneficiary]
            outcome := .ok
              { result := .halt tx.gasLimit "InvalidFEOpcode"
                changes := [tx.caller, block.beneficiary].foldl
                  (fun changes a => changes.insert a { info := burned block tx view a }) ∅
                tx := burnTree block tx } }

theorem burnRevm_gasWithinLimit : burnRevm.GasWithinLimit := by
  intro chainId block tx view getStake run hout
  simp only [burnRevm] at hout
  split at hout
  · exact transferRevm_gasWithinLimit chainId block tx view getStake run hout
  · split at hout
    · cases hout
    · split at hout
      · cases hout
      · obtain rfl := Except.ok.inj hout
        exact le_rfl

def burnHost : Host :=
  { sampleHost with alloy := .ofTable [alice0, bobCreate], revm := burnRevm }

/-- A chain with the largest gas limit; Alice and Bob can pay for it. -/
def boundlessGenesis : EvmGenesis where
  chainId := 1337
  gasLimit := u64Max
  alloc := ((∅ : FMap Address GenesisAlloc).insert alice0.sender
    { balance := 1000000000000000000 }).insert bobCreate.sender
    { balance := 1000000000000000000000000000000 }

/-- The gas and the running total in the receipts of Alice's transfer and
Bob's creation. -/
theorem boundless_block_gas :
    (runBlock burnHost (.fromGenesis burnHost boundlessGenesis) [alice0.raw, bobCreate.raw]
      block1).1.receipts.map (fun r => (r.gasUsed, r.cumulativeGasUsed))
      = [(21000, 21000), (u64Max, u64Max)] := by
  decide +kernel

/-- The two add up to more than a `u64` holds. -/
theorem not_gasExact_of_saturated {limit : UInt64} {vs : List VerifiedTx} {rs : List EvmReceipt}
    (hrs : rs.map (fun r => (r.gasUsed, r.cumulativeGasUsed))
      = [(21000, 21000), (u64Max, u64Max)]) : ¬ GasExact limit vs rs := by
  intro h
  obtain ⟨a, rest, rfl, ha, hrest⟩ := List.map_eq_cons_iff.mp hrs
  obtain ⟨b, rest', rfl, hb, -⟩ := List.map_eq_cons_iff.mp hrest
  obtain ⟨hga, -⟩ := Prod.mk.inj ha
  obtain ⟨hgb, hcb⟩ := Prod.mk.inj hb
  have hcum := h.cumulative 1 b rfl
  simp only [gasSum, List.take_succ_cons, List.take_zero, List.map_cons, List.map_nil,
    List.sum_cons, List.sum_nil, hga, hgb, hcb] at hcum
  revert hcum
  decide

/-- **When a block's gas is accounted for.** Every block of every executor
with a given gas limit gets receipts in order, with exact running totals
within the limit, exactly when the limit is not `u64::MAX`. -/
theorem block_gas_exact_iff (limit : UInt64) : AccountsForGas limit ↔ limit ≠ u64Max := by
  constructor
  · rintro h rfl
    obtain ⟨rs, hrs, hexact⟩ := h burnHost ⟨.ascending, .ascending⟩
      (.fromGenesis burnHost boundlessGenesis) [alice0.raw, bobCreate.raw] block1
      burnRevm_gasWithinLimit rfl
    obtain rfl : (runBlock burnHost (.fromGenesis burnHost boundlessGenesis)
        [alice0.raw, bobCreate.raw] block1).1.receipts = rs :=
      List.singleton_inj.mp (List.append_cancel_left hrs)
    exact not_gasExact_of_saturated boundless_block_gas hexact
  · exact accountsForGas_of_ne

/-- Alice's transfer and Bob's creation under a limit of `u64::MAX`: the
second receipt reports `u64::MAX` used in all. -/
theorem cumulative_gas_saturates :
    burnHost.revm.GasWithinLimit ∧
      ¬ GasExact u64Max (decodeAll burnHost [alice0.raw, bobCreate.raw])
        (runBlock burnHost (.fromGenesis burnHost boundlessGenesis) [alice0.raw, bobCreate.raw]
          block1).1.receipts :=
  ⟨burnRevm_gasWithinLimit, not_gasExact_of_saturated boundless_block_gas⟩

/-! ## Price -/

/-- A transaction that ran: what revm reported, and the receipt. -/
structure ReceiptedTx where
  vtx : VerifiedTx
  run : Executed
  receipt : EvmReceipt

/-- The transactions a loop runs. -/
def executions (host : Host) (config : EvmChainConfig) (ctx : BlockContext) :
    Nat → Loop → List VerifiedTx → List ReceiptedTx
  | _, _, [] => []
  | i, l, v :: rest =>
      match executeTx host config ctx l i v, (transactTx host config ctx l v).outcome with
      | .commit l', .ok run =>
          { vtx := v
            run
            receipt := receiptOf host config ctx i v l'.cumulativeGasUsed run.result } ::
            executions host config ctx (i + 1) l' rest
      | .commit l', .error _ => executions host config ctx (i + 1) l' rest
      | .reject l', _ => executions host config ctx (i + 1) l' rest
      | .skip, _ => executions host config ctx (i + 1) l rest
      | .stop, _ => []

/-- The transactions a block runs. -/
def executionsIn (host : Host) (e : EvmExecutor) (txs : List Bytes) (ctx : BlockContext) :
    List ReceiptedTx :=
  executions host e.config ctx 0 { state := startBlock e.state ctx, staking := e.staking }
    (decodeAll host txs)

/-- The fee the sender was charged: what was taken before execution, less
what came back. -/
def feeCharged (run : Executed) : Nat := run.tx.upfront.toNat - run.tx.refund.toNat

/-- What revm charges, by the type of a transaction. It runs none whose
fee cap is below the base fee, and none for free. -/
structure Revm.ChargesByType (revm : Revm) : Prop where
  feeCap : ∀ chainId block tx view getStake run,
    (revm.transact chainId block tx view getStake).outcome = .ok run →
      block.basefee.toNat ≤ tx.gasPrice.toNat
  usesGas : ∀ chainId block tx view getStake run,
    (revm.transact chainId block tx view getStake).outcome = .ok run →
      0 < run.result.gasUsed.toNat
  legacy : ∀ chainId block tx view getStake run,
    (revm.transact chainId block tx view getStake).outcome = .ok run →
      tx.txType = 0 ∨ tx.txType = 1 → tx.gasPriorityFee = none →
        feeCharged run = run.result.gasUsed.toNat * tx.gasPrice.toNat
  dynamic : ∀ chainId block tx view getStake run priority,
    (revm.transact chainId block tx view getStake).outcome = .ok run →
      tx.txType = 2 → tx.gasPriorityFee = some priority →
        feeCharged run = run.result.gasUsed.toNat
          * min tx.gasPrice.toNat (block.basefee.toNat + priority.toNat)

/-- What alloy reports as priority fee, by the type of a transaction. -/
def FeesByType (al : Alloy) : Prop :=
  ∀ raw tx rest, al.decode2718 raw = .ok (tx, rest) →
    (tx.txType = .legacy ∨ tx.txType = .eip2930 → tx.maxPriorityFeePerGas = none) ∧
      (tx.txType = .eip1559 → tx.maxPriorityFeePerGas.isSome)

section Price

variable {host : Host} {config : EvmChainConfig} {ctx : BlockContext}

/-- The receipts of a loop are those of the transactions it runs. -/
theorem executions_receipts (vs : List VerifiedTx) (i : Nat) (l : Loop) :
    (executeLoop host config ctx i l vs).1.receipts
      = l.receipts ++ (executions host config ctx i l vs).map ReceiptedTx.receipt := by
  induction vs generalizing i l with
  | nil => simp [executeLoop, executions]
  | cons v vs ih =>
    rcases executeTx_cases host config ctx l i v with
      ⟨-, heq⟩ | ⟨-, ⟨-, heq⟩ | ⟨-, ⟨err, -, heq⟩ | ⟨run, hout, heq⟩⟩⟩
    · simp only [executeLoop, executions, heq]
      exact ih (i + 1) l
    · simp only [executeLoop, executions, heq, List.map_nil, List.append_nil]
    · simp only [executeLoop, executions, heq]
      exact ih (i + 1) _
    · simp only [executeLoop, executions, heq, hout]
      rw [ih (i + 1)]
      simp [Loop.committed]

/-- Each of them is a run revm reported, and its receipt. -/
theorem mem_executions {vs : List VerifiedTx} {i : Nat} {l : Loop} {x : ReceiptedTx}
    (h : x ∈ executions host config ctx i l vs) :
    x.vtx ∈ vs ∧ ∃ l' i' used, (transactTx host config ctx l' x.vtx).outcome = .ok x.run ∧
      x.receipt = receiptOf host config ctx i' x.vtx used x.run.result := by
  induction vs generalizing i l with
  | nil => cases h
  | cons v vs ih =>
    have htail : ∀ {i l}, x ∈ executions host config ctx i l vs →
        x.vtx ∈ v :: vs ∧ ∃ l' i' used, (transactTx host config ctx l' x.vtx).outcome = .ok x.run ∧
          x.receipt = receiptOf host config ctx i' x.vtx used x.run.result := fun hx =>
      ⟨List.mem_cons_of_mem v (ih hx).1, (ih hx).2⟩
    rcases executeTx_cases host config ctx l i v with
      ⟨-, heq⟩ | ⟨-, ⟨-, heq⟩ | ⟨-, ⟨err, -, heq⟩ | ⟨run, hout, heq⟩⟩⟩
    · simp only [executions, heq] at h
      exact htail h
    · simp only [executions, heq] at h
      cases h
    · simp only [executions, heq] at h
      exact htail h
    · simp only [executions, heq, hout] at h
      rcases List.mem_cons.mp h with rfl | h
      · exact ⟨List.mem_cons_self .., l, i, _, hout, rfl⟩
      · exact htail h

/-- The price in a receipt, where the fee cap covers the base fee. -/
theorem toNat_effectiveGasPrice (config : EvmChainConfig) (tx : TxEnvelope)
    (hcap : config.baseFeePerGas.toNat ≤ tx.maxFeePerGas.toNat) :
    (effectiveGasPrice config tx).toNat
      = min tx.maxFeePerGas.toNat
          (config.baseFeePerGas.toNat + (tx.maxPriorityFeePerGas.getD 0).toNat) := by
  have hbase := config.baseFeePerGas.toNat_lt
  have hmax := tx.maxFeePerGas.isLt
  have hcast : (config.baseFeePerGas.toBitVec.setWidth 128 : U128).toNat
      = config.baseFeePerGas.toNat := by
    rw [BitVec.toNat_setWidth, UInt64.toNat_toBitVec, Nat.mod_eq_of_lt (by omega)]
  simp only [effectiveGasPrice]
  rw [BitVec.toNat_setWidth, satAdd_toNat, hcast]
  split
  · rename_i hle
    rw [BitVec.le_def, satSub_toNat, hcast] at hle
    rw [satSub_toNat, hcast]
    omega
  · rename_i hle
    rw [BitVec.le_def, satSub_toNat, hcast] at hle
    omega

/-- The fee a receipt accounts for. -/
theorem receiptOf_fee {i : Nat} {used : UInt64} {v : VerifiedTx} {result : ExecutionResult}
    (hcap : config.baseFeePerGas.toNat ≤ v.envelope.maxFeePerGas.toNat) :
    (receiptOf host config ctx i v used result).gasUsed.toNat
        * (receiptOf host config ctx i v used result).effectiveGasPrice.toNat
      = result.gasUsed.toNat * min v.envelope.maxFeePerGas.toNat
          (config.baseFeePerGas.toNat + (v.envelope.maxPriorityFeePerGas.getD 0).toNat) := by
  rw [← toNat_effectiveGasPrice config v.envelope hcap]
  rfl

/-- Without a priority fee that is the base fee; charged was the gas
price. -/
theorem plain_fee_iff (hrevm : host.revm.ChargesByType) {l : Loop} {v : VerifiedTx}
    {run : Executed} (hout : (transactTx host config ctx l v).outcome = .ok run)
    (hplain : v.envelope.txType = .legacy ∨ v.envelope.txType = .eip2930)
    (hnone : v.envelope.maxPriorityFeePerGas = none) :
    run.result.gasUsed.toNat * min v.envelope.maxFeePerGas.toNat
        (config.baseFeePerGas.toNat + (v.envelope.maxPriorityFeePerGas.getD 0).toNat)
        = feeCharged run ↔
      v.envelope.maxFeePerGas.toNat = config.baseFeePerGas.toNat := by
  have hcap : config.baseFeePerGas.toNat ≤ v.envelope.maxFeePerGas.toNat :=
    hrevm.feeCap _ _ _ _ _ _ hout
  have hused := hrevm.usesGas _ _ _ _ _ _ hout
  have htx : (txEnvOf v).txType = 0 ∨ (txEnvOf v).txType = 1 := by
    rcases hplain with h | h <;> simp [txEnvOf, h]
  have hfee : feeCharged run = run.result.gasUsed.toNat * v.envelope.maxFeePerGas.toNat :=
    hrevm.legacy _ _ _ _ _ _ hout htx hnone
  have hmin : min v.envelope.maxFeePerGas.toNat (config.baseFeePerGas.toNat + (0 : U128).toNat)
      = config.baseFeePerGas.toNat := Nat.min_eq_right hcap
  rw [hfee, hnone, Option.getD_none, hmin, Nat.mul_left_cancel_iff hused]
  exact eq_comm

/-- One transaction: the receipt has the price charged exactly when it is
an EIP-1559 transaction or its gas price is the base fee. -/
theorem receiptOf_price_iff (hrevm : host.revm.ChargesByType) {l : Loop} {i : Nat}
    {used : UInt64} {v : VerifiedTx} {run : Executed}
    (hout : (transactTx host config ctx l v).outcome = .ok run)
    (htype : v.envelope.txType ∈ [TxType.legacy, .eip2930, .eip1559])
    (hlegacy : v.envelope.txType = .legacy ∨ v.envelope.txType = .eip2930 →
      v.envelope.maxPriorityFeePerGas = none)
    (hdynamic : v.envelope.txType = .eip1559 → v.envelope.maxPriorityFeePerGas.isSome) :
    (receiptOf host config ctx i v used run.result).gasUsed.toNat
        * (receiptOf host config ctx i v used run.result).effectiveGasPrice.toNat
        = feeCharged run ↔
      v.envelope.txType = .eip1559 ∨
        v.envelope.maxFeePerGas.toNat = config.baseFeePerGas.toNat := by
  rw [receiptOf_fee (hrevm.feeCap _ _ _ _ _ _ hout)]
  have hplain := plain_fee_iff hrevm hout
  cases ht : v.envelope.txType with
  | legacy => simpa [ht] using hplain (.inl ht) (hlegacy (.inl ht))
  | eip2930 => simpa [ht] using hplain (.inr ht) (hlegacy (.inr ht))
  | eip1559 =>
    obtain ⟨priority, hsome⟩ := Option.isSome_iff_exists.mp (hdynamic ht)
    have htx : (txEnvOf v).txType = 2 := by simp [txEnvOf, ht]
    have hfee := hrevm.dynamic _ _ _ _ _ _ priority hout htx hsome
    rw [hsome]
    exact ⟨fun _ => .inl rfl, fun _ => hfee.symm⟩
  | eip4844 => simp [ht] at htype
  | eip7702 => simp [ht] at htype

end Price

/-- **When a receipt reports the price paid.** The receipts of every block
are those of the transactions that ran, and of these a legacy, EIP-2930 or
EIP-1559 transaction has the fee it was charged in its receipt exactly when
it is an EIP-1559 transaction or its gas price is the base fee. -/
theorem receipt_price_exact_iff (host : Host) (e : EvmExecutor) (txs : List Bytes)
    (ctx : BlockContext) (hrevm : host.revm.ChargesByType) (halloy : FeesByType host.alloy) :
    (runBlock host e txs ctx).1.receipts
        = (executionsIn host e txs ctx).map ReceiptedTx.receipt ∧
      ∀ x ∈ executionsIn host e txs ctx,
        x.vtx.envelope.txType ∈ [TxType.legacy, .eip2930, .eip1559] →
        (x.receipt.gasUsed.toNat * x.receipt.effectiveGasPrice.toNat = feeCharged x.run ↔
          x.vtx.envelope.txType = .eip1559 ∨
            x.vtx.envelope.maxFeePerGas.toNat = e.config.baseFeePerGas.toNat) := by
  refine ⟨executions_receipts _ 0 _, fun x hx htype => ?_⟩
  obtain ⟨hmem, l, i, used, hout, hreceipt⟩ := mem_executions hx
  obtain ⟨⟨rest, hdec⟩, -⟩ := decodeAndRecover_read (mem_decodeAll hmem).2
  obtain ⟨hlegacy, hdynamic⟩ := halloy _ _ _ hdec
  rw [hreceipt]
  exact receiptOf_price_iff hrevm hout htype hlegacy hdynamic

/-! ### A dynamic and a legacy fee -/

/-- A plain transfer is charged the effective price for what it used. -/
theorem transferRevm_fee {chainId : UInt64} {block : BlockEnv} {tx : TxEnv} {view : DbView}
    {getStake : Address → Address → U256} {run : Executed}
    (hout : (transferRevm.transact chainId block tx view getStake).outcome = .ok run) :
    run.result.gasUsed.toNat = 21000 ∧ feeCharged run = 21000 * effectivePrice block tx := by
  obtain ⟨recipient, ⟨-, -, hgas, -⟩, -, rfl⟩ := transferRevm_ok hout
  have hgas' : 21000 ≤ tx.gasLimit.toNat := UInt64.le_iff_toNat_le.mp hgas
  have hlimit := tx.gasLimit.toNat_lt
  have hprice : effectivePrice block tx < 2 ^ 128 := by
    have hcap := tx.gasPrice.isLt
    unfold effectivePrice
    split <;> omega
  have hupfront : tx.gasLimit.toNat * effectivePrice block tx < 2 ^ 256 := by
    calc tx.gasLimit.toNat * effectivePrice block tx
      _ ≤ 2 ^ 64 * 2 ^ 128 := Nat.mul_le_mul hlimit.le hprice.le
      _ < 2 ^ 256 := by decide
  have hsplit : tx.gasLimit.toNat * effectivePrice block tx
      = (tx.gasLimit.toNat - 21000) * effectivePrice block tx
        + 21000 * effectivePrice block tx := by
    rw [← Nat.add_mul, Nat.sub_add_cancel hgas']
  refine ⟨rfl, ?_⟩
  simp only [feeCharged, transferTree, BitVec.toNat_ofNat]
  rw [Nat.mod_eq_of_lt hupfront, Nat.mod_eq_of_lt (by omega)]
  omega

theorem transferRevm_chargesByType : transferRevm.ChargesByType := by
  refine ⟨?_, ?_, ?_, ?_⟩
  · intro chainId block tx view getStake run hout
    obtain ⟨recipient, ⟨-, -, -, -, hcap, -⟩, -, -⟩ := transferRevm_ok hout
    exact hcap
  · intro chainId block tx view getStake run hout
    rw [(transferRevm_fee hout).1]
    omega
  · intro chainId block tx view getStake run hout _ hnone
    obtain ⟨hused, hfee⟩ := transferRevm_fee hout
    rw [hfee, hused, effectivePrice, hnone]
  · intro chainId block tx view getStake run priority hout _ hsome
    obtain ⟨hused, hfee⟩ := transferRevm_fee hout
    rw [hfee, hused, effectivePrice, hsome]

/-- alloy on a table whose transactions have the fees of their types. -/
theorem feesByType_ofTable {table : List VerifiedTx}
    (h : ∀ v ∈ table,
      (v.envelope.txType = .legacy ∨ v.envelope.txType = .eip2930 →
        v.envelope.maxPriorityFeePerGas = none) ∧
      (v.envelope.txType = .eip1559 → v.envelope.maxPriorityFeePerGas.isSome)) :
    FeesByType (.ofTable table) := by
  intro raw tx rest hdec
  simp only [Alloy.ofTable] at hdec
  split at hdec
  · rename_i v hfind
    obtain ⟨rfl, -⟩ := Prod.mk.inj (Except.ok.inj hdec)
    exact h v (List.mem_of_find?_eq_some hfind)
  · cases hdec

theorem receipt_price_alice :
    (executionsIn sampleHost (.fromGenesis sampleHost aliceGenesis) [alice0.raw] block1).map
        (fun x => x.vtx.envelope.txType) = [.eip1559] ∧
      ∀ x ∈ executionsIn sampleHost (.fromGenesis sampleHost aliceGenesis) [alice0.raw] block1,
        x.receipt.gasUsed.toNat * x.receipt.effectiveGasPrice.toNat = feeCharged x.run := by
  have htypes : (executionsIn sampleHost (.fromGenesis sampleHost aliceGenesis) [alice0.raw]
      block1).map (fun x => x.vtx.envelope.txType) = [.eip1559] := by decide +kernel
  refine ⟨htypes, fun x hx => ?_⟩
  have htype : x.vtx.envelope.txType = .eip1559 := by
    have hmem : x.vtx.envelope.txType ∈ (executionsIn sampleHost
        (.fromGenesis sampleHost aliceGenesis) [alice0.raw] block1).map
          (fun x => x.vtx.envelope.txType) :=
      List.mem_map.mpr ⟨x, hx, rfl⟩
    rw [htypes] at hmem
    exact List.mem_singleton.mp hmem
  refine ((receipt_price_exact_iff sampleHost (.fromGenesis sampleHost aliceGenesis)
    [alice0.raw] block1 transferRevm_chargesByType
    (feesByType_ofTable (by decide))).2 x hx ?_).mpr (.inl htype)
  rw [htype]
  decide

/-- Plain transfers between the signers of the legacy transactions. -/
def legacyHost : Host := { sampleHost with alloy := legacyAlloy }

/-- Alice pays 30 gwei per unit of gas; the receipt says one gwei, the base
fee. -/
theorem legacy_receipt_underreports :
    legacyHost.revm.ChargesByType ∧ FeesByType legacyHost.alloy ∧
      (executionsIn legacyHost (.fromGenesis sampleHost aliceGenesis) [aliceLegacy.raw] block1).map
        (fun x => (x.vtx.envelope.txType,
          x.receipt.gasUsed.toNat * x.receipt.effectiveGasPrice.toNat, feeCharged x.run))
        = [(.legacy, 21000 * 1000000000, 21000 * 30000000000)] :=
  ⟨transferRevm_chargesByType, feesByType_ofTable (by decide), by decide +kernel⟩

end Nbnet.Execution
