/-
Nbnet.Execution.TipTheorems — the tip the pool ranks by and the tip the
chain pays.

The tip is computed twice. `effective_gas_tip` narrows both fees to `u64`
and then subtracts and takes the minimum; the receipt of a transaction
carries a price computed from the same fees in `u128`. A cast keeps the low
64 bits, so a fee of `2 ^ 64` counts as none, and a higher bid can rank
below a lower one.

`SurvivesCast` says for which fees the narrowing makes no difference. It
is arithmetic on the three numbers alone; `tip_eq_iff` settles it there and
`effective_gas_tip_pays_iff` is that fact about the two functions.
-/
import Nbnet.Execution.ReceiptTheorems

namespace Nbnet.Execution

open Lib State

/-! ## The two tips as numbers -/

/-- The tip a receipt accounts for: its price less the base fee. -/
def receiptTip (config : EvmChainConfig) (tx : TxEnvelope) : Nat :=
  (effectiveGasPrice config tx).toNat - config.baseFeePerGas.toNat

/-- The fees whose tip comes out right although only their low 64 bits are
looked at: fees that fit, or a cut fee that does not decide the minimum, or
two that are cut to exactly the largest `u64` at a base fee of zero. -/
def SurvivesCast (base maxFee priority : Nat) : Prop :=
  (maxFee < 2 ^ 64 ∧ (priority < 2 ^ 64 ∨ maxFee - base ≤ priority % 2 ^ 64)) ∨
  (2 ^ 64 ≤ maxFee ∧ priority < 2 ^ 64 ∧ priority ≤ maxFee % 2 ^ 64 - base) ∨
  (2 ^ 64 ≤ maxFee ∧ 2 ^ 64 ≤ priority ∧ base = 0 ∧
    maxFee % 2 ^ 64 = 2 ^ 64 - 1 ∧ priority % 2 ^ 64 = 2 ^ 64 - 1)

instance (base maxFee priority : Nat) : Decidable (SurvivesCast base maxFee priority) :=
  inferInstanceAs (Decidable (_ ∨ _ ∨ _))

/-- The priority fee of a transaction; one without pays none. -/
def priorityFee (tx : TxEnvelope) : Nat := (tx.maxPriorityFeePerGas.getD 0).toNat

theorem toNat_effectiveGasTip (tx : TxEnvelope) (baseFee : UInt64) :
    (effectiveGasTip tx baseFee).toNat
      = min (tx.maxFeePerGas.toNat % 2 ^ 64 - baseFee.toNat) (priorityFee tx % 2 ^ 64) := by
  have hmin : ∀ a b : UInt64, (min a b).toNat = min a.toNat b.toNat := by
    intro a b
    rw [UInt64.min_def, Nat.min_def]
    simp only [UInt64.le_iff_toNat_le]
    split <;> rfl
  simp only [effectiveGasTip]
  rw [hmin, satSub64_toNat, UInt64.toNat_ofNat', UInt64.toNat_ofNat', priorityFee]

theorem receiptTip_eq {config : EvmChainConfig} {tx : TxEnvelope}
    (hfee : config.baseFeePerGas.toNat ≤ tx.maxFeePerGas.toNat) :
    receiptTip config tx
      = min (tx.maxFeePerGas.toNat - config.baseFeePerGas.toNat) (priorityFee tx) := by
  rw [receiptTip, toNat_effectiveGasPrice config tx hfee, priorityFee]
  omega

/-- The minimum of the cut fees is the minimum of the fees exactly when
they survive the cast. -/
theorem tip_eq_iff {base maxFee priority : Nat} (hbase : base < 2 ^ 64) (hfee : base ≤ maxFee) :
    min (maxFee % 2 ^ 64 - base) (priority % 2 ^ 64)
        = min (min (maxFee - base) priority) (2 ^ 64 - 1) ↔
      SurvivesCast base maxFee priority := by
  unfold SurvivesCast
  omega

/-- What is ranked by, among fees that survive the cast, grows with both
fees. -/
theorem tip_mono {base maxFee maxFee' priority priority' : Nat} (hbase : base < 2 ^ 64)
    (hfee : base ≤ maxFee) (hmax : maxFee ≤ maxFee') (hpriority : priority ≤ priority')
    (h : SurvivesCast base maxFee priority) (h' : SurvivesCast base maxFee' priority') :
    min (maxFee % 2 ^ 64 - base) (priority % 2 ^ 64)
      ≤ min (maxFee' % 2 ^ 64 - base) (priority' % 2 ^ 64) := by
  rw [(tip_eq_iff hbase hfee).mpr h, (tip_eq_iff hbase (hfee.trans hmax)).mpr h']
  omega

/-! ## The tip of a transaction -/

/-- **When the pool ranks by the tip the chain pays.** At every base fee and
for every transaction whose fee cap covers it, the tip is the receipt's, up
to the largest `u64`, exactly when the fees survive the cast; among such
transactions a higher bid never ranks below a lower one. -/
theorem effective_gas_tip_pays_iff (config : EvmChainConfig) (tx : TxEnvelope)
    (hfee : config.baseFeePerGas.toNat ≤ tx.maxFeePerGas.toNat) :
    ((effectiveGasTip tx config.baseFeePerGas).toNat
        = min (receiptTip config tx) (2 ^ 64 - 1) ↔
      SurvivesCast config.baseFeePerGas.toNat tx.maxFeePerGas.toNat (priorityFee tx)) ∧
    ∀ tx' : TxEnvelope, tx.maxFeePerGas.toNat ≤ tx'.maxFeePerGas.toNat →
      priorityFee tx ≤ priorityFee tx' →
      SurvivesCast config.baseFeePerGas.toNat tx.maxFeePerGas.toNat (priorityFee tx) →
      SurvivesCast config.baseFeePerGas.toNat tx'.maxFeePerGas.toNat (priorityFee tx') →
      effectiveGasTip tx config.baseFeePerGas ≤ effectiveGasTip tx' config.baseFeePerGas := by
  have hbase := config.baseFeePerGas.toNat_lt
  constructor
  · rw [toNat_effectiveGasTip, receiptTip_eq hfee]
    exact tip_eq_iff hbase hfee
  · intro tx' hmax hpriority h h'
    rw [UInt64.le_iff_toNat_le, toNat_effectiveGasTip, toNat_effectiveGasTip]
    exact tip_mono hbase hfee hmax hpriority h h'

/-- The fees of Alice's transfer fit, so she is ranked by the two gwei her
receipt accounts for. -/
theorem effective_gas_tip_alice :
    let config := (EvmExecutor.fromGenesis sampleHost aliceGenesis).config
    config.baseFeePerGas.toNat ≤ alice0.envelope.maxFeePerGas.toNat ∧
      (effectiveGasTip alice0.envelope config.baseFeePerGas).toNat
        = min (receiptTip config alice0.envelope) (2 ^ 64 - 1) :=
  ⟨by decide, (effective_gas_tip_pays_iff _ alice0.envelope (by decide)).1.mpr (by decide)⟩

/-! ### A fee cap of `2 ^ 64` -/

/-- Alice's transaction of nonce 0 with a fee cap of `2 ^ 64`. -/
def aliceTop : VerifiedTx where
  raw := beBytes 119 0x02f8748205398084773594008901000000000000000082520894bbbbbbbbbbbbbbbbbbbbbbbbbbbbbbbbbbbbbbbb830f424080c080a0a4c99aa57ec70a8127d92d3fa9e84f13e7f099d58b6f6bf3b9ae12c9b8bae82ca025ce4c9792499fd302266eb47281b7e47ffb7f55f86f8e8569befb1a2dacb7fb
  envelope :=
    { sampleEnvelope 0 2000000000 21000 (beBytes 65 0xa4c99aa57ec70a8127d92d3fa9e84f13e7f099d58b6f6bf3b9ae12c9b8bae82c25ce4c9792499fd302266eb47281b7e47ffb7f55f86f8e8569befb1a2dacb7fb00) with
      maxFeePerGas := 18446744073709551616 }
  sender := 0x62d283fe6939c01fc88f02c6d2c9a547cc3e2656
  txHash := 0x08b6f15db1d240236656e144209b9303118c3ed13e32d880076c1c9c36bcf80e

def topHost : Host := { sampleHost with alloy := .ofTable [alice0, aliceTop] }

/-- Alice can pay 21000 gas at `2 ^ 64`. -/
def topGenesis : EvmGenesis where
  chainId := 1337
  alloc := (∅ : FMap Address GenesisAlloc).insert alice0.sender
    { balance := 1000000000000000000000000 }

/-- Raising the fee cap of a transfer from 30 gwei to `2 ^ 64` takes its
priority from two gwei to nothing, while its receipt still accounts for a
tip of two gwei. -/
theorem effective_gas_tip_drops :
    let e := EvmExecutor.fromGenesis sampleHost topGenesis
    (e.validateTx topHost alice0.raw).priority = 2000000000 ∧
      (e.validateTx topHost aliceTop.raw).valid = true ∧
      (e.validateTx topHost aliceTop.raw).priority = 0 ∧
      (executionsIn topHost e [aliceTop.raw] block1).map
          (fun x => (x.vtx, x.receipt.effectiveGasPrice.toNat - e.config.baseFeePerGas.toNat))
        = [(aliceTop, 2000000000)] ∧
      receiptTip e.config aliceTop.envelope = 2000000000 ∧
      ¬ (effectiveGasTip aliceTop.envelope e.config.baseFeePerGas).toNat
          = min (receiptTip e.config aliceTop.envelope) (2 ^ 64 - 1) ∧
      ¬ effectiveGasTip alice0.envelope e.config.baseFeePerGas
          ≤ effectiveGasTip aliceTop.envelope e.config.baseFeePerGas := by
  decide +kernel

end Nbnet.Execution
