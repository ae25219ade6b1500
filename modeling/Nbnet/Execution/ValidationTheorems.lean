/-
Nbnet.Execution.ValidationTheorems — what `validate_tx` promises of a
transaction: that its sender can pay for it, and that a block with it will
execute it.

The upfront cost is computed in `U256`, where both operators wrap, and
compared with the balance afterwards, so a cost of `2 ^ 256` and more can
pass as a small one (`validated_payable_iff`).

Of the rules revm applies before it runs a transaction, `validate_tx`
lacks three: the fee cap against the base fee, the priority fee against
the fee cap, and the price of init code (`validated_executes_iff`). The
rules themselves are revm's; `Revm.AppliesRules` says what is assumed of
it.
-/
import Nbnet.Execution.AdmissionTheorems
import Nbnet.Execution.ReceiptTheorems
import Nbnet.State.FlushTheorems

namespace Nbnet.Execution

open Lib State Txpool

/-! ## The upfront cost -/

/-- The most a transaction can cost its sender, in exact numbers. -/
def exactCost (tx : TxEnvelope) (baseFee : UInt64) : Nat :=
  tx.gasLimit.toNat * max tx.maxFeePerGas.toNat baseFee.toNat + tx.value.toNat

/-- **When an accepted transaction can be paid for.** Of the transactions
`validate_tx` accepts, the account can pay for exactly those whose cost is
below `2 ^ 256`. -/
theorem validated_payable_iff (tx : VerifiedTx) (chainId accountNonce : UInt64)
    (accountBalance : U256) (blockGasLimit baseFee : UInt64)
    (hok : validateTx tx chainId accountNonce accountBalance blockGasLimit baseFee = .ok ()) :
    exactCost tx.envelope baseFee ≤ accountBalance.toNat ↔
      exactCost tx.envelope baseFee < 2 ^ 256 := by
  obtain ⟨-, -, -, -, hcost⟩ := (validateTx_ok_iff ..).mp hok
  constructor
  · intro hle
    exact hle.trans_lt accountBalance.isLt
  · intro hlt
    have hexact : upfrontCost tx.envelope baseFee = exactCost tx.envelope baseFee :=
      Nat.mod_eq_of_lt hlt
    rwa [hexact] at hcost

theorem validated_payable_alice :
    validateTx alice0 1337 0 1000000000000000000 30000000 1000000000 = .ok () ∧
      exactCost alice0.envelope 1000000000 ≤ (1000000000000000000 : U256).toNat := by
  have hok : validateTx alice0 1337 0 1000000000000000000 30000000 1000000000 = .ok () := by
    decide +kernel
  exact ⟨hok, (validated_payable_iff _ _ _ _ _ _ hok).mpr (by decide)⟩

/-- An empty account may send all but a few of the `2 ^ 256` wei. -/
theorem wrapped_cost_accepted :
    validateTx aliceHuge 1337 0 0 30000000 1000000000 = .ok () ∧
      ¬ exactCost aliceHuge.envelope 1000000000 ≤ (0 : U256).toNat := by
  constructor
  · decide +kernel
  · decide

/-! ## The rules of revm -/

/-- The gas revm charges before it runs a transaction: 4 for a zero byte
of input and 16 for another one, and for a creation 2 per word of init
code. -/
def engineIntrinsicGas (tx : TxEnv) : Nat :=
  let base :=
    match tx.kind with
    | .call _ => 21000
    | .create => 53000 + 2 * ((tx.data.length + 31) / 32)
  base + (tx.data.map fun byte => if byte = 0 then 4 else 16).sum

/-- The rules for the environment of a transaction. -/
def EngineRules (chainId : UInt64) (block : BlockEnv) (tx : TxEnv) : Prop :=
  tx.chainId.getD chainId = chainId ∧ tx.txType ≤ 2 ∧
    block.basefee.toNat ≤ tx.gasPrice.toNat ∧ tx.gasPriorityFee.getD 0 ≤ tx.gasPrice ∧
    engineIntrinsicGas tx ≤ tx.gasLimit.toNat

instance EngineRules.decidable (chainId : UInt64) (block : BlockEnv) (tx : TxEnv) :
    Decidable (EngineRules chainId block tx) :=
  inferInstanceAs (Decidable (_ ∧ _))

/-- The rules for its sender, its share of the block and its size. -/
structure SenderReady (block : BlockEnv) (tx : TxEnv) (view : DbView) : Prop where
  codeHash : (view.account tx.caller).codeHash = keccakEmpty
  code : (view.account tx.caller).code.getD [] = []
  sender : SenderValid tx view
  gasLimit : tx.gasLimit ≤ block.gasLimit
  initCode : tx.kind = .create → tx.data.length ≤ 49152

/-- A transaction of a sender that is ready runs exactly when its
environment follows the rules. -/
def Revm.AppliesRules (revm : Revm) : Prop :=
  ∀ chainId block tx view getStake, SenderReady block tx view →
    ((∃ run, (revm.transact chainId block tx view getStake).outcome = .ok run) ↔
      EngineRules chainId block tx)

/-! ## A block of one transaction -/

/-- A transaction whose sender could have it executed next: no code, the
current nonce, and the money for it. -/
structure Executable (host : Host) (e : EvmExecutor) (raw : Bytes) (v : VerifiedTx) : Prop where
  decoded : decodeAndRecover host.alloy raw = .ok v
  txType : v.envelope.txType ∈ [TxType.legacy, .eip2930, .eip1559]
  codeHash : (e.state.db.view.account v.sender).codeHash = keccakEmpty
  code : (e.state.db.view.account v.sender).code.getD [] = []
  nonce : v.envelope.nonce = e.state.getNonce v.sender
  nonceRoom : v.envelope.nonce.toNat < 2 ^ 64 - 1
  funds : exactCost v.envelope e.config.baseFeePerGas ≤ (e.state.getBalance v.sender).toNat
  initCode : v.envelope.toAddr = none → v.envelope.input.length ≤ 49152

/-- `execute_block` on a transaction alone produces a receipt for it. -/
def ExecutesAlone (host : Host) (order : FlushOrder) (e : EvmExecutor) (raw : Bytes)
    (v : VerifiedTx) (ctx : BlockContext) : Prop :=
  ∃ r, (e.executeBlock host order [raw] ctx).2.receipts = e.receipts ++ [[r]] ∧
    r.txHash = v.txHash ∧ r.sender = v.sender

/-- What `validate_tx` does not look at. -/
structure KeepsEngineRules (baseFee : UInt64) (v : VerifiedTx) : Prop where
  feeCap : baseFee.toNat ≤ v.envelope.maxFeePerGas.toNat
  priority : v.envelope.maxPriorityFeePerGas.getD 0 ≤ v.envelope.maxFeePerGas
  intrinsic : engineIntrinsicGas (txEnvOf v) ≤ v.envelope.gasLimit.toNat

section Run

variable {host : Host}

/-- What revm rejects or runs leaves entries of missing accounts empty. -/
theorem tidy_executeLoop (config : EvmChainConfig) (ctx : BlockContext) (i : Nat) {l : Loop}
    (h : l.state.db.Tidy) (vs : List VerifiedTx) :
    (executeLoop host config ctx i l vs).1.state.db.Tidy := by
  refine executeLoop_induct (motive := fun l _ => l.state.db.Tidy) [] i h ?_ ?_
  · intro l ex v err _ hl _ _
    exact hl.loads _
  · intro l ex i v run _ hl _ _
    exact (hl.loads _).commit _

theorem tidy_startBlock {st : EvmState} (h : st.db.Tidy) (ctx : BlockContext) :
    (startBlock st ctx).db.Tidy := by
  intro a acc hc
  rw [startBlock_cache] at hc
  exact h a acc hc

theorem Reachable.tidy {e : EvmExecutor} (h : Reachable host e) : e.state.db.Tidy := by
  obtain ⟨orders, genesis, steps, rfl⟩ := h
  refine state_run (P := fun st => st.db.Tidy) (fun _ => tidy_new _) ?_ ?_ orders genesis steps
  · intro e order txs ctx htidy
    exact tidy_executeLoop _ ctx 0 (tidy_startBlock htidy ctx) _
  · intro e req htidy
    exact htidy.loads _

end Run

section Alone

variable {host : Host} {e : EvmExecutor} {raw : Bytes} {v : VerifiedTx}

/-- The loop at the start of a block. -/
def startLoop (e : EvmExecutor) (ctx : BlockContext) : Loop :=
  { state := startBlock e.state ctx, staking := e.staking }

theorem startBlock_account (st : EvmState) (ctx : BlockContext) (a : Address) :
    (startBlock st ctx).db.view.account a = st.db.view.account a := by
  unfold startBlock
  split <;> rfl

/-- A transaction alone, at the sender's nonce and within the block's gas
limit, is put to revm; it has a receipt exactly when revm ran it. -/
theorem executesAlone_iff (order : FlushOrder) (ctx : BlockContext)
    (hdec : decodeAndRecover host.alloy raw = .ok v)
    (hnonce : v.envelope.nonce = e.state.getNonce v.sender)
    (hgas : v.envelope.gasLimit ≤ e.config.blockGasLimit) :
    ExecutesAlone host order e raw v ctx ↔
      ∃ run, (transactTx host e.config ctx (startLoop e ctx) v).outcome = .ok run := by
  have hall : decodeAll host [raw] = [v] := by simp [decodeAll, hdec]
  have hfits : satAdd64 (startLoop e ctx).cumulativeGasUsed v.envelope.gasLimit
      ≤ e.config.blockGasLimit := by
    rw [UInt64.le_iff_toNat_le, satAdd64_toNat]
    have hle := UInt64.le_iff_toNat_le.mp hgas
    have hzero : (startLoop e ctx).cumulativeGasUsed.toNat = 0 := rfl
    omega
  have hreceipts : (e.executeBlock host order [raw] ctx).2.receipts
      = e.receipts ++ [(executeLoop host e.config ctx 0 (startLoop e ctx) [v]).1.receipts] := by
    rw [← hall]
    rfl
  unfold ExecutesAlone
  rw [hreceipts]
  rcases executeTx_cases host e.config ctx (startLoop e ctx) 0 v with
    ⟨hskip, -⟩ | ⟨-, ⟨hstop, -⟩ | ⟨-, ⟨err, hout, heq⟩ | ⟨run, hout, heq⟩⟩⟩
  · rw [startLoop, startBlock_getNonce] at hskip
    exact absurd hnonce hskip
  · exact absurd hfits (UInt64.not_le.mpr hstop)
  · simp only [executeLoop, heq, hout]
    refine ⟨?_, ?_⟩
    · rintro ⟨r, hr, -⟩
      cases List.singleton_inj.mp (List.append_cancel_left hr)
    · rintro ⟨run, hrun⟩
      cases hrun
  · simp only [executeLoop, heq, hout]
    exact ⟨fun _ => ⟨run, rfl⟩, fun _ => ⟨_, rfl, rfl, rfl⟩⟩

/-- The environment of an accepted transaction keeps the rules exactly
when it keeps those `validate_tx` lacks. -/
theorem engineRules_iff (ctx : BlockContext) (hexec : Executable host e raw v)
    (hid : ∀ id, v.envelope.chainId = some id → id = e.config.chainId) :
    EngineRules e.config.chainId (blockEnvOf e.config ctx) (txEnvOf v) ↔
      KeepsEngineRules e.config.baseFeePerGas v := by
  have hchain : (txEnvOf v).chainId.getD e.config.chainId = e.config.chainId := by
    simp only [txEnvOf]
    cases h : v.envelope.chainId with
    | none => rfl
    | some id => exact hid id h
  have htype : (txEnvOf v).txType ≤ 2 := by
    have := hexec.txType
    cases h : v.envelope.txType <;> simp_all [txEnvOf]
  constructor
  · rintro ⟨-, -, hcap, hpriority, hintrinsic⟩
    exact ⟨hcap, hpriority, hintrinsic⟩
  · intro h
    exact ⟨hchain, htype, h.feeCap, h.priority, h.intrinsic⟩

/-- Its sender is ready: what the getters report, revm reads. -/
theorem Executable.senderReady (hexec : Executable host e raw v) (htidy : e.state.db.Tidy)
    (ctx : BlockContext) (hgas : v.envelope.gasLimit ≤ e.config.blockGasLimit) :
    SenderReady (blockEnvOf e.config ctx) (txEnvOf v) (startLoop e ctx).state.db.view := by
  have hview : (startLoop e ctx).state.db.view.account v.sender
      = e.state.db.view.account v.sender := startBlock_account _ ctx _
  have hcost : v.envelope.gasLimit.toNat * v.envelope.maxFeePerGas.toNat
      ≤ v.envelope.gasLimit.toNat
        * max v.envelope.maxFeePerGas.toNat e.config.baseFeePerGas.toNat :=
    Nat.mul_le_mul_left _ (le_max_left _ _)
  have hfunds := hexec.funds
  have hroom := hexec.nonceRoom
  refine ⟨?_, ?_, ⟨?_, ?_, ?_⟩, hgas, fun hcreate => hexec.initCode ?_⟩
  · exact hview ▸ hexec.codeHash
  · exact hview ▸ hexec.code
  · rw [txEnvOf_caller, txEnvOf_nonce, hview, view_nonce htidy]
    exact hexec.nonce
  · rw [txEnvOf_nonce]
    omega
  · rw [txEnvOf_caller, hview, view_balance htidy]
    simp only [exactCost] at hfunds
    simp only [txEnvOf]
    omega
  · cases hto : v.envelope.toAddr with
    | none => rfl
    | some addr => simp [txEnvOf, hto] at hcreate

end Alone

/-- **When what validation accepts is executed.** In every reachable state,
a transaction of a sender without code, at its nonce and with the money for
it, that `validate_tx` accepts, has a receipt in a block of its own exactly
when it keeps the three rules `validate_tx` lacks. -/
theorem validated_executes_iff (host : Host) (e : EvmExecutor) (order : FlushOrder)
    (ctx : BlockContext) (raw : Bytes) (v : VerifiedTx) (hrevm : host.revm.AppliesRules)
    (hreach : Reachable host e) (hexec : Executable host e raw v)
    (hok : e.validateVerified v = .ok ()) :
    ExecutesAlone host order e raw v ctx ↔ KeepsEngineRules e.config.baseFeePerGas v := by
  obtain ⟨-, hpass⟩ := (validateVerified_ok_iff e v).mp hok
  rw [executesAlone_iff order ctx hexec.decoded hexec.nonce hpass.gasLimit,
    ← engineRules_iff ctx hexec hpass.chainId]
  exact hrevm _ _ _ _ _ (hexec.senderReady hreach.tidy ctx hpass.gasLimit)

/-! ### A transfer and a creation -/

/-- A revm that follows the rules. Plain transfers it runs as
`transferRevm` does; everything else runs out of gas. -/
def ruledRevm : Revm where
  transact chainId block tx view getStake :=
    if EngineRules chainId block tx ∧ SenderValid tx view then
      let t := transferRevm.transact chainId block tx view getStake
      match t.outcome with
      | .ok _ => t
      | .error _ =>
          { loads := [.account tx.caller, .account block.beneficiary]
            outcome := .ok
              { result := .halt tx.gasLimit "OutOfGas"
                changes := [tx.caller, block.beneficiary].foldl
                  (fun changes a => changes.insert a { info := burned block tx view a }) ∅
                tx := burnTree block tx } }
    else { loads := [], outcome := .error "Transaction" }

theorem ruledRevm_appliesRules : ruledRevm.AppliesRules := by
  intro chainId block tx view getStake hready
  simp only [ruledRevm]
  by_cases hrules : EngineRules chainId block tx
  · rw [if_pos ⟨hrules, hready.sender⟩]
    refine ⟨fun _ => hrules, fun _ => ?_⟩
    cases hout : (transferRevm.transact chainId block tx view getStake).outcome with
    | ok run => exact ⟨run, hout⟩
    | error err => exact ⟨_, rfl⟩
  · rw [if_neg fun h => hrules h.1]
    refine ⟨?_, fun h => absurd h hrules⟩
    rintro ⟨run, hrun⟩
    cases hrun

def ruledHost : Host :=
  { sampleHost with alloy := .ofTable [alice0, aliceCreate], revm := ruledRevm }

theorem reachable_fromGenesis (host : Host) (genesis : EvmGenesis) :
    Reachable host (.fromGenesis host genesis) :=
  ⟨ascendingFlush, genesis, [], rfl⟩

theorem validated_executes_alice :
    Executable ruledHost (.fromGenesis ruledHost aliceGenesis) alice0.raw alice0 ∧
      (EvmExecutor.fromGenesis ruledHost aliceGenesis).validateVerified alice0 = .ok () ∧
      ExecutesAlone ruledHost ⟨.ascending, .ascending⟩ (.fromGenesis ruledHost aliceGenesis)
        alice0.raw alice0 block1 := by
  have hexec : Executable ruledHost (.fromGenesis ruledHost aliceGenesis) alice0.raw alice0 := by
    constructor <;> decide +kernel
  have hok : (EvmExecutor.fromGenesis ruledHost aliceGenesis).validateVerified alice0 = .ok () := by
    decide +kernel
  refine ⟨hexec, hok, ?_⟩
  refine (validated_executes_iff ruledHost _ _ block1 _ _ ruledRevm_appliesRules
    (reachable_fromGenesis _ _) hexec hok).mpr ?_
  constructor <;> decide +kernel

/-- Alice's creation has two gas less than revm asks for: accepted, and not
executed. -/
theorem underpriced_creation_accepted :
    ruledHost.revm.AppliesRules ∧ Reachable ruledHost (.fromGenesis ruledHost aliceGenesis) ∧
      Executable ruledHost (.fromGenesis ruledHost aliceGenesis) aliceCreate.raw aliceCreate ∧
      (EvmExecutor.fromGenesis ruledHost aliceGenesis).validateVerified aliceCreate = .ok () ∧
      ¬ ExecutesAlone ruledHost ⟨.ascending, .ascending⟩ (.fromGenesis ruledHost aliceGenesis)
        aliceCreate.raw aliceCreate block1 := by
  refine ⟨ruledRevm_appliesRules, reachable_fromGenesis _ _, ?_, by decide +kernel, ?_⟩
  · constructor <;> decide +kernel
  · rintro ⟨r, hr, -⟩
    have hnone : ((EvmExecutor.fromGenesis ruledHost aliceGenesis).executeBlock ruledHost
        ⟨.ascending, .ascending⟩ [aliceCreate.raw] block1).2.receipts.map List.length = [0] := by
      decide +kernel
    rw [hr] at hnone
    simp [EvmExecutor.fromGenesis] at hnone

end Nbnet.Execution
