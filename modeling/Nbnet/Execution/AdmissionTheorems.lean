/-
Nbnet.Execution.AdmissionTheorems — the two ways into the pool.

A transaction reaches the pool over `eth_sendRawTransaction`, which calls
`submit_raw_tx`, or over the gossip loop, which asks `validate_tx` first
and then calls `add_tx`. Both end in `submit_tx`, and `submit_tx` decodes,
looks at the hash, the nonce, the replaced tip and the capacity: of the
five checks of `validate_tx` it makes the nonce check only. So gossip
admits nothing that `validate_tx` rejects, and a client can submit
transactions for another chain, with any gas limit and without the money
to pay for them.

`PoolTakes` is what `submit_tx` asks for, `PassesChecks` what it does not
ask for; the main result puts the two together.
-/
import Nbnet.Execution.TraceTheorems
import Nbnet.Txpool.PromotionTheorems

namespace Nbnet.Execution

open Lib State Txpool

/-! ## What validation accepts -/

/-- A check in front of the rest of a function. -/
theorem check_ok_iff {ε α : Type} {c : Prop} [Decidable c] {err : ε} {f : Unit → Except ε α}
    {k : Except ε α} {r : α} :
    (if c then throw err >>= f else k) = .ok r ↔ ¬ c ∧ k = .ok r := by
  by_cases h : c
  · simp [h, throw, throwThe, MonadExceptOf.throw, bind, Except.bind]
  · simp [h]

/-- The last check of a function. -/
theorem lastCheck_ok_iff {ε : Type} {c : Prop} [Decidable c] {err : ε} :
    (if c then throw err else pure () : Except ε Unit) = .ok () ↔ ¬ c := by
  by_cases h : c
  · simp [h, throw, throwThe, MonadExceptOf.throw]
  · simp [h, pure, Except.pure]

/-- The upfront cost of a transaction, modulo `2 ^ 256`. -/
def upfrontCost (tx : TxEnvelope) (baseFee : UInt64) : Nat :=
  (tx.gasLimit.toNat * max tx.maxFeePerGas.toNat baseFee.toNat + tx.value.toNat) % 2 ^ 256

/-- The checks of `validate_tx` that `submit_tx` does not make. -/
structure PassesChecks (e : EvmExecutor) (v : VerifiedTx) : Prop where
  chainId : ∀ id, v.envelope.chainId = some id → id = e.config.chainId
  gasLimit : v.envelope.gasLimit ≤ e.config.blockGasLimit
  intrinsic : intrinsicGas v.envelope ≤ v.envelope.gasLimit
  balance :
    upfrontCost v.envelope e.config.baseFeePerGas ≤ (e.state.getBalance v.sender).toNat

/-- The `U256` the source compares with the balance. -/
theorem toNat_upfront (tx : TxEnvelope) (baseFee : UInt64) :
    (tx.gasLimit.toBitVec.setWidth 256 *
        (if tx.maxFeePerGas < (baseFee.toBitVec.setWidth 128 : U128)
          then (baseFee.toBitVec.setWidth 128 : U128) else tx.maxFeePerGas).setWidth 256
        + tx.value).toNat = upfrontCost tx baseFee := by
  have hbase := baseFee.toNat_lt
  have hmax : (if tx.maxFeePerGas < (baseFee.toBitVec.setWidth 128 : U128)
      then (baseFee.toBitVec.setWidth 128 : U128) else tx.maxFeePerGas).toNat
      = max tx.maxFeePerGas.toNat baseFee.toNat := by
    have hcast : (baseFee.toBitVec.setWidth 128 : U128).toNat = baseFee.toNat := by
      rw [BitVec.toNat_setWidth, UInt64.toNat_toBitVec, Nat.mod_eq_of_lt (by omega)]
    split
    · rename_i hlt
      rw [BitVec.lt_def, hcast] at hlt
      omega
    · rename_i hlt
      rw [BitVec.lt_def, hcast] at hlt
      omega
  rw [BitVec.toNat_add, BitVec.toNat_mul, BitVec.toNat_setWidth, BitVec.toNat_setWidth, hmax,
    UInt64.toNat_toBitVec, ← Nat.mul_mod, Nat.mod_add_mod]
  rfl

/-- `validate_tx` accepts exactly what passes its five checks. -/
theorem validateTx_ok_iff (tx : VerifiedTx) (chainId accountNonce : UInt64)
    (accountBalance : U256) (blockGasLimit baseFee : UInt64) :
    Nbnet.validateTx tx chainId accountNonce accountBalance blockGasLimit baseFee = .ok () ↔
      (∀ id, tx.envelope.chainId = some id → id = chainId) ∧
      ¬ tx.envelope.nonce < accountNonce ∧ ¬ tx.envelope.gasLimit > blockGasLimit ∧
      ¬ tx.envelope.gasLimit < intrinsicGas tx.envelope ∧
      upfrontCost tx.envelope baseFee ≤ accountBalance.toNat := by
  rw [← toNat_upfront, ← BitVec.le_def]
  unfold Nbnet.validateTx
  cases hid : tx.envelope.chainId with
  | none =>
    simp only [check_ok_iff, lastCheck_ok_iff, gt_iff_lt, BitVec.not_lt]
    simp
  | some id =>
    simp only [check_ok_iff, lastCheck_ok_iff, gt_iff_lt, BitVec.not_lt, not_not,
      Option.some.injEq, forall_eq']

/-- The same, on the executor's state. -/
theorem validateVerified_ok_iff (e : EvmExecutor) (v : VerifiedTx) :
    e.validateVerified v = .ok () ↔
      ¬ v.envelope.nonce < e.state.getNonce v.sender ∧ PassesChecks e v := by
  unfold EvmExecutor.validateVerified
  rw [validateTx_ok_iff]
  constructor
  · rintro ⟨hid, hnonce, hgas, hint, hbal⟩
    exact ⟨hnonce, hid, UInt64.not_lt.mp hgas, UInt64.not_lt.mp hint, hbal⟩
  · rintro ⟨hnonce, h⟩
    exact ⟨h.chainId, hnonce, UInt64.not_lt.mpr h.gasLimit, UInt64.not_lt.mpr h.intrinsic,
      h.balance⟩

/-! ## What the pool takes -/

/-- The checks of `submit_tx`, on the executor's pool and state. -/
def PoolTakes (e : EvmExecutor) (v : VerifiedTx) : Prop :=
  Takes e.poolConfig (some e.state.getNonce) e.txpool v

/-- An executor whose pool has come to know a hash. -/
def Inserted (before after : EvmExecutor) (hash : B256) : Prop :=
  containsHash before.txpool hash = false ∧ containsHash after.txpool hash = true

theorem containsHash_eq (inner : PoolInner) (hash : B256) :
    containsHash inner hash = (inner.byHash[hash]?).isSome := by
  unfold containsHash
  simp

theorem containsHash_eq_false_iff (inner : PoolInner) (hash : B256) :
    containsHash inner hash = false ↔ inner.byHash[hash]? = none := by
  rw [containsHash_eq, Option.isSome_eq_false_iff, Option.isNone_iff_eq_none]

/-- `reindex` makes no other hash known than the new one. -/
theorem reindex_isSome {byHash : FMap B256 Address} {old : Option B256} {txHash hash : B256}
    {sender : Address} (h : ((reindex byHash old txHash sender)[hash]?).isSome)
    (hfresh : byHash[hash]? = none) : txHash = hash := by
  by_contra hne
  unfold reindex at h
  split at h
  · rw [FMap.get_insert, if_neg hne, FMap.get_erase] at h
    split at h <;> simp_all
  · rw [FMap.get_insert, if_neg hne, hfresh] at h
    simp at h

theorem reindex_self (byHash : FMap B256 Address) (old : Option B256) (txHash : B256)
    (sender : Address) : (reindex byHash old txHash sender)[txHash]? = some sender := by
  unfold reindex
  split <;> rw [FMap.get_insert, if_pos rfl]

variable {host : Host} {e : EvmExecutor} {raw : Bytes} {v : VerifiedTx} {hash : B256}

/-- Bytes that do not decode leave the executor alone. -/
theorem submitRawTx_of_not_decoded {err : TxError}
    (hdec : decodeAndRecover host.alloy raw = .error err) : (e.submitRawTx host raw).2 = e := by
  simp only [EvmExecutor.submitRawTx, submitTx, hdec]

/-- What passes the checks of `submit_tx` is stored under its hash. -/
theorem inserted_of_poolTakes (hdec : decodeAndRecover host.alloy raw = .ok v)
    (h : PoolTakes e v) : Inserted e (e.submitRawTx host raw).2 v.txHash := by
  obtain ⟨old, hplace⟩ := h.placed
  refine ⟨(containsHash_eq_false_iff _ _).mpr h.unknown, ?_⟩
  simp only [EvmExecutor.submitRawTx, submitTx, hdec]
  rw [submitVerified_placed h.unknown h.nonce hplace, containsHash_eq, reindex_self]
  rfl

/-- What `submit_tx` stores has passed its checks. -/
theorem poolTakes_of_inserted (hdec : decodeAndRecover host.alloy raw = .ok v)
    (h : Inserted e (e.submitRawTx host raw).2 hash) : v.txHash = hash ∧ PoolTakes e v := by
  obtain ⟨hbefore, hafter⟩ := h
  have hfresh := (containsHash_eq_false_iff _ _).mp hbefore
  simp only [EvmExecutor.submitRawTx, submitTx, hdec] at hafter
  rcases submitVerified_cases e.poolConfig (some e.state.getNonce) e.txpool v with
    ⟨err, heq⟩ | ⟨err, heq⟩ | ⟨queue', old, hnew, hnonce, hplace, heq⟩
  · rw [heq, hbefore] at hafter
    cases hafter
  · -- the record left behind is no entry
    rw [heq, containsHash_eq, hfresh] at hafter
    cases hafter
  · rw [heq, containsHash_eq] at hafter
    exact ⟨reindex_isSome hafter hfresh, (takes_of_placed hnew hnonce hplace).1⟩

/-! ## The two paths -/

inductive AdmissionPath where
  /-- `eth_sendRawTransaction`. -/
  | sendRawTransaction
  | gossip
  deriving DecidableEq, Repr

/-- The executor after a transaction has come in on a path. -/
def arrive (host : Host) (e : EvmExecutor) (raw : Bytes) : AdmissionPath → EvmExecutor
  | .sendRawTransaction => (e.submitRawTx host raw).2
  | .gossip => e.gossipTx host raw

/-- Gossip does nothing, or what a client's submission does, and then only
to a transaction `validate_tx` accepts. -/
theorem gossipTx_cases (host : Host) (e : EvmExecutor) (raw : Bytes) :
    e.gossipTx host raw = e ∨
      (e.gossipTx host raw = (e.submitRawTx host raw).2 ∧
        ∃ v, decodeAndRecover host.alloy raw = .ok v ∧ e.validateVerified v = .ok ()) := by
  unfold EvmExecutor.gossipTx EvmExecutor.validateTx
  cases hdec : decodeAndRecover host.alloy raw with
  | error err => exact .inl rfl
  | ok v =>
    cases hval : e.validateVerified v with
    | error err => exact .inl (by simp only [hval]; rfl)
    | ok u => exact .inr ⟨by simp only [hval]; rfl, v, rfl, hval⟩

theorem not_inserted_self : ¬ Inserted e e hash := by
  rintro ⟨hbefore, hafter⟩
  rw [hbefore] at hafter
  cases hafter

/-- What gossip adds, `validate_tx` has accepted. -/
theorem gossip_validates (h : Inserted e (e.gossipTx host raw) hash) :
    ∃ v, decodeAndRecover host.alloy raw = .ok v ∧ v.txHash = hash ∧
      e.validateVerified v = .ok () := by
  rcases gossipTx_cases host e raw with heq | ⟨heq, v, hdec, hval⟩
  · rw [heq] at h
    exact absurd h not_inserted_self
  · rw [heq] at h
    exact ⟨v, hdec, (poolTakes_of_inserted hdec h).1, hval⟩

/-- What a client adds has passed the pool's checks. -/
theorem submitRawTx_takes (h : Inserted e (e.submitRawTx host raw).2 hash) :
    ∃ v, decodeAndRecover host.alloy raw = .ok v ∧ v.txHash = hash ∧ PoolTakes e v := by
  cases hdec : decodeAndRecover host.alloy raw with
  | error err =>
    rw [submitRawTx_of_not_decoded hdec] at h
    exact absurd h not_inserted_self
  | ok v => exact ⟨v, rfl, poolTakes_of_inserted hdec h⟩

/-- Whatever a transaction adds to the pool, on either path, `validate_tx`
accepts against the state it was added in. -/
def AdmitsOnlyValid (host : Host) (e : EvmExecutor) (raw : Bytes) : Prop :=
  ∀ path hash, Inserted e (arrive host e raw path) hash →
    ∃ v, decodeAndRecover host.alloy raw = .ok v ∧ v.txHash = hash ∧
      e.validateVerified v = .ok ()

/-- **Admission validates exactly when the pool's own checks are enough**:
the transaction passes the chain id, gas and balance checks, or the pool
turns it away for a reason of its own. -/
theorem admission_validates_iff (host : Host) (e : EvmExecutor) (raw : Bytes) :
    AdmitsOnlyValid host e raw ↔
      ∀ v, decodeAndRecover host.alloy raw = .ok v → PoolTakes e v → PassesChecks e v := by
  constructor
  · intro h v hdec htakes
    obtain ⟨v', hdec', -, hval⟩ :=
      h .sendRawTransaction v.txHash (inserted_of_poolTakes hdec htakes)
    obtain rfl : v = v' := Except.ok.inj (hdec.symm.trans hdec')
    exact ((validateVerified_ok_iff e v).mp hval).2
  · intro h path hash hins
    cases path with
    | gossip => exact gossip_validates hins
    | sendRawTransaction =>
      obtain ⟨v, hdec, hhash, htakes⟩ := submitRawTx_takes hins
      exact ⟨v, hdec, hhash,
        (validateVerified_ok_iff e v).mpr ⟨htakes.nonce, h v hdec htakes⟩⟩

/-- Alice holds one wei and submits a transfer of a million. -/
theorem unfunded_transaction_admitted :
    ¬ AdmitsOnlyValid sampleHost (.fromGenesis sampleHost poorGenesis) alice0.raw := by
  intro h
  obtain ⟨v, hdec, -, hval⟩ := h .sendRawTransaction alice0.txHash
    ⟨by decide +kernel, by decide +kernel⟩
  have hv : decodeAndRecover sampleHost.alloy alice0.raw = .ok alice0 := by decide +kernel
  obtain rfl : alice0 = v := Except.ok.inj (hv.symm.trans hdec)
  revert hval
  decide +kernel

end Nbnet.Execution
