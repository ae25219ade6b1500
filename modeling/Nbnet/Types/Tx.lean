/-
Nbnet.Types.Tx — transactions: decoding, sender recovery, validation and
the effective tip (`crates/types/src/tx.rs`).

The EIP-2718 codec, signature recovery and the transaction hash are
alloy's and not part of the repository: they enter as the fields of an
`Alloy` value. `TxEnvelope` holds what alloy's `Transaction` trait reports
of a decoded envelope, plus the signature that makes two otherwise equal
envelopes different: it also stands for what is signed and never read here
(access list, authorizations).
-/
import Nbnet.Types.Primitives

namespace Nbnet

open Lib

/-- The EIP-2718 transaction types. -/
inductive TxType where
  | legacy
  | eip2930
  | eip1559
  | eip4844
  | eip7702
  deriving DecidableEq, Repr

/-- A decoded transaction, as the accessors of alloy's `Transaction` trait
report it. -/
structure TxEnvelope where
  txType : TxType
  chainId : Option UInt64
  nonce : UInt64
  gasLimit : UInt64
  maxFeePerGas : U128
  maxPriorityFeePerGas : Option U128
  toAddr : Option Address
  value : U256
  input : Bytes
  signature : Bytes
  deriving DecidableEq, Repr

/-- alloy: the EIP-2718 decoder (which reads one envelope from the front
of the buffer and leaves the rest), sender recovery, the hash. -/
structure Alloy where
  decode2718 : Bytes → Except String (TxEnvelope × Bytes)
  recoverSigner : TxEnvelope → Except String Address
  txHash : TxEnvelope → B256

/-- A decoded and sender-recovered transaction. -/
structure VerifiedTx where
  raw : Bytes
  envelope : TxEnvelope
  sender : Address
  txHash : B256
  deriving DecidableEq, Repr

inductive TxError where
  | rlpDecode (e : String)
  | signatureRecovery (e : String)
  | chainIdMismatch (expected : UInt64) (got : Option UInt64)
  | nonceTooLow (expected got : UInt64)
  | insufficientBalance (required available : U256)
  | intrinsicGasTooLow (required got : UInt64)
  | gasLimitExceedsBlock (txGas blockLimit : UInt64)
  deriving DecidableEq, Repr

/-- `Display for TxError`. -/
def TxError.display : TxError → String
  | .rlpDecode e => s!"RLP decode: {e}"
  | .signatureRecovery e => s!"signature recovery: {e}"
  | .chainIdMismatch expected (some got) =>
      s!"chain_id mismatch: expected {expected}, got Some({got})"
  | .chainIdMismatch expected none => s!"chain_id mismatch: expected {expected}, got None"
  | .nonceTooLow expected got => s!"nonce too low: expected >= {expected}, got {got}"
  | .insufficientBalance required available =>
      s!"insufficient balance: need {required.toNat}, have {available.toNat}"
  | .intrinsicGasTooLow required got => s!"intrinsic gas too low: need {required}, got {got}"
  | .gasLimitExceedsBlock txGas blockLimit =>
      s!"gas limit {txGas} exceeds block limit {blockLimit}"

/-- `decode_and_recover`. The whole buffer is kept as `raw`, also when the
decoder read only its front. -/
def decodeAndRecover (al : Alloy) (raw : Bytes) : Except TxError VerifiedTx := do
  let (envelope, _) ← (al.decode2718 raw).mapError .rlpDecode
  let sender ← (al.recoverSigner envelope).mapError .signatureRecovery
  return { raw, envelope, sender, txHash := al.txHash envelope }

/-- `intrinsic_gas`. -/
def intrinsicGas (tx : TxEnvelope) : UInt64 :=
  let baseCost : UInt64 := if tx.toAddr.isSome then 21000 else 53000
  let dataCost : UInt64 :=
    tx.input.foldl (fun acc byte => satAdd64 acc (if byte = 0 then 4 else 16)) 0
  satAdd64 baseCost dataCost

/-- `validate_tx`, check by check in the order of the source. -/
def validateTx (tx : VerifiedTx) (chainId accountNonce : UInt64) (accountBalance : U256)
    (blockGasLimit baseFee : UInt64) : Except TxError Unit := do
  match tx.envelope.chainId with
  | some id => if id ≠ chainId then throw (.chainIdMismatch chainId (some id))
  | none => pure ()
  let txNonce := tx.envelope.nonce
  if txNonce < accountNonce then throw (.nonceTooLow accountNonce txNonce)
  let txGas := tx.envelope.gasLimit
  if txGas > blockGasLimit then throw (.gasLimitExceedsBlock txGas blockGasLimit)
  let intrinsic := intrinsicGas tx.envelope
  if txGas < intrinsic then throw (.intrinsicGasTooLow intrinsic txGas)
  -- `U256` arithmetic: both operators are modulo 2 ^ 256
  let baseFee128 : U128 := baseFee.toBitVec.setWidth 128
  let maxFee : U128 :=
    if tx.envelope.maxFeePerGas < baseFee128 then baseFee128 else tx.envelope.maxFeePerGas
  let upfront : U256 :=
    txGas.toBitVec.setWidth 256 * maxFee.setWidth 256 + tx.envelope.value
  if upfront > accountBalance then throw (.insufficientBalance upfront accountBalance)

/-- `effective_gas_tip`. Both `as u64` casts keep the low 64 bits. -/
def effectiveGasTip (tx : TxEnvelope) (baseFee : UInt64) : UInt64 :=
  let maxFee := UInt64.ofNat tx.maxFeePerGas.toNat
  let maxPriority := UInt64.ofNat (tx.maxPriorityFeePerGas.getD 0).toNat
  min (satSub64 maxFee baseFee) maxPriority

/-! ## What decoding returns -/

variable {al : Alloy} {raw : Bytes} {v : VerifiedTx}

/-- A successful decode is a transaction the decoder read from the front of
the bytes, with its signer. -/
theorem decodeAndRecover_read (h : decodeAndRecover al raw = .ok v) :
    (∃ rest, al.decode2718 raw = .ok (v.envelope, rest)) ∧
      al.recoverSigner v.envelope = .ok v.sender ∧ v.raw = raw ∧
      v.txHash = al.txHash v.envelope := by
  unfold decodeAndRecover at h
  cases hd : al.decode2718 raw with
  | error e => simp [hd, Except.mapError, bind, Except.bind] at h
  | ok p =>
    cases hs : al.recoverSigner p.1 with
    | error e => simp [hd, hs, Except.mapError, bind, Except.bind] at h
    | ok sender =>
      simp [hd, hs, Except.mapError, bind, Except.bind, pure, Except.pure] at h
      subst h
      exact ⟨⟨p.2, rfl⟩, hs, rfl, rfl⟩

/-- It keeps the bytes it was given and takes sender and hash from the
envelope. -/
theorem decodeAndRecover_ok (h : decodeAndRecover al raw = .ok v) :
    v.raw = raw ∧ al.recoverSigner v.envelope = .ok v.sender ∧
      v.txHash = al.txHash v.envelope := by
  obtain ⟨-, hsigner, hraw, hhash⟩ := decodeAndRecover_read h
  exact ⟨hraw, hsigner, hhash⟩

/-- The hash of a transaction determines its sender and its nonce. -/
def HashDetermines (al : Alloy) : Prop :=
  ∀ e e', al.txHash e = al.txHash e' →
    al.recoverSigner e = al.recoverSigner e' ∧ e.nonce = e'.nonce

theorem HashDetermines.eq_sender (hal : HashDetermines al) {raw' : Bytes} {v' : VerifiedTx}
    (h : decodeAndRecover al raw = .ok v) (h' : decodeAndRecover al raw' = .ok v')
    (hh : v.txHash = v'.txHash) :
    v.sender = v'.sender ∧ v.envelope.nonce = v'.envelope.nonce := by
  obtain ⟨-, hs, ht⟩ := decodeAndRecover_ok h
  obtain ⟨-, hs', ht'⟩ := decodeAndRecover_ok h'
  obtain ⟨h1, h2⟩ := hal _ _ (ht ▸ ht' ▸ hh)
  rw [hs, hs'] at h1
  exact ⟨Except.ok.inj h1, h2⟩

/-! ## Four signed transactions

Concrete runs below use these. They are EIP-1559 transfers on chain 1337,
signed with two throw-away keys; `Alloy.ofTable` is alloy on the byte
strings of a table and rejects every other one. -/

/-- alloy restricted to the transactions of a table. -/
def Alloy.ofTable (table : List VerifiedTx) : Alloy where
  decode2718 raw :=
    match table.find? (·.raw = raw) with
    | some v => .ok (v.envelope, [])
    | none => .error "unexpected input"
  recoverSigner e :=
    match table.find? (·.envelope = e) with
    | some v => .ok v.sender
    | none => .error "invalid signature"
  txHash e :=
    match table.find? (·.envelope = e) with
    | some v => v.txHash
    | none => e.nonce.toBitVec.setWidth 256

/-- A transfer of 1000000 wei at 30 gwei. -/
def sampleEnvelope (nonce : UInt64) (tip : U128) (gasLimit : UInt64) (signature : Bytes) :
    TxEnvelope where
  txType := .eip1559
  chainId := some 1337
  nonce := nonce
  gasLimit := gasLimit
  maxFeePerGas := 30000000000
  maxPriorityFeePerGas := some tip
  toAddr := some 0xbbbbbbbbbbbbbbbbbbbbbbbbbbbbbbbbbbbbbbbb
  value := 1000000
  input := []
  signature := signature

/-- Alice's transaction of nonce 0. -/
def alice0 : VerifiedTx where
  raw := beBytes 115 0x02f8708205398084773594008506fc23ac0082520894bbbbbbbbbbbbbbbbbbbbbbbbbbbbbbbbbbbbbbbb830f424080c080a07a84f1866c655ecaf1627dcd3398a2bb6422a9ae7ebd98c4d7633fc020c6d701a020f541d6c77ffcd0603138a599fd7ed3ad1d24892b744b321b56d35c15984482
  envelope := sampleEnvelope 0 2000000000 21000 (beBytes 65 0x7a84f1866c655ecaf1627dcd3398a2bb6422a9ae7ebd98c4d7633fc020c6d70120f541d6c77ffcd0603138a599fd7ed3ad1d24892b744b321b56d35c1598448200)
  sender := 0x62d283fe6939c01fc88f02c6d2c9a547cc3e2656
  txHash := 0x374d0df1d07d2d955ad776ecbae6540c9f52c922aedb34a08579a34e006208fa

/-- Alice's transaction of nonce 1. -/
def alice1 : VerifiedTx where
  raw := beBytes 115 0x02f8708205390184773594008506fc23ac0082520894bbbbbbbbbbbbbbbbbbbbbbbbbbbbbbbbbbbbbbbb830f424080c080a01b39256d12f0c67093d5da7e827bc3bec0d5b3742223a5933f8ea09203560cf0a06e5f25835bbb5435d6ead70950b0b851f03c987ed89fe85e23e51d0718dd0311
  envelope := sampleEnvelope 1 2000000000 21000 (beBytes 65 0x1b39256d12f0c67093d5da7e827bc3bec0d5b3742223a5933f8ea09203560cf06e5f25835bbb5435d6ead70950b0b851f03c987ed89fe85e23e51d0718dd031100)
  sender := 0x62d283fe6939c01fc88f02c6d2c9a547cc3e2656
  txHash := 0xb518e0edfc3d364cdd0ca5b2fba4ac83868ed5ecda37a46b06bdda9ac259b999

/-- A second transaction of Alice with nonce 1, with a tip of 1 wei. -/
def alice1Cheap : VerifiedTx where
  raw := beBytes 111 0x02f86c82053901018506fc23ac0082520894bbbbbbbbbbbbbbbbbbbbbbbbbbbbbbbbbbbbbbbb830f424080c080a093d11e620cb776ff36cf2c7967d0c87330d51fdad47405d85243dacbcfd1091da048dea8e38d38779b1535876fbf91f57dd4fa7113adae535c0c503dd400c931cb
  envelope := sampleEnvelope 1 1 21000 (beBytes 65 0x93d11e620cb776ff36cf2c7967d0c87330d51fdad47405d85243dacbcfd1091d48dea8e38d38779b1535876fbf91f57dd4fa7113adae535c0c503dd400c931cb00)
  sender := 0x62d283fe6939c01fc88f02c6d2c9a547cc3e2656
  txHash := 0x8fef2db4f5a599fe222c9ec9181fac66b97806d4a9d8108b236e7222adac8ce1

/-- Bob's transaction of nonce 0, with the largest gas limit a `u64` holds. -/
def bob0 : VerifiedTx where
  raw := beBytes 121 0x02f87682053980843b9aca008506fc23ac0088ffffffffffffffff94bbbbbbbbbbbbbbbbbbbbbbbbbbbbbbbbbbbbbbbb830f424080c001a08190c2ff301b8609823af80eb95df7b1483204a4ea191c34bdfc0c8dc1784217a02bb6f51d495fade5fbc133120ec73c9d3f4026ae1788b34fc4f33602d00cf660
  envelope := sampleEnvelope 0 1000000000 18446744073709551615 (beBytes 65 0x8190c2ff301b8609823af80eb95df7b1483204a4ea191c34bdfc0c8dc17842172bb6f51d495fade5fbc133120ec73c9d3f4026ae1788b34fc4f33602d00cf66001)
  sender := 0x3eb67a970e24813f80040fd5d707fe6881d5063d
  txHash := 0x31e7cf95819d67d73533578bbbf0d77ff36962f5a978f04382164773bbb3ea6f

def sampleTable : List VerifiedTx := [alice0, alice1, alice1Cheap, bob0]

def sampleAlloy : Alloy := .ofTable sampleTable

/-- The envelopes outside a table all hash to a word below `2 ^ 64`. -/
theorem hashDetermines_ofTable {table : List VerifiedTx}
    (hlarge : ∀ v ∈ table, 2 ^ 64 ≤ v.txHash.toNat)
    (hdistinct : ∀ v ∈ table, ∀ v' ∈ table, v.txHash = v'.txHash →
      v.sender = v'.sender ∧ v.envelope.nonce = v'.envelope.nonce) :
    HashDetermines (.ofTable table) := by
  have hsmall : ∀ e : TxEnvelope, (e.nonce.toBitVec.setWidth 256).toNat = e.nonce.toNat := by
    intro e
    have := e.nonce.toNat_lt
    simp only [BitVec.toNat_setWidth, UInt64.toNat_toBitVec]
    omega
  have hmem : ∀ {e v}, table.find? (·.envelope = e) = some v → v ∈ table ∧ v.envelope = e :=
    fun h => ⟨List.mem_of_find?_eq_some h, by simpa using List.find?_some h⟩
  intro e e' hhash
  simp only [Alloy.ofTable] at hhash ⊢
  cases h : table.find? (·.envelope = e) with
  | some v =>
    obtain ⟨hv, rfl⟩ := hmem h
    cases h' : table.find? (·.envelope = e') with
    | some v' =>
      obtain ⟨hv', rfl⟩ := hmem h'
      simp only [h, h'] at hhash
      obtain ⟨hs, hn⟩ := hdistinct v hv v' hv' hhash
      exact ⟨congrArg Except.ok hs, hn⟩
    | none =>
      simp only [h, h'] at hhash
      have := hlarge v hv
      have := e'.nonce.toNat_lt
      rw [hhash, hsmall] at *
      omega
  | none =>
    cases h' : table.find? (·.envelope = e') with
    | some v' =>
      obtain ⟨hv', rfl⟩ := hmem h'
      simp only [h, h'] at hhash
      have := hlarge v' hv'
      have := e.nonce.toNat_lt
      rw [← hhash, hsmall] at *
      omega
    | none =>
      simp only [h, h'] at hhash
      have heq := congrArg BitVec.toNat hhash
      rw [hsmall, hsmall] at heq
      exact ⟨rfl, UInt64.toNat_inj.mp heq⟩

theorem hashDetermines_sampleAlloy : HashDetermines sampleAlloy :=
  hashDetermines_ofTable (by decide +kernel) (by decide +kernel)

/-- A transfer of 1000000 wei with a gas price. -/
def legacyEnvelope (gasPrice : U128) (signature : Bytes) : TxEnvelope :=
  { sampleEnvelope 0 0 21000 signature with
    txType := .legacy
    maxFeePerGas := gasPrice
    maxPriorityFeePerGas := none }

/-- Alice's transaction of nonce 0 at a gas price of 30 gwei. -/
def aliceLegacy : VerifiedTx where
  raw := beBytes 107 0xf869808506fc23ac0082520894bbbbbbbbbbbbbbbbbbbbbbbbbbbbbbbbbbbbbbbb830f424080820a96a041d51e1575e865326ce3ccb6ef6ed1adb5ef7a17a3fb83d7ead1adb18489648ba05b37e383631c15c30de501dc54cef8dd995c4ce173ab9006198427a2bb372754
  envelope := legacyEnvelope 30000000000 (beBytes 65 0x41d51e1575e865326ce3ccb6ef6ed1adb5ef7a17a3fb83d7ead1adb18489648b5b37e383631c15c30de501dc54cef8dd995c4ce173ab9006198427a2bb37275401)
  sender := 0x62d283fe6939c01fc88f02c6d2c9a547cc3e2656
  txHash := 0xe7fdcdef6cc342665cda2c90720cffa29310a47ea6ded60b5ed1390d83ef45fe

/-- Another one of Alice with nonce 0, at 20 gwei. -/
def aliceLegacyLow : VerifiedTx where
  raw := beBytes 107 0xf869808504a817c80082520894bbbbbbbbbbbbbbbbbbbbbbbbbbbbbbbbbbbbbbbb830f424080820a96a0bd21a3c74afe2cdfff510e6079762c5bd7d70e8d70e5565e7f1e7bdb60946404a02748b2759f943f6cb314b1f6f741a38f83d39038cd953b2217e334655626545f
  envelope := legacyEnvelope 20000000000 (beBytes 65 0xbd21a3c74afe2cdfff510e6079762c5bd7d70e8d70e5565e7f1e7bdb609464042748b2759f943f6cb314b1f6f741a38f83d39038cd953b2217e334655626545f01)
  sender := 0x62d283fe6939c01fc88f02c6d2c9a547cc3e2656
  txHash := 0x0b0f6f447d01992b2f22925eb5a576ca184f684c84611f0cf63756f27a0d9722

/-- Bob creates a contract with the largest gas limit; the init code is the
invalid instruction, which uses up all of it. -/
def bobCreate : VerifiedTx where
  raw := beBytes 99 0x02f86082053980843b9aca008506fc23ac0088ffffffffffffffff808081fec080a0485d453c55410d9193ac184c85d70e8ab4d3edc8d943c6754b314306e7250da4a033531329c21f4b59debabc26f64370598243f55e564daa384b36c76789e69367
  envelope :=
    { sampleEnvelope 0 1000000000 18446744073709551615 (beBytes 65 0x485d453c55410d9193ac184c85d70e8ab4d3edc8d943c6754b314306e7250da433531329c21f4b59debabc26f64370598243f55e564daa384b36c76789e6936700) with
      toAddr := none
      value := 0
      input := [0xfe] }
  sender := 0x3eb67a970e24813f80040fd5d707fe6881d5063d
  txHash := 0x5f023e27390bd73d79d3f2075a3af1e8b68bb2161458de38932cd13d1a51af96

/-- Alice creates the same contract with 53016 gas: the price of a creation
and of the one byte, but not of a word of init code. -/
def aliceCreate : VerifiedTx where
  raw := beBytes 93 0x02f85a8205398084773594008506fc23ac0082cf18808081fec001a068b517b443b0197731431920521de9b8f14bdd5066ebba1da616e73775e91be8a04ddec376c315663b6cdb1f2cfe0e33134d798adefd16d08c9d21aecc221105ef
  envelope :=
    { sampleEnvelope 0 2000000000 53016 (beBytes 65 0x68b517b443b0197731431920521de9b8f14bdd5066ebba1da616e73775e91be84ddec376c315663b6cdb1f2cfe0e33134d798adefd16d08c9d21aecc221105ef01) with
      toAddr := none
      value := 0
      input := [0xfe] }
  sender := 0x62d283fe6939c01fc88f02c6d2c9a547cc3e2656
  txHash := 0x95ee8864bf7eb51cc437e5d64047aa7245066be11ff38382a2065ffdeda9dbdd

def legacyAlloy : Alloy := .ofTable [aliceLegacy, aliceLegacyLow]

/-- Alice sends a value that makes up `2 ^ 256` with the fee of 21000 gas
at 30 gwei. -/
def aliceHuge : VerifiedTx where
  raw := beBytes 144 0x02f88d8205398084773594008506fc23ac0082520894bbbbbbbbbbbbbbbbbbbbbbbbbbbbbbbbbbbbbbbba0fffffffffffffffffffffffffffffffffffffffffffffffffffdc304b1caa00080c080a02e73e26660efd8f6652fe90bf25442ea042c0a76e431a74f51a3d2606d8eff47a00f9a4a2e2e5e4c3150385e9f361dac2b0c60c3e1dfb0d9a995e863aaf89b2cc7
  envelope :=
    { sampleEnvelope 0 2000000000 21000 (beBytes 65 0x2e73e26660efd8f6652fe90bf25442ea042c0a76e431a74f51a3d2606d8eff470f9a4a2e2e5e4c3150385e9f361dac2b0c60c3e1dfb0d9a995e863aaf89b2cc700) with
      value := 0xfffffffffffffffffffffffffffffffffffffffffffffffffffdc304b1caa000 }
  sender := 0x62d283fe6939c01fc88f02c6d2c9a547cc3e2656
  txHash := 0xf2637b132132f4802da04ac13bcdfb0e34ad3893094e556c4a20c13f0927a9e2

end Nbnet
