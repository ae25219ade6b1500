/-
Nbnet.Txpool.EncodingTheorems — the bytes a transaction travels in.

`decode_and_recover` hands `decode_2718` the whole buffer and never looks
at what the decoder left in it, so a transaction followed by any bytes is
accepted under the transaction's own hash. The pool keeps the buffer as it
came, the RPC server broadcasts it and `collect_payload` copies it into the
payload. Padded buffers are the only ones where this shows:
`one_encoding_iff_unpadded` says that without them every byte string on its
way is the encoding of its envelope.

What alloy promises is `ReadsFront` of `Lib.Codec`, over the envelopes that
have an encoding, and a hash that tells these apart.
-/
import Nbnet.Lib.Codec
import Nbnet.Txpool.CollectTheorems

namespace Nbnet.Txpool

open Lib

/-- What `eth_sendRawTransaction` hands to the network sink: the bytes of a
submission the pool took. -/
def broadcastTx (al : Alloy) (config : EvmTxPoolConfig) (nonceFn : Option (Address → UInt64))
    (inner : PoolInner) (raw : Bytes) : Option Bytes :=
  match (submitTx al config nonceFn inner raw).1 with
  | .ok _ => some raw
  | .error _ => none

section Encoding

variable {al : Alloy} {encode : TxEnvelope → Bytes} {valid : TxEnvelope → Prop}

/-! ## One buffer -/

theorem raw_eq_encode_iff (hal : ReadsFront al.decode2718 encode valid) {raw : Bytes}
    {v : VerifiedTx} (h : decodeAndRecover al raw = .ok v) :
    raw = encode v.envelope ↔ ¬ Padded encode valid raw := by
  obtain ⟨⟨rest, hread⟩, -⟩ := decodeAndRecover_read h
  exact hal.eq_encode_iff hread

theorem valid_of_decoded (hal : ReadsFront al.decode2718 encode valid) {raw : Bytes}
    {v : VerifiedTx} (h : decodeAndRecover al raw = .ok v) : valid v.envelope := by
  obtain ⟨⟨rest, hread⟩, -⟩ := decodeAndRecover_read h
  exact ((hal.decode_iff _ _ _).mp hread).1

theorem envelope_eq_of_hash (hal : ReadsFront al.decode2718 encode valid)
    (hhash : ∀ e e', valid e → valid e' → al.txHash e = al.txHash e' → e = e')
    {raw raw' : Bytes} {v v' : VerifiedTx} (h : decodeAndRecover al raw = .ok v)
    (h' : decodeAndRecover al raw' = .ok v') (heq : v.txHash = v'.txHash) :
    v.envelope = v'.envelope := by
  refine hhash _ _ (valid_of_decoded hal h) (valid_of_decoded hal h') ?_
  rw [← (decodeAndRecover_ok h).2.2, ← (decodeAndRecover_ok h').2.2, heq]

/-! ## Pool, gossip and payload -/

theorem broadcastTx_eq_some {config : EvmTxPoolConfig} {nonceFn : Option (Address → UInt64)}
    {inner : PoolInner} {raw bytes : Bytes}
    (h : broadcastTx al config nonceFn inner raw = some bytes) :
    bytes = raw ∧ ∃ v, decodeAndRecover al raw = .ok v := by
  unfold broadcastTx submitTx at h
  cases hdec : decodeAndRecover al raw with
  | error e => simp [hdec] at h
  | ok v =>
    simp only [hdec] at h
    split at h
    · exact ⟨(Option.some.inj h).symm, v, rfl⟩
    · cases h

/-- The payload's records are entries of the pool. -/
theorem payload_of_held (it : IterOrder Address SenderQueue) (inner : PoolInner) (maxBytes : Nat)
    (maxGas : UInt64) :
    ∃ xs : List (Address × PoolEntry), (∀ x ∈ xs, x ∈ held inner) ∧
      (collectPayload it inner maxBytes maxGas).1
        = xs.flatMap fun x => frame 4 x.2.verified.raw := by
  obtain ⟨picked, hsel⟩ := exists_selected it inner maxBytes maxGas
  obtain ⟨hheld, -⟩ := removeAll_picks picked inner hsel.onePerSender
    fun p hp => (hsel.lowest p hp).pending
  refine ⟨picked.map fun p => (p.sender, p.entry), fun x hx => ?_, ?_⟩
  · exact hheld.mem_iff.mpr (List.mem_append_left _ hx)
  · rw [collectPayload, hsel.payload, List.flatMap_map, List.flatMap_map]

/-- The records of a payload fit their lengths. -/
theorem payload_records (it : IterOrder Address SenderQueue) (inner : PoolInner) {maxBytes : Nat}
    (maxGas : UInt64) (hmax : maxBytes < 2 ^ 32) :
    ∃ xs : List (Address × PoolEntry), (∀ x ∈ xs, x ∈ held inner) ∧
      (collectPayload it inner maxBytes maxGas).1
        = (xs.map (·.2.verified.raw)).flatMap (frame 4) ∧
      ∀ tx ∈ xs.map (·.2.verified.raw), tx.length < 256 ^ 4 := by
  obtain ⟨xs, hxs, hpayload⟩ := payload_of_held it inner maxBytes maxGas
  rw [← List.flatMap_map] at hpayload
  refine ⟨xs, hxs, hpayload, fun tx htx => ?_⟩
  have hshort : (collectPayload it inner maxBytes maxGas).1.length ≤ maxBytes :=
    selectLoop_length _ _ (Nat.zero_le _)
  have hle := length_le_frames (w := 4) htx
  rw [← hpayload] at hle
  omega

/-- **One transaction, one encoding, as long as nothing is padded.** Two
accepted byte strings of one hash are equal and the encoding of their
envelope exactly when neither has bytes behind the envelope. In every run
of the pool where no submission has, what the pool holds, what is broadcast
and what the payload carries are encodings. -/
theorem one_encoding_iff_unpadded (hal : ReadsFront al.decode2718 encode valid)
    (hhash : ∀ e e', valid e → valid e' → al.txHash e = al.txHash e' → e = e') :
    (∀ (raw raw' : Bytes) (v v' : VerifiedTx), decodeAndRecover al raw = .ok v →
      decodeAndRecover al raw' = .ok v' → v.txHash = v'.txHash →
      ((raw = raw' ∧ v.raw = encode v.envelope ∧ v'.raw = encode v'.envelope) ↔
        ¬ Padded encode valid raw ∧ ¬ Padded encode valid raw')) ∧
    ∀ (config : EvmTxPoolConfig) (ops : List PoolOp),
      (∀ nonceFn raw, .submit nonceFn raw ∈ ops → ¬ Padded encode valid raw) →
      let pool := ops.foldl (applyOp al config) PoolInner.new
      (∀ x ∈ held pool, x.2.verified.raw = encode x.2.verified.envelope) ∧
      (∀ nonceFn raw bytes, ¬ Padded encode valid raw →
        broadcastTx al config nonceFn pool raw = some bytes →
        ∃ v, decodeAndRecover al raw = .ok v ∧ bytes = encode v.envelope) ∧
      ∀ it maxBytes maxGas, ∃ xs : List (Address × PoolEntry), (∀ x ∈ xs, x ∈ held pool) ∧
        (collectPayload it pool maxBytes maxGas).1
          = xs.flatMap fun x => frame 4 (encode x.2.verified.envelope) := by
  constructor
  · intro raw raw' v v' h h' heq
    have henv := envelope_eq_of_hash hal hhash h h' heq
    rw [(decodeAndRecover_ok h).1, (decodeAndRecover_ok h').1, raw_eq_encode_iff hal h,
      raw_eq_encode_iff hal h']
    constructor
    · exact fun hall => hall.2
    · rintro ⟨hraw, hraw'⟩
      refine ⟨?_, hraw, hraw'⟩
      rw [(raw_eq_encode_iff hal h).mpr hraw, (raw_eq_encode_iff hal h').mpr hraw', henv]
  · intro config ops hops pool
    have hheld : ∀ x ∈ held pool, x.2.verified.raw = encode x.2.verified.envelope := by
      intro x hx
      obtain ⟨nonceFn, raw, hmem, hdec⟩ := held_run al config ops x hx
      rw [(decodeAndRecover_ok hdec).1]
      exact (raw_eq_encode_iff hal hdec).mpr (hops nonceFn raw hmem)
    refine ⟨hheld, ?_, ?_⟩
    · intro nonceFn raw bytes hraw hsent
      obtain ⟨rfl, v, hdec⟩ := broadcastTx_eq_some hsent
      exact ⟨v, hdec, (raw_eq_encode_iff hal hdec).mpr hraw⟩
    · intro it maxBytes maxGas
      obtain ⟨xs, hxs, hpay⟩ := payload_of_held it pool maxBytes maxGas
      refine ⟨xs, hxs, ?_⟩
      rw [hpay]
      exact List.flatMap_congr fun x hx => by rw [hheld x (hxs x hx)]

end Encoding

/-! ## A decoder that reads from the front

`Alloy.ofTable` only knows whole byte strings. This one reads a transaction
of the table from the front of the buffer, as `decode_2718` does. -/

def frontAlloy (table : List VerifiedTx) : Alloy :=
  { Alloy.ofTable table with
    decode2718 := fun raw =>
      match table.find? fun v => v.raw.isPrefixOf raw with
      | some v => .ok (v.envelope, raw.drop v.raw.length)
      | none => .error "unexpected input" }

def tableEncode (table : List VerifiedTx) (e : TxEnvelope) : Bytes :=
  ((table.find? fun v => v.envelope = e).map VerifiedTx.raw).getD []

theorem find_unique {table : List VerifiedTx} {p : VerifiedTx → Bool} {v : VerifiedTx}
    (hv : v ∈ table) (hp : p v) (huniq : ∀ w ∈ table, p w → w = v) : table.find? p = some v := by
  cases hfind : table.find? p with
  | none => exact absurd hp (List.find?_eq_none.mp hfind v hv)
  | some w => rw [huniq w (List.mem_of_find?_eq_some hfind) (List.find?_some hfind)]

theorem readsFront_table {table : List VerifiedTx}
    (hraw : ∀ v ∈ table, ∀ w ∈ table, v.raw <+: w.raw → v = w)
    (henv : ∀ v ∈ table, ∀ w ∈ table, v.envelope = w.envelope → v = w) :
    ReadsFront (frontAlloy table).decode2718 (tableEncode table)
      (· ∈ table.map VerifiedTx.envelope) := by
  have hencode : ∀ v ∈ table, tableEncode table v.envelope = v.raw := by
    intro v hv
    have hfind : table.find? (fun w => w.envelope = v.envelope) = some v :=
      find_unique hv (by simp) fun w hw heq => henv w hw v hv (by simpa using heq)
    rw [tableEncode, hfind]
    rfl
  have hdecode : ∀ v ∈ table, ∀ rest,
      (frontAlloy table).decode2718 (v.raw ++ rest) = .ok (v.envelope, rest) := by
    intro v hv rest
    have hfind : table.find? (fun w => w.raw.isPrefixOf (v.raw ++ rest)) = some v := by
      refine find_unique hv (by simp) fun w hw hpre => ?_
      have hpre' : w.raw <+: v.raw ++ rest := List.isPrefixOf_iff_prefix.mp hpre
      rcases List.prefix_or_prefix_of_prefix hpre' (List.prefix_append v.raw rest) with h | h
      · exact hraw w hw v hv h
      · exact (hraw v hv w hw h).symm
    simp [frontAlloy, hfind]
  refine ⟨fun buf e rest => ⟨fun hread => ?_, ?_⟩⟩
  · simp only [frontAlloy] at hread
    split at hread
    · rename_i v hfind
      have hv := List.mem_of_find?_eq_some hfind
      obtain ⟨tail, rfl⟩ : v.raw <+: buf := List.isPrefixOf_iff_prefix.mp (by
        simpa using List.find?_some hfind)
      obtain ⟨rfl, rfl⟩ : v.envelope = e ∧ tail = rest := by simpa using hread
      exact ⟨List.mem_map_of_mem hv, by rw [hencode v hv]⟩
    · cases hread
  · rintro ⟨he, rfl⟩
    obtain ⟨v, hv, rfl⟩ := List.mem_map.mp he
    rw [hencode v hv]
    exact hdecode v hv rest

def aliceTable : List VerifiedTx := [alice0, alice1]

abbrev AliceEnvelope (e : TxEnvelope) : Prop := e ∈ aliceTable.map VerifiedTx.envelope

theorem readsFront_alice :
    ReadsFront (frontAlloy aliceTable).decode2718 (tableEncode aliceTable) AliceEnvelope :=
  readsFront_table (by decide +kernel) (by decide +kernel)

theorem hash_alice : ∀ e e', AliceEnvelope e → AliceEnvelope e' →
    (frontAlloy aliceTable).txHash e = (frontAlloy aliceTable).txHash e' → e = e' := by
  have hall : ∀ e ∈ aliceTable.map VerifiedTx.envelope, ∀ e' ∈ aliceTable.map VerifiedTx.envelope,
      (frontAlloy aliceTable).txHash e = (frontAlloy aliceTable).txHash e' → e = e' := by
    decide +kernel
  exact fun e e' he he' => hall e he e' he'

/-- Alice's transaction with nothing behind it. -/
theorem one_encoding_alice :
    ¬ Padded (tableEncode aliceTable) AliceEnvelope alice0.raw ∧
      ∀ x ∈ held (([.submit (some fun _ => 0) alice0.raw] : List PoolOp).foldl
          (applyOp (frontAlloy aliceTable) {}) PoolInner.new),
        x.2.verified.raw = tableEncode aliceTable x.2.verified.envelope := by
  obtain ⟨hpair, hrun⟩ := one_encoding_iff_unpadded readsFront_alice hash_alice
  have hdec : decodeAndRecover (frontAlloy aliceTable) alice0.raw = .ok alice0 := by
    decide +kernel
  have hunpadded := ((hpair alice0.raw alice0.raw alice0 alice0 hdec hdec rfl).mp
    (by decide +kernel)).1
  refine ⟨hunpadded, (hrun {} _ ?_).1⟩
  intro nonceFn raw hmem
  obtain ⟨-, rfl⟩ : nonceFn = some (fun _ => 0) ∧ raw = alice0.raw := by simpa using hmem
  exact hunpadded

/-- Alice's transaction and the same with a zero byte behind it: one hash,
two accepted byte strings, and the longer one is pooled, broadcast and put
into a payload. -/
theorem padded_twin_accepted :
    let al := frontAlloy aliceTable
    let padded := alice0.raw ++ [0]
    let pool := ([.submit (some fun _ => 0) padded] : List PoolOp).foldl (applyOp al {})
      PoolInner.new
    ReadsFront al.decode2718 (tableEncode aliceTable) AliceEnvelope ∧
      (∀ e e', AliceEnvelope e → AliceEnvelope e' → al.txHash e = al.txHash e' → e = e') ∧
      decodeAndRecover al alice0.raw = .ok alice0 ∧
      decodeAndRecover al padded = .ok { alice0 with raw := padded } ∧
      alice0.raw ≠ padded ∧
      broadcastTx al {} (some fun _ => 0) PoolInner.new padded = some padded ∧
      (held pool).map (fun x => x.2.verified.raw) = [padded] ∧
      (collectPayload .ascending pool 100000 30000000).1 = frame 4 padded := by
  refine ⟨readsFront_alice, hash_alice, ?_⟩
  decide +kernel

end Nbnet.Txpool
