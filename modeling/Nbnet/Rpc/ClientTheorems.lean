/-
Nbnet.Rpc.ClientTheorems — what a client learns about a run.

The benchmark sends transactions, polls the sender's nonce until it has
moved by as many and takes that for confirmation; a wallet asks for a
receipt by hash. Both are right over every run: the nonce counts the
sender's receipts, and the answer to a receipt query is the one receipt
with that hash, or null where no block has one.
-/
import Nbnet.Execution.ReplayTheorems
import Nbnet.Rpc.DispatchTheorems

namespace Nbnet.Rpc

open Lib State Txpool Execution

/-! ## Reading responses -/

theorem result_toJson_ok (id j : Json) : (JsonRpcResponse.ok id j).toJson.get "result" = j := rfl

theorem resultU64_ok (id : Json) (v : UInt64) :
    resultU64 (JsonRpcResponse.ok id (toHexU64 v)).toJson = some v := by
  rw [resultU64, result_toJson_ok]
  simp only [toHexU64, toHex, Json.asStr, bind, Option.bind_some, stripPrefix0x_0x,
    u64FromStrRadix16_toDigits]

section Client

variable (libs : RpcLibs) (host : Host) (state : EvmRpcState)

theorem rpcBlockNumber_serveJson :
    rpcBlockNumber (serveJson libs host state) = some state.executor.blockHeight := by
  have hresp : (dispatch libs host state (clientRequest "eth_blockNumber" (.array []))).response
      = .ok (.number "1") (toHexU64 state.executor.blockHeight) := by
    simp only [clientRequest, dispatch, replyOk, queryBlockNumber_eq]
  simp only [rpcBlockNumber, rpcJson, serveJson, bind, Option.bind_some, hresp, resultU64_ok]

variable {libs} in
theorem ReadsBack.rpcGetNonce_serveJson (h : ReadsBack libs) (a : Address) :
    rpcGetNonce (serveJson libs host state) a = some (state.executor.state.getNonce a) := by
  obtain ⟨tag, htag⟩ := h.parseAddrBlock a [.string "latest"]
  have hresp : (dispatch libs host state (nonceRequest a)).response
      = .ok (.number "1") (toHexU64 (state.executor.state.getNonce a)) := by
    simp only [nonceRequest, clientRequest, dispatch, htag, replyParsed, replyOk, queryNonce_eq]
  simp only [rpcGetNonce, serveJson, bind, Option.bind_some, hresp, resultU64_ok]

variable {libs} in
theorem ReadsBack.dispatch_send (h : ReadsBack libs) (raw : Bytes) :
    (dispatch libs host state (sendRequest raw)).executor
      = (state.executor.submitRawTx host raw).2 := by
  rw [(dispatch_does libs host state (sendRequest raw)).1, sendRequest, clientRequest,
    h.effectOf_send]
  rfl

end Client

/-! ## Runs -/

/-- A sender's nonce is its genesis nonce and one for each of its receipts. -/
theorem getNonce_run {host : Host} (hrevm : host.revm.RaisesNonce host.alloy)
    {orders : Nat → FlushOrder} {genesis : EvmGenesis} {steps : List NodeStep} {n : Node}
    (hn : steps.foldl (Node.step host orders) (.fromGenesis host genesis) = n) {s : Address}
    (hs : IsSigner host.alloy s) :
    (n.executor.state.getNonce s).toNat = (genesisNonce genesis s).toNat
      + (n.executor.receipts.flatten.filter (·.sender = s)).length := by
  obtain ⟨h, hnode, ho⟩ := exists_ordered hrevm orders genesis steps
  have hcount := ho.count_sender s
  obtain ⟨len, hnonces, hnext⟩ := ho.nonces s hs
  have hlen := congrArg List.length hnonces
  rw [List.length_map, List.length_range'] at hlen
  rw [hnode, hn] at hcount hnext
  rw [hnext, hcount, hlen]

/-- **Polling the nonce counts confirmations.** After every run from every
genesis: the height the client reads is the committed one, the nonce it
reads for a signer is the genesis nonce and one for each receipt of the
signer's, and the bytes it sends are the bytes submitted. -/
theorem client_counts_confirmations (libs : RpcLibs) (hlibs : ReadsBack libs) (host : Host)
    (hrevm : host.revm.RaisesNonce host.alloy) (orders : Nat → FlushOrder) (genesis : EvmGenesis)
    (steps : List NodeStep) (chainId : UInt64) (sink : Bool) :
    let e := (steps.foldl (Node.step host orders) (.fromGenesis host genesis)).executor
    let post := serveJson libs host ⟨e, chainId, sink⟩
    rpcBlockNumber post = some e.blockHeight ∧
      (∀ s, IsSigner host.alloy s → ∃ nonce, rpcGetNonce post s = some nonce ∧
        nonce.toNat = (genesisNonce genesis s).toNat
          + (e.receipts.flatten.filter (·.sender = s)).length) ∧
      ∀ raw, (dispatch libs host ⟨e, chainId, sink⟩ (sendRequest raw)).executor
        = (e.submitRawTx host raw).2 := by
  intro e post
  refine ⟨rpcBlockNumber_serveJson libs host _, fun s hs => ?_, hlibs.dispatch_send host _⟩
  exact ⟨e.state.getNonce s, hlibs.rpcGetNonce_serveJson host _ s,
    getNonce_run hrevm rfl hs⟩

/-- One block with Alice's transfer. -/
theorem client_counts_alice :
    ReadsBack sampleLibs ∧ sampleHost.revm.RaisesNonce sampleHost.alloy ∧
      IsSigner sampleHost.alloy alice0.sender ∧
      rpcGetNonce (serveJson sampleLibs sampleHost
        ⟨([.executeBlock [alice0.raw] block1].foldl (Node.step sampleHost ascendingFlush)
          (.fromGenesis sampleHost aliceGenesis)).executor, 1337, true⟩)
        alice0.sender = some 1 := by
  have hsigner : IsSigner sampleHost.alloy alice0.sender := ⟨alice0.envelope, by decide +kernel⟩
  obtain ⟨-, hnonce, -⟩ := client_counts_confirmations sampleLibs readsBack_sampleLibs sampleHost
    (transferRevm_raisesNonce _) ascendingFlush aliceGenesis
    [.executeBlock [alice0.raw] block1] 1337 true
  obtain ⟨nonce, hread, hcount⟩ := hnonce alice0.sender hsigner
  have hone : nonce = 1 := UInt64.toNat_inj.mp (hcount.trans (by decide +kernel))
  exact ⟨readsBack_sampleLibs, transferRevm_raisesNonce _, hsigner, by rw [hread, hone]⟩

/-- **A receipt query is exact.** After every run from every genesis a query
by hash is answered with null exactly when no receipt of any block has the
hash, and with the object of a receipt exactly when that receipt has it;
the object determines the receipt. -/
theorem receipt_query_exact (libs : RpcLibs) (hlibs : ReadsBack libs) (host : Host)
    (hhash : HashDetermines host.alloy) (hrevm : host.revm.RaisesNonce host.alloy)
    (orders : Nat → FlushOrder) (genesis : EvmGenesis) (steps : List NodeStep) (chainId : UInt64)
    (sink : Bool) (id : Json) (txHash : B256) (rest : List Json) :
    let e := (steps.foldl (Node.step host orders) (.fromGenesis host genesis)).executor
    AnsweredWith (dispatch libs host ⟨e, chainId, sink⟩
        ⟨"eth_getTransactionReceipt", .array (hexB256 txHash :: rest), id⟩) id fun j =>
      (j = .null ↔ ∀ r ∈ e.receipts.flatten, r.txHash ≠ txHash) ∧
        (∀ r, j = receiptToJson r ↔ r ∈ e.receipts.flatten ∧ r.txHash = txHash) ∧
        ∀ r r', j = receiptToJson r → j = receiptToJson r' → r = r' := by
  intro e
  obtain ⟨h, hnode, ho⟩ := exists_ordered hrevm orders genesis steps
  have hnodup := ho.nodup hhash
  rw [hnode] at hnodup
  have hfound : ∀ r, e.getReceiptByTxHash txHash = some r ↔
      r ∈ e.receipts.flatten ∧ r.txHash = txHash :=
    fun _ => getReceiptByTxHash_eq_some_iff hnodup
  refine ⟨.ofOption receiptToJson (e.getReceiptByTxHash txHash), ?_, ?_, fun r => ?_,
    fun r r' hr hr' => receiptToJson_injective (hr.symm.trans hr')⟩
  · simp only [dispatch, hlibs.parseHashParam, replyParsed, replyOk, e]
  · cases hlookup : e.getReceiptByTxHash txHash with
    | none =>
      simp only [Json.ofOption, true_iff]
      intro r hr heq
      cases hlookup.symm.trans ((hfound r).mpr ⟨hr, heq⟩)
    | some r =>
      obtain ⟨hr, heq⟩ := (hfound r).mp hlookup
      simp only [Json.ofOption, receiptToJson, reduceCtorEq, false_iff, not_forall]
      exact ⟨r, hr, not_not_intro heq⟩
  · rw [← hfound]
    cases hlookup : e.getReceiptByTxHash txHash with
    | none => simp [Json.ofOption, receiptToJson]
    | some r' =>
      simp only [Json.ofOption, Option.some.injEq]
      exact ⟨receiptToJson_injective, congrArg receiptToJson⟩

/-- After a block with Alice's transfer there is no receipt of her next
one. -/
theorem receipt_query_alice :
    HashDetermines sampleHost.alloy ∧ sampleHost.revm.RaisesNonce sampleHost.alloy ∧
      ReadsBack sampleLibs ∧
      AnsweredWith (dispatch sampleLibs sampleHost
        ⟨([.executeBlock [alice0.raw] block1].foldl (Node.step sampleHost ascendingFlush)
          (.fromGenesis sampleHost aliceGenesis)).executor, 1337, true⟩
        ⟨"eth_getTransactionReceipt", .array [hexB256 alice1.txHash], .null⟩) .null (· = .null) ∧
      AnsweredWith (dispatch sampleLibs sampleHost
        ⟨([.executeBlock [alice0.raw] block1].foldl (Node.step sampleHost ascendingFlush)
          (.fromGenesis sampleHost aliceGenesis)).executor, 1337, true⟩
        ⟨"eth_getTransactionReceipt", .array [hexB256 alice0.txHash], .null⟩) .null
          (· ≠ .null) := by
  refine ⟨hashDetermines_sampleAlloy, transferRevm_raisesNonce _, readsBack_sampleLibs, ?_, ?_⟩
  · obtain ⟨j, hj, hnull, -⟩ := receipt_query_exact sampleLibs readsBack_sampleLibs sampleHost
      hashDetermines_sampleAlloy (transferRevm_raisesNonce _) ascendingFlush aliceGenesis
      [.executeBlock [alice0.raw] block1] 1337 true .null alice1.txHash []
    exact ⟨j, hj, hnull.mpr (by decide +kernel)⟩
  · obtain ⟨j, hj, hnull, -⟩ := receipt_query_exact sampleLibs readsBack_sampleLibs sampleHost
      hashDetermines_sampleAlloy (transferRevm_raisesNonce _) ascendingFlush aliceGenesis
      [.executeBlock [alice0.raw] block1] 1337 true .null alice0.txHash []
    refine ⟨j, hj, fun heq => ?_⟩
    exact absurd (hnull.mp heq) (by decide +kernel)

end Nbnet.Rpc
