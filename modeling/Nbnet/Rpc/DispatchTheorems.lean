/-
Nbnet.Rpc.DispatchTheorems — what serving requests does to a node and to
other requests.

Twenty-one methods, three effects: most only read, `eth_sendRawTransaction`
submits, `eth_call` and `eth_estimateGas` make a dry run. `effectOf` reads
the effect off a request, and `dispatch_executor` and `dispatch_broadcast`
say that it is all a request does. Every answer but that to a submission
depends only on what `Sees` compares, which no request changes as long as
dry runs move no stake (`requests_isolated`).
-/
import Nbnet.Execution.CallTheorems
import Nbnet.Rpc.WireTheorems

namespace Nbnet.Rpc

open Lib State Txpool Execution

/-! ## Effects -/

inductive Effect where
  | read
  | submit (raw : Bytes)
  | dryRun (call : CallRequest)
  deriving DecidableEq, Repr

/-- What a request with parsed parameters does; what does not parse does
nothing. -/
def parsedEffect (parsed : Except String α) (f : α → Effect) : Effect :=
  match parsed with
  | .ok a => f a
  | .error _ => .read

/-- What a request does. -/
def effectOf (libs : RpcLibs) (req : JsonRpcRequest) : Effect :=
  if req.method = "eth_sendRawTransaction" then
    parsedEffect (rawParam libs req.params) .submit
  else if req.method = "eth_call" then
    parsedEffect (parseCallParams libs req.params) .dryRun
  else if req.method = "eth_estimateGas" then
    parsedEffect (parseCallParams libs req.params) fun call => .dryRun { call with gas := none }
  else .read

namespace Effect

/-- The executor after an effect. -/
def executor (host : Host) (e : EvmExecutor) : Effect → EvmExecutor
  | .read => e
  | .submit raw => (e.submitRawTx host raw).2
  | .dryRun call => (e.ethCall host call).2

/-- What an effect hands to the network: a submission the pool took. -/
def broadcast (host : Host) (state : EvmRpcState) : Effect → Option Bytes
  | .submit raw =>
      if state.networkSink ∧ (state.executor.submitRawTx host raw).1.isOk then some raw else none
  | _ => none

/-- A submission is no query. -/
def isQuery : Effect → Bool
  | .submit _ => false
  | _ => true

end Effect

section Dispatch

variable (libs : RpcLibs) (host : Host) (state : EvmRpcState) (req : JsonRpcRequest)

/-- What a served request does to the node. -/
def Does (s : Served) (eff : Effect) : Prop :=
  s.executor = eff.executor host state.executor ∧ s.broadcast = eff.broadcast host state

theorem replyParsed_does {α : Type} {parsed : Except String α} {f : α → Served} {g : α → Effect}
    (h : ∀ a, parsed = .ok a → Does host state (f a) (g a)) :
    Does host state (replyParsed state req parsed f) (parsedEffect parsed g) := by
  cases parsed with
  | ok a => exact h a rfl
  | error e => exact ⟨rfl, rfl⟩

theorem replyParsed_reads {α : Type} {parsed : Except String α} {f : α → Served}
    (h : ∀ a, Does host state (f a) .read) :
    Does host state (replyParsed state req parsed f) .read := by
  cases parsed with
  | ok a => exact h a
  | error e => exact ⟨rfl, rfl⟩

theorem sendRawTransaction_does :
    Does host state (ethSendRawTransaction libs host state req)
      (parsedEffect (rawParam libs req.params) .submit) := by
  refine replyParsed_does host state req fun raw _ => ?_
  simp only [Does, Effect.executor, Effect.broadcast]
  cases (state.executor.submitRawTx host raw).1 with
  | ok hash => cases state.networkSink <;> exact ⟨rfl, rfl⟩
  | error e => exact ⟨rfl, by simp [Except.isOk, Except.toBool]⟩

theorem call_does :
    Does host state (ethCallRequest libs host state req)
      (parsedEffect (parseCallParams libs req.params) .dryRun) := by
  refine replyParsed_does host state req fun call _ => ?_
  simp only [Does, Effect.executor, Effect.broadcast]
  cases (state.executor.ethCall host call).1 <;> exact ⟨rfl, rfl⟩

theorem estimateGas_does :
    Does host state (ethEstimateGas libs host state req)
      (parsedEffect (parseCallParams libs req.params) fun call =>
        .dryRun { call with gas := none }) := by
  refine replyParsed_does host state req fun call _ => ?_
  simp only [Does, Effect.executor, Effect.broadcast]
  cases (state.executor.ethCall host { call with gas := none }).1 <;> exact ⟨rfl, rfl⟩

theorem getStorageAt_does : Does host state (ethGetStorageAt libs host state req) .read := by
  unfold ethGetStorageAt
  split
  · exact replyParsed_reads host state req fun _ =>
      replyParsed_reads host state req fun _ => ⟨rfl, rfl⟩
  · exact ⟨rfl, rfl⟩

/-- Bytes that are sent are the bytes submitted. -/
theorem ReadsBack.effectOf_send {libs : RpcLibs} (h : ReadsBack libs) (raw : Bytes)
    (rest : List Json) (id : Json) :
    effectOf libs ⟨"eth_sendRawTransaction", .array (hexString raw :: rest), id⟩
      = .submit raw := by
  simp only [effectOf, if_true, h.rawParam, parsedEffect]

/-- **A request does what its effect says**, and nothing else. -/
theorem dispatch_does : Does host state (dispatch libs host state req) (effectOf libs req) := by
  unfold dispatch effectOf
  dsimp only
  split
  all_goals rename_i hmethod
  all_goals try simp only [hmethod, String.reduceEq, if_true, if_false]
  all_goals first
    | exact ⟨rfl, rfl⟩
    | exact sendRawTransaction_does libs host state req
    | exact call_does libs host state req
    | exact estimateGas_does libs host state req
    | exact getStorageAt_does libs host state req
    | exact replyParsed_reads host state req fun _ => ⟨rfl, rfl⟩
    | skip
  -- the catch-all is none of the three methods with an effect
  rw [if_neg ‹req.method = "eth_sendRawTransaction" → False›,
    if_neg ‹req.method = "eth_call" → False›, if_neg ‹req.method = "eth_estimateGas" → False›]
  exact ⟨rfl, rfl⟩

end Dispatch

/-! ## Answered -/

/-- The methods `dispatch` knows. -/
def methods : List String :=
  ["eth_chainId", "net_version", "web3_clientVersion", "eth_blockNumber", "eth_getBalance",
    "eth_getTransactionCount", "eth_getCode", "eth_getStorageAt", "eth_gasPrice",
    "eth_estimateGas", "eth_maxPriorityFeePerGas", "eth_sendRawTransaction", "eth_call",
    "eth_getTransactionReceipt", "eth_getTransactionByHash", "eth_getLogs",
    "eth_getBlockByNumber", "eth_getBlockByHash", "eth_feeHistory", "eth_syncing",
    "eth_accounts"]

/-- An answer to a request of a known method: it carries the request's id
and either a result or an error, and a request with bad parameters leaves
no trace. -/
structure Answered (state : EvmRpcState) (req : JsonRpcRequest) (s : Served) : Prop where
  version : s.response.jsonrpc = "2.0"
  id : s.response.id = req.id
  one : s.response.result.isSome = s.response.error.isNone
  known : ∀ err, s.response.error = some err → err.code ≠ -32601
  invalid : ∀ err, s.response.error = some err → err.code = -32602 →
    s.executor = state.executor ∧ s.broadcast = none

section Answered

variable (libs : RpcLibs) (host : Host) (state : EvmRpcState) (req : JsonRpcRequest)

theorem answers_ok (executor : EvmExecutor) (broadcast : Option Bytes) (result : Json) :
    Answered state req { response := .ok req.id result, executor, broadcast } :=
  ⟨rfl, rfl, rfl, by simp [JsonRpcResponse.ok], by simp [JsonRpcResponse.ok]⟩

theorem answers_err (executor : EvmExecutor) (code : Int) (msg : String)
    (hknown : code ≠ -32601) (hparams : code ≠ -32602) :
    Answered state req { response := .err req.id code msg, executor } := by
  refine ⟨rfl, rfl, rfl, fun err herr => ?_, fun err herr hcode => ?_⟩
  · obtain rfl := Option.some.inj herr
    exact hknown
  · obtain rfl := Option.some.inj herr
    exact absurd hcode hparams

theorem answers_badParams (msg : String) :
    Answered state req (replyErr state req (-32602) msg) := by
  refine ⟨rfl, rfl, rfl, fun err herr => ?_, fun _ _ _ => ⟨rfl, rfl⟩⟩
  obtain rfl := Option.some.inj herr
  show (-32602 : Int) ≠ -32601
  decide

theorem replyParsed_answers {α : Type} {parsed : Except String α} {f : α → Served}
    (h : ∀ a, Answered state req (f a)) : Answered state req (replyParsed state req parsed f) := by
  cases parsed with
  | ok a => exact h a
  | error e => exact answers_badParams state req e

theorem sendRawTransaction_answers :
    Answered state req (ethSendRawTransaction libs host state req) := by
  refine replyParsed_answers state req fun raw => ?_
  dsimp only
  split
  · exact answers_ok state req _ _ _
  · exact answers_err state req _ _ _ (by decide) (by decide)

theorem call_answers : Answered state req (ethCallRequest libs host state req) := by
  refine replyParsed_answers state req fun call => ?_
  dsimp only
  split
  · exact answers_ok state req _ _ _
  · exact answers_err state req _ _ _ (by decide) (by decide)

theorem estimateGas_answers : Answered state req (ethEstimateGas libs host state req) := by
  refine replyParsed_answers state req fun call => ?_
  dsimp only
  split
  · exact answers_ok state req _ _ _
  · exact answers_err state req _ _ _ (by decide) (by decide)

theorem getStorageAt_answers : Answered state req (ethGetStorageAt libs host state req) := by
  unfold ethGetStorageAt
  split
  · exact replyParsed_answers state req fun _ =>
      replyParsed_answers state req fun _ => answers_ok state req _ _ _
  · exact answers_badParams state req _

/-- A known method is answered, an unknown one is reported. -/
theorem dispatch_answers :
    (req.method ∈ methods ∧ Answered state req (dispatch libs host state req)) ∨
      (req.method ∉ methods ∧ dispatch libs host state req
        = replyErr state req (-32601) ("method not found: " ++ req.method)) := by
  unfold dispatch
  dsimp only
  split
  all_goals try (rename_i hmethod; refine .inl ⟨by rw [hmethod]; decide, ?_⟩)
  all_goals first
    | exact answers_ok state req _ _ _
    | exact sendRawTransaction_answers libs host state req
    | exact call_answers libs host state req
    | exact estimateGas_answers libs host state req
    | exact getStorageAt_answers libs host state req
    | exact replyParsed_answers state req fun _ => answers_ok state req _ _ _
    | skip
  refine .inr ⟨?_, rfl⟩
  simp only [methods, List.mem_cons, List.not_mem_nil, not_or, or_false]
  repeat' constructor
  all_goals assumption

end Answered

/-! ## What answers depend on -/

/-- Two executors no query but one for code tells apart: chain state,
stakes, receipts and height are the same; the pools may differ, and one
cache may hold more. -/
structure Sees (e e' : EvmExecutor) : Prop where
  shadows : Shadows e.state.db e'.state.db
  config : e.config = e'.config
  stakes : ∀ d v, e.staking.getStake d v = e'.staking.getStake d v
  receipts : e.receipts = e'.receipts
  blockHeight : e.blockHeight = e'.blockHeight

theorem Sees.refl (e : EvmExecutor) : Sees e e := ⟨.refl _, rfl, fun _ _ => rfl, rfl, rfl⟩

section Sees

variable {host : Host} {e e' : EvmExecutor} {chainId : UInt64} {sink sink' : Bool}

variable (host) in
theorem Sees.query (h : Sees e e') {path : String} (hpath : path ≠ "eth_getCode") (data : Bytes) :
    e.query host path data = e'.query host path data := by
  have hsame := h.shadows.sameRecords
  simp only [EvmExecutor.query, hpath, false_and, if_false, hsame.balance, hsame.nonce,
    hsame.storage, h.blockHeight]

variable (host) in
/-- What the handlers read, apart from code. -/
theorem Sees.queries (h : Sees e e') :
    queryBalance host e = queryBalance host e' ∧ queryNonce host e = queryNonce host e' ∧
      queryStorage host e = queryStorage host e' ∧
      queryBlockNumber host e = queryBlockNumber host e' := by
  refine ⟨funext fun a => ?_, funext fun a => ?_, funext fun a => funext fun slot => ?_, ?_⟩
  · rw [queryBalance, queryBalance, h.query host (by decide)]
  · rw [queryNonce, queryNonce, h.query host (by decide)]
  · rw [queryStorage, queryStorage, h.query host (by decide)]
  · rw [queryBlockNumber, queryBlockNumber, h.query host (by decide)]

theorem Sees.getReceipts (h : Sees e e') : e.getReceipts = e'.getReceipts := by
  funext k
  simp only [EvmExecutor.getReceipts, h.receipts]

theorem Sees.getReceiptByTxHash (h : Sees e e') : e.getReceiptByTxHash = e'.getReceiptByTxHash := by
  funext hash
  simp only [EvmExecutor.getReceiptByTxHash, h.receipts]

/-- revm is asked the same. -/
theorem Sees.transactCall (h : Sees e e') (req : CallRequest) :
    transactCall host e req = transactCall host e' req := by
  have hstakes : e.staking.getStake = e'.staking.getStake :=
    funext fun d => funext fun v => h.stakes d v
  unfold Execution.transactCall
  rw [h.shadows.view, hstakes, h.config, h.blockHeight]

theorem Sees.ethCall (h : Sees e e') (req : CallRequest) :
    (e.ethCall host req).1 = (e'.ethCall host req).1 := by
  simp only [EvmExecutor.ethCall, h.transactCall]

theorem Sees.ethGetLogs (h : Sees e e') (libs : RpcLibs) (params : Json) :
    ethGetLogs libs e params = ethGetLogs libs e' params := by
  simp only [Rpc.ethGetLogs, collectLogs, h.getReceipts, h.blockHeight]

theorem Sees.ethGetBlockByNumber (h : Sees e e') :
    ethGetBlockByNumber host e = ethGetBlockByNumber host e' := by
  simp only [Rpc.ethGetBlockByNumber, (h.queries host).2.2.2, h.getReceipts, h.config]

/-- Two answers to one request. -/
theorem replyParsed_response {α : Type} {state state' : EvmRpcState} {req : JsonRpcRequest}
    {parsed : Except String α} {f g : α → Served}
    (h : ∀ a, parsed = .ok a → (f a).response = (g a).response) :
    (replyParsed state req parsed f).response = (replyParsed state' req parsed g).response := by
  cases parsed with
  | ok a => exact h a rfl
  | error e => rfl

theorem Sees.ethCallRequest (h : Sees e e') (libs : RpcLibs) (req : JsonRpcRequest) :
    (ethCallRequest libs host ⟨e, chainId, sink⟩ req).response
      = (ethCallRequest libs host ⟨e', chainId, sink'⟩ req).response := by
  refine replyParsed_response fun call _ => ?_
  dsimp only
  rw [h.ethCall]
  cases (e'.ethCall host call).1 <;> rfl

theorem Sees.ethEstimateGas (h : Sees e e') (libs : RpcLibs) (req : JsonRpcRequest) :
    (ethEstimateGas libs host ⟨e, chainId, sink⟩ req).response
      = (ethEstimateGas libs host ⟨e', chainId, sink'⟩ req).response := by
  refine replyParsed_response fun call _ => ?_
  dsimp only
  rw [h.ethCall]
  cases (e'.ethCall host { call with gas := none }).1 <;> rfl

theorem Sees.ethGetStorageAt (h : Sees e e') (libs : RpcLibs) (req : JsonRpcRequest) :
    (ethGetStorageAt libs host ⟨e, chainId, sink⟩ req).response
      = (ethGetStorageAt libs host ⟨e', chainId, sink'⟩ req).response := by
  unfold Rpc.ethGetStorageAt
  split
  · refine replyParsed_response fun addr _ => replyParsed_response fun slot _ => ?_
    simp only [replyOk, (h.queries host).2.2.1]
  · rfl

/-- A submission whose parameters do not parse is a query like any other. -/
theorem sendRawTransaction_response (libs : RpcLibs) (params id : Json)
    (hquery : (effectOf libs ⟨"eth_sendRawTransaction", params, id⟩).isQuery) :
    (ethSendRawTransaction libs host ⟨e, chainId, sink⟩
        ⟨"eth_sendRawTransaction", params, id⟩).response
      = (ethSendRawTransaction libs host ⟨e', chainId, sink'⟩
        ⟨"eth_sendRawTransaction", params, id⟩).response := by
  refine replyParsed_response fun raw hraw => ?_
  dsimp only at hraw
  simp [effectOf, hraw, parsedEffect, Effect.isQuery] at hquery

/-- A query for anything but code sees no difference. -/
theorem Sees.response (h : Sees e e') (libs : RpcLibs) (req : JsonRpcRequest)
    (hquery : (effectOf libs req).isQuery) (hcode : req.method ≠ "eth_getCode") :
    (dispatch libs host ⟨e, chainId, sink⟩ req).response
      = (dispatch libs host ⟨e', chainId, sink'⟩ req).response := by
  obtain ⟨method, params, id⟩ := req
  obtain ⟨hbalance, hnonce, -, hnumber⟩ := h.queries host
  unfold dispatch
  dsimp only
  split
  all_goals first
    | exact absurd rfl hcode
    | exact sendRawTransaction_response libs params id hquery
    | exact h.ethCallRequest libs _
    | exact h.ethEstimateGas libs _
    | exact h.ethGetStorageAt libs _
    | (refine replyParsed_response fun _ _ => ?_
       simp only [replyOk, hbalance, hnonce, h.getReceiptByTxHash])
    | simp only [replyOk, replyErr, hnumber, h.config, h.ethGetLogs, h.ethGetBlockByNumber]

end Sees

/-! ## Serving -/

section Serve

variable (libs : RpcLibs) (host : Host) (chainId : UInt64) (sink : Bool)

/-- The executor after a request. -/
def serve (e : EvmExecutor) (req : JsonRpcRequest) : EvmExecutor :=
  (dispatch libs host ⟨e, chainId, sink⟩ req).executor

/-- A dry run a request makes moves no stake. -/
def DryRunQuiet (e : EvmExecutor) (req : JsonRpcRequest) : Prop :=
  ∀ call, effectOf libs req = .dryRun call → MovesNoStake host e call

variable {libs host} in
/-- A request is not seen by queries. -/
theorem Sees.serve {e e' : EvmExecutor} (h : Sees e e') {req : JsonRpcRequest}
    (hquiet : DryRunQuiet libs host e req) : Sees (serve libs host chainId sink e req) e' := by
  have hdoes := (dispatch_does libs host ⟨e, chainId, sink⟩ req).1
  rw [Rpc.serve, hdoes]
  cases heff : effectOf libs req with
  | read => exact h
  | submit raw => exact ⟨h.shadows, h.config, h.stakes, h.receipts, h.blockHeight⟩
  | dryRun call =>
    refine ⟨h.shadows.loads_left _, h.config, fun d v => ?_, h.receipts, h.blockHeight⟩
    rw [← h.stakes]
    exact ledgerAfter_of_movesNoStake (hquiet call heff) d v

end Serve

/-- **What every request gets and does.** The answer has the request's id
and either a result or an error; -32601 means exactly that the method is
unknown; after -32601 and -32602 the node is as before and nothing went to
the network. Bytes go to the network exactly when the request submits them,
there is a sink and the pool took them. -/
theorem dispatch_contract (libs : RpcLibs) (host : Host) (state : EvmRpcState)
    (req : JsonRpcRequest) :
    let s := dispatch libs host state req
    s.response.jsonrpc = "2.0" ∧ s.response.id = req.id ∧
      s.response.result.isSome = s.response.error.isNone ∧
      ((∃ err, s.response.error = some err ∧ err.code = -32601) ↔ req.method ∉ methods) ∧
      (∀ err, s.response.error = some err → err.code = -32601 ∨ err.code = -32602 →
        s.executor = state.executor ∧ s.broadcast = none) ∧
      ∀ raw, s.broadcast = some raw ↔
        effectOf libs req = .submit raw ∧ state.networkSink ∧
          (state.executor.submitRawTx host raw).1.isOk := by
  intro s
  have hsent : ∀ raw, s.broadcast = some raw ↔
      effectOf libs req = .submit raw ∧ state.networkSink ∧
        (state.executor.submitRawTx host raw).1.isOk := by
    intro raw
    rw [show s.broadcast = (effectOf libs req).broadcast host state from
      (dispatch_does libs host state req).2]
    cases effectOf libs req with
    | read => simp [Effect.broadcast]
    | dryRun call => simp [Effect.broadcast]
    | submit raw' =>
      simp only [Effect.broadcast, Option.ite_none_right_eq_some, Option.some.injEq,
        Effect.submit.injEq]
      constructor
      · intro ⟨hok, heq⟩
        exact ⟨heq, heq ▸ hok⟩
      · intro ⟨heq, hok⟩
        exact ⟨heq ▸ hok, heq⟩
  rcases dispatch_answers libs host state req with ⟨hmem, ha⟩ | ⟨hmem, heq⟩
  · refine ⟨ha.version, ha.id, ha.one, ?_, fun err herr hcode => ?_, hsent⟩
    · simp only [hmem, not_true_eq_false, iff_false]
      intro ⟨err, herr, hcode⟩
      exact ha.known err herr hcode
    · exact ha.invalid err herr (hcode.resolve_left (ha.known err herr))
  · have hs : s = replyErr state req (-32601) ("method not found: " ++ req.method) := heq
    refine ⟨by rw [hs]; rfl, by rw [hs]; rfl, by rw [hs]; rfl, ?_, fun _ _ _ => ?_, hsent⟩
    · rw [hs]
      exact ⟨fun _ => hmem, fun _ => ⟨_, rfl, rfl⟩⟩
    · rw [hs]
      exact ⟨rfl, rfl⟩

/-- **Requests do not disturb queries.** From any executor, after any
sequence of requests whose dry runs move no stake, every query but
`eth_getCode` gets the answer it would have got before them, whatever was
submitted, called or estimated in between. Code is left out because the
accounts a dry run loads are cached from then on, and `get_code` answers a
`STOP` for a cached account without code. -/
theorem requests_isolated (libs : RpcLibs) (host : Host) (chainId : UInt64) (sink : Bool)
    (e : EvmExecutor) (reqs : List JsonRpcRequest)
    (hquiet : StepsMeet (serve libs host chainId sink) (DryRunQuiet libs host) e reqs)
    (query : JsonRpcRequest) (hquery : (effectOf libs query).isQuery)
    (hcode : query.method ≠ "eth_getCode") :
    (dispatch libs host ⟨reqs.foldl (serve libs host chainId sink) e, chainId, sink⟩
        query).response
      = (dispatch libs host ⟨e, chainId, sink⟩ query).response := by
  have hsees : Sees (reqs.foldl (serve libs host chainId sink) e) e :=
    run_invariant (Sees · e) (fun _ _ h hq => h.serve chainId sink hq) reqs e (.refl e) hquiet
  exact hsees.response libs query hquery hcode

/-- Alice sends her transfer. -/
def sendAlice : JsonRpcRequest where
  method := "eth_sendRawTransaction"
  params := .array [hexString alice0.raw]
  id := .null

/-- Alice asks what sending 5 wei to `0xb0b` would do. -/
def callAlice : JsonRpcRequest where
  method := "eth_call"
  params := .array [.object [("from", hexAddress alice0.sender), ("to", hexAddress 0xb0b),
    ("value", toHex 5), ("gas", toHex 21000)]]
  id := .null

def balanceAlice : JsonRpcRequest where
  method := "eth_getBalance"
  params := .array [hexAddress alice0.sender]
  id := .null

theorem effectOf_callAlice : effectOf sampleLibs callAlice = .dryRun aliceCall := by
  decide +kernel

theorem requests_isolated_alice :
    effectOf sampleLibs sendAlice = .submit alice0.raw ∧
      effectOf sampleLibs callAlice = .dryRun aliceCall ∧
      (dispatch sampleLibs sampleHost
          ⟨[callAlice, sendAlice].foldl (serve sampleLibs sampleHost 1 true)
            (.fromGenesis sampleHost callGenesis), 1, true⟩ balanceAlice).response
        = (dispatch sampleLibs sampleHost ⟨.fromGenesis sampleHost callGenesis, 1, true⟩
            balanceAlice).response := by
  have hsend : effectOf sampleLibs sendAlice = .submit alice0.raw :=
    readsBack_sampleLibs.effectOf_send alice0.raw [] .null
  have htrace : callTrace sampleHost (.fromGenesis sampleHost callGenesis) aliceCall = [] :=
    List.length_eq_zero_iff.mp (by decide +kernel)
  refine ⟨hsend, effectOf_callAlice, requests_isolated _ _ _ _ _ _ ?_ _ (by decide +kernel)
    (by decide)⟩
  refine ⟨?_, ?_, trivial⟩
  · intro call hcall
    obtain rfl := Effect.dryRun.inj (effectOf_callAlice.symm.trans hcall)
    intro i hi
    rw [htrace] at hi
    cases hi
  · intro call hcall
    cases hsend.symm.trans hcall

end Nbnet.Rpc
