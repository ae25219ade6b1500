/-
Nbnet.Rpc.Server — the Ethereum JSON-RPC server (`crates/rpc/src/lib.rs`).

`dispatch` answers one request: it returns the response, the executor
after it (submissions and dry runs change it) and the bytes handed to the
network sink, if any. Strings of hexadecimal digits are parsed by the
`hex` crate, 256-bit numbers by alloy; both are parameters.
-/
import Nbnet.Execution.Executor
import Nbnet.Lib.Text

namespace Nbnet.Rpc

open Lib Txpool Execution

/-! ## JSON -/

/-- `serde_json::Value`. Numbers are never read, so they stay literals. -/
inductive Json where
  | null
  | bool (b : Bool)
  | number (literal : String)
  | string (s : String)
  | array (items : List Json)
  | object (fields : List (String × Json))

namespace Json

/-- `value[key]`: null where there is no such field. -/
def get (j : Json) (key : String) : Json :=
  match j with
  | .object fields => (fields.lookup key).getD .null
  | _ => .null

def asStr : Json → Option String
  | .string s => some s
  | _ => none

def asArray : Json → Option (List Json)
  | .array items => some items
  | _ => none

/-- `as_array().and_then(|a| a.first())`. -/
def first (j : Json) : Option Json := j.asArray.bind List.head?

def ofOption (f : α → Json) : Option α → Json
  | some a => f a
  | none => .null

end Json

structure JsonRpcRequest where
  method : String
  params : Json := .null
  id : Json

structure JsonRpcError where
  code : Int
  message : String

structure JsonRpcResponse where
  jsonrpc : String := "2.0"
  result : Option Json := none
  error : Option JsonRpcError := none
  id : Json

def JsonRpcResponse.ok (id result : Json) : JsonRpcResponse where
  result := some result
  id := id

def JsonRpcResponse.err (id : Json) (code : Int) (msg : String) : JsonRpcResponse where
  error := some { code, message := msg }
  id := id

/-! ## Hexadecimal -/

/-- Parsers of other crates, with the texts of their errors: `hex::decode`
and `U256::from_str_radix(_, 16)`. -/
structure RpcLibs where
  hexDecode : String → Except String Bytes
  u256FromStrRadix16 : String → Except String U256

/-- `format!("0x{v:x}")`. -/
def toHex (v : Nat) : Json := .string ("0x" ++ String.ofList (Nat.toDigits 16 v))

def toHexU64 (v : UInt64) : Json := toHex v.toNat

def toHexU256 (v : U256) : Json := toHex v.toNat

/-- `format!("0x{}", hex::encode(..))`. -/
def hexString (b : Bytes) : Json := .string ("0x" ++ hexEncode b)

def hexAddress (a : Address) : Json := hexString a.asSlice

def hexB256 (h : B256) : Json := hexString (U256.toBeBytes h).val

/-- `s.strip_prefix("0x").unwrap_or(s)`. -/
def strip0xStr (s : String) : String :=
  match s.toList with
  | '0' :: 'x' :: rest => String.ofList rest
  | _ => s

def parseAddressStr (libs : RpcLibs) (s : String) : Except String Address := do
  let bytes ← (libs.hexDecode (strip0xStr s)).mapError ("invalid hex: " ++ ·)
  if bytes.length ≠ 20 then throw s!"address must be 20 bytes, got {bytes.length}"
  return .fromSlice bytes

def parseB256Str (libs : RpcLibs) (s : String) : Except String B256 := do
  let bytes ← (libs.hexDecode (strip0xStr s)).mapError ("invalid hex: " ++ ·)
  if bytes.length ≠ 32 then throw s!"hash must be 32 bytes, got {bytes.length}"
  return U256.fromBeSlice bytes

/-- A value that may be absent, `ok_or(msg)`. -/
def orError (msg : String) : Option α → Except String α
  | some a => .ok a
  | none => .error msg

def parseAddress (libs : RpcLibs) (v : Json) : Except String Address := do
  parseAddressStr libs (← orError "expected string" v.asStr)

def parseAddrBlock (libs : RpcLibs) (params : Json) : Except String (Address × String) := do
  let arr ← orError "expected array params" params.asArray
  let addr ← parseAddress libs (← orError "missing address parameter" arr.head?)
  return (addr, (arr[1]?.bind Json.asStr).getD "latest")

def parseU256 (libs : RpcLibs) (v : Json) : Except String U256 := do
  let s ← orError "expected hex string" v.asStr
  (libs.u256FromStrRadix16 (strip0xStr s)).mapError ("invalid U256: " ++ ·)

def parseHashParam (libs : RpcLibs) (params : Json) : Except String B256 := do
  parseB256Str libs (← orError "expected [hash]" (params.first.bind Json.asStr))

/-- The digits of a `u64`; an overflow is an error. -/
def u64Digits : List UInt8 → Nat → Option UInt64
  | [], acc => some (UInt64.ofNat acc)
  | x :: rest, acc =>
      (hexDigitValue x).bind fun d =>
        if acc * 16 + d < 2 ^ 64 then u64Digits rest (acc * 16 + d) else none

/-- `u64::from_str_radix(_, 16).ok()`. -/
def u64FromStrRadix16 (b : List UInt8) : Option UInt64 :=
  if b = [] ∨ b = [0x2b] ∨ b = [0x2d] then none
  else if b.head? = some 0x2b then u64Digits b.tail 0
  else u64Digits b 0

/-- A field that is parsed where it is a string, with a default otherwise. -/
def optField (obj : Json) (key : String) (default : α) (parse : String → Except String α) :
    Except String α :=
  match (obj.get key).asStr with
  | some s => parse s
  | none => .ok default

/-- `parse_call_params`. -/
def parseCallParams (libs : RpcLibs) (params : Json) : Except String CallRequest := do
  let arr ← orError "expected array params" params.asArray
  let obj ← orError "missing call object" arr.head?
  let sender ← optField obj "from" 0 (parseAddressStr libs)
  let recipient ← optField obj "to" none fun s => (parseAddressStr libs s).map some
  let data ←
    match ((obj.get "data").asStr).or (obj.get "input").asStr with
    | some s => (libs.hexDecode (strip0xStr s)).mapError ("invalid data hex: " ++ ·)
    | none => .ok []
  let value ← optField obj "value" 0 fun s =>
    (libs.u256FromStrRadix16 (strip0xStr s)).mapError ("invalid value: " ++ ·)
  let gas := (obj.get "gas").asStr.bind fun s => u64FromStrRadix16 (strip0x (utf8 s))
  return { sender, recipient, data, value, gas }

/-! ## Queries -/

/-- `u64::from_be_bytes` of eight bytes. -/
def u64FromBeBytes (b : Bytes) : UInt64 := .ofBitVec (ofWordBytes 64 b)

def queryBalance (host : Host) (e : EvmExecutor) (addr : Address) : U256 :=
  let data := (e.query host "eth_getBalance" addr.asSlice).data
  if data.length = 32 then .fromBeSlice data else 0

def queryNonce (host : Host) (e : EvmExecutor) (addr : Address) : UInt64 :=
  let data := (e.query host "eth_getTransactionCount" addr.asSlice).data
  if data.length = 8 then u64FromBeBytes data else 0

def queryBlockNumber (host : Host) (e : EvmExecutor) : UInt64 :=
  let data := (e.query host "eth_blockNumber" []).data
  if data.length = 8 then u64FromBeBytes data else 0

def queryCode (host : Host) (e : EvmExecutor) (addr : Address) : Bytes :=
  (e.query host "eth_getCode" addr.asSlice).data

def queryStorage (host : Host) (e : EvmExecutor) (addr : Address) (slot : U256) : U256 :=
  let data := (e.query host "eth_getStorageAt" (addr.asSlice ++ slot.toBeBytes.val)).data
  if data.length = 32 then .fromBeSlice data else 0

/-! ## Logs -/

/-- A log with the receipt it is in and its place there. -/
structure LocatedLog where
  receipt : EvmReceipt
  logIdx : Nat
  log : EvmLog
  deriving DecidableEq, Repr

/-- The logs of a receipt, enumerated. -/
def locatedLogs (r : EvmReceipt) : List LocatedLog :=
  r.logs.zipIdx.map fun (log, logIdx) => { receipt := r, logIdx, log }

/-- The filters of `eth_getLogs`: the address, and the first of the
topics. What is no string, or does not parse, is no filter. -/
def logFilters (libs : RpcLibs) (params : Json) : Option Address × Option B256 :=
  match params.first with
  | some f =>
      ((f.get "address").asStr.bind fun s => (parseAddressStr libs s).toOption,
        ((f.get "topics").first.bind Json.asStr).bind fun s => (parseB256Str libs s).toOption)
  | none => (none, none)

/-- A log passes both filters. The topic may stand anywhere among the
log's. -/
def passes (addrFilter : Option Address) (topicFilter : Option B256) (log : EvmLog) : Bool :=
  addrFilter.all (log.address = ·) && topicFilter.all (· ∈ log.topics)

def logToJson (x : LocatedLog) : Json :=
  .object
    [("address", hexAddress x.log.address),
      ("topics", .array (x.log.topics.map hexB256)),
      ("data", hexString x.log.data),
      ("blockNumber", toHexU64 x.receipt.blockNumber),
      ("transactionHash", hexB256 x.receipt.txHash),
      ("transactionIndex", toHex x.receipt.txIndex),
      ("blockHash", hexB256 x.receipt.blockHash),
      ("logIndex", toHex x.logIdx),
      ("removed", .bool false)]

/-- The loops of `eth_getLogs`, over the heights up to the committed one. -/
def collectLogs (e : EvmExecutor) (addrFilter : Option Address) (topicFilter : Option B256) :
    List LocatedLog :=
  (List.range (e.blockHeight.toNat + 1)).flatMap fun h =>
    match e.getReceipts h with
    | some receipts =>
        receipts.flatMap fun r =>
          (locatedLogs r).filter fun x => passes addrFilter topicFilter x.log
    | none => []

def ethGetLogs (libs : RpcLibs) (e : EvmExecutor) (params : Json) : Json :=
  let (addrFilter, topicFilter) := logFilters libs params
  .array ((collectLogs e addrFilter topicFilter).map logToJson)

/-! ## Blocks, transactions and receipts -/

/-- `eth_getBlockByNumber`: the latest block, whatever was asked for. -/
def ethGetBlockByNumber (host : Host) (e : EvmExecutor) : Json :=
  let height := queryBlockNumber host e
  let txCount := ((e.getReceipts height.toNat).map List.length).getD 0
  .object
    [("number", toHexU64 height),
      ("hash", hexB256 0),
      ("parentHash", hexB256 0),
      ("timestamp", .string "0x0"),
      ("gasLimit", toHexU64 e.config.blockGasLimit),
      ("gasUsed", .string "0x0"),
      ("baseFeePerGas", toHexU64 e.config.baseFeePerGas),
      ("miner", hexAddress 0),
      ("transactions", .array ((List.range txCount).map fun _ => .null))]

/-- A log inside a receipt; it has no `blockHash`. -/
def receiptLogToJson (x : LocatedLog) : Json :=
  .object
    [("address", hexAddress x.log.address),
      ("topics", .array (x.log.topics.map hexB256)),
      ("data", hexString x.log.data),
      ("blockNumber", toHexU64 x.receipt.blockNumber),
      ("transactionHash", hexB256 x.receipt.txHash),
      ("transactionIndex", toHex x.receipt.txIndex),
      ("logIndex", toHex x.logIdx),
      ("removed", .bool false)]

def receiptToJson (r : EvmReceipt) : Json :=
  .object
    [("transactionHash", hexB256 r.txHash),
      ("transactionIndex", toHex r.txIndex),
      ("blockHash", hexB256 r.blockHash),
      ("blockNumber", toHexU64 r.blockNumber),
      ("from", hexAddress r.sender),
      ("to", .ofOption hexAddress r.recipient),
      ("cumulativeGasUsed", toHexU64 r.cumulativeGasUsed),
      ("gasUsed", toHexU64 r.gasUsed),
      ("contractAddress", .ofOption hexAddress r.contractAddress),
      ("logs", .array ((locatedLogs r).map receiptLogToJson)),
      ("logsBloom", hexString r.logsBloom),
      ("status", toHex r.status.toNat),
      ("effectiveGasPrice", toHexU256 r.effectiveGasPrice),
      ("type", .string "0x2")]

/-- `eth_getTransactionByHash` knows a transaction by its receipt only. -/
def transactionToJson (r : EvmReceipt) : Json :=
  .object
    [("hash", hexB256 r.txHash),
      ("blockNumber", toHexU64 r.blockNumber),
      ("blockHash", hexB256 r.blockHash),
      ("transactionIndex", toHex r.txIndex),
      ("from", hexAddress r.sender),
      ("to", .ofOption hexAddress r.recipient),
      ("value", .string "0x0"),
      ("gas", toHexU64 r.gasUsed),
      ("gasPrice", toHexU256 r.effectiveGasPrice)]

def feeHistory (baseFee : UInt64) : Json :=
  .object
    [("oldestBlock", .string "0x0"),
      ("baseFeePerGas", .array [toHexU64 baseFee, toHexU64 baseFee]),
      ("gasUsedRatio", .array [.number "0.0"]),
      ("reward", .array [.array [toHexU64 1000000000]])]

/-! ## Requests -/

structure EvmRpcState where
  executor : EvmExecutor
  chainId : UInt64
  /-- Whether there is a network sink. -/
  networkSink : Bool

/-- What answering a request does. -/
structure Served where
  response : JsonRpcResponse
  executor : EvmExecutor
  broadcast : Option Bytes := none

section Dispatch

variable (libs : RpcLibs) (host : Host) (state : EvmRpcState) (req : JsonRpcRequest)

/-- A result that leaves the executor alone. -/
def replyOk (result : Json) : Served where
  response := .ok req.id result
  executor := state.executor

def replyErr (code : Int) (msg : String) : Served where
  response := .err req.id code msg
  executor := state.executor

/-- A result computed from parsed parameters; a parse error is -32602. -/
def replyParsed (parsed : Except String α) (f : α → Served) : Served :=
  match parsed with
  | .ok a => f a
  | .error e => replyErr state req (-32602) e

/-- The bytes of `eth_sendRawTransaction`. -/
def rawParam (params : Json) : Except String Bytes := do
  let v ← orError "missing params" params.first
  let s ← orError "expected hex string" v.asStr
  (libs.hexDecode (strip0xStr s)).mapError ("invalid hex: " ++ ·)

def ethSendRawTransaction : Served :=
  replyParsed state req (rawParam libs req.params) fun raw =>
    let (result, executor) := state.executor.submitRawTx host raw
    match result with
    | .ok hash =>
        { response := .ok req.id (hexB256 hash)
          executor
          broadcast := if state.networkSink then some raw else none }
    | .error e => { response := .err req.id (-32000) e.message, executor }

def ethCallRequest : Served :=
  replyParsed state req (parseCallParams libs req.params) fun call =>
    let (result, executor) := state.executor.ethCall host call
    match result with
    | .ok output => { response := .ok req.id (hexString output), executor }
    | .error e => { response := .err req.id 3 e, executor }

/-- `eth_estimateGas`: a dry run without the caller's gas, then one of two
constants. -/
def ethEstimateGas : Served :=
  replyParsed state req (parseCallParams libs req.params) fun call =>
    let (result, executor) := state.executor.ethCall host { call with gas := none }
    match result with
    | .ok _ =>
        { response := .ok req.id (toHex (if call.recipient.isSome then 21000 else 100000))
          executor }
    | .error e => { response := .err req.id (-32000) e, executor }

def ethGetStorageAt : Served :=
  match req.params.asArray with
  | some (addr :: slot :: _) =>
      replyParsed state req (parseAddress libs addr) fun addr =>
        replyParsed state req (parseU256 libs slot) fun slot =>
          replyOk state req (toHexU256 (queryStorage host state.executor addr slot))
  | _ => replyErr state req (-32602) "expected [addr, slot, block]"

def dispatch : Served :=
  let e := state.executor
  match req.method with
  | "eth_chainId" => replyOk state req (toHexU64 state.chainId)
  | "net_version" => replyOk state req (.string (toString state.chainId))
  | "web3_clientVersion" => replyOk state req (.string "nbnet/0.1.0")
  | "eth_blockNumber" => replyOk state req (toHexU64 (queryBlockNumber host e))
  | "eth_getBalance" =>
      replyParsed state req (parseAddrBlock libs req.params) fun (addr, _) =>
        replyOk state req (toHexU256 (queryBalance host e addr))
  | "eth_getTransactionCount" =>
      replyParsed state req (parseAddrBlock libs req.params) fun (addr, _) =>
        replyOk state req (toHexU64 (queryNonce host e addr))
  | "eth_getCode" =>
      replyParsed state req (parseAddrBlock libs req.params) fun (addr, _) =>
        replyOk state req (hexString (queryCode host e addr))
  | "eth_getStorageAt" => ethGetStorageAt libs host state req
  | "eth_gasPrice" => replyOk state req (toHexU64 e.config.baseFeePerGas)
  | "eth_estimateGas" => ethEstimateGas libs host state req
  | "eth_maxPriorityFeePerGas" => replyOk state req (toHexU64 1000000000)
  | "eth_sendRawTransaction" => ethSendRawTransaction libs host state req
  | "eth_call" => ethCallRequest libs host state req
  | "eth_getTransactionReceipt" =>
      replyParsed state req (parseHashParam libs req.params) fun hash =>
        replyOk state req (.ofOption receiptToJson (e.getReceiptByTxHash hash))
  | "eth_getTransactionByHash" =>
      replyParsed state req (parseHashParam libs req.params) fun hash =>
        replyOk state req (.ofOption transactionToJson (e.getReceiptByTxHash hash))
  | "eth_getLogs" => replyOk state req (ethGetLogs libs e req.params)
  | "eth_getBlockByNumber" => replyOk state req (ethGetBlockByNumber host e)
  | "eth_getBlockByHash" => replyOk state req .null
  | "eth_feeHistory" => replyOk state req (feeHistory e.config.baseFeePerGas)
  | "eth_syncing" => replyOk state req (.bool false)
  | "eth_accounts" => replyOk state req (.array [])
  | method => replyErr state req (-32601) ("method not found: " ++ method)

end Dispatch

end Nbnet.Rpc
