/-
Nbnet.Rpc.Client — the JSON-RPC client of the benchmark
(`crates/node/src/bench.rs`).

`rpc_json` posts a request and returns the body of the response. The
connection is the parameter `post`; where it fails, so does the client. A
node on the other end answers with `serveJson`, the response as serde
writes it: `result` and `error` are left out where they are absent.
-/
import Nbnet.Rpc.Server

namespace Nbnet.Rpc

open Lib Txpool Execution

/-- `Serialize for JsonRpcError`. -/
def JsonRpcError.toJson (e : JsonRpcError) : Json :=
  .object [("code", .number (toString e.code)), ("message", .string e.message)]

/-- `Serialize for JsonRpcResponse`. -/
def JsonRpcResponse.toJson (r : JsonRpcResponse) : Json :=
  .object (("jsonrpc", .string r.jsonrpc) ::
    ((r.result.map fun j => ("result", j)).toList ++
      (r.error.map fun e => ("error", e.toJson)).toList ++ [("id", r.id)]))

/-- A node at the other end of the connection. -/
def serveJson (libs : RpcLibs) (host : Host) (state : EvmRpcState) (req : JsonRpcRequest) :
    Option Json :=
  some (dispatch libs host state req).response.toJson

section Client

variable (post : JsonRpcRequest → Option Json)

/-- The request `rpc_json` posts: its id is 1. -/
def clientRequest (method : String) (params : Json) : JsonRpcRequest where
  method := method
  params := params
  id := .number "1"

def rpcJson (method : String) (params : Json) : Option Json := post (clientRequest method params)

/-- `strip_prefix("0x")`. -/
def stripPrefix0x (s : String) : Option String :=
  match s.toList with
  | '0' :: 'x' :: rest => some (String.ofList rest)
  | _ => none

/-- A `u64` in the result of a response. -/
def resultU64 (resp : Json) : Option UInt64 := do
  let hex ← (resp.get "result").asStr
  u64FromStrRadix16 (utf8 (← stripPrefix0x hex))

def rpcBlockNumber : Option UInt64 := do
  resultU64 (← rpcJson post "eth_blockNumber" (.array []))

/-- The request of `rpc_get_nonce`. -/
def nonceRequest (addr : Address) : JsonRpcRequest :=
  clientRequest "eth_getTransactionCount" (.array [hexAddress addr, .string "latest"])

def rpcGetNonce (addr : Address) : Option UInt64 := do resultU64 (← post (nonceRequest addr))

/-- The request of `rpc_send_raw_tx`. -/
def sendRequest (rawTx : Bytes) : JsonRpcRequest :=
  clientRequest "eth_sendRawTransaction" (.array [hexString rawTx])

/-- `rpc_send_raw_tx`: whether there was a response, of either kind. -/
def rpcSendRawTx (rawTx : Bytes) : Bool := (post (sendRequest rawTx)).isSome

end Client

end Nbnet.Rpc
