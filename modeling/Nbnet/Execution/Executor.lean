/-
Nbnet.Execution.Executor — the block executor
(`crates/execution/src/executor.rs`).

revm decides what a transaction does. It enters as `Revm.transact`, a
function of everything it can read: the environment, the database view and
the stakes. It reports what it loaded (and so left in the cache), and
either an error, for which nothing ran, or the result, the change set and
the call tree. What the tree does to the staking ledger is computed by
`Precompile.execTx`; the ledger is shared and keeps it, committed or not.

The codec, the root of the trie and contract addresses are libraries' too;
`Host` collects these parameters, with revm's analysis of code.
-/
import Nbnet.Precompile.Frames
import Nbnet.State.EvmState
import Nbnet.Txpool.Pool

namespace Nbnet.Execution

open Lib State Txpool

/-! ## What the executor is built on -/

inductive TxKind where
  | call (addr : Address)
  | create
  deriving DecidableEq, Repr

/-- The fields of revm's `TxEnv` the executor sets, with revm's defaults. -/
structure TxEnv where
  txType : UInt8 := 0
  caller : Address
  gasLimit : UInt64
  gasPrice : U128
  gasPriorityFee : Option U128 := none
  kind : TxKind
  value : U256
  data : Bytes
  nonce : UInt64 := 0
  chainId : Option UInt64 := some 1
  deriving DecidableEq, Repr

/-- The fields of revm's `BlockEnv` the executor sets, with revm's
defaults. -/
structure BlockEnv where
  number : U256
  beneficiary : Address := 0
  timestamp : U256 := 1
  gasLimit : UInt64
  basefee : UInt64
  deriving DecidableEq, Repr

inductive ExecutionResult where
  | success (gasUsed : UInt64) (logs : List EvmLog) (output : Bytes)
  | revert (gasUsed : UInt64) (logs : List EvmLog) (output : Bytes)
  | halt (gasUsed : UInt64) (reason : String)
  deriving DecidableEq, Repr

def ExecutionResult.gasUsed : ExecutionResult → UInt64
  | .success gasUsed _ _ => gasUsed
  | .revert gasUsed _ _ => gasUsed
  | .halt gasUsed _ => gasUsed

/-- A transaction that ran: its result, its change set, its call tree. -/
structure Executed where
  result : ExecutionResult
  changes : Changes
  tx : Precompile.Tx

/-- What a transaction left in the cache, and how it ended. -/
structure Transacted where
  loads : List Load
  outcome : Except String Executed

structure Revm where
  transact : UInt64 → BlockEnv → TxEnv → DbView → (Address → Address → U256) → Transacted

/-- The libraries an executor calls. -/
structure Host where
  alloy : Alloy
  revm : Revm
  provider : Precompile.HotmintPrecompiles
  rootHash : Trie → Except String Bytes
  createAddress : Address → UInt64 → Address
  analysis : CodeAnalysis

/-! ## The executor -/

structure EvmExecutor where
  state : EvmState
  txpool : PoolInner := .new
  /-- Accumulated receipts per block. -/
  receipts : List (List EvmReceipt) := []
  blockHeight : UInt64 := 0
  staking : Precompile.StakingState := .new

/-- hotmint's block context. -/
structure BlockContext where
  height : UInt64
  proposer : UInt64
  timestamp : UInt64
  deriving DecidableEq, Repr

namespace EvmExecutor

def fromGenesis (host : Host) (genesis : EvmGenesis) : EvmExecutor where
  state := .fromGenesis host.analysis genesis

def config (e : EvmExecutor) : EvmChainConfig := e.state.config

/-- The pool's configuration: the chain's base fee, defaults otherwise. -/
def poolConfig (e : EvmExecutor) : EvmTxPoolConfig := { baseFee := e.config.baseFeePerGas }

/-- `get_receipt_by_tx_hash`: the latest block first, each block forward. -/
def getReceiptByTxHash (e : EvmExecutor) (txHash : B256) : Option EvmReceipt :=
  e.receipts.reverse.findSome? fun block => block.find? (·.txHash = txHash)

/-- `get_receipts`: the receipts of a block by index, from 0. -/
def getReceipts (e : EvmExecutor) (blockIndex : Nat) : Option (List EvmReceipt) :=
  e.receipts[blockIndex]?

/-- `submit_raw_tx`, with the nonce function of `setup_nonce_fn`. -/
def submitRawTx (host : Host) (e : EvmExecutor) (raw : Bytes) :
    Except SubmitError B256 × EvmExecutor :=
  let (result, txpool) :=
    submitTx host.alloy e.poolConfig (some e.state.getNonce) e.txpool raw
  (result, { e with txpool })

/-- The checks of `Application::validate_tx`, on the executor's state. -/
def validateVerified (e : EvmExecutor) (verified : VerifiedTx) : Except TxError Unit :=
  Nbnet.validateTx verified e.config.chainId (e.state.getNonce verified.sender)
    (e.state.getBalance verified.sender) e.config.blockGasLimit e.config.baseFeePerGas

end EvmExecutor

/-! ## Gossip -/

/-- hotmint's verdict on a transaction. -/
structure TxValidationResult where
  valid : Bool
  priority : UInt64
  gasWanted : UInt64
  deriving DecidableEq, Repr

def TxValidationResult.reject : TxValidationResult where
  valid := false
  priority := 0
  gasWanted := 0

def TxValidationResult.acceptWithGas (priority gasWanted : UInt64) : TxValidationResult where
  valid := true
  priority := priority
  gasWanted := gasWanted

namespace EvmExecutor

/-- `Application::validate_tx`. -/
def validateTx (host : Host) (e : EvmExecutor) (raw : Bytes) : TxValidationResult :=
  match decodeAndRecover host.alloy raw with
  | .error _ => .reject
  | .ok verified =>
      match e.validateVerified verified with
      | .error _ => .reject
      | .ok () =>
          .acceptWithGas (effectiveGasTip verified.envelope e.config.baseFeePerGas)
            verified.envelope.gasLimit

/-- `EvmMempoolAdapter::add_tx`: `submit_tx` on the executor's pool. The
verdict's priority and gas are not looked at. -/
def addTx (host : Host) (e : EvmExecutor) (tx : Bytes) (_priority _gasWanted : UInt64) :
    Bool × EvmExecutor :=
  let (result, txpool) :=
    submitTx host.alloy e.poolConfig (some e.state.getNonce) e.txpool tx
  (result.isOk, { e with txpool })

/-- The body of `run_node`'s gossip loop. -/
def gossipTx (host : Host) (e : EvmExecutor) (txBytes : Bytes) : EvmExecutor :=
  let result := e.validateTx host txBytes
  if result.valid then (e.addTx host txBytes result.priority result.gasWanted).2 else e

end EvmExecutor

/-- The balances and the ledger a call tree runs on. -/
def worldOf (view : DbView) (staking : Precompile.StakingState) : Precompile.World where
  journal := { balances := fun a => ((view.basic a).map (·.balance)).getD 0 }
  staking := staking

/-- The ledger after a transaction: what its call tree did to it. -/
def ledgerAfter (host : Host) (view : DbView) (staking : Precompile.StakingState)
    (t : Transacted) : Precompile.StakingState :=
  match t.outcome with
  | .ok run => (Precompile.execTx host.provider (worldOf view staking) run.tx).world.staking
  | .error _ => staking

/-! ## Block execution -/

/-- The transaction environment of a decoded transaction. -/
def txEnvOf (vtx : VerifiedTx) : TxEnv where
  txType :=
    match vtx.envelope.txType with
    | .legacy => 0
    | .eip2930 => 1
    | .eip1559 => 2
    | .eip4844 => 3
    | .eip7702 => 4
  caller := vtx.sender
  gasLimit := vtx.envelope.gasLimit
  gasPrice := vtx.envelope.maxFeePerGas
  gasPriorityFee := vtx.envelope.maxPriorityFeePerGas
  kind :=
    match vtx.envelope.toAddr with
    | some addr => .call addr
    | none => .create
  value := vtx.envelope.value
  data := vtx.envelope.input
  nonce := vtx.envelope.nonce
  chainId := vtx.envelope.chainId

/-- The proposer's id in the low eight bytes of an address. -/
def coinbase (ctx : BlockContext) : Address := ctx.proposer.toBitVec.setWidth 160

def blockEnvOf (config : EvmChainConfig) (ctx : BlockContext) : BlockEnv where
  number := ctx.height.toBitVec.setWidth 256
  beneficiary := coinbase ctx
  timestamp := ctx.timestamp.toBitVec.setWidth 256
  gasLimit := config.blockGasLimit
  basefee := config.baseFeePerGas

/-- `base_fee + min(max_fee - base_fee, max_priority)` in saturating
`u128`. -/
def effectiveGasPrice (config : EvmChainConfig) (tx : TxEnvelope) : U256 :=
  let base : U128 := config.baseFeePerGas.toBitVec.setWidth 128
  let headroom := satSub tx.maxFeePerGas base
  let priority := tx.maxPriorityFeePerGas.getD 0
  let tip := if headroom ≤ priority then headroom else priority
  (satAdd base tip).setWidth 256

/-- The receipt of a transaction that ran. -/
def receiptOf (host : Host) (config : EvmChainConfig) (ctx : BlockContext) (txIdx : Nat)
    (vtx : VerifiedTx) (cumulativeGasUsed : UInt64) (result : ExecutionResult) : EvmReceipt :=
  let (success, logs) : Bool × List EvmLog :=
    match result with
    | .success _ logs _ => (true, logs)
    | .revert _ logs _ => (false, logs)
    | .halt _ _ => (false, [])
  { txHash := vtx.txHash
    txIndex := txIdx
    blockHash := 0
    blockNumber := ctx.height
    sender := vtx.sender
    recipient := vtx.envelope.toAddr
    cumulativeGasUsed := cumulativeGasUsed
    gasUsed := result.gasUsed
    contractAddress :=
      if vtx.envelope.toAddr.isNone then
        some (host.createAddress vtx.sender vtx.envelope.nonce)
      else none
    logs := logs
    logsBloom := List.replicate 256 0
    status := if success then 1 else 0
    effectiveGasPrice := effectiveGasPrice config vtx.envelope }

/-- The locals of the execution loop. -/
structure Loop where
  state : EvmState
  staking : Precompile.StakingState
  cumulativeGasUsed : UInt64 := 0
  receipts : List EvmReceipt := []

/-- How one turn of the loop ends. -/
inductive Turn where
  /-- Nonce mismatch. -/
  | skip
  /-- Block gas limit exceeded. -/
  | stop
  /-- revm reports an error. -/
  | reject (loop : Loop)
  | commit (loop : Loop)

/-- What revm is asked for a transaction of a block. -/
def transactTx (host : Host) (config : EvmChainConfig) (ctx : BlockContext) (l : Loop)
    (vtx : VerifiedTx) : Transacted :=
  host.revm.transact config.chainId (blockEnvOf config ctx) (txEnvOf vtx) l.state.db.view
    l.staking.getStake

/-- The loop after revm rejected a transaction: what it loaded stays. -/
def Loop.rejected (l : Loop) (t : Transacted) : Loop :=
  { l with state := { l.state with db := t.loads.foldl CacheDb.load l.state.db } }

/-- The loop after a transaction ran and was committed. -/
def Loop.committed (host : Host) (config : EvmChainConfig) (ctx : BlockContext) (l : Loop)
    (txIdx : Nat) (vtx : VerifiedTx) (t : Transacted) (run : Executed) : Loop :=
  let cumulativeGasUsed := satAdd64 l.cumulativeGasUsed run.result.gasUsed
  { state :=
      { l.state with db := (t.loads.foldl CacheDb.load l.state.db).commit run.changes }
    staking := ledgerAfter host l.state.db.view l.staking t
    cumulativeGasUsed
    receipts := l.receipts ++
      [receiptOf host config ctx txIdx vtx cumulativeGasUsed run.result] }

/-- One turn of the loop. -/
def executeTx (host : Host) (config : EvmChainConfig) (ctx : BlockContext) (l : Loop)
    (txIdx : Nat) (vtx : VerifiedTx) : Turn :=
  if vtx.envelope.nonce ≠ l.state.getNonce vtx.sender then .skip
  else if satAdd64 l.cumulativeGasUsed vtx.envelope.gasLimit > config.blockGasLimit then .stop
  else
    let t := transactTx host config ctx l vtx
    match t.outcome with
    | .error _ => .reject (l.rejected t)
    | .ok run => .commit (l.committed host config ctx txIdx vtx t run)

/-- The execution loop; the flag says whether the gas limit stopped it. -/
def executeLoop (host : Host) (config : EvmChainConfig) (ctx : BlockContext) :
    Nat → Loop → List VerifiedTx → Loop × Bool
  | _, l, [] => (l, false)
  | txIdx, l, vtx :: rest =>
      match executeTx host config ctx l txIdx vtx with
      | .skip => executeLoop host config ctx (txIdx + 1) l rest
      | .stop => (l, true)
      | .reject l' => executeLoop host config ctx (txIdx + 1) l' rest
      | .commit l' => executeLoop host config ctx (txIdx + 1) l' rest

/-- The transactions of a block that decode. -/
def decodeAll (host : Host) (txs : List Bytes) : List VerifiedTx :=
  txs.filterMap fun raw =>
    match decodeAndRecover host.alloy raw with
    | .ok v => some v
    | .error _ => none

/-- The state a block starts from: the parent's hash (a placeholder) is
recorded first. -/
def startBlock (st : EvmState) (ctx : BlockContext) : EvmState :=
  if ctx.height > 0 then st.recordBlockHash (satSub64 ctx.height 1) 0 else st

/-- The loop of a whole block. -/
def runBlock (host : Host) (e : EvmExecutor) (txs : List Bytes) (ctx : BlockContext) :
    Loop × Bool :=
  executeLoop host e.config ctx 0 { state := startBlock e.state ctx, staking := e.staking }
    (decodeAll host txs)

/-- `execute_block`: the app hash and the executor after it. -/
def EvmExecutor.executeBlock (host : Host) (order : FlushOrder) (e : EvmExecutor)
    (txs : List Bytes) (ctx : BlockContext) : FixedBytes 32 × EvmExecutor :=
  let l := (runBlock host e txs ctx).1
  let state := l.state.flushCacheToVsdb host.analysis order
  (stateRoot host.rootHash state.stateTrie,
    { e with state, staking := l.staking, receipts := e.receipts ++ [l.receipts] })

/-- `create_payload`: at most 4 MiB and the block gas limit. -/
def EvmExecutor.createPayload (it : IterOrder Address SenderQueue) (e : EvmExecutor) :
    Bytes × EvmExecutor :=
  let (payload, txpool) := collectPayload it e.txpool (4 * 1024 * 1024) e.config.blockGasLimit
  (payload, { e with txpool })

/-- `on_commit`. -/
def EvmExecutor.onCommit (it : IterOrder Address SenderQueue) (e : EvmExecutor)
    (ctx : BlockContext) : EvmExecutor :=
  { e with
    blockHeight := ctx.height
    txpool := Txpool.onCommit it e.txpool e.state.getNonce }

/-! ## Queries -/

/-- hotmint's answer to a query; the proof is always absent. -/
structure QueryResponse where
  data : Bytes
  height : UInt64
  deriving DecidableEq, Repr

/-- `query`. An unknown path, or data of the wrong length, is answered with
no bytes. -/
def EvmExecutor.query (host : Host) (e : EvmExecutor) (path : String) (data : Bytes) :
    QueryResponse where
  data :=
    if path = "eth_getBalance" ∧ data.length = 20 then
      (e.state.getBalance (.fromSlice data)).toBeBytes.val
    else if path = "eth_getTransactionCount" ∧ data.length = 20 then
      (u64BeBytes (e.state.getNonce (.fromSlice data))).val
    else if path = "eth_getCode" ∧ data.length = 20 then
      e.state.getCode host.analysis (.fromSlice data)
    else if path = "eth_getStorageAt" ∧ data.length = 52 then
      (e.state.getStorage (.fromSlice (data.take 20)) (.fromBeSlice (data.drop 20))).toBeBytes.val
    else if path = "eth_blockNumber" then (u64BeBytes e.blockHeight).val
    else []
  height := e.blockHeight

/-! ## Dry runs -/

/-- An `eth_call` request. -/
structure CallRequest where
  sender : Address
  recipient : Option Address
  data : Bytes
  value : U256
  gas : Option UInt64
  deriving DecidableEq, Repr

/-- Two lower-case digits per byte, as the `hex` crate writes them. -/
def hexEncode (b : Bytes) : String :=
  String.join (b.map fun x =>
    String.ofList [Nat.digitChar (x.toNat / 16), Nat.digitChar (x.toNat % 16)])

/-- What revm is asked for an `eth_call`. -/
def transactCall (host : Host) (e : EvmExecutor) (req : CallRequest) : Transacted :=
  host.revm.transact e.config.chainId
    { number := e.blockHeight.toBitVec.setWidth 256
      gasLimit := e.config.blockGasLimit
      basefee := e.config.baseFeePerGas }
    { caller := req.sender
      gasLimit := req.gas.getD e.config.blockGasLimit
      gasPrice := e.config.baseFeePerGas.toBitVec.setWidth 128
      kind :=
        match req.recipient with
        | some addr => .call addr
        | none => .create
      value := req.value
      data := req.data }
    e.state.db.view e.staking.getStake

/-- `eth_call` on the live database: nothing is committed, but what was
loaded stays in the cache and what the call did to the ledger stays. -/
def EvmExecutor.ethCall (host : Host) (e : EvmExecutor) (req : CallRequest) :
    Except String Bytes × EvmExecutor :=
  let t := transactCall host e req
  let result : Except String Bytes :=
    match t.outcome with
    | .ok run =>
        match run.result with
        | .success _ _ output => .ok output
        | .revert _ _ output => .error ("execution reverted: 0x" ++ hexEncode output)
        | .halt _ reason => .error ("execution halted: " ++ reason)
    | .error err => .error ("EVM error: " ++ err)
  (result,
    { e with
      state := { e.state with db := t.loads.foldl CacheDb.load e.state.db }
      staking := ledgerAfter host e.state.db.view e.staking t })

end Nbnet.Execution
