/-
Nbnet.Txpool.Pool — the transaction pool (`crates/txpool/src/lib.rs`).

`PoolInner` is what the pool's mutex guards. The nonce lookup installed by
`set_nonce_fn` reads the executor's state, which moves between calls, so
it is an argument of `submitTx` and not a field. Where the source walks
over the `senders` hash table the walk takes an `IterOrder`.

`promote_queued_static` is a `while` loop that removes one queued entry
per turn; its fuel is the size of the queue.
-/
import Mathlib.Data.List.Sort
import Nbnet.Types.Tx

namespace Nbnet.Txpool

open Lib

structure EvmTxPoolConfig where
  maxPendingPerSender : Nat := 64
  maxQueuedPerSender : Nat := 64
  replacementBumpPct : UInt64 := 10
  baseFee : UInt64 := 1000000000

/-- A transaction entry in the pool. -/
structure PoolEntry where
  verified : VerifiedTx
  effectiveTip : UInt64
  deriving DecidableEq, Repr

/-- `BTreeMap<u64, PoolEntry>`. -/
abbrev NonceMap := FMap UInt64 PoolEntry

/-- The two maps of a sender. -/
inductive Slot where
  | pending
  | queued
  deriving DecidableEq, Repr

/-- Per-sender transaction queue. -/
structure SenderQueue where
  pending : NonceMap := ∅
  queued : NonceMap := ∅
  deriving DecidableEq

/-- The map a slot names. -/
def SenderQueue.map (queue : SenderQueue) : Slot → NonceMap
  | .pending => queue.pending
  | .queued => queue.queued

def SenderQueue.setMap (queue : SenderQueue) : Slot → NonceMap → SenderQueue
  | .pending, m => { queue with pending := m }
  | .queued, m => { queue with queued := m }

structure PoolInner where
  senders : FMap Address SenderQueue := ∅
  byHash : FMap B256 Address := ∅
  deriving DecidableEq

/-- `EvmTxPool::new`. -/
def PoolInner.new : PoolInner := {}

/-- The failures of `submit_tx`. -/
inductive SubmitError where
  | decode (e : TxError)
  | alreadyKnown
  | nonceTooLow (txNonce currentNonce : UInt64)
  | replacementUnderpriced (minTip got : UInt64)
  | senderQueueFull
  deriving DecidableEq, Repr

/-- The text `submit_tx` returns. -/
def SubmitError.message : SubmitError → String
  | .decode e => e.display
  | .alreadyKnown => "transaction already known"
  | .nonceTooLow txNonce currentNonce =>
      s!"nonce too low: tx nonce {txNonce} < current {currentNonce}"
  | .replacementUnderpriced minTip got =>
      s!"replacement underpriced: need tip >= {minTip}, got {got}"
  | .senderQueueFull => "sender queue full"

/-! ## Promotion -/

/-- The `while` loop of `promote_queued_static`. `next + 1` wraps. -/
def promoteLoop : Nat → SenderQueue → UInt64 → SenderQueue
  | 0, queue, _ => queue
  | fuel + 1, queue, next =>
      match queue.queued[next]? with
      | none => queue
      | some entry =>
          promoteLoop fuel
            { pending := queue.pending.insert next entry
              queued := queue.queued.erase next }
            (next + 1)

/-- Where `promote_queued_static` starts: right after the last pending
nonce, or at the account nonce when nothing is pending. -/
def promoteStart (queue : SenderQueue) (currentNonce : UInt64) : UInt64 :=
  match queue.pending.keys.getLast? with
  | some n => n + 1
  | none => currentNonce

/-- `promote_queued_static`. -/
def promoteQueuedStatic (queue : SenderQueue) (currentNonce : UInt64) : SenderQueue :=
  promoteLoop queue.queued.size queue (promoteStart queue currentNonce)

/-! ## Submission -/

/-- Whether `submit_tx` sends a nonce to pending or to queued. -/
def slotFor (queue : SenderQueue) (currentNonce txNonce : UInt64) : Slot :=
  if txNonce = currentNonce ∨ queue.pending.contains (satSub64 txNonce 1) then .pending
  else .queued

/-- The capacity of a slot. -/
def EvmTxPoolConfig.limit (config : EvmTxPoolConfig) : Slot → Nat
  | .pending => config.maxPendingPerSender
  | .queued => config.maxQueuedPerSender

/-- The tip a replacement has to reach. `100 + pct` wraps, the product
saturates, the quotient truncates. -/
def minReplacementTip (config : EvmTxPoolConfig) (existing : PoolEntry) : UInt64 :=
  satMul64 existing.effectiveTip (100 + config.replacementBumpPct) / 100

/-- The middle of `submit_tx`: replacement check, capacity check and
insertion in the chosen map. Returns the queue with the new entry and the
hash of the entry it replaced. -/
def placeEntry (config : EvmTxPoolConfig) (queue : SenderQueue) (slot : Slot)
    (entry : PoolEntry) : Except SubmitError (SenderQueue × Option B256) :=
  let txNonce := entry.verified.envelope.nonce
  let target := queue.map slot
  match target[txNonce]? with
  | some existing =>
      let minTip := minReplacementTip config existing
      if entry.effectiveTip < minTip then
        .error (.replacementUnderpriced minTip entry.effectiveTip)
      else
        .ok (queue.setMap slot (target.insert txNonce entry), some existing.verified.txHash)
  | none =>
      if target.size ≥ config.limit slot then .error .senderQueueFull
      else .ok (queue.setMap slot (target.insert txNonce entry), none)

/-- `by_hash` after an insertion: the replaced hash goes, the new one comes. -/
def reindex (byHash : FMap B256 Address) (oldHash : Option B256) (txHash : B256)
    (sender : Address) : FMap B256 Address :=
  match oldHash with
  | some h => (byHash.erase h).insert txHash sender
  | none => byHash.insert txHash sender

/-- `submit_tx` once the transaction is decoded, under the pool lock. -/
def submitVerified (config : EvmTxPoolConfig) (nonceFn : Option (Address → UInt64))
    (inner : PoolInner) (verified : VerifiedTx) : Except SubmitError B256 × PoolInner :=
  let txHash := verified.txHash
  let entry : PoolEntry :=
    { verified, effectiveTip := effectiveGasTip verified.envelope config.baseFee }
  if inner.byHash.contains txHash then (.error .alreadyKnown, inner)
  else
    let sender := verified.sender
    let txNonce := verified.envelope.nonce
    let currentNonce := (nonceFn.map (· sender)).getD 0
    if txNonce < currentNonce then (.error (.nonceTooLow txNonce currentNonce), inner)
    else
      let queue := (inner.senders[sender]?).getD {}
      match placeEntry config queue (slotFor queue currentNonce txNonce) entry with
      | .error e =>
          -- `entry(sender).or_default()` has left a record behind
          (.error e, { inner with senders := inner.senders.insert sender queue })
      | .ok (queue', oldHash) =>
          (.ok txHash,
            { senders := inner.senders.insert sender (promoteQueuedStatic queue' currentNonce)
              byHash := reindex inner.byHash oldHash txHash sender })

/-- `submit_tx`. -/
def submitTx (al : Alloy) (config : EvmTxPoolConfig) (nonceFn : Option (Address → UInt64))
    (inner : PoolInner) (raw : Bytes) : Except SubmitError B256 × PoolInner :=
  match decodeAndRecover al raw with
  | .error e => (.error (.decode e), inner)
  | .ok verified => submitVerified config nonceFn inner verified

/-! ## Payload collection -/

/-- The best pending transaction of a sender. -/
structure Candidate where
  sender : Address
  nonce : UInt64
  tip : UInt64
  raw : Bytes
  deriving DecidableEq, Repr

/-- The lowest pending transaction of each sender, in table order. -/
def candidates (it : IterOrder Address SenderQueue) (inner : PoolInner) : List Candidate :=
  (it.order inner.senders).filterMap fun sender =>
    (inner.senders[sender]?).bind fun queue =>
      queue.pending.toList.head?.map fun (nonce, entry) =>
        { sender, nonce, tip := entry.effectiveTip, raw := entry.verified.raw }

/-- `sort_by_key(Reverse(tip))`, a stable sort. -/
def sortByTip (cs : List Candidate) : List Candidate :=
  cs.insertionSort fun a b => b.tip ≤ a.tip

/-- The gas limit of a candidate, looked up again in the pool. -/
def candidateGas (inner : PoolInner) (c : Candidate) : UInt64 :=
  (((inner.senders[c.sender]?).bind fun q => q.pending[c.nonce]?).map
    fun e => e.verified.envelope.gasLimit).getD 0

/-- `(len as u32).to_le_bytes()`. -/
def u32LeBytes (n : Nat) : Bytes := (beBytes 4 n).reverse

/-- The locals of the selection loop. `included` keeps the whole
candidate, of which the removal reads sender and nonce. -/
structure Selection where
  payload : Bytes := []
  totalGas : UInt64 := 0
  included : List Candidate := []
  deriving DecidableEq, Repr

/-- One candidate appended to the payload. `totalGas` wraps. -/
def Selection.push (sel : Selection) (c : Candidate) (gas : UInt64) : Selection :=
  { payload := sel.payload ++ u32LeBytes c.raw.length ++ c.raw
    totalGas := sel.totalGas + gas
    included := sel.included ++ [c] }

/-- The selection loop: the byte limit leaves the loop, the gas limit
skips the candidate. -/
def selectLoop (inner : PoolInner) (maxBytes : Nat) (maxGas : UInt64) :
    Selection → List Candidate → Selection
  | sel, [] => sel
  | sel, c :: rest =>
      let gas := candidateGas inner c
      if sel.payload.length + 4 + c.raw.length > maxBytes then sel
      else if maxGas > 0 ∧ sel.totalGas + gas > maxGas then selectLoop inner maxBytes maxGas sel rest
      else selectLoop inner maxBytes maxGas (sel.push c gas) rest

/-- What `collect_payload` picks. -/
def selection (it : IterOrder Address SenderQueue) (inner : PoolInner) (maxBytes : Nat)
    (maxGas : UInt64) : Selection :=
  selectLoop inner maxBytes maxGas {} (sortByTip (candidates it inner))

/-- Remove one included transaction from its sender and from the index. -/
def removeIncluded (inner : PoolInner) (c : Candidate) : PoolInner :=
  match inner.senders[c.sender]? with
  | none => inner
  | some queue =>
      match queue.pending[c.nonce]? with
      | none => inner
      | some entry =>
          { senders := inner.senders.insert c.sender
              { queue with pending := queue.pending.erase c.nonce }
            byHash := inner.byHash.erase entry.verified.txHash }

/-- `collect_payload`. -/
def collectPayload (it : IterOrder Address SenderQueue) (inner : PoolInner) (maxBytes : Nat)
    (maxGas : UInt64) : Bytes × PoolInner :=
  let sel := selection it inner maxBytes maxGas
  (sel.payload, sel.included.foldl removeIncluded inner)

/-! ## Commit -/

/-- Remove one entry, keeping its hash for later. -/
def dropEntry (acc : NonceMap × List B256) (n : UInt64) : NonceMap × List B256 :=
  match acc.1[n]? with
  | some entry => (acc.1.erase n, acc.2 ++ [entry.verified.txHash])
  | none => acc

/-- Remove the entries below `currentNonce`, collecting their hashes. -/
def removeStale (m : NonceMap) (currentNonce : UInt64) : NonceMap × List B256 :=
  (m.keys.filter (· < currentNonce)).foldl dropEntry (m, [])

/-- The locals of `on_commit`'s loop. -/
structure CommitLoop where
  senders : FMap Address SenderQueue
  hashesToRemove : List B256 := []
  emptySenders : List Address := []

/-- What `on_commit` does to one sender's queue: the cleaned and promoted
queue and the hashes that left it. -/
def commitQueue (queue : SenderQueue) (currentNonce : UInt64) : SenderQueue × List B256 :=
  let (pending, hs) := removeStale queue.pending currentNonce
  let (queued, hs') := removeStale queue.queued currentNonce
  (promoteQueuedStatic { pending, queued } currentNonce, hs ++ hs')

/-- One turn of `on_commit`'s loop. -/
def commitSender (nonceFn : Address → UInt64) (st : CommitLoop) (sender : Address) : CommitLoop :=
  match st.senders[sender]? with
  | none => st
  | some queue =>
      let (queue', hs) := commitQueue queue (nonceFn sender)
      { senders := st.senders.insert sender queue'
        hashesToRemove := st.hashesToRemove ++ hs
        emptySenders :=
          if queue'.pending.isEmpty ∧ queue'.queued.isEmpty then st.emptySenders ++ [sender]
          else st.emptySenders }

/-- `on_commit`. -/
def onCommit (it : IterOrder Address SenderQueue) (inner : PoolInner)
    (nonceFn : Address → UInt64) : PoolInner :=
  let st := (it.order inner.senders).foldl (commitSender nonceFn) { senders := inner.senders }
  { senders := st.emptySenders.foldl (fun m s => m.erase s) st.senders
    byHash := st.hashesToRemove.foldl (fun m h => m.erase h) inner.byHash }

/-! ## Counters -/

def pendingCount (inner : PoolInner) : Nat :=
  (inner.senders.toList.map fun e => e.2.pending.size).sum

def queuedCount (inner : PoolInner) : Nat :=
  (inner.senders.toList.map fun e => e.2.queued.size).sum

def containsHash (inner : PoolInner) (h : B256) : Bool :=
  inner.byHash.contains h

end Nbnet.Txpool
