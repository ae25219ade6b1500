/-
Nbnet.Rpc.QueryTheorems — the schedule of a chain and what a block query
says about it.

The receipts are a list with one entry per executed block, so block `n` is
entry `n - 1`; heights count from 1 and move at the commit. A query can
come at any moment. `Phase` is the consensus engine's schedule: it executes
the block above the last committed one, then commits it. `InPhase` is what
the executor looks like in each phase.

`eth_getBlockByNumber` takes the height for an index and so counts the
block above. `block_query_describes_iff` says when this cannot be seen.
-/
import Nbnet.Execution.IndexTheorems
import Nbnet.Rpc.Server
import Nbnet.Txpool.EncodingTheorems

namespace Nbnet.Rpc

open Lib Txpool Execution

/-! ## The schedule -/

/-- Where the engine is; the number is the last committed height. -/
inductive Phase where
  | idle (height : Nat)
  | executed (height : Nat)
  deriving DecidableEq, Repr

namespace Phase

def height : Phase → Nat
  | idle h => h
  | executed h => h

/-- The number of blocks executed. -/
def blocks : Phase → Nat
  | idle h => h
  | executed h => h + 1

/-- A block is executed at the height above the last committed one, and
committed before the next. Other steps are free. -/
def step : Phase → NodeStep → Option Phase
  | idle h, .executeBlock _ ctx => if ctx.height.toNat = h + 1 then some (executed h) else none
  | executed h, .onCommit _ ctx =>
      if ctx.height.toNat = h + 1 then some (idle (h + 1)) else none
  | executed _, .executeBlock _ _ => none
  | idle _, .onCommit _ _ => none
  | p, .createPayload _ => some p
  | p, .submitRawTx _ => some p
  | p, .ethCall _ => some p

end Phase

/-- The phase after steps that keep to the schedule from genesis on. -/
def phaseAfter (steps : List NodeStep) : Option Phase := steps.foldlM Phase.step (.idle 0)

/-- The executor in a phase. -/
structure InPhase (p : Phase) (e : EvmExecutor) : Prop where
  height : e.blockHeight.toNat = p.height
  blocks : e.receipts.length = p.blocks
  /-- Entry `k` holds the receipts of block `k + 1`. -/
  numbered : ∀ k rs, e.receipts[k]? = some rs → ∀ r ∈ rs, r.blockNumber.toNat = k + 1
  increasing : ∀ rs ∈ e.receipts, rs.Pairwise fun a b => a.txIndex < b.txIndex

section Runs

variable {host : Host} {p p' : Phase} {e : EvmExecutor}

/-- The phase shows in height and receipts only. -/
theorem InPhase.congr {e' : EvmExecutor} (hin : InPhase p e)
    (hheight : e'.blockHeight = e.blockHeight) (hreceipts : e'.receipts = e.receipts) :
    InPhase p e' := by
  constructor
  · rw [hheight]
    exact hin.height
  · rw [hreceipts]
    exact hin.blocks
  · rw [hreceipts]
    exact hin.numbered
  · rw [hreceipts]
    exact hin.increasing

theorem InPhase.executeBlock {h : Nat} (hin : InPhase (.idle h) e) (order : State.FlushOrder)
    (txs : List Bytes) {ctx : BlockContext} (hctx : ctx.height.toNat = h + 1) :
    InPhase (.executed h) (e.executeBlock host order txs ctx).2 := by
  have hnum := numbered_runBlock host e txs ctx
  have hlen : e.receipts.length = h := hin.blocks
  refine ⟨hin.height, ?_, fun k rs hk => ?_, fun rs hrs => ?_⟩
  · simp only [EvmExecutor.executeBlock, List.length_append, List.length_singleton, hlen]
    rfl
  · simp only [EvmExecutor.executeBlock] at hk
    by_cases hlt : k < e.receipts.length
    · rw [List.getElem?_append_left hlt] at hk
      exact hin.numbered k rs hk
    · rw [List.getElem?_append_right (not_lt.mp hlt), List.getElem?_singleton] at hk
      obtain ⟨hzero, hrs⟩ := Option.ite_none_right_eq_some.mp hk
      obtain rfl := Option.some.inj hrs
      intro r hr
      rw [hnum.number r hr, hctx]
      omega
  · rcases List.mem_append.mp hrs with hrs | hrs
    · exact hin.increasing rs hrs
    · obtain rfl := List.mem_singleton.mp hrs
      exact hnum.increasing

theorem InPhase.onCommit {h : Nat} (hin : InPhase (.executed h) e)
    (it : IterOrder Address SenderQueue) {ctx : BlockContext} (hctx : ctx.height.toNat = h + 1) :
    InPhase (.idle (h + 1)) (e.onCommit it ctx) :=
  ⟨hctx, hin.blocks, hin.numbered, hin.increasing⟩

theorem inPhase_step (orders : Nat → State.FlushOrder) {n : Node} (hin : InPhase p n.executor)
    (s : NodeStep) (hstep : p.step s = some p') : InPhase p' (n.step host orders s).executor := by
  cases s with
  | executeBlock txs ctx =>
    cases p with
    | idle h =>
      obtain ⟨hctx, hp⟩ := Option.ite_none_right_eq_some.mp hstep
      obtain rfl := Option.some.inj hp
      exact hin.executeBlock _ txs hctx
    | executed h => cases hstep
  | onCommit it ctx =>
    cases p with
    | idle h => cases hstep
    | executed h =>
      obtain ⟨hctx, hp⟩ := Option.ite_none_right_eq_some.mp hstep
      obtain rfl := Option.some.inj hp
      exact hin.onCommit it hctx
  | createPayload it =>
    obtain rfl : p = p' := by cases p <;> exact Option.some.inj hstep
    exact hin.congr rfl rfl
  | submitRawTx raw =>
    obtain rfl : p = p' := by cases p <;> exact Option.some.inj hstep
    exact hin.congr rfl rfl
  | ethCall req =>
    obtain rfl : p = p' := by cases p <;> exact Option.some.inj hstep
    exact hin.congr rfl rfl

/-- Every run that keeps to the schedule is in its phase. -/
theorem inPhase_run (orders : Nat → State.FlushOrder) (genesis : EvmGenesis)
    {steps : List NodeStep} (hrun : phaseAfter steps = some p) :
    InPhase p (steps.foldl (Node.step host orders) (.fromGenesis host genesis)).executor := by
  have hall : ∀ (steps : List NodeStep) (n : Node) (q : Phase), InPhase q n.executor →
      steps.foldlM Phase.step q = some p →
      InPhase p (steps.foldl (Node.step host orders) n).executor := by
    intro steps
    induction steps with
    | nil =>
      intro n q hin hq
      obtain rfl : q = p := Option.some.inj hq
      exact hin
    | cons s steps ih =>
      intro n q hin hq
      obtain ⟨q', hstep, hrest⟩ := Option.bind_eq_some_iff.mp hq
      exact ih _ q' (inPhase_step orders hin s hstep) hrest
  exact hall steps _ (.idle 0) ⟨rfl, rfl, by simp [Node.fromGenesis, EvmExecutor.fromGenesis],
    by simp [Node.fromGenesis, EvmExecutor.fromGenesis]⟩ hrun

end Runs

/-! ## Block queries -/

/-- The receipts of a block, by their number. -/
def receiptsAt (e : EvmExecutor) (number : Nat) : List EvmReceipt :=
  e.receipts.flatten.filter fun r => r.blockNumber.toNat = number

/-- In a list of blocks numbered from `i` on, the receipts of a number are
one block's. -/
theorem filter_number (bs : List (List EvmReceipt)) (i k : Nat)
    (h : ∀ j rs, bs[j]? = some rs → ∀ r ∈ rs, r.blockNumber.toNat = i + j) :
    bs.flatten.filter (fun r => r.blockNumber.toNat = i + k) = (bs[k]?).getD [] := by
  induction bs generalizing i k with
  | nil => simp
  | cons b bs ih =>
    have hhead : ∀ r ∈ b, r.blockNumber.toNat = i := h 0 b rfl
    have htail : ∀ j rs, bs[j]? = some rs → ∀ r ∈ rs, r.blockNumber.toNat = i + 1 + j := by
      intro j rs hj r hr
      rw [h (j + 1) rs hj r hr]
      omega
    rw [List.flatten_cons, List.filter_append]
    cases k with
    | zero =>
      have hkeep : b.filter (fun r => r.blockNumber.toNat = i + 0) = b :=
        List.filter_eq_self.mpr fun r hr => by simp [hhead r hr]
      have hdrop : bs.flatten.filter (fun r => r.blockNumber.toNat = i + 0) = [] := by
        refine List.filter_eq_nil_iff.mpr fun r hr => ?_
        obtain ⟨rs, hrs, hr⟩ := List.mem_flatten.mp hr
        obtain ⟨j, hj⟩ := List.mem_iff_getElem?.mp hrs
        have := htail j rs hj r hr
        simp only [decide_eq_true_eq]
        omega
      rw [hkeep, hdrop]
      simp
    | succ k =>
      have hdrop : b.filter (fun r => r.blockNumber.toNat = i + (k + 1)) = [] := by
        refine List.filter_eq_nil_iff.mpr fun r hr => ?_
        simp only [hhead r hr, decide_eq_true_eq]
        omega
      rw [hdrop, show i + (k + 1) = i + 1 + k by omega, ih (i + 1) k htail]
      simp

section Queries

variable {p : Phase} {e : EvmExecutor}

theorem InPhase.receiptsAt_succ (hin : InPhase p e) (k : Nat) :
    receiptsAt e (k + 1) = (e.receipts[k]?).getD [] := by
  rw [receiptsAt, Nat.add_comm k 1]
  refine filter_number e.receipts 1 k fun j rs hj r hr => ?_
  rw [hin.numbered j rs hj r hr, Nat.add_comm]

/-- The block number goes through eight bytes and back. -/
theorem queryBlockNumber_eq (host : Host) (e : EvmExecutor) :
    queryBlockNumber host e = e.blockHeight := by
  have hdata : (e.query host "eth_blockNumber" []).data = (u64BeBytes e.blockHeight).val := by
    simp [EvmExecutor.query]
  simp only [queryBlockNumber, hdata, (u64BeBytes e.blockHeight).property, if_true]
  exact UInt64.toBitVec_inj.mp (ofWordBytes_wordBytes (n := 8) rfl e.blockHeight.toBitVec)

/-- The response counts the receipts of the block above. -/
theorem InPhase.block_transactions (host : Host) (hin : InPhase p e) :
    (ethGetBlockByNumber host e).get "number" = toHex p.height ∧
      ∃ txs, (ethGetBlockByNumber host e).get "transactions" = .array txs ∧
        txs.length = (receiptsAt e (p.height + 1)).length := by
  have hnumber : queryBlockNumber host e = e.blockHeight := queryBlockNumber_eq host e
  refine ⟨?_, _, rfl, ?_⟩
  · rw [← hin.height, ← hnumber]
    rfl
  · rw [List.length_map, List.length_range, hin.receiptsAt_succ, hnumber, hin.height,
      EvmExecutor.getReceipts]
    cases e.receipts[p.height]? <;> rfl

end Queries

/-- **When a block query describes its block.** After every run that keeps
to the schedule the response has the last committed height; it has as many
transactions as that block has receipts exactly when the block above has
as many, none as long as that is not executed. -/
theorem block_query_describes_iff (libs : RpcLibs) (host : Host)
    (orders : Nat → State.FlushOrder) (genesis : EvmGenesis) (steps : List NodeStep)
    (phase : Phase) (hrun : phaseAfter steps = some phase) (chainId : UInt64) (sink : Bool)
    (params id : Json) :
    let e := (steps.foldl (Node.step host orders) (.fromGenesis host genesis)).executor
    ∃ block, (dispatch libs host ⟨e, chainId, sink⟩
          ⟨"eth_getBlockByNumber", params, id⟩).response = .ok id block ∧
      block.get "number" = toHex phase.height ∧
      ((∃ txs, block.get "transactions" = .array txs ∧
          txs.length = (receiptsAt e phase.height).length) ↔
        (receiptsAt e phase.height).length = (receiptsAt e (phase.height + 1)).length) := by
  intro e
  obtain ⟨hnumber, txs, htxs, hlen⟩ := (inPhase_run orders genesis hrun).block_transactions host
  refine ⟨ethGetBlockByNumber host e, rfl, hnumber, ?_⟩
  constructor
  · rintro ⟨txs', htxs', hlen'⟩
    obtain rfl : txs = txs' := Json.array.inj (htxs.symm.trans htxs')
    rw [← hlen, ← hlen']
  · exact fun heq => ⟨txs, htxs, hlen.trans heq.symm⟩

/-- Hexadecimal digits as the two crates read them. -/
def sampleLibs : RpcLibs where
  hexDecode s :=
    if s.toList.length % 2 = 0 ∧ s.toList.all hexDigits.contains then
      .ok (bytesOfDigits s.toList)
    else .error "Invalid character"
  u256FromStrRadix16 s :=
    let value := s.toList.foldl (fun acc c => acc * 16 + digitOf c) 0
    if s ≠ "" ∧ s.toList.all hexDigits.contains ∧ value < 2 ^ 256 then
      .ok (BitVec.ofNat 256 value)
    else .error "invalid digit"

/-- Alice's first transfer is block 1; her second is block 2, executed and
not yet committed. -/
def twoTransfers : List NodeStep :=
  [.executeBlock [alice0.raw] block1, .onCommit .ascending block1,
    .executeBlock [alice1.raw] block2]

/-- Block 1 is described while block 2 has as many receipts. -/
theorem block_query_two_transfers :
    phaseAfter twoTransfers = some (.executed 1) ∧
      ∃ block, (dispatch sampleLibs sampleHost
          ⟨(twoTransfers.foldl (Node.step sampleHost ascendingFlush)
            (.fromGenesis sampleHost aliceGenesis)).executor, 1337, false⟩
          ⟨"eth_getBlockByNumber", .null, .null⟩).response = .ok .null block ∧
        ∃ txs, block.get "transactions" = .array txs ∧ txs.length = 1 := by
  have hrun : phaseAfter twoTransfers = some (.executed 1) := by decide +kernel
  obtain ⟨block, hblock, -, hiff⟩ := block_query_describes_iff sampleLibs sampleHost
    ascendingFlush aliceGenesis twoTransfers (.executed 1) hrun 1337 false .null .null
  obtain ⟨txs, htxs, hlen⟩ := hiff.mpr (by decide +kernel)
  exact ⟨hrun, block, hblock, txs, htxs, hlen.trans (by decide +kernel)⟩

/-- Alice's transfer is block 1. -/
def transferBlock : List NodeStep :=
  [.executeBlock [alice0.raw] block1, .onCommit .ascending block1]

/-- Block 1 has a receipt and is shown without a transaction. -/
theorem committed_transfer_not_counted :
    let e := (transferBlock.foldl (Node.step sampleHost ascendingFlush)
      (.fromGenesis sampleHost aliceGenesis)).executor
    phaseAfter transferBlock = some (.idle 1) ∧
      (receiptsAt e 1).map (fun r => r.txHash) = [alice0.txHash] ∧
      ∃ block, (dispatch sampleLibs sampleHost ⟨e, 1337, false⟩
          ⟨"eth_getBlockByNumber", .null, .null⟩).response = .ok .null block ∧
        block.get "number" = toHex 1 ∧ block.get "transactions" = .array [] := by
  intro e
  have hrun : phaseAfter transferBlock = some (.idle 1) := by decide +kernel
  have hin : InPhase (.idle 1) e := inPhase_run ascendingFlush aliceGenesis hrun
  obtain ⟨hnumber, txs, htxs, hlen⟩ := hin.block_transactions sampleHost
  have hnone : txs.length = 0 := hlen.trans (by decide +kernel)
  refine ⟨hrun, by decide +kernel, ethGetBlockByNumber sampleHost e, rfl, hnumber, ?_⟩
  rw [htxs, List.eq_nil_of_length_eq_zero hnone]

end Nbnet.Rpc
