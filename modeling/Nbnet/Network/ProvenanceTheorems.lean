/-
Nbnet.Network.ProvenanceTheorems — nothing is executed that no client
submitted.

A transaction goes from `eth_sendRawTransaction` into a pool, over gossip
into other pools, from a pool into a payload, from a payload into a block
and from a block into the receipts. `Clean` says of each of these places
that what it holds was submitted by some client at some node; every step
keeps it. hotmint takes payloads apart, which is the parameter
`decodePayload`: it reads rows of length-prefixed records.
-/
import Nbnet.Network.Validators

namespace Nbnet.Network

open Lib State Txpool Execution Rpc

variable {ι : Type} [DecidableEq ι]

/-! ## Where transactions come from -/

/-- Some client submits these bytes during the run. -/
def Submitted (libs : RpcLibs) (steps : List (NetStep ι)) (raw : Bytes) : Prop :=
  ∃ i req, .act i (.request req) ∈ steps ∧ effectOf libs req = .submit raw

/-- The payload format: records after their lengths in four bytes. -/
def ReadsRecords (decodePayload : Bytes → List Bytes) : Prop :=
  ∀ txs : List Bytes, (∀ tx ∈ txs, tx.length < 256 ^ 4) →
    decodePayload (txs.flatMap (frame 4)) = txs

/-- The condition on a step: a decided block carries the transactions of a
payload some node has proposed. -/
def FromPayload (decodePayload : Bytes → List Bytes) (c : Net ι) : NetStep ι → Prop
  | .append b => ∃ bytes, .payload bytes ∈ c.sent ∧ b.txs = decodePayload bytes
  | _ => True

section Clean

variable (al : Alloy) (given : Bytes → Prop)

/-- A node whose pool holds, and whose receipts are of, given transactions
only. -/
structure Clean (n : Node) : Prop where
  pool : PoolInv n.executor.txpool
  held : ∀ x ∈ held n.executor.txpool, given x.2.verified.raw
  receipts : ∀ r ∈ n.executor.receipts.flatten, ∃ raw v, given raw ∧
    decodeAndRecover al raw = .ok v ∧ r.txHash = v.txHash

/-- A message of given transactions only. -/
def CleanMessage (decodePayload : Bytes → List Bytes) : Message → Prop
  | .tx raw => given raw
  | .payload bytes => ∀ raw ∈ decodePayload bytes, given raw

end Clean

/-! ## Steps -/

section Steps

variable {host : Host} {given : Bytes → Prop} {n : Node}

theorem clean_genesis (genesis : EvmGenesis) :
    Clean host.alloy given (.fromGenesis host genesis) where
  pool := poolInv_new
  held := by simp [Node.fromGenesis, EvmExecutor.fromGenesis, held, heldIn, PoolInner.new]
  receipts := by simp [Node.fromGenesis, EvmExecutor.fromGenesis]

/-- An operation on the pool that submits, if anything, a given
transaction. -/
theorem Clean.applyOp (h : Clean host.alloy given n) (config : EvmTxPoolConfig) (op : PoolOp)
    (hop : ∀ nonceFn raw, op = .submit nonceFn raw → given raw) {n' : Node}
    (hpool : n'.executor.txpool = applyOp host.alloy config n.executor.txpool op)
    (hreceipts : n'.executor.receipts = n.executor.receipts) : Clean host.alloy given n' where
  pool := by
    rw [hpool]
    exact poolInv_applyOp h.pool op
  held x hx := by
    rw [hpool] at hx
    rcases held_applyOp h.pool op x hx with hx | ⟨nonceFn, raw, rfl, hdec⟩
    · exact h.held x hx
    · rw [(decodeAndRecover_ok hdec).1]
      exact hop nonceFn raw rfl
  receipts := by
    rw [hreceipts]
    exact h.receipts

theorem Clean.submit (h : Clean host.alloy given n) {raw : Bytes} (hraw : given raw) :
    Clean host.alloy given { n with executor := (n.executor.submitRawTx host raw).2 } := by
  refine h.applyOp _ (.submit (some n.executor.state.getNonce) raw) (fun _ raw' heq => ?_) rfl rfl
  obtain ⟨-, rfl⟩ := PoolOp.submit.inj heq
  exact hraw

/-- Gossip submits like a client. -/
theorem Clean.gossipTx (h : Clean host.alloy given n) {raw : Bytes} (hraw : given raw) :
    Clean host.alloy given { n with executor := n.executor.gossipTx host raw } := by
  unfold EvmExecutor.gossipTx
  dsimp only
  split
  · exact h.submit hraw
  · exact h

/-- A block of given transactions. -/
theorem Clean.executeBlock (h : Clean host.alloy given n) (orders : Nat → FlushOrder)
    {txs : List Bytes} (htxs : ∀ raw ∈ txs, given raw) (ctx : BlockContext) :
    Clean host.alloy given (n.step host orders (.executeBlock txs ctx)) where
  pool := h.pool
  held := h.held
  receipts r hr := by
    simp only [Node.step, EvmExecutor.executeBlock, List.flatten_append, List.flatten_cons,
      List.flatten_nil, List.append_nil, List.mem_append] at hr
    rcases hr with hr | hr
    · exact h.receipts r hr
    · obtain ⟨k, v, hv, -, hhash⟩ := (numbered_runBlock host n.executor txs ctx).indexed r hr
      obtain ⟨hraw, hdec⟩ := mem_decodeAll (List.mem_of_getElem? hv)
      exact ⟨v.raw, v, htxs v.raw hraw, hdec, hhash⟩

/-- A payload decodes to transactions the pool held. -/
theorem mem_createPayload {decodePayload : Bytes → List Bytes} (hread : ReadsRecords decodePayload)
    (it : IterOrder Address SenderQueue) (e : EvmExecutor) {raw : Bytes}
    (h : raw ∈ decodePayload (e.createPayload it).1) :
    ∃ x ∈ held e.txpool, x.2.verified.raw = raw := by
  obtain ⟨xs, hxs, hrows, hfit⟩ := payload_records it e.txpool e.config.blockGasLimit
    (show 4 * 1024 * 1024 < 2 ^ 32 by decide)
  rw [show (e.createPayload it).1 = (xs.map (·.2.verified.raw)).flatMap (frame 4) from hrows,
    hread _ hfit] at h
  obtain ⟨x, hx, rfl⟩ := List.mem_map.mp h
  exact ⟨x, hxs x hx, rfl⟩

/-- What a node does between blocks, and what it sends. -/
theorem Clean.act {libs : RpcLibs} {chainId : UInt64} {decodePayload : Bytes → List Bytes}
    (hread : ReadsRecords decodePayload) (h : Clean host.alloy given n) (a : NodeAct)
    (hgiven : ∀ req raw, a = .request req → effectOf libs req = .submit raw → given raw) :
    Clean host.alloy given ((validator libs host chainId).act n a).1 ∧
      ∀ q ∈ ((validator libs host chainId).act n a).2, CleanMessage given decodePayload q := by
  cases a with
  | onCommit it ctx =>
    exact ⟨h.applyOp {} (.commit it n.executor.state.getNonce) (by simp) rfl rfl,
      by simp [validator]⟩
  | createPayload it =>
    refine ⟨h.applyOp {} (.collect it (4 * 1024 * 1024)
      n.executor.config.blockGasLimit) (by simp) rfl rfl, fun q hq => ?_⟩
    obtain rfl := List.mem_singleton.mp hq
    intro raw hraw
    obtain ⟨x, hx, rfl⟩ := mem_createPayload hread it n.executor hraw
    exact h.held x hx
  | request req =>
    rw [validator_request]
    cases heff : effectOf libs req with
    | read => exact ⟨h, by simp [Effect.broadcast]⟩
    | dryRun call => exact ⟨⟨h.pool, h.held, h.receipts⟩, by simp [Effect.broadcast]⟩
    | submit raw =>
      have hraw := hgiven req raw rfl heff
      refine ⟨h.submit hraw, fun q hq => ?_⟩
      obtain ⟨raw', hraw', rfl⟩ := List.mem_map.mp hq
      simp only [Effect.broadcast, Option.mem_toList, Option.ite_none_right_eq_some,
        Option.some.injEq] at hraw'
      obtain ⟨-, rfl⟩ := hraw'
      exact hraw

end Steps

/-! ## Runs -/

/-- **Nothing is executed that no client submitted.** In every run of any
number of nodes whose blocks carry what some node has proposed: what any
pool holds, what is gossiped, what a decided block carries and what any
receipt at any node is for was submitted by some client through
`eth_sendRawTransaction`. -/
theorem transactions_from_clients (libs : RpcLibs) (host : Host) (genesis : EvmGenesis)
    (decodePayload : Bytes → List Bytes) (hread : ReadsRecords decodePayload)
    (steps : List (NetStep ι))
    (hblocks : StepsMeet (Net.step libs host genesis) (FromPayload decodePayload)
      (.init (.fromGenesis host genesis)) steps) :
    let c := networkAfter libs host genesis steps
    (∀ i, ∀ x ∈ held (c.members i).state.executor.txpool,
        Submitted libs steps x.2.verified.raw) ∧
      (∀ raw, .tx raw ∈ c.sent → Submitted libs steps raw) ∧
      (∀ b ∈ c.log, ∀ raw ∈ b.txs, Submitted libs steps raw) ∧
      ∀ i, ∀ r ∈ (c.members i).state.executor.receipts.flatten, ∃ raw v,
        Submitted libs steps raw ∧ decodeAndRecover host.alloy raw = .ok v ∧
          r.txHash = v.txHash := by
  intro c
  have hclean : c.Holds (fun _ => Clean host.alloy (Submitted libs steps))
      (CleanMessage (Submitted libs steps) decodePayload)
      (fun b => ∀ raw ∈ b.txs, Submitted libs steps raw) := by
    refine holds_run ?_ ?_ ?_ ?_ steps _ (holds_init (clean_genesis genesis)) hblocks.and_mem
    · intro c b h hok raw hraw
      obtain ⟨⟨bytes, hsent, htxs⟩, -⟩ := hok
      exact h.sent _ hsent raw (htxs ▸ hraw)
    · intro bs n order b h hb
      exact h.executeBlock (fun _ => order) hb b.ctx
    · intro c bs i a h hok
      refine h.act hread a fun req raw ha heff => ?_
      subst ha
      exact ⟨i, req, hok.2, heff⟩
    · intro bs n q h hq
      cases q with
      | tx raw => exact h.gossipTx hq
      | payload bytes => exact h
  exact ⟨fun i => (hclean.members i).held, fun raw hraw => hclean.sent _ hraw, hclean.log,
    fun i => (hclean.members i).receipts⟩

/-! ### Alice's transfer, from her client into a block -/

def recordsOf (payload : Bytes) : List Bytes := (parseRecords 4 payload).getD []

theorem readsRecords_recordsOf : ReadsRecords recordsOf := by
  intro txs hfit
  rw [recordsOf, parseRecords_flatMap (by decide) txs hfit]
  rfl

/-- The pool after Alice's submission, as a payload. -/
def alicePayload : Bytes :=
  (((EvmExecutor.fromGenesis sampleHost aliceGenesis).submitRawTx sampleHost
    alice0.raw).2.createPayload .ascending).1

def sentRun : List (NetStep Bool) :=
  [.act true (.request sendAlice), .act true (.createPayload .ascending),
    .append ⟨[alice0.raw], block1⟩, .apply false ⟨.ascending, .ascending⟩]

theorem sentRun_fromPayload :
    StepsMeet (Net.step sampleLibs sampleHost aliceGenesis) (FromPayload recordsOf)
      (.init (.fromGenesis sampleHost aliceGenesis)) sentRun := by
  have hblock : [alice0.raw] = recordsOf alicePayload := by decide +kernel
  refine ⟨trivial, trivial, ⟨alicePayload, ?_, hblock⟩, trivial, trivial⟩
  have hsubmitted : ((Net.step sampleLibs sampleHost aliceGenesis
      (.init (.fromGenesis sampleHost aliceGenesis) : Net Bool)
      (.act true (.request sendAlice))).members true).state.executor
        = ((EvmExecutor.fromGenesis sampleHost aliceGenesis).submitRawTx sampleHost
            alice0.raw).2 := by
    rw [Net.act_state, validator_request, sendAlice, readsBack_sampleLibs.effectOf_send]
    rfl
  rw [alicePayload, ← hsubmitted]
  exact Net.payload_mem_sent _ true .ascending

theorem transactions_from_clients_alice :
    ReadsRecords recordsOf ∧
      StepsMeet (Net.step sampleLibs sampleHost aliceGenesis) (FromPayload recordsOf)
        (.init (.fromGenesis sampleHost aliceGenesis)) sentRun ∧
      Submitted sampleLibs sentRun alice0.raw := by
  obtain ⟨-, -, hlog, -⟩ := transactions_from_clients sampleLibs sampleHost aliceGenesis recordsOf
    readsRecords_recordsOf sentRun sentRun_fromPayload
  exact ⟨readsRecords_recordsOf, sentRun_fromPayload,
    hlog ⟨[alice0.raw], block1⟩ (List.mem_singleton.mpr rfl) alice0.raw
      (List.mem_singleton.mpr rfl)⟩

end Nbnet.Network
