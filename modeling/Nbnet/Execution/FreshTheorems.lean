/-
Nbnet.Execution.FreshTheorems — a node does not propose what is already on
chain.

The pool and the chain are joined by nonces. `on_commit` evicts what lies
below the account nonces and a submission below them is refused, so from a
commit until the next block every transaction in the pool is `Current`. A
transaction with a receipt lies below its sender's nonce, so none of these
has one (`proposals_never_replay`). In between, after a block and before
its commit, the pool may hold transactions that have just been executed.
-/
import Nbnet.Execution.ReplayTheorems
import Nbnet.Txpool.CommitTheorems
import Nbnet.Txpool.EncodingTheorems

namespace Nbnet.Execution

open Lib State Txpool

/-! ## Pools of a node -/

/-- What every pool of a node satisfies. -/
structure Sound (al : Alloy) (pool : PoolInner) : Prop where
  inv : PoolInv pool
  filed : Filed pool
  genuine : Genuine al pool

section Sound

variable {al : Alloy} {pool : PoolInner}

theorem sound_new (al : Alloy) : Sound al PoolInner.new where
  inv := poolInv_new
  filed := filed_run al {} []
  genuine := genuine_run al {} []

theorem Sound.applyOp (h : Sound al pool) (config : EvmTxPoolConfig) (op : PoolOp) :
    Sound al (applyOp al config pool op) where
  inv := poolInv_applyOp h.inv op
  filed := by
    cases op with
    | submit nonceFn raw =>
      simp only [Txpool.applyOp, submitTx]
      split
      · exact h.filed
      · exact filed_submitVerified h.inv h.filed _
    | collect it maxBytes maxGas => exact filed_collectPayload h.filed it maxBytes maxGas
    | commit it f => exact filed_onCommit h.inv h.filed it f
  genuine x hx := by
    rcases held_applyOp h.inv op x hx with hx | ⟨nonceFn, raw, -, hdec⟩
    · exact h.genuine x hx
    · rw [(decodeAndRecover_ok hdec).1]
      exact hdec

/-- An entry is held under its own sender. -/
theorem Sound.sender (h : Sound al pool) {x : Address × PoolEntry} (hx : x ∈ held pool) :
    x.2.verified.sender = x.1 := by
  obtain ⟨slot, n, he⟩ := (mem_held_iff pool x.1 x.2).mp hx
  exact (h.filed x.1 slot n x.2 he).1

end Sound

/-! ## Current transactions -/

/-- No transaction of the pool lies below its sender's account nonce. -/
def Current (pool : PoolInner) (f : Address → UInt64) : Prop :=
  ∀ x ∈ held pool, ¬ Consumed f x

section Current

variable {al : Alloy} {pool : PoolInner} {f : Address → UInt64}

theorem current_onCommit (h : Sound al pool) (it : IterOrder Address SenderQueue) :
    Current (Txpool.onCommit it pool f) f := by
  intro x hx
  exact ((mem_held_onCommit h.inv h.filed it f x.1 x.2).mp hx).2

theorem Current.collect (h : Current pool f) (hs : Sound al pool)
    (it : IterOrder Address SenderQueue) (maxBytes : Nat) (maxGas : UInt64) :
    Current (collectPayload it pool maxBytes maxGas).2 f := by
  intro x hx
  have hop : x ∈ held (applyOp al {} pool (.collect it maxBytes maxGas)) := hx
  rcases held_applyOp hs.inv _ x hop with hx | ⟨nonceFn, raw, heq, -⟩
  · exact h x hx
  · cases heq

/-- A submission below the account nonce changes nothing. -/
theorem submitVerified_of_low {config : EvmTxPoolConfig} {v : VerifiedTx}
    (hlow : v.envelope.nonce < f v.sender) :
    (submitVerified config (some f) pool v).2 = pool := by
  unfold submitVerified
  dsimp only
  split
  · rfl
  · rw [if_pos (by simpa using hlow)]

theorem Current.submit (h : Current pool f) (hs : Sound al pool) (config : EvmTxPoolConfig)
    (raw : Bytes) : Current (submitTx al config (some f) pool raw).2 f := by
  intro x hx
  have hsound := hs.applyOp config (.submit (some f) raw)
  have hsender := hsound.sender hx
  unfold submitTx at hx
  split at hx
  · exact h x hx
  · rename_i v hdec
    by_cases hlow : v.envelope.nonce < f v.sender
    · rw [submitVerified_of_low hlow] at hx
      exact h x hx
    · rcases held_submitVerified hs.inv v x hx with hv | hx
      · rw [Consumed, ← hsender, hv]
        exact hlow
      · exact h x hx

end Current

/-! ## Runs -/

def NodeStep.isBlock : NodeStep → Bool
  | .executeBlock _ _ => true
  | _ => false

section Run

variable {host : Host} {orders : Nat → FlushOrder} {n : Node}

theorem sound_step (h : Sound host.alloy n.executor.txpool) (s : NodeStep) :
    Sound host.alloy (n.step host orders s).executor.txpool := by
  cases s with
  | executeBlock txs ctx => exact h
  | onCommit it ctx => exact h.applyOp {} (.commit it n.executor.state.getNonce)
  | createPayload it =>
    exact h.applyOp {} (.collect it (4 * 1024 * 1024) n.executor.config.blockGasLimit)
  | submitRawTx raw =>
    exact h.applyOp n.executor.poolConfig (.submit (some n.executor.state.getNonce) raw)
  | ethCall req => exact h

theorem sound_run (host : Host) (orders : Nat → FlushOrder) (genesis : EvmGenesis)
    (steps : List NodeStep) :
    Sound host.alloy
      (steps.foldl (Node.step host orders) (.fromGenesis host genesis)).executor.txpool :=
  run_invariant_all (fun n : Node => Sound host.alloy n.executor.txpool)
    (fun _ s h => sound_step h s) steps _ (sound_new host.alloy)

/-- A dry run moves no nonce. -/
theorem ethCall_getNonce (host : Host) (e : EvmExecutor) (req : CallRequest) :
    (e.ethCall host req).2.state.getNonce = e.state.getNonce := by
  funext a
  rw [getNonce_eq_entry, getNonce_eq_entry]
  exact congrArg _ (entry_loads_info _ e.state.db a)

/-- The pool of a node agrees with its account nonces. -/
def Node.Current (n : Node) : Prop :=
  Execution.Current n.executor.txpool n.executor.state.getNonce

/-- Between blocks the pool stays current. -/
theorem Node.Current.step (h : n.Current) (hs : Sound host.alloy n.executor.txpool) (s : NodeStep)
    (hblock : s.isBlock = false) : (n.step host orders s).Current := by
  cases s with
  | executeBlock txs ctx => cases hblock
  | onCommit it ctx => exact current_onCommit hs it
  | createPayload it => exact Execution.Current.collect h hs it _ _
  | submitRawTx raw => exact Execution.Current.submit h hs n.executor.poolConfig raw
  | ethCall req =>
    unfold Node.Current
    rw [show (n.step host orders (.ethCall req)).executor.state.getNonce
      = n.executor.state.getNonce from ethCall_getNonce host n.executor req]
    exact h

/-- From a commit until the next block. -/
theorem current_run (host : Host) (orders : Nat → FlushOrder) (genesis : EvmGenesis)
    (before after : List NodeStep) (it : IterOrder Address SenderQueue) (ctx : BlockContext)
    (hafter : ∀ s ∈ after, s.isBlock = false) :
    ((before ++ .onCommit it ctx :: after).foldl (Node.step host orders)
      (.fromGenesis host genesis)).Current := by
  rw [List.foldl_append, List.foldl_cons]
  have hbefore := sound_run host orders genesis before
  have hcommit : ((before.foldl (Node.step host orders) (.fromGenesis host genesis)).step host
      orders (.onCommit it ctx)).Current := current_onCommit hbefore it
  have hmeet : ∀ (steps : List NodeStep) (n : Node), (∀ s ∈ steps, s.isBlock = false) →
      StepsMeet (Node.step host orders) (fun _ s => s.isBlock = false) n steps := by
    intro steps
    induction steps with
    | nil => exact fun _ _ => trivial
    | cons s steps ih =>
      intro n hall
      obtain ⟨hs, hrest⟩ := List.forall_mem_cons.mp hall
      exact ⟨hs, ih _ hrest⟩
  exact (run_invariant (fun n : Node => Sound host.alloy n.executor.txpool ∧ n.Current)
    (fun n s h hs => ⟨sound_step h.1 s, h.2.step h.1 s hs⟩) after _
    ⟨sound_step hbefore _, hcommit⟩ (hmeet after _ hafter)).2

end Run

/-! ## Nothing twice -/

/-- A receipted transaction lies below its sender's nonce. -/
theorem Ordered.below {host : Host} {first : Address → UInt64} {h : History}
    (ho : Ordered host first h) {v : VerifiedTx} (hv : v ∈ h.receipted.flatten) :
    v.envelope.nonce.toNat < (h.node.executor.state.getNonce v.sender).toNat := by
  obtain ⟨n, hnonces, hnext⟩ := ho.nonces v.sender (ho.isSigner hv)
  have hmem : v.envelope.nonce.toNat ∈ List.range' (first v.sender).toNat n := by
    rw [← hnonces]
    exact List.mem_map.mpr ⟨v, List.mem_filter.mpr ⟨hv, by simp⟩, rfl⟩
  obtain ⟨-, hlt⟩ := List.mem_range'_1.mp hmem
  omega

/-- What decodes and is not below its sender's nonce has no receipt. -/
theorem Ordered.no_receipt {host : Host} {first : Address → UInt64} {h : History}
    (hhash : HashDetermines host.alloy) (ho : Ordered host first h) {raw : Bytes} {v : VerifiedTx}
    (hdec : decodeAndRecover host.alloy raw = .ok v)
    (hcurrent : ¬ v.envelope.nonce < h.node.executor.state.getNonce v.sender) :
    ∀ r ∈ h.node.executor.receipts.flatten, r.txHash ≠ v.txHash := by
  intro r hr heq
  have hmem : r.txHash ∈ h.receipted.flatten.map (·.txHash) := by
    rw [← ho.txHashes]
    exact List.mem_map_of_mem hr
  obtain ⟨w, hw, hwhash⟩ := List.mem_map.mp hmem
  obtain ⟨raw', hdec'⟩ := ho.decoded w hw
  obtain ⟨hsender, hnonce⟩ := hhash.eq_sender hdec' hdec (hwhash.trans heq)
  have hbelow := ho.below hw
  rw [hsender, hnonce] at hbelow
  exact hcurrent (UInt64.lt_iff_toNat_lt.mpr hbelow)

/-- While its pool is current, a node holds nothing that has a receipt. -/
theorem Node.Current.no_receipt {host : Host} (hhash : HashDetermines host.alloy)
    (hrevm : host.revm.RaisesNonce host.alloy) {orders : Nat → FlushOrder} {genesis : EvmGenesis}
    {steps : List NodeStep}
    (h : (steps.foldl (Node.step host orders) (.fromGenesis host genesis)).Current) :
    let e := (steps.foldl (Node.step host orders) (.fromGenesis host genesis)).executor
    ∀ x ∈ held e.txpool,
      ¬ x.2.verified.envelope.nonce < e.state.getNonce x.2.verified.sender ∧
        ∀ r ∈ e.receipts.flatten, r.txHash ≠ x.2.verified.txHash := by
  intro e x hx
  have hsound : Sound host.alloy e.txpool := sound_run host orders genesis steps
  obtain ⟨history, hnode, ho⟩ := exists_ordered hrevm orders genesis steps
  have hnonce : ¬ x.2.verified.envelope.nonce < e.state.getNonce x.2.verified.sender := by
    rw [hsound.sender hx]
    exact h x hx
  have hnone := ho.no_receipt hhash (hsound.genuine x hx) (by rw [hnode]; exact hnonce)
  rw [hnode] at hnone
  exact ⟨hnonce, hnone⟩

/-- **A node never proposes what is on chain.** In every run from every
genesis, from any commit until the next block, whatever is submitted,
called or proposed in between: no transaction of the pool lies below its
sender's nonce or has a receipt in any block, and the payload reads back
as such transactions. -/
theorem proposals_never_replay (host : Host) (hhash : HashDetermines host.alloy)
    (hrevm : host.revm.RaisesNonce host.alloy) (orders : Nat → FlushOrder) (genesis : EvmGenesis)
    (before after : List NodeStep) (it it' : IterOrder Address SenderQueue) (ctx : BlockContext)
    (hafter : ∀ s ∈ after, s.isBlock = false) :
    let e := ((before ++ .onCommit it ctx :: after).foldl (Node.step host orders)
      (.fromGenesis host genesis)).executor
    let fresh := fun v : VerifiedTx => ¬ v.envelope.nonce < e.state.getNonce v.sender ∧
      ∀ r ∈ e.receipts.flatten, r.txHash ≠ v.txHash
    (∀ x ∈ held e.txpool, fresh x.2.verified) ∧
      ∃ txs, parseRecords 4 (e.createPayload it').1 = some txs ∧
        ∀ raw ∈ txs, ∃ v, decodeAndRecover host.alloy raw = .ok v ∧ fresh v := by
  intro e fresh
  have hsound : Sound host.alloy e.txpool := sound_run host orders genesis _
  have hpool : ∀ x ∈ held e.txpool, fresh x.2.verified :=
    (current_run host orders genesis before after it ctx hafter).no_receipt hhash hrevm
  obtain ⟨xs, hxs, hrows, hfit⟩ := payload_records it' e.txpool e.config.blockGasLimit
    (show 4 * 1024 * 1024 < 2 ^ 32 by decide)
  refine ⟨hpool, xs.map (·.2.verified.raw), ?_, fun raw hraw => ?_⟩
  · rw [show (e.createPayload it').1 = (xs.map (·.2.verified.raw)).flatMap (frame 4) from hrows,
      parseRecords_flatMap (by decide) _ hfit]
  · obtain ⟨x, hx, rfl⟩ := List.mem_map.mp hraw
    exact ⟨x.2.verified, hsound.genuine x (hxs x hx), hpool x (hxs x hx)⟩

/-- Alice submits both of her transactions, the first is executed and
committed, and she submits it again. -/
def resubmitted : List NodeStep :=
  [.submitRawTx alice0.raw, .submitRawTx alice1.raw, .executeBlock [alice0.raw] block1]

/-- The second one is left. -/
theorem proposals_never_replay_alice :
    HashDetermines sampleHost.alloy ∧ sampleHost.revm.RaisesNonce sampleHost.alloy ∧
      let e := ((resubmitted ++ NodeStep.onCommit .ascending block1 ::
          [.submitRawTx alice0.raw]).foldl (Node.step sampleHost ascendingFlush)
          (.fromGenesis sampleHost aliceGenesis)).executor
      (held e.txpool).map (·.2.verified) = [alice1] ∧
        ∀ x ∈ held e.txpool, ∀ r ∈ e.receipts.flatten, r.txHash ≠ x.2.verified.txHash := by
  obtain ⟨hpool, -⟩ := proposals_never_replay sampleHost hashDetermines_sampleAlloy
    (transferRevm_raisesNonce _) ascendingFlush aliceGenesis resubmitted
    [.submitRawTx alice0.raw] .ascending .ascending block1 (by simp [NodeStep.isBlock])
  exact ⟨hashDetermines_sampleAlloy, transferRevm_raisesNonce _, by decide +kernel,
    fun x hx => (hpool x hx).2⟩

end Nbnet.Execution
