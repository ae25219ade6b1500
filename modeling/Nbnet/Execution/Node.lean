/-
Nbnet.Execution.Node — runs of a node.

A node takes one step at a time: the consensus engine executes and commits
blocks and asks for payloads, clients submit transactions and make calls.
`orders` says in which order each block's flush walks the hash tables; it
is indexed by the number of blocks executed so far, so that two runs can
be compared under two unrelated choices.

The second half says what one turn of the execution loop can do
(`executeTx_cases`) and names the transactions of a block that end up with
a receipt (`receipted`).
-/
import Nbnet.Execution.Executor
import Nbnet.Lib.Runs
import Nbnet.Precompile.SpendTheorems
import Nbnet.State.CacheTheorems

namespace Nbnet.Execution

open Lib State Txpool

/-! ## Runs -/

inductive NodeStep where
  | executeBlock (txs : List Bytes) (ctx : BlockContext)
  | onCommit (it : IterOrder Address SenderQueue) (ctx : BlockContext)
  | createPayload (it : IterOrder Address SenderQueue)
  | submitRawTx (raw : Bytes)
  | ethCall (req : CallRequest)

/-- An executor and the app hashes it has returned. -/
structure Node where
  executor : EvmExecutor
  appHashes : List (FixedBytes 32) := []

def Node.fromGenesis (host : Host) (genesis : EvmGenesis) : Node where
  executor := .fromGenesis host genesis

def Node.step (host : Host) (orders : Nat → FlushOrder) (n : Node) : NodeStep → Node
  | .executeBlock txs ctx =>
      let (appHash, executor) :=
        n.executor.executeBlock host (orders n.executor.receipts.length) txs ctx
      { executor, appHashes := n.appHashes ++ [appHash] }
  | .onCommit it ctx => { n with executor := n.executor.onCommit it ctx }
  | .createPayload it => { n with executor := (n.executor.createPayload it).2 }
  | .submitRawTx raw => { n with executor := (n.executor.submitRawTx host raw).2 }
  | .ethCall req => { n with executor := (n.executor.ethCall host req).2 }

/-- An executor some run of a node reaches. -/
def Reachable (host : Host) (e : EvmExecutor) : Prop :=
  ∃ (orders : Nat → FlushOrder) (genesis : EvmGenesis) (steps : List NodeStep),
    (steps.foldl (Node.step host orders) (.fromGenesis host genesis)).executor = e

/-- The rule for the state along a run: blocks and calls are the only steps
that touch it. -/
theorem state_run {host : Host} {P : EvmState → Prop}
    (hgenesis : ∀ genesis, P (.fromGenesis host.analysis genesis))
    (hblock : ∀ (e : EvmExecutor) order txs ctx, P e.state →
      P (e.executeBlock host order txs ctx).2.state)
    (hcall : ∀ (e : EvmExecutor) req, P e.state → P (e.ethCall host req).2.state)
    (orders : Nat → FlushOrder) (genesis : EvmGenesis) (steps : List NodeStep) :
    P (steps.foldl (Node.step host orders) (.fromGenesis host genesis)).executor.state := by
  refine run_invariant_all (fun n : Node => P n.executor.state) (fun n s h => ?_) steps _
    (hgenesis genesis)
  cases s with
  | executeBlock txs ctx => exact hblock n.executor _ txs ctx h
  | onCommit it ctx => exact h
  | createPayload it => exact h
  | submitRawTx raw => exact h
  | ethCall req => exact hcall n.executor req h

theorem startBlock_cache (st : EvmState) (ctx : BlockContext) :
    (startBlock st ctx).db.cache = st.db.cache := by
  unfold startBlock
  split <;> rfl

theorem startBlock_getNonce (st : EvmState) (ctx : BlockContext) (a : Address) :
    (startBlock st ctx).getNonce a = st.getNonce a := by
  unfold startBlock
  split <;> rfl

@[simp] theorem txEnvOf_caller (v : VerifiedTx) : (txEnvOf v).caller = v.sender := rfl

@[simp] theorem txEnvOf_gasLimit (v : VerifiedTx) :
    (txEnvOf v).gasLimit = v.envelope.gasLimit := rfl

@[simp] theorem txEnvOf_nonce (v : VerifiedTx) : (txEnvOf v).nonce = v.envelope.nonce := rfl

/-! ## One turn of the execution loop -/

variable {host : Host} {config : EvmChainConfig} {ctx : BlockContext}

/-- What a turn can do, with the checks it has passed. -/
theorem executeTx_cases (host : Host) (config : EvmChainConfig) (ctx : BlockContext) (l : Loop)
    (i : Nat) (v : VerifiedTx) :
    (v.envelope.nonce ≠ l.state.getNonce v.sender ∧ executeTx host config ctx l i v = .skip) ∨
    (v.envelope.nonce = l.state.getNonce v.sender ∧
      ((satAdd64 l.cumulativeGasUsed v.envelope.gasLimit > config.blockGasLimit ∧
          executeTx host config ctx l i v = .stop) ∨
        (¬ satAdd64 l.cumulativeGasUsed v.envelope.gasLimit > config.blockGasLimit ∧
          ((∃ err, (transactTx host config ctx l v).outcome = .error err ∧
              executeTx host config ctx l i v
                = .reject (l.rejected (transactTx host config ctx l v))) ∨
            (∃ run, (transactTx host config ctx l v).outcome = .ok run ∧
              executeTx host config ctx l i v
                = .commit (l.committed host config ctx i v (transactTx host config ctx l v)
                    run)))))) := by
  unfold executeTx
  by_cases hnonce : v.envelope.nonce = l.state.getNonce v.sender
  · refine .inr ⟨hnonce, ?_⟩
    rw [if_neg (not_not_intro hnonce)]
    by_cases hgas : satAdd64 l.cumulativeGasUsed v.envelope.gasLimit > config.blockGasLimit
    · exact .inl ⟨hgas, by rw [if_pos hgas]⟩
    · refine .inr ⟨hgas, ?_⟩
      rw [if_neg hgas]
      cases hout : (transactTx host config ctx l v).outcome with
      | error err => exact .inl ⟨err, rfl, by simp only [hout]⟩
      | ok run => exact .inr ⟨run, rfl, by simp only [hout]⟩
  · exact .inl ⟨hnonce, by rw [if_pos hnonce]⟩

/-- The transactions of a loop that get a receipt. -/
def receipted (host : Host) (config : EvmChainConfig) (ctx : BlockContext) :
    Nat → Loop → List VerifiedTx → List VerifiedTx
  | _, _, [] => []
  | i, l, v :: rest =>
      match executeTx host config ctx l i v with
      | .skip => receipted host config ctx (i + 1) l rest
      | .stop => []
      | .reject l' => receipted host config ctx (i + 1) l' rest
      | .commit l' => v :: receipted host config ctx (i + 1) l' rest

/-- The transactions of a block that get a receipt. -/
def receiptedIn (host : Host) (e : EvmExecutor) (txs : List Bytes) (ctx : BlockContext) :
    List VerifiedTx :=
  receipted host e.config ctx 0 { state := startBlock e.state ctx, staking := e.staking }
    (decodeAll host txs)

/-- The rule for what a loop does: a relation between the loop so far, the
transactions it has receipted and what is still to come. -/
theorem executeLoop_induct {motive : Loop → List VerifiedTx → Prop}
    {vs : List VerifiedTx} {l : Loop} (ex : List VerifiedTx) (i : Nat) (h : motive l ex)
    (hreject : ∀ l ex v err, v ∈ vs → motive l ex →
      v.envelope.nonce = l.state.getNonce v.sender →
      (transactTx host config ctx l v).outcome = .error err →
      motive (l.rejected (transactTx host config ctx l v)) ex)
    (hcommit : ∀ l ex i v run, v ∈ vs → motive l ex →
      v.envelope.nonce = l.state.getNonce v.sender →
      (transactTx host config ctx l v).outcome = .ok run →
      motive (l.committed host config ctx i v (transactTx host config ctx l v) run)
        (ex ++ [v])) :
    motive (executeLoop host config ctx i l vs).1 (ex ++ receipted host config ctx i l vs) := by
  induction vs generalizing i l ex with
  | nil => simpa [executeLoop, receipted] using h
  | cons v vs ih =>
    have hrej := fun l ex v' err hv => hreject l ex v' err (List.mem_cons_of_mem v hv)
    have hcom := fun l ex i v' run hv => hcommit l ex i v' run (List.mem_cons_of_mem v hv)
    have hv : v ∈ v :: vs := List.mem_cons_self ..
    rcases executeTx_cases host config ctx l i v with
      ⟨-, heq⟩ | ⟨hnonce, ⟨-, heq⟩ | ⟨-, ⟨err, hout, heq⟩ | ⟨run, hout, heq⟩⟩⟩
    · simp only [executeLoop, receipted, heq]
      exact ih ex (i + 1) h hrej hcom
    · simp only [executeLoop, receipted, heq, List.append_nil]
      exact h
    · simp only [executeLoop, receipted, heq]
      exact ih ex (i + 1) (hreject l ex v err hv h hnonce hout) hrej hcom
    · simp only [executeLoop, receipted, heq]
      rw [List.append_cons]
      exact ih (ex ++ [v]) (i + 1) (hcommit l ex i v run hv h hnonce hout) hrej hcom

/-- What a block decodes was recovered by the codec from one of its byte
strings, and keeps that string. -/
theorem mem_decodeAll {txs : List Bytes} {v : VerifiedTx} (h : v ∈ decodeAll host txs) :
    v.raw ∈ txs ∧ decodeAndRecover host.alloy v.raw = .ok v := by
  obtain ⟨raw, hraw, hdec⟩ := List.mem_filterMap.mp h
  split at hdec
  · rename_i v' hok
    obtain rfl := Option.some.inj hdec
    have hkeep := (decodeAndRecover_ok hok).1
    rw [hkeep]
    exact ⟨hraw, hok⟩
  · cases hdec

/-! ## A revm for plain transfers

Concrete runs use this one. It does what revm does with a transaction that
carries value and no calldata to an account without code: it checks the
environment, then loads the sender and checks nonce and funds, charges the
effective gas price for 21000 gas and pays the tip to the beneficiary.
Everything else it rejects. -/

/-- The price per unit of gas: the fee cap, or base fee and priority fee
if that is less. -/
def effectivePrice (block : BlockEnv) (tx : TxEnv) : Nat :=
  match tx.gasPriorityFee with
  | some priority => min tx.gasPrice.toNat (block.basefee.toNat + priority.toNat)
  | none => tx.gasPrice.toNat

/-- The checks revm makes before it loads any account. -/
def EnvValid (chainId : UInt64) (block : BlockEnv) (tx : TxEnv) : Prop :=
  tx.chainId.getD chainId = chainId ∧ tx.data = [] ∧ 21000 ≤ tx.gasLimit ∧
    tx.gasLimit ≤ block.gasLimit ∧ block.basefee.toNat ≤ tx.gasPrice.toNat ∧
    tx.gasPriorityFee.getD 0 ≤ tx.gasPrice

instance EnvValid.decidable (chainId : UInt64) (block : BlockEnv) (tx : TxEnv) :
    Decidable (EnvValid chainId block tx) :=
  inferInstanceAs (Decidable (_ ∧ _))

/-- The checks revm makes against the sender's account. -/
def SenderValid (tx : TxEnv) (view : DbView) : Prop :=
  let sender := view.account tx.caller
  tx.nonce = sender.nonce ∧ tx.nonce.toNat + 1 < 2 ^ 64 ∧
    tx.gasLimit.toNat * tx.gasPrice.toNat + tx.value.toNat ≤ sender.balance.toNat

instance SenderValid.decidable (tx : TxEnv) (view : DbView) : Decidable (SenderValid tx view) :=
  inferInstanceAs (Decidable (_ ∧ _))

/-- An account after a plain transfer. -/
def transferred (block : BlockEnv) (tx : TxEnv) (recipient : Address) (view : DbView)
    (a : Address) : AccountInfo :=
  let info := view.account a
  let price := effectivePrice block tx
  let spent := if a = tx.caller then 21000 * price + tx.value.toNat else 0
  let received := if a = recipient then tx.value.toNat else 0
  let tip := if a = block.beneficiary then 21000 * (price - block.basefee.toNat) else 0
  { info with
    nonce := if a = tx.caller then info.nonce + 1 else info.nonce
    balance := BitVec.ofNat 256 (info.balance.toNat - spent + received + tip) }

/-- The accounts a plain transfer changes. -/
def transferChanges (block : BlockEnv) (tx : TxEnv) (recipient : Address) (view : DbView) :
    Changes :=
  [tx.caller, recipient, block.beneficiary].foldl
    (fun changes a => changes.insert a { info := transferred block tx recipient view a }) ∅

/-- The call tree of a plain transfer: one call, nothing in it. -/
def transferTree (block : BlockEnv) (tx : TxEnv) (recipient : Address) : Precompile.Tx where
  sender := tx.caller
  upfront := BitVec.ofNat 256 (tx.gasLimit.toNat * effectivePrice block tx)
  refund := BitVec.ofNat 256 ((tx.gasLimit.toNat - 21000) * effectivePrice block tx)
  reward := BitVec.ofNat 256 (21000 * (effectivePrice block tx - block.basefee.toNat))
  beneficiary := block.beneficiary
  op :=
    { scheme := .call
      address := recipient
      value := tx.value
      input := .bytes tx.data
      memory := []
      gasLimit := tx.gasLimit - 21000 }
  code := .done .stop

def transferRevm : Revm where
  transact chainId block tx view _ :=
    match tx.kind with
    | .call recipient =>
        if ¬ EnvValid chainId block tx then { loads := [], outcome := .error "Transaction" }
        else if ¬ SenderValid tx view then
          { loads := [.account tx.caller], outcome := .error "Transaction" }
        else
          { loads := [.account tx.caller, .account recipient, .account block.beneficiary]
            outcome := .ok
              { result := .success 21000 [] []
                changes := transferChanges block tx recipient view
                tx := transferTree block tx recipient } }
    | .create => { loads := [], outcome := .error "Transaction" }

/-- A 32-byte digest of the leaves, in place of the trie's root. -/
def leafDigest (trie : Trie) : Except String Bytes :=
  .ok (beBytes 32 (trie.toList.foldl
    (fun acc leaf => (acc * 257 + ofBe leaf.1) * 257 + ofBe leaf.2) 1))

/-- Plain transfers between the signers of the sample transactions. -/
def sampleHost : Host where
  alloy := sampleAlloy
  revm := transferRevm
  provider := Precompile.bareProvider
  rootHash := leafDigest
  createAddress sender nonce := sender + nonce.toBitVec.setWidth 160
  analysis := legacyAnalysis

/-- Alice holds one ether. -/
def aliceGenesis : EvmGenesis where
  chainId := 1337
  alloc := (∅ : FMap Address GenesisAlloc).insert alice0.sender { balance := 1000000000000000000 }

/-- Every flush in ascending order. -/
def ascendingFlush : Nat → FlushOrder := fun _ => ⟨.ascending, .ascending⟩

def block1 : BlockContext := ⟨1, 7, 100⟩

def block2 : BlockContext := ⟨2, 7, 200⟩

/-- What a transaction's changes make of a record, where it is a plain
transfer: those of the three accounts it is about. -/
theorem changedInfo_transferChanges (block : BlockEnv) (tx : TxEnv) (recipient : Address)
    (view : DbView) (a : Address) :
    changedInfo (transferChanges block tx recipient view) a (view.account a)
      = if a ∈ [tx.caller, recipient, block.beneficiary] then
          transferred block tx recipient view a
        else view.account a := by
  unfold changedInfo transferChanges
  simp only [List.foldl_cons, List.foldl_nil, FMap.get_insert, List.mem_cons, List.not_mem_nil,
    or_false]
  by_cases h1 : block.beneficiary = a
  · simp [h1]
  · by_cases h2 : recipient = a
    · simp [h1, h2]
    · by_cases h3 : tx.caller = a
      · simp [h1, h2, h3]
      · simp [h1, h2, h3, Ne.symm h1, Ne.symm h2, Ne.symm h3]

/-- What a plain transfer that runs has passed and what it changes. -/
theorem transferRevm_ok {chainId : UInt64} {block : BlockEnv} {tx : TxEnv} {view : DbView}
    {getStake : Address → Address → U256} {run : Executed}
    (h : (transferRevm.transact chainId block tx view getStake).outcome = .ok run) :
    ∃ recipient, EnvValid chainId block tx ∧ SenderValid tx view ∧
      run = { result := .success 21000 [] []
              changes := transferChanges block tx recipient view
              tx := transferTree block tx recipient } := by
  simp only [transferRevm] at h
  split at h
  · split at h
    · cases h
    · rename_i recipient _ henv
      split at h
      · cases h
      · rename_i hsender
        exact ⟨recipient, not_not.mp henv, not_not.mp hsender, (Except.ok.inj h).symm⟩
  · cases h

end Nbnet.Execution
