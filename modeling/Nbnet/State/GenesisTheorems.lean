/-
Nbnet.State.GenesisTheorems — what a genesis document becomes.

`from_genesis` writes every allocation once, so each table is read off the
document cell by cell. Balance, nonce and slots arrive. Code does not: the
record keeps the default code hash, the code lands in the contract table
under the empty hash, and no reader looks there
(`genesis_loaded_faithfully_iff`).
-/
import Nbnet.State.StoreTheorems

namespace Nbnet.State

open Lib

/-! ## The tables -/

/-- The loop over the allocations, read at a field that only an account's
own turn can change. -/
theorem fromGenesis_pointwise {β : Type} (an : CodeAnalysis) (genesis : EvmGenesis)
    (obs : Tables → Address → β) (g : GenesisAlloc → β → β)
    (hself : ∀ t a alloc, obs (t.put an .ascending a (genesisInfo alloc) alloc.storage) a
      = g alloc (obs t a))
    (hother : ∀ t a (alloc : GenesisAlloc) a', a' ≠ a →
      obs (t.put an .ascending a (genesisInfo alloc) alloc.storage) a' = obs t a') (a : Address) :
    obs { db := (EvmState.fromGenesis an genesis).db.db,
          trie := (EvmState.fromGenesis an genesis).stateTrie } a
      = match genesis.alloc[a]? with
        | some alloc => g alloc (obs { db := .new, trie := ∅ } a)
        | none => obs { db := .new, trie := ∅ } a := by
  have hloop := foldl_entries obs
    (fun t e => t.put an .ascending e.1 (genesisInfo e.2) e.2.storage) g
    (fun t e => hself t e.1 e.2) (fun t e => hother t e.1 e.2) genesis.alloc
    { db := .new, trie := ∅ } a
  refine hloop.trans ?_
  cases genesis.alloc[a]? <;> rfl

theorem fromGenesis_accounts (an : CodeAnalysis) (genesis : EvmGenesis) (a : Address) :
    (EvmState.fromGenesis an genesis).db.db.accounts[a.asSlice]?
      = (genesis.alloc[a]?).map fun alloc => .fromInfo (genesisInfo alloc) := by
  have hcell := fromGenesis_pointwise an genesis (fun t a => t.db.accounts[a.asSlice]?)
    (fun alloc _ => some (.fromInfo (genesisInfo alloc)))
    (fun t a alloc => by simp)
    (fun t a alloc a' hne => by
      rw [put_accounts, FMap.get_insert_of_ne]
      exact fun h => hne (Address.asSlice_injective h).symm) a
  refine hcell.trans ?_
  cases genesis.alloc[a]? with
  | none => simp [VsdbStateDb.new]
  | some alloc => rfl

theorem fromGenesis_getStorage (an : CodeAnalysis) (genesis : EvmGenesis) (a : Address) (k : U256) :
    (EvmState.fromGenesis an genesis).db.db.getStorage a k
      = ((genesis.alloc[a]?).bind fun alloc => alloc.storage[k]?).getD 0 := by
  have hcell := fromGenesis_pointwise an genesis (fun t a => t.db.getStorage a k)
    (fun alloc old => (alloc.storage[k]?).getD old)
    (fun t a alloc => by rw [put_getStorage, if_pos rfl])
    (fun t a alloc a' hne => by rw [put_getStorage, if_neg (Ne.symm hne)]) a
  have hnew : VsdbStateDb.getStorage .new a k = 0 := by
    simp [VsdbStateDb.getStorage, VsdbStateDb.new]
  refine hcell.trans ?_
  cases genesis.alloc[a]? with
  | none => exact hnew
  | some alloc =>
    simp only [hnew]
    rfl

@[simp] theorem fromGenesis_cache (an : CodeAnalysis) (genesis : EvmGenesis) :
    (EvmState.fromGenesis an genesis).db.cache = ∅ := rfl

/-- Nothing is cached yet: an entry is what the document says, with no
code. -/
theorem fromGenesis_entry (an : CodeAnalysis) (genesis : EvmGenesis) (a : Address) :
    (EvmState.fromGenesis an genesis).db.entry a
      = match genesis.alloc[a]? with
        | some alloc => { info := { balance := alloc.balance, nonce := alloc.nonce } }
        | none => .newNotExisting := by
  have huncached : (EvmState.fromGenesis an genesis).db.cache[a]? = none := by simp
  rw [entry_of_uncached huncached, (codeless_fromGenesis an genesis).fetch huncached,
    fromGenesis_accounts]
  cases genesis.alloc[a]? with
  | none => rfl
  | some alloc => simp [genesisInfo]

/-! ## Faithful loading -/

/-- What a document allocates to an address. -/
def allocOf (genesis : EvmGenesis) (a : Address) : GenesisAlloc :=
  (genesis.alloc[a]?).getD { balance := 0 }

/-- The code revm runs for an account: that of its record, else the one
under its hash. -/
def CacheDb.revmCode (db : CacheDb) (a : Address) : Bytes :=
  (db.view.account a).code.getD (db.db.codeByHash (db.view.account a).codeHash)

/-- The state at genesis answers for the address as the document says. -/
structure LoadedFaithfully (an : CodeAnalysis) (genesis : EvmGenesis) (a : Address) : Prop where
  balance : (EvmState.fromGenesis an genesis).getBalance a = (allocOf genesis a).balance
  nonce : (EvmState.fromGenesis an genesis).getNonce a = (allocOf genesis a).nonce
  code : (EvmState.fromGenesis an genesis).getCode an a = (allocOf genesis a).code
  storage : ∀ k, (EvmState.fromGenesis an genesis).getStorage a k
    = ((allocOf genesis a).storage[k]?).getD 0
  revmCode : (EvmState.fromGenesis an genesis).db.revmCode a = (allocOf genesis a).code

theorem fromGenesis_account (an : CodeAnalysis) (genesis : EvmGenesis) (a : Address) :
    (EvmState.fromGenesis an genesis).db.view.account a
      = { balance := (allocOf genesis a).balance, nonce := (allocOf genesis a).nonce } := by
  have htidy : (EvmState.fromGenesis an genesis).db.Tidy := tidy_new _
  rw [htidy.view_account, fromGenesis_entry, allocOf]
  cases genesis.alloc[a]? <;> rfl

/-- No account has code at genesis. -/
theorem fromGenesis_getCode (an : CodeAnalysis) (genesis : EvmGenesis) (a : Address) :
    (EvmState.fromGenesis an genesis).getCode an a = [] := by
  exact (codeless_fromGenesis an genesis).getCode an (by simp)

theorem fromGenesis_revmCode (an : CodeAnalysis) (genesis : EvmGenesis) (a : Address) :
    (EvmState.fromGenesis an genesis).db.revmCode a = [] := by
  rw [CacheDb.revmCode, fromGenesis_account]
  rfl

/-- **An allocation is loaded faithfully exactly when it has no code.** -/
theorem genesis_loaded_faithfully_iff (an : CodeAnalysis) (genesis : EvmGenesis) (a : Address) :
    LoadedFaithfully an genesis a ↔ (allocOf genesis a).code = [] := by
  constructor
  · intro h
    rw [← h.code, fromGenesis_getCode]
  · intro hcode
    refine ⟨?_, ?_, ?_, fun k => ?_, ?_⟩
    · rw [getBalance_eq_entry, fromGenesis_entry, allocOf]
      cases genesis.alloc[a]? <;> rfl
    · rw [getNonce_eq_entry, fromGenesis_entry, allocOf]
      cases genesis.alloc[a]? <;> rfl
    · rw [fromGenesis_getCode, hcode]
    · rw [EvmState.getStorage, fromGenesis_cache, allocOf]
      simp only [Std.ExtTreeMap.getElem?_empty, Option.bind_none, fromGenesis_getStorage]
      cases genesis.alloc[a]? with
      | none => simp
      | some alloc => rfl
    · rw [fromGenesis_revmCode, hcode]

/-- Alice is a contract whose code is one `STOP`. -/
def contractGenesis : EvmGenesis where
  chainId := 1337
  alloc := (∅ : FMap Address GenesisAlloc).insert alice0.sender { balance := 1, code := [0] }

theorem genesis_contract_has_no_code :
    ¬ LoadedFaithfully legacyAnalysis contractGenesis alice0.sender := by
  intro h
  have hcode := h.code
  revert hcode
  decide +kernel

end Nbnet.State
