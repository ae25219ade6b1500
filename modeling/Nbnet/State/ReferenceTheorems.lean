/-
Nbnet.State.ReferenceTheorems — the account store against plain maps.

`RefStore` is what the store is for: functions from addresses, from
(address, slot) pairs, from block numbers and from code hashes, each write
changing the value at one argument. `VsdbStateDb` keeps byte strings under
packed byte keys and has three read interfaces. `Abstracts` ties a store to
a reference, table by table; every write keeps it, so after any sequence of
writes every read returns the reference's value
(`store_refines_reference`). Code comes back as `insert_account` writes it,
padded by revm's analysis.
-/
import Mathlib.Logic.Function.Basic
import Nbnet.State.StoreTheorems

namespace Nbnet.State

open Lib VsdbStateDb

/-! ## The reference -/

/-- What is kept of an account. A new one has the empty code hash. -/
structure RefAccount where
  balance : U256 := 0
  nonce : UInt64 := 0
  codeHash : B256 := keccakEmpty
  deriving DecidableEq, Repr

structure RefStore where
  account : Address → Option RefAccount := fun _ => none
  /-- The last code written under each hash, as its `bytes_slice`. -/
  code : B256 → Bytes := fun _ => []
  slot : Address × U256 → U256 := fun _ => 0
  blockHash : UInt64 → B256 := fun _ => 0

/-- A write to the store. -/
inductive StoreOp where
  | insertAccount (addr : Address) (info : AccountInfo)
  | insertStorage (addr : Address) (slot value : U256)
  | insertBlockHash (number : UInt64) (hash : B256)
  | setBalance (addr : Address) (balance : U256)
  | setNonce (addr : Address) (nonce : UInt64)

/-- revm's record without the code, which revm's own comparison of records
leaves out too. -/
def AccountInfo.record (info : AccountInfo) : RefAccount where
  balance := info.balance
  nonce := info.nonce
  codeHash := info.codeHash

/-- The account a setter changes: a fresh one if there is none. -/
def RefStore.accountOrNew (r : RefStore) (addr : Address) : RefAccount := (r.account addr).getD {}

def RefStore.apply (an : CodeAnalysis) (r : RefStore) : StoreOp → RefStore
  | .insertAccount addr info =>
      { r with
        account := Function.update r.account addr (some info.record)
        code :=
          match codeToStore an info with
          | some bytes => Function.update r.code info.codeHash bytes
          | none => r.code }
  | .insertStorage addr slot value => { r with slot := Function.update r.slot (addr, slot) value }
  | .insertBlockHash number hash => { r with blockHash := Function.update r.blockHash number hash }
  | .setBalance addr balance =>
      let acc := { r.accountOrNew addr with balance }
      { r with account := Function.update r.account addr (some acc) }
  | .setNonce addr nonce =>
      let acc := { r.accountOrNew addr with nonce }
      { r with account := Function.update r.account addr (some acc) }

def VsdbStateDb.apply (an : CodeAnalysis) (db : VsdbStateDb) : StoreOp → VsdbStateDb
  | .insertAccount addr info => db.insertAccount an addr info
  | .insertStorage addr slot value => db.insertStorage addr slot value
  | .insertBlockHash number hash => db.insertBlockHash number hash
  | .setBalance addr balance => db.setBalance addr balance
  | .setNonce addr nonce => db.setNonce addr nonce

/-- The code of an account: none under the empty hash. -/
def RefStore.codeOf (r : RefStore) (acc : RefAccount) : Bytes := codeFor r.code acc.codeHash

/-- The account as revm reads it, code in hand. -/
def RefStore.info (r : RefStore) (acc : RefAccount) : AccountInfo where
  balance := acc.balance
  nonce := acc.nonce
  codeHash := acc.codeHash
  code := some (r.codeOf acc)

/-- Every read of all three interfaces returns what the reference has. -/
structure Refines (db : VsdbStateDb) (r : RefStore) : Prop where
  getAccount : ∀ a, (db.getAccount a).map (·.record) = r.account a
  getBalance : ∀ a, db.getBalance a = (r.accountOrNew a).balance
  getNonce : ∀ a, db.getNonce a = (r.accountOrNew a).nonce
  getCode : ∀ a, db.getCode a = r.codeOf (r.accountOrNew a)
  getStorage : ∀ a k, db.getStorage a k = r.slot (a, k)
  basic : ∀ a, db.basic a = (r.account a).map r.info
  codeByHash : ∀ h, db.codeByHash h = r.code h
  storageAt : ∀ a k, db.storageAt a k = r.slot (a, k)
  blockHash : ∀ n, db.blockHash n = r.blockHash n
  basicRef : ∀ a, db.basicRef a = (r.account a).map r.info
  codeByHashRef : ∀ h, db.codeByHashRef h = r.code h
  storageRef : ∀ a k, db.storageRef a k = r.slot (a, k)
  blockHashRef : ∀ n, db.blockHashRef n = r.blockHash n

/-! ## Tables and reference -/

/-- The bytes an account is kept as. -/
def RefAccount.store (acc : RefAccount) : StoredAccount where
  balanceBe := U256.toBeBytes acc.balance
  nonce := acc.nonce
  codeHash := wordBytes 32 acc.codeHash

/-- The tables hold the reference, encoded. -/
structure Abstracts (db : VsdbStateDb) (r : RefStore) : Prop where
  accounts : ∀ a : Address, db.accounts[a.asSlice]? = (r.account a).map (·.store)
  contracts : ∀ h, db.codeByHash h = r.code h
  storage : ∀ a k, db.getStorage a k = r.slot (a, k)
  blockHashes : ∀ n, db.blockHash n = r.blockHash n

theorem zero_eq_store : StoredAccount.zero = RefAccount.store {} := by
  decide

@[simp] theorem toInfo_store (acc : RefAccount) :
    acc.store.toInfo
      = { balance := acc.balance, nonce := acc.nonce, codeHash := acc.codeHash } := by
  simp [RefAccount.store, StoredAccount.toInfo]

theorem abstracts_new : Abstracts .new {} where
  accounts a := by simp [VsdbStateDb.new]
  contracts h := by simp [VsdbStateDb.new, VsdbStateDb.codeByHash]
  storage a k := by simp [VsdbStateDb.new, VsdbStateDb.getStorage]
  blockHashes n := by simp [VsdbStateDb.new, VsdbStateDb.blockHash]

variable {db : VsdbStateDb} {r : RefStore}

/-- The record a setter starts from. -/
theorem Abstracts.storedOrZero (h : Abstracts db r) (a : Address) :
    (db.accounts[a.asSlice]?).getD .zero = (r.accountOrNew a).store := by
  rw [h.accounts, RefStore.accountOrNew]
  cases r.account a with
  | none => exact zero_eq_store
  | some acc => rfl

/-- A record written under an address's key is that address's alone. -/
theorem Abstracts.insert_account (h : Abstracts db r) (a : Address) (acc : RefAccount)
    (b : Address) :
    (db.accounts.insert a.asSlice acc.store)[b.asSlice]?
      = (Function.update r.account a (some acc) b).map (·.store) := by
  rw [FMap.get_insert]
  by_cases hab : a = b
  · subst hab
    simp
  · rw [if_neg fun hkey => hab (Address.asSlice_injective hkey),
      Function.update_of_ne (Ne.symm hab), h.accounts]

theorem blockHash_insertBlockHash (db : VsdbStateDb) (n m : UInt64) (hash : B256) :
    (db.insertBlockHash n hash).blockHash m = if n = m then hash else db.blockHash m := by
  simp only [VsdbStateDb.blockHash, VsdbStateDb.insertBlockHash]
  rw [FMap.get_insert]
  by_cases hnm : n = m
  · subst hnm
    simp
  · rw [if_neg fun hkey => hnm (u64BeBytes_injective hkey), if_neg hnm]

theorem codeByHash_insertAccount (an : CodeAnalysis) (db : VsdbStateDb) (a : Address)
    (info : AccountInfo) (h : B256) :
    (db.insertAccount an a info).codeByHash h
      = match codeToStore an info with
        | some bytes => if info.codeHash = h then bytes else db.codeByHash h
        | none => db.codeByHash h := by
  unfold VsdbStateDb.codeByHash
  rw [insertAccount_contracts]
  cases codeToStore an info with
  | none => rfl
  | some bytes =>
    simp only [codeKey_eq_iff]
    split <;> rfl

/-- Each write keeps the tables on the reference. -/
theorem Abstracts.apply (an : CodeAnalysis) (h : Abstracts db r) (op : StoreOp) :
    Abstracts (db.apply an op) (r.apply an op) := by
  cases op with
  | insertAccount a info =>
    refine ⟨h.insert_account a info.record, fun hash => ?_, h.storage, h.blockHashes⟩
    simp only [VsdbStateDb.apply, RefStore.apply]
    rw [codeByHash_insertAccount]
    cases codeToStore an info with
    | none => exact h.contracts hash
    | some bytes =>
      simp only [Function.update_apply, eq_comm (a := hash), h.contracts]
  | insertStorage a k v =>
    refine ⟨h.accounts, h.contracts, fun b i => ?_, h.blockHashes⟩
    simp only [VsdbStateDb.apply, RefStore.apply]
    rw [getStorage_insertStorage, h.storage, Function.update_apply]
    simp only [Prod.mk.injEq, eq_comm]
  | insertBlockHash n hash =>
    refine ⟨h.accounts, h.contracts, h.storage, fun m => ?_⟩
    simp only [VsdbStateDb.apply, RefStore.apply]
    rw [blockHash_insertBlockHash, h.blockHashes, Function.update_apply]
    simp only [eq_comm]
  | setBalance a balance =>
    refine ⟨?_, h.contracts, h.storage, h.blockHashes⟩
    simp only [VsdbStateDb.apply, VsdbStateDb.setBalance, h.storedOrZero]
    exact h.insert_account a { r.accountOrNew a with balance }
  | setNonce a nonce =>
    refine ⟨?_, h.contracts, h.storage, h.blockHashes⟩
    simp only [VsdbStateDb.apply, VsdbStateDb.setNonce, h.storedOrZero]
    exact h.insert_account a { r.accountOrNew a with nonce }

theorem abstracts_run (an : CodeAnalysis) (ops : List StoreOp) (h : Abstracts db r) :
    Abstracts (ops.foldl (VsdbStateDb.apply an) db) (ops.foldl (RefStore.apply an) r) := by
  induction ops generalizing db r with
  | nil => exact h
  | cons op ops ih => exact ih (h.apply an op)

/-! ## Reads -/

/-- The code of a stored account, as every interface looks it up. -/
theorem Abstracts.codeOfHash (h : Abstracts db r) (hash : B256) :
    (db.codeOfHash hash).getD [] = codeFor r.code hash := by
  unfold VsdbStateDb.codeOfHash codeFor
  split
  · rfl
  · exact h.contracts hash

theorem Abstracts.basic (h : Abstracts db r) (a : Address) :
    db.basic a = (r.account a).map r.info := by
  unfold VsdbStateDb.basic
  rw [h.accounts]
  cases r.account a with
  | none => rfl
  | some acc =>
    rw [Option.map_some, Option.map_some, Option.map_some, RefStore.info, RefStore.codeOf,
      ← h.codeOfHash]
    simp only [toInfo_store]
    cases db.codeOfHash acc.codeHash <;> rfl

theorem Abstracts.getCode (h : Abstracts db r) (a : Address) :
    db.getCode a = r.codeOf (r.accountOrNew a) := by
  unfold VsdbStateDb.getCode RefStore.accountOrNew
  rw [h.accounts]
  cases r.account a with
  | none => simp [RefStore.codeOf, codeFor]
  | some acc =>
    have hhash : ofWordBytes 256 acc.store.codeHash.val = acc.codeHash :=
      ofWordBytes_codeHash acc.codeHash
    rw [Option.map_some, Option.bind_some, Option.getD_some, hhash]
    exact h.codeOfHash acc.codeHash

theorem Abstracts.refines (h : Abstracts db r) : Refines db r where
  getAccount a := by
    unfold VsdbStateDb.getAccount
    rw [h.accounts]
    cases r.account a with
    | none => rfl
    | some acc => simp [AccountInfo.record]
  getBalance a := by
    unfold VsdbStateDb.getBalance RefStore.accountOrNew
    rw [h.accounts]
    cases r.account a with
    | none => rfl
    | some acc => simp [RefAccount.store]
  getNonce a := by
    unfold VsdbStateDb.getNonce RefStore.accountOrNew
    rw [h.accounts]
    cases r.account a <;> rfl
  getCode := h.getCode
  getStorage := h.storage
  basic := h.basic
  codeByHash := h.contracts
  storageAt := h.storage
  blockHash := h.blockHashes
  basicRef := h.basic
  codeByHashRef := h.contracts
  storageRef := h.storage
  blockHashRef := h.blockHashes

/-- **The store refines plain maps.** After any writes to a new store every
read, through the getters, `Database` or `DatabaseRef`, returns the value
of the reference after the same writes, and no two (address, slot) pairs
share a key. -/
theorem store_refines_reference (an : CodeAnalysis) (ops : List StoreOp) :
    Refines (ops.foldl (VsdbStateDb.apply an) .new) (ops.foldl (RefStore.apply an) {}) ∧
      ∀ a k a' k', storageKey a k = storageKey a' k' → a = a' ∧ k = k' :=
  ⟨(abstracts_run an ops abstracts_new).refines, fun _ _ _ _ => storageKey_injective⟩

end Nbnet.State
