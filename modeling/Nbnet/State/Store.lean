/-
Nbnet.State.Store — the persistent account store and the cache revm works
on (`crates/state/src/state.rs`, first half).

`VsdbStateDb` keeps its four tables under raw byte keys, as the source
does. `CacheDb` is revm's `CacheDB` over it: a read of an account that is
not cached inserts what the store has, or an empty `NotExisting` entry;
`commit` writes the accounts a transaction touched. The cache's memo
tables for code and block hashes are left out: `basic_ref` always carries
the code along, and every recorded block hash is zero.

revm keeps code analysed and padded. Here a `Bytecode` is the bytes it was
made from (`Bytecode::new_raw`), and `CodeAnalysis` is the parameter that
gives its `bytes_slice`. No code is not an empty slice.
-/
import Nbnet.Types.Chain

namespace Nbnet.State

open Lib

/-- `KECCAK_EMPTY`. -/
def keccakEmpty : B256 := 0xc5d2460186f7233c927e7db2dcc703c0e500b653ca82273b7bfad8045d85a470

/-- revm's analysis of code. `bytesSlice code` is what
`Bytecode::new_raw(code).bytes_slice()` gives: the code, padded so that the
interpreter stops at its end. -/
structure CodeAnalysis where
  bytesSlice : Bytes → Bytes
  /-- `Bytecode::default()`, no code, is one `STOP`. -/
  bytesSlice_nil : bytesSlice [] = [0]

/-- The zeros that go behind legacy code: the immediate bytes its last push
still owes (`owed`), and a `STOP` unless the last opcode is one. -/
def padding (owed : Nat) (stopped : Bool) : Bytes → Nat
  | [] => owed + if stopped then 0 else 1
  | op :: rest =>
      match owed with
      | 0 => padding (if 0x60 ≤ op ∧ op ≤ 0x7f then op.toNat - 0x5f else 0) (op == 0) rest
      | owed + 1 => padding owed stopped rest

/-- The analysis of legacy code. Concrete runs use it. -/
def legacyAnalysis : CodeAnalysis where
  bytesSlice code := code ++ List.replicate (padding 0 false code) 0
  bytesSlice_nil := rfl

example : legacyAnalysis.bytesSlice [0x60, 0x01] = [0x60, 0x01, 0x00] := by decide

/-- revm's account record. The default one is empty; its code is
`Bytecode::default()`. -/
structure AccountInfo where
  balance : U256 := 0
  nonce : UInt64 := 0
  codeHash : B256 := keccakEmpty
  code : Option Bytes := some []
  deriving DecidableEq, Repr

/-! ## The persistent store -/

/-- Compact account record for persistence. -/
structure StoredAccount where
  balanceBe : FixedBytes 32
  nonce : UInt64
  codeHash : FixedBytes 32
  deriving DecidableEq, Repr

def StoredAccount.fromInfo (info : AccountInfo) : StoredAccount where
  balanceBe := U256.toBeBytes info.balance
  nonce := info.nonce
  codeHash := wordBytes 32 info.codeHash

def StoredAccount.toInfo (s : StoredAccount) : AccountInfo where
  balance := U256.fromBeSlice s.balanceBe.val
  nonce := s.nonce
  codeHash := ofWordBytes 256 s.codeHash.val

/-- The record a setter starts from when there is none. -/
def StoredAccount.zero : StoredAccount where
  balanceBe := ⟨List.replicate 32 0, List.length_replicate⟩
  nonce := 0
  codeHash := wordBytes 32 keccakEmpty

structure VsdbStateDb where
  /-- Address(20B) → StoredAccount -/
  accounts : FMap Bytes StoredAccount := ∅
  /-- code_hash(32B) → contract bytecode bytes -/
  contracts : FMap Bytes Bytes := ∅
  /-- address(20B) || slot(32B) → storage value -/
  storage : FMap Bytes (FixedBytes 32) := ∅
  /-- block_number(8B big-endian) → block hash -/
  blockHashes : FMap Bytes (FixedBytes 32) := ∅
  deriving DecidableEq

namespace VsdbStateDb

def new : VsdbStateDb := {}

/-- The key of a code hash, `code_hash.as_slice()`. -/
def codeKey (h : B256) : Bytes := (wordBytes 32 h).val

/-- `storage_key`. -/
def storageKey (addr : Address) (slot : U256) : Bytes :=
  addr.asSlice ++ (U256.toBeBytes slot).val

/-- The code bytes `insert_account` stores: the slice of an account's code,
if it has one and the slice is not empty. -/
def codeToStore (an : CodeAnalysis) (info : AccountInfo) : Option Bytes :=
  info.code.bind fun code =>
    let bytes := an.bytesSlice code
    if bytes = [] then none else some bytes

def insertAccount (an : CodeAnalysis) (db : VsdbStateDb) (addr : Address) (info : AccountInfo) :
    VsdbStateDb where
  accounts := db.accounts.insert addr.asSlice (.fromInfo info)
  contracts :=
    match codeToStore an info with
    | some bytes => db.contracts.insert (codeKey info.codeHash) bytes
    | none => db.contracts
  storage := db.storage
  blockHashes := db.blockHashes

def insertStorage (db : VsdbStateDb) (addr : Address) (slot value : U256) : VsdbStateDb :=
  { db with storage := db.storage.insert (storageKey addr slot) (U256.toBeBytes value) }

def insertBlockHash (db : VsdbStateDb) (number : UInt64) (hash : B256) : VsdbStateDb :=
  { db with blockHashes := db.blockHashes.insert (u64BeBytes number).val (wordBytes 32 hash) }

def getAccount (db : VsdbStateDb) (addr : Address) : Option AccountInfo :=
  (db.accounts[addr.asSlice]?).map (·.toInfo)

def getBalance (db : VsdbStateDb) (addr : Address) : U256 :=
  ((db.accounts[addr.asSlice]?).map fun s => U256.fromBeSlice s.balanceBe.val).getD 0

def getNonce (db : VsdbStateDb) (addr : Address) : UInt64 :=
  ((db.accounts[addr.asSlice]?).map (·.nonce)).getD 0

/-- The stored code of a code hash other than the empty one. -/
def codeOfHash (db : VsdbStateDb) (h : B256) : Option Bytes :=
  if h = keccakEmpty then none else db.contracts[codeKey h]?

def getCode (db : VsdbStateDb) (addr : Address) : Bytes :=
  ((db.accounts[addr.asSlice]?).bind fun s =>
    db.codeOfHash (ofWordBytes 256 s.codeHash.val)).getD []

def getStorage (db : VsdbStateDb) (addr : Address) (slot : U256) : U256 :=
  ((db.storage[storageKey addr slot]?).map fun v => U256.fromBeSlice v.val).getD 0

def setBalance (db : VsdbStateDb) (addr : Address) (balance : U256) : VsdbStateDb :=
  let stored := (db.accounts[addr.asSlice]?).getD .zero
  { db with
    accounts := db.accounts.insert addr.asSlice
      { stored with balanceBe := U256.toBeBytes balance } }

def setNonce (db : VsdbStateDb) (addr : Address) (nonce : UInt64) : VsdbStateDb :=
  let stored := (db.accounts[addr.asSlice]?).getD .zero
  { db with accounts := db.accounts.insert addr.asSlice { stored with nonce } }

/-! `Database` and `DatabaseRef`. No method of either fails or writes. -/

/-- `Database::basic`. -/
def basic (db : VsdbStateDb) (addr : Address) : Option AccountInfo :=
  (db.accounts[addr.asSlice]?).map fun s =>
    let info := s.toInfo
    match db.codeOfHash info.codeHash with
    | some bytes => { info with code := some bytes }
    | none => info

/-- `Database::code_by_hash`. -/
def codeByHash (db : VsdbStateDb) (h : B256) : Bytes :=
  (db.contracts[codeKey h]?).getD []

/-- `Database::storage`. -/
def storageAt (db : VsdbStateDb) (addr : Address) (slot : U256) : U256 :=
  ((db.storage[storageKey addr slot]?).map fun v => U256.fromBeSlice v.val).getD 0

/-- `Database::block_hash`. -/
def blockHash (db : VsdbStateDb) (number : UInt64) : B256 :=
  ((db.blockHashes[(u64BeBytes number).val]?).map fun h => ofWordBytes 256 h.val).getD 0

/-- `DatabaseRef::basic_ref`. -/
def basicRef (db : VsdbStateDb) (addr : Address) : Option AccountInfo :=
  (db.accounts[addr.asSlice]?).map fun s =>
    let info := s.toInfo
    match db.codeOfHash info.codeHash with
    | some bytes => { info with code := some bytes }
    | none => info

/-- `DatabaseRef::code_by_hash_ref`. -/
def codeByHashRef (db : VsdbStateDb) (h : B256) : Bytes :=
  (db.contracts[codeKey h]?).getD []

/-- `DatabaseRef::storage_ref`. -/
def storageRef (db : VsdbStateDb) (addr : Address) (slot : U256) : U256 :=
  db.getStorage addr slot

/-- `DatabaseRef::block_hash_ref`. -/
def blockHashRef (db : VsdbStateDb) (number : UInt64) : B256 :=
  ((db.blockHashes[(u64BeBytes number).val]?).map fun h => ofWordBytes 256 h.val).getD 0

end VsdbStateDb

/-! ## The cache -/

/-- revm's `AccountState`. -/
inductive AccountState where
  | notExisting
  | touched
  | storageCleared
  | none
  deriving DecidableEq, Repr

/-- A cached account. -/
structure DbAccount where
  info : AccountInfo := {}
  accountState : AccountState := .none
  storage : FMap U256 U256 := ∅

/-- `DbAccount::new_not_existing`. -/
def DbAccount.newNotExisting : DbAccount := { accountState := .notExisting }

/-- `DbAccount::info`. -/
def DbAccount.info? (acc : DbAccount) : Option AccountInfo :=
  if acc.accountState = .notExisting then Option.none else some acc.info

/-- Whether a slot that is not cached reads as zero. -/
def DbAccount.hidesStorage (acc : DbAccount) : Bool :=
  acc.accountState == .storageCleared || acc.accountState == .notExisting

structure CacheDb where
  cache : FMap Address DbAccount := ∅
  db : VsdbStateDb

/-- What revm can read of the state. -/
structure DbView where
  basic : Address → Option AccountInfo
  storage : Address → U256 → U256
  blockHash : UInt64 → B256

/-- A read that leaves an entry in the cache. -/
inductive Load where
  | account (addr : Address)
  | slot (addr : Address) (index : U256)
  deriving DecidableEq, Repr

/-- The account a read is about. -/
def Load.address : Load → Address
  | .account addr => addr
  | .slot addr _ => addr

/-- A touched or only loaded account of a transaction's change set. -/
structure ChangedAccount where
  info : AccountInfo
  storage : FMap U256 U256 := ∅
  touched : Bool := true
  selfdestructed : Bool := false
  created : Bool := false

/-- A transaction's change set. -/
abbrev Changes := FMap Address ChangedAccount

namespace CacheDb

def new (db : VsdbStateDb) : CacheDb := { db }

/-- What the store has for an account that is not cached. -/
def fetch (db : CacheDb) (addr : Address) : DbAccount :=
  match db.db.basicRef addr with
  | some info => { info }
  | none => .newNotExisting

/-- The entry `basic` and `storage` find or insert. -/
def entry (db : CacheDb) (addr : Address) : DbAccount :=
  (db.cache[addr]?).getD (db.fetch addr)

/-- A cached slot, else the store's unless the account hides it. -/
def slotOf (db : CacheDb) (addr : Address) (index : U256) : U256 :=
  match (db.entry addr).storage[index]? with
  | some value => value
  | none => if (db.entry addr).hidesStorage then 0 else db.db.storageRef addr index

/-- What `Database::basic` and `Database::storage` return. -/
def view (db : CacheDb) : DbView where
  basic addr := (db.entry addr).info?
  storage addr index := db.slotOf addr index
  blockHash number := db.db.blockHashRef number

/-- What a read leaves behind: the account entry, and for a slot that the
store answered also the slot. -/
def load (db : CacheDb) : Load → CacheDb
  | .account addr => { db with cache := db.cache.insert addr (db.entry addr) }
  | .slot addr index =>
      let acc := db.entry addr
      { db with
        cache := db.cache.insert addr
          (if (acc.storage[index]?).isSome ∨ acc.hidesStorage then acc
           else { acc with storage := acc.storage.insert index (db.db.storageRef addr index) }) }

/-- The cache entry after committing one account of a change set. -/
def commitAccount (old : Option DbAccount) (account : ChangedAccount) : Option DbAccount :=
  if !account.touched then old
  else if account.selfdestructed then some .newNotExisting
  else
    let acc := old.getD {}
    let kept := if account.created then ∅ else acc.storage
    some
      { info := account.info
        accountState :=
          if account.created then .storageCleared
          else if acc.accountState = .storageCleared then .storageCleared
          else .touched
        storage := account.storage.toList.foldl (fun m e => m.insert e.1 e.2) kept }

/-- One account of `CacheDB::commit`. -/
def commitOne (changes : Changes) (cache : FMap Address DbAccount) (addr : Address) :
    FMap Address DbAccount :=
  match (changes[addr]?).bind (commitAccount cache[addr]?) with
  | some acc => cache.insert addr acc
  | none => cache

/-- `CacheDB::commit`. Each account of the change set has a cell of its
own, so the order does not matter. -/
def commit (db : CacheDb) (changes : Changes) : CacheDb :=
  { db with cache := changes.keys.foldl (commitOne changes) db.cache }

end CacheDb

end Nbnet.State
