/-
Nbnet.State.EvmState — the world state of a node: cache, store and trie
(`crates/state/src/state.rs`, second half).

The Merkle-Patricia trie is a library's: here it is the map from keys to
leaves that was inserted into it, and its root is a function of that map
supplied from outside.

`from_genesis` sets an account's code but not its code hash, so a genesis
contract is stored under the empty hash; the model keeps that.
-/
import Nbnet.State.Store

namespace Nbnet.State

open Lib

/-- The leaves of the state trie. -/
abbrev Trie := FMap Bytes Bytes

structure EvmState where
  db : CacheDb
  stateTrie : Trie
  config : EvmChainConfig
  blockHashes : FMap UInt64 B256 := ∅

/-- `encode_account_leaf`: `nonce(8) || balance(32) || code_hash(32)`. -/
def encodeAccountLeaf (info : AccountInfo) : Bytes :=
  (u64BeBytes info.nonce).val ++ (U256.toBeBytes info.balance).val
    ++ (wordBytes 32 info.codeHash).val

/-- The account a genesis allocation describes. -/
def genesisInfo (alloc : GenesisAlloc) : AccountInfo where
  balance := alloc.balance
  nonce := alloc.nonce
  code := some alloc.code

/-- The tables a loop over accounts fills. -/
structure Tables where
  db : VsdbStateDb
  trie : Trie

/-- Persist one account: its record, its slots in the given order, its
leaf. -/
def Tables.put (an : CodeAnalysis) (slots : IterOrder U256 U256) (t : Tables) (addr : Address)
    (info : AccountInfo) (storage : FMap U256 U256) : Tables where
  db := (slots.order storage).foldl
    (fun db slot => db.insertStorage addr slot ((storage[slot]?).getD 0))
    (t.db.insertAccount an addr info)
  trie := t.trie.insert addr.asSlice (encodeAccountLeaf info)

/-- `EvmState::from_genesis`. The genesis tables are ordered maps. -/
def EvmState.fromGenesis (an : CodeAnalysis) (genesis : EvmGenesis) : EvmState :=
  let t := genesis.alloc.toList.foldl
    (fun (t : Tables) e => t.put an .ascending e.1 (genesisInfo e.2) e.2.storage)
    { db := .new, trie := ∅ }
  { db := .new t.db
    stateTrie := t.trie
    config :=
      { chainId := genesis.chainId
        blockGasLimit := genesis.gasLimit
        baseFeePerGas := genesis.baseFeePerGas } }

/-- `state_root`: the root's bytes, cut or padded to 32. -/
def stateRoot (rootHash : Trie → Except String Bytes) (trie : Trie) : FixedBytes 32 :=
  let root := match rootHash trie with
    | .ok root => root
    | .error _ => []
  ⟨root.take 32 ++ List.replicate (32 - (root.take 32).length) 0, by
    have : (root.take 32).length ≤ 32 := by rw [List.length_take]; omega
    rw [List.length_append, List.length_replicate]; omega⟩

namespace EvmState

def getBalance (st : EvmState) (addr : Address) : U256 :=
  match st.db.cache[addr]? with
  | some acc => acc.info.balance
  | none => st.db.db.getBalance addr

def getNonce (st : EvmState) (addr : Address) : UInt64 :=
  match st.db.cache[addr]? with
  | some acc => acc.info.nonce
  | none => st.db.db.getNonce addr

/-- The slice of the code a cached account carries; one that is not cached,
or carries none, is answered from the store. -/
def getCode (an : CodeAnalysis) (st : EvmState) (addr : Address) : Bytes :=
  match (st.db.cache[addr]?).bind (·.info.code) with
  | some code => an.bytesSlice code
  | none => st.db.db.getCode addr

def getStorage (st : EvmState) (addr : Address) (slot : U256) : U256 :=
  match (st.db.cache[addr]?).bind (·.storage[slot]?) with
  | some value => value
  | none => st.db.db.getStorage addr slot

/-- What both setters do with the record they made: it goes in the cache
entry, `or_default` where there was none, and in the trie leaf; the store
has a setter of its own. -/
def setInfo (st : EvmState) (addr : Address) (info : AccountInfo) (store : VsdbStateDb) :
    EvmState :=
  let entry := (st.db.cache[addr]?).getD {}
  { st with
    db := { cache := st.db.cache.insert addr { entry with info }, db := store }
    stateTrie := st.stateTrie.insert addr.asSlice (encodeAccountLeaf info) }

/-- `set_nonce`. -/
def setNonce (st : EvmState) (addr : Address) (nonce : UInt64) : EvmState :=
  let entry := (st.db.cache[addr]?).getD {}
  st.setInfo addr { entry.info with nonce } (st.db.db.setNonce addr nonce)

/-- `set_balance`. -/
def setBalance (st : EvmState) (addr : Address) (balance : U256) : EvmState :=
  let entry := (st.db.cache[addr]?).getD {}
  st.setInfo addr { entry.info with balance } (st.db.db.setBalance addr balance)

/-- `record_block_hash`: the oldest of more than 256 hashes goes. -/
def recordBlockHash (st : EvmState) (number : UInt64) (hash : B256) : EvmState :=
  let hashes := st.blockHashes.insert number hash
  { st with
    db := { st.db with db := st.db.db.insertBlockHash number hash }
    blockHashes :=
      if hashes.size > 256 then
        match hashes.keys.head? with
        | some oldest => hashes.erase oldest
        | none => hashes
      else hashes }

end EvmState

/-- The orders a flush walks the cache and each account's slots in. -/
structure FlushOrder where
  accounts : IterOrder Address DbAccount
  slots : IterOrder U256 U256

/-- One turn of the flush loop. -/
def flushAccount (an : CodeAnalysis) (order : FlushOrder) (cache : FMap Address DbAccount)
    (t : Tables) (addr : Address) : Tables :=
  match cache[addr]? with
  | some acc => t.put an order.slots addr acc.info acc.storage
  | none => t

/-- `flush_cache_to_vsdb`: every cached account is written, read or
changed, existing or not. The cache stays. -/
def EvmState.flushCacheToVsdb (an : CodeAnalysis) (order : FlushOrder) (st : EvmState) :
    EvmState :=
  let t := (order.accounts.order st.db.cache).foldl (flushAccount an order st.db.cache)
    { db := st.db.db, trie := st.stateTrie }
  { st with db := { st.db with db := t.db }, stateTrie := t.trie }

end Nbnet.State
