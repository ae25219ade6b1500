/-
Nbnet.State.OrderTheorems — a flush does not depend on the order of the
hash maps it walks.

`flush_cache_to_vsdb` loops over the cache and, inside, over each account's
slots, both in hash order. Its writes go to four tables. Records, slots and
leaves are keyed by the account, so the writes of two accounts never meet;
the contract table is keyed by code hash and shared, and there two writes
can meet. They agree when equal hashes come with equal code, as the writes
see it (`CodesCoherent`), which is where the one assumption is used
(`insertAccount_comm`).

The proof swaps neighbours: writes commute in pairs, so does one write with
a whole loop, so do the loops of two accounts, and a fold whose steps
commute is the same along every permutation.
-/
import Nbnet.State.StoreTheorems

namespace Nbnet.State

open Lib VsdbStateDb

/-! ## Walks -/

/-- An order for the cache, and for each account one of its own for its
slots. -/
structure FlushWalk where
  accounts : IterOrder Address DbAccount
  slots : Address → IterOrder U256 U256

/-- The walk of a flush that goes through all slot maps alike. -/
def FlushOrder.walk (order : FlushOrder) : FlushWalk where
  accounts := order.accounts
  slots _ := order.slots

/-- The flush loop along a walk. -/
def EvmState.flushAlong (an : CodeAnalysis) (walk : FlushWalk) (st : EvmState) : EvmState :=
  let t := (walk.accounts.order st.db.cache).foldl
    (fun t addr => flushAccount an ⟨walk.accounts, walk.slots addr⟩ st.db.cache t addr)
    { db := st.db.db, trie := st.stateTrie }
  { st with db := { st.db with db := t.db }, stateTrie := t.trie }

theorem flushAlong_walk (an : CodeAnalysis) (order : FlushOrder) (st : EvmState) :
    st.flushAlong an order.walk = st.flushCacheToVsdb an order := rfl

/-- Cached accounts with the same code hash and with code carry the same
code. Code is what `bytes_slice` gives, as in `insert_account`. -/
def CodesCoherent (an : CodeAnalysis) (cache : FMap Address DbAccount) : Prop :=
  ∀ (a b : Address) (acc acc' : DbAccount) (code code' : Bytes),
    cache[a]? = some acc → cache[b]? = some acc' →
    acc.info.codeHash = acc'.info.codeHash →
    acc.info.code = some code → acc'.info.code = some code' →
    an.bytesSlice code ≠ [] → an.bytesSlice code' ≠ [] →
    an.bytesSlice code = an.bytesSlice code'

/-- Where the code of every cached account is the code of its hash, the
codes are coherent. -/
theorem CacheDb.Coded.codesCoherent (an : CodeAnalysis) {codeOf : B256 → Bytes} {db : CacheDb}
    (h : db.Coded codeOf) : CodesCoherent an db.cache := by
  intro a b acc acc' code code' ha hb hhash hcode hcode' _ _
  have hacc := h.cached a acc ha
  have hacc' := h.cached b acc' hb
  rw [AccountInfo.Coded, hcode] at hacc
  rw [AccountInfo.Coded, hcode', ← hhash] at hacc'
  rw [Option.some.inj (hacc.trans hacc'.symm)]

/-! ## Writes in pairs -/

variable (an : CodeAnalysis)

theorem codeToStore_eq_some {info : AccountInfo} {bytes : Bytes}
    (h : codeToStore an info = some bytes) :
    ∃ code, info.code = some code ∧ an.bytesSlice code ≠ [] ∧ bytes = an.bytesSlice code := by
  unfold codeToStore at h
  cases hc : info.code with
  | none => simp [hc] at h
  | some code =>
    simp only [hc, Option.bind_some] at h
    split at h
    · cases h
    · rename_i hne
      exact ⟨code, rfl, hne, (Option.some.inj h).symm⟩

/-- Two accounts can be stored in either order, if their codes do not
disagree. -/
theorem insertAccount_comm (db : VsdbStateDb) {a b : Address} (hne : a ≠ b)
    {info info' : AccountInfo}
    (hcode : ∀ code code', codeToStore an info = some code → codeToStore an info' = some code' →
      info.codeHash = info'.codeHash → code = code') :
    (db.insertAccount an a info).insertAccount an b info'
      = (db.insertAccount an b info').insertAccount an a info := by
  have haccounts : ((db.accounts.insert a.asSlice (StoredAccount.fromInfo info)).insert b.asSlice
        (StoredAccount.fromInfo info'))
      = ((db.accounts.insert b.asSlice (StoredAccount.fromInfo info')).insert a.asSlice
        (StoredAccount.fromInfo info)) :=
    FMap.insert_comm _ fun heq => absurd (Address.asSlice_injective heq) hne
  unfold VsdbStateDb.insertAccount
  cases hc : codeToStore an info with
  | none => simp only [haccounts]
  | some code =>
    cases hc' : codeToStore an info' with
    | none => simp only [haccounts]
    | some code' =>
      have hcontracts : (db.contracts.insert (codeKey info.codeHash) code).insert
            (codeKey info'.codeHash) code'
          = (db.contracts.insert (codeKey info'.codeHash) code').insert
            (codeKey info.codeHash) code :=
        FMap.insert_comm _ fun heq => hcode code code' hc hc' (codeKey_injective heq)
      simp only [haccounts, hcontracts]

theorem insertStorage_comm (db : VsdbStateDb) {a b : Address} {slot slot' value value' : U256}
    (h : a = b → slot = slot' → value = value') :
    (db.insertStorage a slot value).insertStorage b slot' value'
      = (db.insertStorage b slot' value').insertStorage a slot value := by
  simp only [VsdbStateDb.insertStorage]
  rw [FMap.insert_comm]
  intro heq
  obtain ⟨ha, hs⟩ := (storageKey_eq_iff _ _ _ _).mp heq
  rw [h ha hs]

/-! ## Loops in pairs -/

/-- The slots of an account, written in the order of a list. -/
def putSlots (addr : Address) (storage : FMap U256 U256) (slots : List U256) (db : VsdbStateDb) :
    VsdbStateDb :=
  slots.foldl (fun db slot => db.insertStorage addr slot ((storage[slot]?).getD 0)) db

theorem putSlots_perm {slots slots' : List U256} (h : slots.Perm slots') (addr : Address)
    (storage : FMap U256 U256) (db : VsdbStateDb) :
    putSlots addr storage slots db = putSlots addr storage slots' db :=
  h.foldl_eq' (fun _ _ _ _ db => insertStorage_comm db fun _ hs => by rw [hs]) db

theorem putSlots_insertAccount (addr a : Address) (storage : FMap U256 U256) (slots : List U256)
    (info : AccountInfo) (db : VsdbStateDb) :
    putSlots addr storage slots (db.insertAccount an a info)
      = (putSlots addr storage slots db).insertAccount an a info := by
  unfold putSlots
  exact List.foldl_hom (fun db : VsdbStateDb => db.insertAccount an a info) fun _ _ => rfl

theorem putSlots_insertStorage {addr a : Address} (hne : addr ≠ a) (storage : FMap U256 U256)
    (slots : List U256) (slot value : U256) (db : VsdbStateDb) :
    putSlots addr storage slots (db.insertStorage a slot value)
      = (putSlots addr storage slots db).insertStorage a slot value := by
  unfold putSlots
  exact List.foldl_hom (fun db : VsdbStateDb => db.insertStorage a slot value) fun db _ =>
    insertStorage_comm db fun heq => absurd heq.symm hne

theorem putSlots_comm {a b : Address} (hne : a ≠ b) (storage storage' : FMap U256 U256)
    (slots slots' : List U256) (db : VsdbStateDb) :
    putSlots a storage slots (putSlots b storage' slots' db)
      = putSlots b storage' slots' (putSlots a storage slots db) := by
  rw [putSlots.eq_def b, putSlots.eq_def b]
  exact (List.foldl_hom (putSlots a storage slots) fun db _ =>
    (putSlots_insertStorage hne storage slots _ _ db).symm).symm

/-! ## Accounts -/

theorem put_db (slots : IterOrder U256 U256) (t : Tables) (a : Address) (info : AccountInfo)
    (storage : FMap U256 U256) :
    (t.put an slots a info storage).db
      = putSlots a storage (slots.order storage) (t.db.insertAccount an a info) := rfl

/-- Persisting an account does not depend on the order of its slots. -/
theorem put_slots (slots slots' : IterOrder U256 U256) (t : Tables) (a : Address)
    (info : AccountInfo) (storage : FMap U256 U256) :
    t.put an slots a info storage = t.put an slots' a info storage := by
  have hperm : (slots.order storage).Perm (slots'.order storage) :=
    (slots.perm storage).trans (slots'.perm storage).symm
  have hdb : (t.put an slots a info storage).db = (t.put an slots' a info storage).db := by
    rw [put_db, put_db]
    exact putSlots_perm hperm a storage _
  have htrie : (t.put an slots a info storage).trie = (t.put an slots' a info storage).trie := rfl
  calc t.put an slots a info storage
    _ = ⟨(t.put an slots a info storage).db, (t.put an slots a info storage).trie⟩ := rfl
    _ = t.put an slots' a info storage := by rw [hdb, htrie]

/-- Two accounts can be persisted in either order, if their codes do not
disagree. -/
theorem put_comm (slots slots' : IterOrder U256 U256) (t : Tables) {a b : Address} (hne : a ≠ b)
    {info info' : AccountInfo} (storage storage' : FMap U256 U256)
    (hcode : ∀ code code', codeToStore an info = some code → codeToStore an info' = some code' →
      info.codeHash = info'.codeHash → code = code') :
    (t.put an slots a info storage).put an slots' b info' storage'
      = (t.put an slots' b info' storage').put an slots a info storage := by
  have hdb : ((t.put an slots a info storage).put an slots' b info' storage').db
      = ((t.put an slots' b info' storage').put an slots a info storage).db := by
    rw [put_db, put_db, put_db, put_db, ← putSlots_insertAccount, ← putSlots_insertAccount,
      insertAccount_comm an t.db hne hcode, putSlots_comm hne.symm]
  have htrie : ((t.put an slots a info storage).put an slots' b info' storage').trie
      = ((t.put an slots' b info' storage').put an slots a info storage).trie :=
    FMap.insert_comm _ fun heq => absurd (Address.asSlice_injective heq) hne
  calc (t.put an slots a info storage).put an slots' b info' storage'
    _ = ⟨((t.put an slots a info storage).put an slots' b info' storage').db,
          ((t.put an slots a info storage).put an slots' b info' storage').trie⟩ := rfl
    _ = (t.put an slots' b info' storage').put an slots a info storage := by rw [hdb, htrie]

/-- One turn of the flush loop does not depend on the order of the slots. -/
theorem flushAccount_order (order order' : FlushOrder) (cache : FMap Address DbAccount)
    (t : Tables) (a : Address) :
    flushAccount an order cache t a = flushAccount an order' cache t a := by
  unfold flushAccount
  split
  · exact put_slots an _ _ _ _ _ _
  · rfl

/-- Two turns can be swapped. -/
theorem flushAccount_comm {cache : FMap Address DbAccount} (h : CodesCoherent an cache)
    (order order' : FlushOrder) (t : Tables) (a b : Address) :
    flushAccount an order' cache (flushAccount an order cache t a) b
      = flushAccount an order cache (flushAccount an order' cache t b) a := by
  by_cases hne : a = b
  · subst hne
    rw [flushAccount_order an order' order cache t, flushAccount_order an order' order cache _]
  · unfold flushAccount
    cases ha : cache[a]? with
    | none => rfl
    | some acc =>
      cases hb : cache[b]? with
      | none => rfl
      | some acc' =>
        refine put_comm an _ _ _ hne _ _ fun code code' hcode hcode' hhash => ?_
        obtain ⟨raw, hsome, hnonempty, rfl⟩ := codeToStore_eq_some an hcode
        obtain ⟨raw', hsome', hnonempty', rfl⟩ := codeToStore_eq_some an hcode'
        exact h a b acc acc' raw raw' ha hb hhash hsome hsome' hnonempty hnonempty'

theorem flushAlong_eq {st : EvmState} (h : CodesCoherent an st.db.cache) (walk walk' : FlushWalk) :
    st.flushAlong an walk = st.flushAlong an walk' := by
  have hperm : (walk.accounts.order st.db.cache).Perm (walk'.accounts.order st.db.cache) :=
    (walk.accounts.perm _).trans (walk'.accounts.perm _).symm
  have hstep : (fun t addr => flushAccount an ⟨walk.accounts, walk.slots addr⟩ st.db.cache t addr)
      = fun t addr => flushAccount an ⟨walk'.accounts, walk'.slots addr⟩ st.db.cache t addr := by
    funext t addr
    exact flushAccount_order an _ _ _ _ _
  have hloop : ∀ t : Tables,
      (walk.accounts.order st.db.cache).foldl
          (fun t addr => flushAccount an ⟨walk'.accounts, walk'.slots addr⟩ st.db.cache t addr) t
        = (walk'.accounts.order st.db.cache).foldl
          (fun t addr => flushAccount an ⟨walk'.accounts, walk'.slots addr⟩ st.db.cache t addr)
            t := by
    intro t
    refine hperm.foldl_eq' (fun a _ b _ t => ?_) t
    exact flushAccount_comm an h ⟨walk'.accounts, walk'.slots a⟩
      ⟨walk'.accounts, walk'.slots b⟩ t a b
  simp only [EvmState.flushAlong, hstep, hloop]

/-- **A flush does not depend on hash order.** For every cache, store and
trie whose cached codes are coherent, the flushes along any two walks leave
the same tables and the same trie, and so the same state root. -/
theorem flush_order_irrelevant (rootHash : Trie → Except String Bytes) (st : EvmState)
    (walk walk' : FlushWalk) (h : CodesCoherent an st.db.cache) :
    st.flushAlong an walk = st.flushAlong an walk' ∧
      stateRoot rootHash (st.flushAlong an walk).stateTrie
        = stateRoot rootHash (st.flushAlong an walk').stateTrie ∧
      ∀ order, st.flushCacheToVsdb an order = st.flushAlong an walk := by
  refine ⟨flushAlong_eq an h walk walk', by rw [flushAlong_eq an h walk walk'], fun order => ?_⟩
  rw [← flushAlong_walk, flushAlong_eq an h order.walk walk]

/-! ### Two contracts with one code -/

/-- The hash of the invalid instruction, alone. -/
def invalidHash : B256 := 0xbcc90f2d6dada5b18e155c17a1c0a55920aae94f39857d39d0d8ed07ae8f228b

/-- `0xc1` and `0xc2` are created with the same code, each with a slot. -/
def createTwins : Changes :=
  ((∅ : Changes).insert 0xc1
    { info := { codeHash := invalidHash, code := some [0xfe] }
      storage := (∅ : FMap U256 U256).insert 1 5
      created := true }).insert 0xc2
    { info := { codeHash := invalidHash, code := some [0xfe] }
      storage := ((∅ : FMap U256 U256).insert 1 6).insert 2 7
      created := true }

def twinState : EvmState where
  db := (CacheDb.new .new).commit createTwins
  stateTrie := ∅
  config := { chainId := 1337, blockGasLimit := 30000000, baseFeePerGas := 1000000000 }

theorem flush_order_twins :
    CodesCoherent legacyAnalysis twinState.db.cache ∧
      twinState.flushAlong legacyAnalysis ⟨.ascending, fun _ => .ascending⟩
        = twinState.flushAlong legacyAnalysis ⟨.descending, fun _ => .descending⟩ := by
  have hcoded : twinState.db.Coded fun _ => [0xfe] := by
    refine CacheDb.Coded.commit ⟨fun a s _ hs => ?_, fun a acc hc => ?_⟩
      fun a account haccount => ?_
    · simp [VsdbStateDb.new, CacheDb.new] at hs
    · simp [CacheDb.new] at hc
    · have hne : invalidHash ≠ keccakEmpty := by decide
      simp only [createTwins, FMap.get_insert, Std.ExtTreeMap.getElem?_empty] at haccount
      split at haccount
      · obtain rfl := Option.some.inj haccount
        simp [AccountInfo.Coded, codeFor, hne]
      · split at haccount
        · obtain rfl := Option.some.inj haccount
          simp [AccountInfo.Coded, codeFor, hne]
        · cases haccount
  have hcoherent := hcoded.codesCoherent legacyAnalysis
  exact ⟨hcoherent, (flush_order_irrelevant legacyAnalysis (fun _ => .ok []) twinState _ _
    hcoherent).1⟩

end Nbnet.State
