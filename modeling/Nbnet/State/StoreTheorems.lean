/-
Nbnet.State.StoreTheorems — two things every reachable state keeps.

`Coded`: a cached account carries the code of its hash, and a stored one
that is not cached has none. The hash is keccak's and not part of the
repository; `codeOf` stands for its inverse on the codes that exist, and
the empty hash has no code. The second half holds because code comes with a
committed change set, which caches the account, and nothing leaves the
cache: the code in the contract table, which is padded, is never read back.

`Mirrors`: the trie has a leaf exactly for the accounts the store has a
record of, and it is the leaf of that record.
-/
import Nbnet.Lib.Runs
import Nbnet.State.CacheTheorems

namespace Nbnet.State

open Lib VsdbStateDb

/-! ## Code by hash -/

/-- The code under a hash. -/
def codeFor (codeOf : B256 → Bytes) (h : B256) : Bytes :=
  if h = keccakEmpty then [] else codeOf h

/-- The record carries the code of its hash. -/
def AccountInfo.Coded (codeOf : B256 → Bytes) (info : AccountInfo) : Prop :=
  info.code = some (codeFor codeOf info.codeHash)

/-- A stored account that is not cached has no code. -/
def CacheDb.Codeless (db : CacheDb) : Prop :=
  ∀ (a : Address) (s : StoredAccount), db.cache[a]? = none →
    db.db.accounts[a.asSlice]? = some s → s.toInfo.codeHash = keccakEmpty

/-- Every cached record is coded and every other one has no code. -/
structure CacheDb.Coded (codeOf : B256 → Bytes) (db : CacheDb) : Prop where
  uncached : db.Codeless
  cached : ∀ (a : Address) (acc : DbAccount), db.cache[a]? = some acc → acc.info.Coded codeOf

/-- What revm is shown is coded. -/
def DbView.Coded (codeOf : B256 → Bytes) (view : DbView) : Prop :=
  ∀ a info, view.basic a = some info → info.Coded codeOf

theorem coded_empty {codeOf : B256 → Bytes} : AccountInfo.Coded codeOf {} := by
  simp [AccountInfo.Coded, codeFor]

@[simp] theorem toInfo_fromInfo (info : AccountInfo) :
    (StoredAccount.fromInfo info).toInfo = { info with code := some [] } := by
  simp [StoredAccount.toInfo, StoredAccount.fromInfo]

/-! ### Accounts that are not cached -/

section Codeless

variable {db : CacheDb} {a : Address}

/-- What is read of one: its record, with no code. -/
theorem CacheDb.Codeless.basicRef (h : db.Codeless) (hc : db.cache[a]? = none) :
    db.db.basicRef a = (db.db.accounts[a.asSlice]?).map (·.toInfo) := by
  unfold VsdbStateDb.basicRef
  cases hs : db.db.accounts[a.asSlice]? with
  | none => rfl
  | some s => simp only [Option.map_some, codeOfHash, if_pos (h a s hc hs)]

theorem CacheDb.Codeless.fetch (h : db.Codeless) (hc : db.cache[a]? = none) :
    db.fetch a
      = match db.db.accounts[a.asSlice]? with
        | some s => { info := s.toInfo }
        | none => .newNotExisting := by
  unfold CacheDb.fetch
  rw [h.basicRef hc]
  cases db.db.accounts[a.asSlice]? <;> rfl

/-- The getter has no code for one. -/
theorem CacheDb.Codeless.getCode (an : CodeAnalysis) {st : EvmState} (h : st.db.Codeless)
    (hc : st.db.cache[a]? = none) : st.getCode an a = [] := by
  rw [getCode_of_uncached an hc, VsdbStateDb.getCode]
  cases hs : st.db.db.accounts[a.asSlice]? with
  | none => rfl
  | some s =>
    have hempty : ofWordBytes 256 s.codeHash.val = keccakEmpty := h a s hc hs
    rw [Option.bind_some, codeOfHash, if_pos hempty]
    rfl

/-- Nothing leaves the cache, so a change that keeps the records of the
accounts it does not cache keeps them without code. -/
theorem CacheDb.Codeless.mono (h : db.Codeless) {db' : CacheDb}
    (hrest : ∀ a : Address, db'.cache[a]? = none → db.cache[a]? = none ∧
      db'.db.accounts[a.asSlice]? = db.db.accounts[a.asSlice]?) : db'.Codeless := by
  intro a s hc hs
  obtain ⟨hc', haccounts⟩ := hrest a hc
  exact h a s hc' (haccounts ▸ hs)

theorem CacheDb.Codeless.load (h : db.Codeless) (ld : Load) : (db.load ld).Codeless :=
  h.mono fun _ hc => ⟨uncached_of_load hc, by rw [load_db]⟩

theorem CacheDb.Codeless.commit (h : db.Codeless) (changes : Changes) :
    (db.commit changes).Codeless :=
  h.mono fun _ hc => ⟨uncached_of_commit hc, rfl⟩

theorem CacheDb.Codeless.flush (an : CodeAnalysis) {st : EvmState} (h : st.db.Codeless)
    (order : FlushOrder) : (st.flushCacheToVsdb an order).db.Codeless := by
  refine h.mono fun a hc => ⟨hc, ?_⟩
  rw [flush_cache] at hc
  rw [flush_accounts, hc]

/-- A genesis record has the empty hash, whatever its code. -/
theorem codeless_fromGenesis (an : CodeAnalysis) (genesis : EvmGenesis) :
    (EvmState.fromGenesis an genesis).db.Codeless := by
  intro a s _ hs
  revert hs
  refine run_invariant_all (fun t : Tables => t.db.accounts[a.asSlice]? = some s →
    s.toInfo.codeHash = keccakEmpty) (fun t e ht hs => ?_) _ { db := .new, trie := ∅ }
    fun hs => by simp [VsdbStateDb.new] at hs
  rw [put_accounts, FMap.get_insert] at hs
  split at hs
  · obtain rfl := Option.some.inj hs
    rw [toInfo_fromInfo]
    rfl
  · exact ht hs

end Codeless

/-! ### All accounts -/

section Coded

variable {codeOf : B256 → Bytes} {db : CacheDb}

theorem CacheDb.Coded.entry (h : db.Coded codeOf) (a : Address) :
    (db.entry a).info.Coded codeOf := by
  cases hc : db.cache[a]? with
  | some acc =>
    rw [entry_of_cached hc]
    exact h.cached a acc hc
  | none =>
    rw [entry_of_uncached hc, h.uncached.fetch hc]
    split
    · rename_i s hs
      have hempty : s.toInfo.codeHash = keccakEmpty := h.uncached a s hc hs
      rw [AccountInfo.Coded, hempty]
      rfl
    · exact coded_empty

theorem CacheDb.Coded.view (h : db.Coded codeOf) : db.view.Coded codeOf := by
  intro a info hinfo
  simp only [CacheDb.view, DbAccount.info?] at hinfo
  split at hinfo
  · cases hinfo
  · obtain rfl := Option.some.inj hinfo
    exact h.entry a

/-- A cached account answers with the padded code of its hash, a `STOP` if
that is the empty one. -/
theorem CacheDb.Coded.getCode (an : CodeAnalysis) {st : EvmState} (h : st.db.Coded codeOf)
    {a : Address} (hc : (st.db.cache[a]?).isSome) :
    st.getCode an a = an.bytesSlice (codeFor codeOf (st.db.entry a).info.codeHash) := by
  obtain ⟨acc, hacc⟩ := Option.isSome_iff_exists.mp hc
  rw [getCode_of_cached an hacc (h.cached a acc hacc), entry_of_cached hacc]

theorem CacheDb.Coded.load (h : db.Coded codeOf) (ld : Load) : (db.load ld).Coded codeOf := by
  refine ⟨h.uncached.load ld, fun a acc hc => ?_⟩
  rw [load_cache] at hc
  split at hc
  · obtain rfl := Option.some.inj hc
    rw [(loadedEntry_info db ld).1]
    exact h.entry _
  · exact h.cached a acc hc

theorem CacheDb.Coded.loads (h : db.Coded codeOf) (lds : List Load) :
    (lds.foldl CacheDb.load db).Coded codeOf := by
  induction lds generalizing db with
  | nil => exact h
  | cons ld lds ih => exact ih (h.load ld)

theorem CacheDb.Coded.commit (h : db.Coded codeOf) {changes : Changes}
    (hchanges : ∀ (a : Address) (account : ChangedAccount), changes[a]? = some account →
      account.info.Coded codeOf) :
    (db.commit changes).Coded codeOf := by
  refine ⟨h.uncached.commit changes, fun a acc hc => ?_⟩
  rw [commit_cache] at hc
  split at hc
  · exact h.cached a acc hc
  · rename_i account haccount
    unfold CacheDb.commitAccount at hc
    split at hc
    · exact h.cached a acc hc
    · split at hc
      · obtain rfl := Option.some.inj hc
        exact coded_empty
      · obtain rfl := Option.some.inj hc
        exact hchanges a account haccount

theorem coded_recordBlockHash {st : EvmState} (h : st.db.Coded codeOf) (number : UInt64)
    (hash : B256) : (st.recordBlockHash number hash).db.Coded codeOf :=
  ⟨h.uncached, h.cached⟩

theorem coded_flush (an : CodeAnalysis) {st : EvmState} (h : st.db.Coded codeOf)
    (order : FlushOrder) : (st.flushCacheToVsdb an order).db.Coded codeOf :=
  ⟨h.uncached.flush an order, h.cached⟩

end Coded

/-- The contract table after an account is stored. -/
theorem insertAccount_contracts (an : CodeAnalysis) (db : VsdbStateDb) (a : Address)
    (info : AccountInfo) (key : Bytes) :
    (db.insertAccount an a info).contracts[key]?
      = match codeToStore an info with
        | some bytes => if codeKey info.codeHash = key then some bytes else db.contracts[key]?
        | none => db.contracts[key]? := by
  simp only [VsdbStateDb.insertAccount]
  cases codeToStore an info with
  | some bytes => exact FMap.get_insert _ _ _ _
  | none => rfl

/-! ## The trie mirrors the account table -/

/-- A leaf for each record, and no other. -/
def Mirrors (accounts : FMap Bytes StoredAccount) (trie : Trie) : Prop :=
  ∀ key : Bytes, trie[key]? = (accounts[key]?).map fun s => encodeAccountLeaf s.toInfo

@[simp] theorem encodeAccountLeaf_code (info : AccountInfo) (code : Option Bytes) :
    encodeAccountLeaf { info with code } = encodeAccountLeaf info := rfl

theorem mirrors_put (an : CodeAnalysis) {t : Tables} (h : Mirrors t.db.accounts t.trie)
    (slots : IterOrder U256 U256) (a : Address) (info : AccountInfo) (storage : FMap U256 U256) :
    Mirrors (t.put an slots a info storage).db.accounts (t.put an slots a info storage).trie := by
  intro key
  rw [put_accounts, put_trie, FMap.get_insert, FMap.get_insert]
  split
  · simp
  · exact h key

theorem mirrors_flush (an : CodeAnalysis) {st : EvmState}
    (h : Mirrors st.db.db.accounts st.stateTrie) (order : FlushOrder) :
    Mirrors (st.flushCacheToVsdb an order).db.db.accounts
      (st.flushCacheToVsdb an order).stateTrie := by
  refine run_invariant_all (fun t : Tables => Mirrors t.db.accounts t.trie) (fun t a ht => ?_) _
    { db := st.db.db, trie := st.stateTrie } h
  unfold flushAccount
  split
  · exact mirrors_put an ht _ _ _ _
  · exact ht

theorem mirrors_fromGenesis (an : CodeAnalysis) (genesis : EvmGenesis) :
    Mirrors (EvmState.fromGenesis an genesis).db.db.accounts
      (EvmState.fromGenesis an genesis).stateTrie := by
  refine run_invariant_all (fun t : Tables => Mirrors t.db.accounts t.trie)
    (fun t e ht => mirrors_put an ht _ _ _ _) _ { db := .new, trie := ∅ } ?_
  intro key
  simp [VsdbStateDb.new]

/-! ## Both -/

/-- What a state keeps. -/
structure EvmState.Kept (codeOf : B256 → Bytes) (st : EvmState) : Prop where
  coded : st.db.Coded codeOf
  mirrors : Mirrors st.db.db.accounts st.stateTrie

variable {codeOf : B256 → Bytes}

theorem EvmState.Kept.recordBlockHash {st : EvmState} (h : st.Kept codeOf) (number : UInt64)
    (hash : B256) : (st.recordBlockHash number hash).Kept codeOf :=
  ⟨coded_recordBlockHash h.coded number hash, h.mirrors⟩

theorem EvmState.Kept.flush (an : CodeAnalysis) {st : EvmState} (h : st.Kept codeOf)
    (order : FlushOrder) :
    (st.flushCacheToVsdb an order).Kept codeOf :=
  ⟨coded_flush an h.coded order, mirrors_flush an h.mirrors order⟩

/-- Reads only move the cache. -/
theorem EvmState.Kept.loads {st : EvmState} (h : st.Kept codeOf) (lds : List Load) :
    EvmState.Kept codeOf { st with db := lds.foldl CacheDb.load st.db } :=
  ⟨h.coded.loads lds, by
    simp only [foldl_load_db]
    exact h.mirrors⟩

theorem EvmState.Kept.commit {st : EvmState} (h : st.Kept codeOf) {changes : Changes}
    (hchanges : ∀ (a : Address) (account : ChangedAccount), changes[a]? = some account →
      account.info.Coded codeOf) :
    EvmState.Kept codeOf { st with db := st.db.commit changes } :=
  ⟨h.coded.commit hchanges, h.mirrors⟩

end Nbnet.State
