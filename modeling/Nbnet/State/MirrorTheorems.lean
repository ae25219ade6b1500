/-
Nbnet.State.MirrorTheorems — three copies of an account.

Cache, account table and trie each keep an account's nonce, balance and
code hash. `Synced` says that the cached copy is the stored one, with the
zero account for none; together with `Mirrors` it makes the three agree
(`MirrorsAccounts`). Reads keep it and a flush establishes it, whatever was
committed before. A leaf in turn determines the record it was made from.
-/
import Nbnet.State.ReferenceTheorems

namespace Nbnet.State

open Lib

/-! ## Leaves -/

/-- `nonce(8) || balance(32) || code_hash(32)` of a stored record. -/
def StoredAccount.leaf (s : StoredAccount) : Bytes :=
  (u64BeBytes s.nonce).val ++ s.balanceBe.val ++ s.codeHash.val

/-- The leaf of a record is made of the record's own bytes. -/
theorem encodeAccountLeaf_toInfo (s : StoredAccount) : encodeAccountLeaf s.toInfo = s.leaf := by
  have hbalance : U256.toBeBytes (U256.fromBeSlice s.balanceBe.val) = s.balanceBe :=
    wordBytes_ofWordBytes rfl s.balanceBe
  have hhash : wordBytes 32 (ofWordBytes 256 s.codeHash.val) = s.codeHash :=
    wordBytes_ofWordBytes rfl s.codeHash
  unfold encodeAccountLeaf StoredAccount.toInfo StoredAccount.leaf
  rw [hbalance, hhash]

/-- The record the account table has, the zero one for none. -/
def VsdbStateDb.recordOf (db : VsdbStateDb) (a : Address) : RefAccount :=
  ((db.getAccount a).map (·.record)).getD {}

/-- What is cached is what is stored. -/
def EvmState.Synced (st : EvmState) : Prop :=
  ∀ a, (st.db.entry a).info.record = st.db.db.recordOf a

/-- An account that is not cached is read from the store. -/
theorem fetch_record (db : CacheDb) (a : Address) :
    (db.fetch a).info.record = db.db.recordOf a := by
  unfold CacheDb.fetch VsdbStateDb.basicRef VsdbStateDb.recordOf VsdbStateDb.getAccount
  cases db.db.accounts[a.asSlice]? with
  | none => rfl
  | some s =>
    simp only [Option.map_some, Option.getD_some]
    split <;> rfl

theorem synced_fromGenesis (an : CodeAnalysis) (genesis : EvmGenesis) :
    (EvmState.fromGenesis an genesis).Synced := by
  intro a
  have huncached : (EvmState.fromGenesis an genesis).db.cache[a]? = none := by
    simp [EvmState.fromGenesis, CacheDb.new]
  rw [entry_of_uncached huncached, fetch_record]

/-- A flush writes every cached record, so it syncs any cache. -/
theorem synced_flush (an : CodeAnalysis) (order : FlushOrder) (st : EvmState) :
    (st.flushCacheToVsdb an order).Synced := by
  intro a
  cases hc : st.db.cache[a]? with
  | none =>
    have huncached : (st.flushCacheToVsdb an order).db.cache[a]? = none := hc
    rw [entry_of_uncached huncached, fetch_record]
  | some acc =>
    have hcached : (st.flushCacheToVsdb an order).db.cache[a]? = some acc := hc
    rw [entry_of_cached hcached, VsdbStateDb.recordOf, VsdbStateDb.getAccount, flush_accounts, hc]
    simp [AccountInfo.record]

theorem EvmState.Synced.loads {st : EvmState} (h : st.Synced) (lds : List Load) :
    EvmState.Synced { st with db := lds.foldl CacheDb.load st.db } := by
  intro a
  simp only [entry_loads_info, foldl_load_db]
  exact h a

/-! ## All three -/

/-- Cache, account table and trie agree on every account. -/
structure MirrorsAccounts (st : EvmState) : Prop where
  leaf_iff : ∀ a : Address,
    (st.stateTrie[a.asSlice]?).isSome ↔ (st.db.db.accounts[a.asSlice]?).isSome
  leaf : ∀ (a : Address) (s : StoredAccount), st.db.db.accounts[a.asSlice]? = some s →
    st.stateTrie[a.asSlice]? = some ((u64BeBytes s.nonce).val ++ s.balanceBe.val ++ s.codeHash.val)
  balance : ∀ a, st.getBalance a = st.db.db.getBalance a
  nonce : ∀ a, st.getNonce a = st.db.db.getNonce a

theorem recordOf_balance (db : VsdbStateDb) (a : Address) :
    (db.recordOf a).balance = db.getBalance a := by
  unfold VsdbStateDb.recordOf VsdbStateDb.getAccount VsdbStateDb.getBalance
  cases db.accounts[a.asSlice]? <;> rfl

theorem recordOf_nonce (db : VsdbStateDb) (a : Address) :
    (db.recordOf a).nonce = db.getNonce a := by
  unfold VsdbStateDb.recordOf VsdbStateDb.getAccount VsdbStateDb.getNonce
  cases db.accounts[a.asSlice]? <;> rfl

theorem Mirrors.leaf {st : EvmState} (h : Mirrors st.db.db.accounts st.stateTrie) (key : Bytes) :
    st.stateTrie[key]? = (st.db.db.accounts[key]?).map (·.leaf) := by
  rw [h key]
  simp only [encodeAccountLeaf_toInfo]

theorem mirrorsAccounts {st : EvmState} (hsync : st.Synced)
    (hmirrors : Mirrors st.db.db.accounts st.stateTrie) : MirrorsAccounts st where
  leaf_iff a := by rw [hmirrors.leaf, Option.isSome_map]
  leaf a s hs := by
    rw [hmirrors.leaf, hs]
    rfl
  balance a := by
    rw [getBalance_eq_entry, ← recordOf_balance, ← hsync a]
    rfl
  nonce a := by
    rw [getNonce_eq_entry, ← recordOf_nonce, ← hsync a]
    rfl

end Nbnet.State
