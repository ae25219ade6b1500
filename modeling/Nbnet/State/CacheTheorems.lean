/-
Nbnet.State.CacheTheorems — what reads, commits and flushes do, cell by
cell.

`CacheDb.entry` is the account the cache has or would fetch. Every getter
and the view revm reads are functions of the entries, so the effect of an
operation is stated on entries: a read changes none (apart from caching a
slot at the value the store has), a commit rewrites those of its change
set, a flush writes the store and leaves the entries alone.
-/
import Nbnet.State.EvmState

namespace Nbnet.State

open Lib

/-! ## Keys -/

theorem codeKey_injective {h h' : B256} (heq : VsdbStateDb.codeKey h = VsdbStateDb.codeKey h') :
    h = h' :=
  wordBytes_injective (n := 32) rfl heq

theorem storageKey_injective {a a' : Address} {k k' : U256}
    (h : VsdbStateDb.storageKey a k = VsdbStateDb.storageKey a' k') : a = a' ∧ k = k' := by
  have hlen : a.asSlice.length = a'.asSlice.length := by
    simp [Address.asSlice, wordBytes]
  obtain ⟨ha, hk⟩ := List.append_inj h hlen
  exact ⟨Address.asSlice_injective ha, wordBytes_injective (n := 32) rfl hk⟩

theorem storageKey_eq_iff (a a' : Address) (k k' : U256) :
    VsdbStateDb.storageKey a k = VsdbStateDb.storageKey a' k' ↔ a = a' ∧ k = k' :=
  ⟨storageKey_injective, by rintro ⟨rfl, rfl⟩; rfl⟩

theorem codeKey_eq_iff (h h' : B256) :
    VsdbStateDb.codeKey h = VsdbStateDb.codeKey h' ↔ h = h' :=
  ⟨codeKey_injective, by rintro rfl; rfl⟩

@[simp] theorem ofWordBytes_codeHash (h : B256) : ofWordBytes 256 (wordBytes 32 h).val = h :=
  ofWordBytes_wordBytes (n := 32) rfl h

/-! ## Entries and getters -/

theorem fetch_info_nonce (db : CacheDb) (a : Address) :
    (db.fetch a).info.nonce = db.db.getNonce a := by
  unfold CacheDb.fetch VsdbStateDb.basicRef VsdbStateDb.getNonce
  cases db.db.accounts[a.asSlice]? with
  | none => rfl
  | some s =>
    simp only [Option.map_some, Option.getD_some]
    split <;> rfl

theorem fetch_info_balance (db : CacheDb) (a : Address) :
    (db.fetch a).info.balance = db.db.getBalance a := by
  unfold CacheDb.fetch VsdbStateDb.basicRef VsdbStateDb.getBalance
  cases db.db.accounts[a.asSlice]? with
  | none => rfl
  | some s =>
    simp only [Option.map_some, Option.getD_some]
    split <;> rfl

@[simp] theorem fetch_storage (db : CacheDb) (a : Address) : (db.fetch a).storage = ∅ := by
  unfold CacheDb.fetch
  split <;> rfl

theorem entry_of_cached {db : CacheDb} {a : Address} {acc : DbAccount}
    (hc : db.cache[a]? = some acc) : db.entry a = acc := by
  rw [CacheDb.entry, hc]
  rfl

theorem entry_of_uncached {db : CacheDb} {a : Address} (hc : db.cache[a]? = none) :
    db.entry a = db.fetch a := by
  rw [CacheDb.entry, hc]
  rfl

theorem getNonce_eq_entry (st : EvmState) (a : Address) :
    st.getNonce a = (st.db.entry a).info.nonce := by
  unfold EvmState.getNonce CacheDb.entry
  cases st.db.cache[a]? with
  | none => exact (fetch_info_nonce st.db a).symm
  | some acc => rfl

theorem getBalance_eq_entry (st : EvmState) (a : Address) :
    st.getBalance a = (st.db.entry a).info.balance := by
  unfold EvmState.getBalance CacheDb.entry
  cases st.db.cache[a]? with
  | none => exact (fetch_info_balance st.db a).symm
  | some acc => rfl

/-- A cached account answers with the slice of the code it carries. -/
theorem getCode_of_cached (an : CodeAnalysis) {st : EvmState} {a : Address} {acc : DbAccount}
    (hc : st.db.cache[a]? = some acc) {code : Bytes} (hcode : acc.info.code = some code) :
    st.getCode an a = an.bytesSlice code := by
  rw [EvmState.getCode, hc, Option.bind_some, hcode]

theorem getCode_of_uncached (an : CodeAnalysis) {st : EvmState} {a : Address}
    (hc : st.db.cache[a]? = none) : st.getCode an a = st.db.db.getCode a := by
  rw [EvmState.getCode, hc]
  rfl

theorem getStorage_eq_entry (st : EvmState) (a : Address) (k : U256) :
    st.getStorage a k = ((st.db.entry a).storage[k]?).getD (st.db.db.getStorage a k) := by
  unfold EvmState.getStorage CacheDb.entry
  cases st.db.cache[a]? with
  | none => simp
  | some acc =>
    simp only [Option.bind_some, Option.getD_some]
    cases acc.storage[k]? <;> rfl

/-! ## Reads -/

@[simp] theorem load_db (db : CacheDb) (ld : Load) : (db.load ld).db = db.db := by
  cases ld <;> rfl

@[simp] theorem foldl_load_db (loads : List Load) (db : CacheDb) :
    (loads.foldl CacheDb.load db).db = db.db :=
  foldl_unchanged (fun db : CacheDb => db.db) CacheDb.load load_db loads db

theorem fetch_congr {db db' : CacheDb} (h : db'.db = db.db) (a : Address) :
    db'.fetch a = db.fetch a := by
  unfold CacheDb.fetch
  rw [h]

/-- The entry an access leaves: the one found, with the slot the store
answered. -/
def loadedEntry (db : CacheDb) : Load → DbAccount
  | .account a => db.entry a
  | .slot a k =>
      let acc := db.entry a
      if (acc.storage[k]?).isSome ∨ acc.hidesStorage then acc
      else { acc with storage := acc.storage.insert k (db.db.storageRef a k) }

theorem load_cache (db : CacheDb) (ld : Load) (a : Address) :
    (db.load ld).cache[a]? = if ld.address = a then some (loadedEntry db ld) else db.cache[a]? := by
  cases ld with
  | account b => exact FMap.get_insert _ _ _ _
  | slot b k => exact FMap.get_insert _ _ _ _

/-- A read takes nothing out of the cache. -/
theorem uncached_of_load {db : CacheDb} {ld : Load} {a : Address}
    (h : (db.load ld).cache[a]? = none) : db.cache[a]? = none := by
  rw [load_cache] at h
  split at h
  · cases h
  · exact h

theorem entry_load (db : CacheDb) (ld : Load) (a : Address) :
    (db.load ld).entry a = if ld.address = a then loadedEntry db ld else db.entry a := by
  unfold CacheDb.entry
  rw [load_cache, fetch_congr (load_db db ld)]
  split <;> rfl

theorem loadedEntry_info (db : CacheDb) (ld : Load) :
    (loadedEntry db ld).info = (db.entry ld.address).info ∧
      (loadedEntry db ld).accountState = (db.entry ld.address).accountState := by
  cases ld with
  | account a => exact ⟨rfl, rfl⟩
  | slot a k =>
    simp only [loadedEntry, Load.address]
    split <;> exact ⟨rfl, rfl⟩

theorem entry_loads_info (lds : List Load) (db : CacheDb) (a : Address) :
    ((lds.foldl CacheDb.load db).entry a).info = (db.entry a).info := by
  refine foldl_unchanged (fun db : CacheDb => (db.entry a).info) CacheDb.load (fun db ld => ?_)
    lds db
  rw [entry_load]
  split
  · rename_i haddr
    rw [(loadedEntry_info db ld).1, haddr]
  · rfl

/-- A read caches a slot only when it is missing and visible, and then at
the value the store has for it. -/
theorem loadedEntry_storage (db : CacheDb) (ld : Load) (k : U256) :
    (loadedEntry db ld).storage[k]?
      = if ld = .slot ld.address k ∧ (db.entry ld.address).storage[k]? = none ∧
            (db.entry ld.address).hidesStorage = false then
          some (db.db.getStorage ld.address k)
        else (db.entry ld.address).storage[k]? := by
  cases ld with
  | account a => simp [loadedEntry, Load.address]
  | slot a i =>
    simp only [loadedEntry, Load.address, Load.slot.injEq, true_and]
    by_cases hmiss : ((db.entry a).storage[i]?).isSome ∨ (db.entry a).hidesStorage
    · rw [if_pos hmiss, if_neg]
      rintro ⟨rfl, hnone, hvisible⟩
      simp [hnone, hvisible] at hmiss
    · rw [if_neg hmiss, FMap.get_insert]
      by_cases hik : i = k
      · subst hik
        push Not at hmiss
        simp_all [VsdbStateDb.storageRef]
      · simp [hik]

/-! ## Commits -/

@[simp] theorem commit_db (db : CacheDb) (changes : Changes) : (db.commit changes).db = db.db :=
  rfl

/-- A commit rewrites the cells of its change set. -/
theorem commit_cache (db : CacheDb) (changes : Changes) (a : Address) :
    (db.commit changes).cache[a]?
      = match changes[a]? with
        | none => db.cache[a]?
        | some account => CacheDb.commitAccount db.cache[a]? account := by
  have hcell := foldl_pointwise (fun (cache : FMap Address DbAccount) a => cache[a]?)
    (CacheDb.commitOne changes)
    (fun a old => match changes[a]? with
      | none => old
      | some account => CacheDb.commitAccount old account)
    (fun cache a => by
      unfold CacheDb.commitOne
      cases hc : changes[a]? with
      | none => simp
      | some account =>
        simp only [Option.bind_some]
        cases hacc : CacheDb.commitAccount cache[a]? account with
        | none =>
          -- only an untouched account that is not cached leaves no entry
          simp only [CacheDb.commitAccount] at hacc
          split at hacc
          · exact hacc
          · split at hacc <;> simp at hacc
        | some acc => simp)
    (fun cache a b hab => by
      unfold CacheDb.commitOne
      split
      · exact FMap.get_insert_of_ne _ _ (Ne.symm hab)
      · rfl)
    changes.keys changes.keys_nodup db.cache a
  simp only [CacheDb.commit]
  rw [hcell]
  split
  · rfl
  · rename_i hkey
    rw [FMap.mem_keys_iff] at hkey
    have hnone : changes[a]? = none := by simpa using hkey
    rw [hnone]

/-- Nor does a commit: a destroyed account keeps an entry. -/
theorem uncached_of_commit {db : CacheDb} {changes : Changes} {a : Address}
    (h : (db.commit changes).cache[a]? = none) : db.cache[a]? = none := by
  rw [commit_cache] at h
  split at h
  · exact h
  · unfold CacheDb.commitAccount at h
    split at h
    · exact h
    · split at h <;> cases h

/-- The entry of a committed account, from the entry before it. -/
def committedEntry (acc : DbAccount) (account : ChangedAccount) : DbAccount :=
  if !account.touched then acc
  else if account.selfdestructed then .newNotExisting
  else
    { info := account.info
      accountState :=
        if account.created then .storageCleared
        else if acc.accountState = .storageCleared then .storageCleared
        else .touched
      storage := account.storage.toList.foldl (fun m e => m.insert e.1 e.2)
        (if account.created then ∅ else acc.storage) }

/-- Committing on top of what the store has is committing on top of
nothing: a fetched entry has no slots and is never cleared. -/
theorem commitAccount_getD (db : CacheDb) (a : Address) (account : ChangedAccount) :
    (CacheDb.commitAccount db.cache[a]? account).getD (db.fetch a)
      = committedEntry (db.entry a) account := by
  unfold CacheDb.commitAccount committedEntry CacheDb.entry
  split
  · rfl
  · split
    · rfl
    · cases db.cache[a]? with
      | some acc => rfl
      | none =>
        have hstate : ¬ (db.fetch a).accountState = .storageCleared := by
          unfold CacheDb.fetch
          split <;> exact fun h => nomatch h
        simp [hstate]

theorem entry_commit (db : CacheDb) (changes : Changes) (a : Address) :
    (db.commit changes).entry a
      = match changes[a]? with
        | none => db.entry a
        | some account => committedEntry (db.entry a) account := by
  have hfetch := fetch_congr (commit_db db changes) a
  rw [CacheDb.entry, commit_cache, hfetch]
  cases changes[a]? with
  | none => rfl
  | some account => exact commitAccount_getD db a account

/-- The slots of a committed account: the changed ones, and the others
unless the account is new. -/
theorem committedEntry_storage {acc : DbAccount} {account : ChangedAccount}
    (htouched : account.touched = true) (hlive : account.selfdestructed = false) (k : U256) :
    (committedEntry acc account).storage[k]?
      = match account.storage[k]? with
        | some value => some value
        | none => if account.created then none else acc.storage[k]? := by
  have hfold := foldl_entries (fun (m : FMap U256 U256) (k : U256) => m[k]?)
    (fun m e => m.insert e.1 e.2) (fun v _ => some v)
    (fun m e => by simp) (fun m e k hne => FMap.get_insert_of_ne m e.2 (Ne.symm hne))
    account.storage (if account.created then ∅ else acc.storage) k
  simp only [committedEntry, htouched, hlive, Bool.not_true, Bool.false_eq_true, if_false]
  rw [hfold]
  cases account.storage[k]? with
  | some value => rfl
  | none => cases account.created <;> simp

/-- The record an account has after a change set is committed. -/
def changedInfo (changes : Changes) (a : Address) (old : AccountInfo) : AccountInfo :=
  match changes[a]? with
  | none => old
  | some account =>
      if !account.touched then old
      else if account.selfdestructed then {}
      else account.info

theorem entry_commit_info (db : CacheDb) (changes : Changes) (a : Address) :
    ((db.commit changes).entry a).info = changedInfo changes a (db.entry a).info := by
  rw [entry_commit]
  unfold changedInfo committedEntry
  cases changes[a]? with
  | none => rfl
  | some account =>
    simp only
    split
    · rfl
    · split <;> rfl

/-! ## Accounts that do not exist

Only a missing account and a destroyed one are cached as `NotExisting`, so
such an entry has the empty record, and what revm reads of an account is
the record the getters read. -/

/-- Entries cached as `NotExisting` are empty. -/
def CacheDb.Tidy (db : CacheDb) : Prop :=
  ∀ (a : Address) (acc : DbAccount),
    db.cache[a]? = some acc → acc.accountState = .notExisting → acc.info = {}

/-- The account record revm reads, the empty one for none. -/
def DbView.account (view : DbView) (a : Address) : AccountInfo := (view.basic a).getD {}

theorem CacheDb.Tidy.entry {db : CacheDb} (h : db.Tidy) {a : Address}
    (ha : (db.entry a).accountState = .notExisting) : (db.entry a).info = {} := by
  unfold CacheDb.entry at ha ⊢
  cases hc : db.cache[a]? with
  | some acc =>
    rw [hc] at ha
    exact h a acc hc ha
  | none =>
    rw [hc] at ha
    simp only [Option.getD_none, CacheDb.fetch] at ha ⊢
    split at ha
    · cases ha
    · rfl

theorem CacheDb.Tidy.view_account {db : CacheDb} (h : db.Tidy) (a : Address) :
    db.view.account a = (db.entry a).info := by
  simp only [DbView.account, CacheDb.view, DbAccount.info?]
  split
  · rename_i hne
    rw [h.entry hne]
    rfl
  · rfl

theorem tidy_new (db : VsdbStateDb) : (CacheDb.new db).Tidy := by
  intro a acc hc
  simp [CacheDb.new] at hc

theorem CacheDb.Tidy.load {db : CacheDb} (h : db.Tidy) (ld : Load) : (db.load ld).Tidy := by
  intro a acc hc hne
  rw [load_cache] at hc
  split at hc
  · obtain rfl := Option.some.inj hc
    obtain ⟨hinfo, hstate⟩ := loadedEntry_info db ld
    rw [hinfo]
    exact h.entry (hstate ▸ hne)
  · exact h a acc hc hne

theorem CacheDb.Tidy.loads {db : CacheDb} (h : db.Tidy) (lds : List Load) :
    (lds.foldl CacheDb.load db).Tidy := by
  induction lds generalizing db with
  | nil => exact h
  | cons ld lds ih => exact ih (h.load ld)

theorem CacheDb.Tidy.commit {db : CacheDb} (h : db.Tidy) (changes : Changes) :
    (db.commit changes).Tidy := by
  intro a acc hc hne
  rw [commit_cache] at hc
  split at hc
  · exact h a acc hc hne
  · unfold CacheDb.commitAccount at hc
    split at hc
    · exact h a acc hc hne
    · split at hc
      · obtain rfl := Option.some.inj hc
        rfl
      · -- a committed account is touched or cleared, never missing
        obtain rfl := Option.some.inj hc
        simp only at hne
        split at hne
        · cases hne
        · split at hne <;> cases hne

/-! ## Persisting one account -/

section Put

variable (an : CodeAnalysis) (slots : IterOrder U256 U256) (t : Tables) (a : Address)
  (info : AccountInfo) (storage : FMap U256 U256)

/-- Writing slots touches no other table. -/
theorem put_field {γ : Type} (obs : VsdbStateDb → γ)
    (h : ∀ db b i v, obs (VsdbStateDb.insertStorage db b i v) = obs db) :
    obs (t.put an slots a info storage).db = obs (t.db.insertAccount an a info) :=
  foldl_unchanged obs
    (fun db slot => VsdbStateDb.insertStorage db a slot ((storage[slot]?).getD 0))
    (fun _ _ => h _ _ _ _) _ _

@[simp] theorem put_accounts :
    (t.put an slots a info storage).db.accounts = t.db.accounts.insert a.asSlice (.fromInfo info) :=
  put_field an slots t a info storage (·.accounts) fun _ _ _ _ => rfl

@[simp] theorem put_blockHashes :
    (t.put an slots a info storage).db.blockHashes = t.db.blockHashes :=
  put_field an slots t a info storage (·.blockHashes) fun _ _ _ _ => rfl

@[simp] theorem put_trie :
    (t.put an slots a info storage).trie = t.trie.insert a.asSlice (encodeAccountLeaf info) :=
  rfl

theorem getStorage_insertStorage (db : VsdbStateDb) (b : Address) (i v k : U256) :
    (db.insertStorage b i v).getStorage a k
      = if b = a ∧ i = k then v else db.getStorage a k := by
  simp only [VsdbStateDb.getStorage, VsdbStateDb.insertStorage]
  rw [FMap.get_insert]
  simp only [storageKey_eq_iff]
  split
  · simp
  · rfl

/-- The account's slots, and nobody else's, take the given values. -/
theorem put_getStorage (a' : Address) (k : U256) :
    (t.put an slots a info storage).db.getStorage a' k
      = if a = a' then (storage[k]?).getD (t.db.getStorage a' k) else t.db.getStorage a' k := by
  have hslots := foldl_pointwise (fun (db : VsdbStateDb) k => db.getStorage a' k)
    (fun db slot => db.insertStorage a slot ((storage[slot]?).getD 0))
    (fun k old => if a = a' then (storage[k]?).getD 0 else old)
    (fun db i => by
      rw [getStorage_insertStorage]
      by_cases h : a = a' <;> simp [h])
    (fun db i i' hne => by
      rw [getStorage_insertStorage, if_neg]
      rintro ⟨-, rfl⟩
      exact hne rfl)
    (slots.order storage) (slots.nodup storage) (t.db.insertAccount an a info) k
  simp only [Tables.put]
  rw [hslots]
  by_cases h : a = a'
  · simp only [h, if_true]
    split
    · rename_i hmem
      rw [slots.mem_order] at hmem
      obtain ⟨v, hv⟩ := Option.isSome_iff_exists.mp hmem
      simp [hv]
    · rename_i hmem
      rw [slots.mem_order] at hmem
      have hnone : storage[k]? = none := by simpa using hmem
      rw [hnone]
      rfl
  · simp only [h, if_false, ite_self]
    rfl

end Put

/-! ## Flushes -/

section Flush

variable (an : CodeAnalysis) (order : FlushOrder) (st : EvmState)

@[simp] theorem flush_cache : (st.flushCacheToVsdb an order).db.cache = st.db.cache := rfl

/-- The loop of a flush, read at one field that only an account's own turn
can change. -/
theorem flush_pointwise {β : Type} (obs : Tables → Address → β)
    (g : DbAccount → β → β)
    (hself : ∀ t a acc, obs (t.put an order.slots a acc.info acc.storage) a = g acc (obs t a))
    (hother : ∀ t a (acc : DbAccount) a', a' ≠ a →
      obs (t.put an order.slots a acc.info acc.storage) a' = obs t a') (a : Address) :
    obs { db := (st.flushCacheToVsdb an order).db.db,
          trie := (st.flushCacheToVsdb an order).stateTrie } a
      = match st.db.cache[a]? with
        | some acc => g acc (obs { db := st.db.db, trie := st.stateTrie } a)
        | none => obs { db := st.db.db, trie := st.stateTrie } a := by
  have hloop := foldl_pointwise obs (flushAccount an order st.db.cache)
    (fun a old => match st.db.cache[a]? with
      | some acc => g acc old
      | none => old)
    (fun t a => by
      unfold flushAccount
      cases st.db.cache[a]? with
      | none => rfl
      | some acc => exact hself t a acc)
    (fun t a a' hne => by
      unfold flushAccount
      cases st.db.cache[a]? with
      | none => rfl
      | some acc => exact hother t a acc a' hne)
    (order.accounts.order st.db.cache) (order.accounts.nodup st.db.cache)
    { db := st.db.db, trie := st.stateTrie } a
  refine hloop.trans ?_
  split
  · rfl
  · rename_i hmem
    rw [order.accounts.mem_order] at hmem
    have hnone : st.db.cache[a]? = none := by simpa using hmem
    rw [hnone]

/-- A field that no turn of the loop changes. -/
theorem flush_unchanged {β : Type} (obs : Tables → β)
    (h : ∀ t a (acc : DbAccount), obs (t.put an order.slots a acc.info acc.storage) = obs t) :
    obs { db := (st.flushCacheToVsdb an order).db.db,
          trie := (st.flushCacheToVsdb an order).stateTrie }
      = obs { db := st.db.db, trie := st.stateTrie } := by
  refine foldl_unchanged obs (flushAccount an order st.db.cache) (fun t a => ?_) _ _
  unfold flushAccount
  split
  · exact h t a _
  · rfl

theorem flush_accounts (a : Address) :
    (st.flushCacheToVsdb an order).db.db.accounts[a.asSlice]?
      = match st.db.cache[a]? with
        | some acc => some (.fromInfo acc.info)
        | none => st.db.db.accounts[a.asSlice]? :=
  flush_pointwise an order st (fun t a => t.db.accounts[a.asSlice]?)
    (fun acc _ => some (.fromInfo acc.info))
    (fun t a acc => by simp)
    (fun t a acc a' hne => by
      rw [put_accounts, FMap.get_insert_of_ne]
      exact fun h => hne (Address.asSlice_injective h).symm) a

theorem flush_trie (a : Address) :
    (st.flushCacheToVsdb an order).stateTrie[a.asSlice]?
      = match st.db.cache[a]? with
        | some acc => some (encodeAccountLeaf acc.info)
        | none => st.stateTrie[a.asSlice]? :=
  flush_pointwise an order st (fun t a => t.trie[a.asSlice]?)
    (fun acc _ => some (encodeAccountLeaf acc.info))
    (fun t a acc => by simp)
    (fun t a acc a' hne => by
      rw [put_trie, FMap.get_insert_of_ne]
      exact fun h => hne (Address.asSlice_injective h).symm) a

/-- A key that is no address stays as it is. -/
theorem flush_trie_other {key : Bytes} (hkey : ∀ a : Address, a.asSlice ≠ key) :
    (st.flushCacheToVsdb an order).stateTrie[key]? = st.stateTrie[key]? :=
  flush_unchanged an order st (fun t => t.trie[key]?) fun t a acc => by
    rw [put_trie, FMap.get_insert_of_ne _ _ (hkey a)]

theorem flush_getStorage (a : Address) (k : U256) :
    (st.flushCacheToVsdb an order).db.db.getStorage a k
      = match st.db.cache[a]? with
        | some acc => (acc.storage[k]?).getD (st.db.db.getStorage a k)
        | none => st.db.db.getStorage a k :=
  flush_pointwise an order st (fun t a => t.db.getStorage a k)
    (fun acc old => (acc.storage[k]?).getD old)
    (fun t a acc => by rw [put_getStorage, if_pos rfl])
    (fun t a acc a' hne => by rw [put_getStorage, if_neg (Ne.symm hne)]) a

theorem flush_blockHashes :
    (st.flushCacheToVsdb an order).db.db.blockHashes = st.db.db.blockHashes :=
  flush_unchanged an order st (fun t => t.db.blockHashes) fun _ _ _ => put_blockHashes ..

/-- What a flush stores of a slot is what the node answered before it. -/
theorem flush_getStorage_eq (a : Address) (k : U256) :
    (st.flushCacheToVsdb an order).db.db.getStorage a k = st.getStorage a k := by
  rw [flush_getStorage, EvmState.getStorage]
  cases st.db.cache[a]? with
  | none => rfl
  | some acc => cases hk : acc.storage[k]? <;> simp [hk]

/-- A flush changes no nonce. -/
@[simp] theorem flush_getNonce (a : Address) :
    (st.flushCacheToVsdb an order).getNonce a = st.getNonce a := by
  simp only [EvmState.getNonce, VsdbStateDb.getNonce, flush_cache, flush_accounts]
  cases st.db.cache[a]? <;> rfl

end Flush

end Nbnet.State
