/-
Nbnet.State.SetterTheorems — the setters of the world state.

`set_nonce` and `set_balance` write a cache entry, a store record and a
trie leaf. The store's record keeps its other fields. The cache entry of an
account that is not cached is not read from the store but made up from the
default record, and the getters ask the cache first: the account's other
field reads as zero from then on, and its code, of which the store has
none, as the one `STOP` of the default bytecode. So a setter changes one
field exactly when the account is cached
(`setters_change_one_field_iff`).
-/
import Nbnet.State.FlushTheorems

namespace Nbnet.State

open Lib

/-! ## The store's setters -/

/-- The stores differ in the record of one account, and not in its code. -/
structure ChangesRecord (db db' : VsdbStateDb) (a : Address) : Prop where
  basicRef : ∀ b, b ≠ a → db'.basicRef b = db.basicRef b
  getCode : ∀ b, db'.getCode b = db.getCode b
  getStorage : ∀ b k, db'.getStorage b k = db.getStorage b k

/-- A new record has no code. -/
theorem zero_codeOfHash (db : VsdbStateDb) :
    db.codeOfHash (ofWordBytes 256 StoredAccount.zero.codeHash.val) = none := by
  have hhash : ofWordBytes 256 StoredAccount.zero.codeHash.val = keccakEmpty :=
    ofWordBytes_codeHash keccakEmpty
  rw [VsdbStateDb.codeOfHash, if_pos hhash]

/-- What both setters do: they change a field of the record, or of a new
one. -/
theorem changesRecord_insert (db : VsdbStateDb) (a : Address)
    (set : StoredAccount → StoredAccount) (hset : ∀ s, (set s).codeHash = s.codeHash) :
    ChangesRecord db
      { db with
        accounts := db.accounts.insert a.asSlice
          (set ((db.accounts[a.asSlice]?).getD .zero)) } a := by
  refine ⟨fun b hba => ?_, fun b => ?_, fun b k => rfl⟩
  · have hkey : ¬ a.asSlice = b.asSlice := fun hkey => hba (Address.asSlice_injective hkey).symm
    simp only [VsdbStateDb.basicRef, FMap.get_insert, if_neg hkey]
    rfl
  · simp only [VsdbStateDb.getCode, FMap.get_insert]
    by_cases hkey : a.asSlice = b.asSlice
    · rw [if_pos hkey, hkey, Option.bind_some, hset]
      cases db.accounts[b.asSlice]? with
      | none => exact congrArg (Option.getD · []) (zero_codeOfHash db)
      | some s => rfl
    · rw [if_neg hkey]
      rfl

theorem changesRecord_setNonce (db : VsdbStateDb) (a : Address) (nonce : UInt64) :
    ChangesRecord db (db.setNonce a nonce) a :=
  changesRecord_insert db a (fun s => { s with nonce }) fun _ => rfl

theorem changesRecord_setBalance (db : VsdbStateDb) (a : Address) (balance : U256) :
    ChangesRecord db (db.setBalance a balance) a :=
  changesRecord_insert db a (fun s => { s with balanceBe := U256.toBeBytes balance }) fun _ => rfl

/-! ## The state's setters -/

/-- Of everything the getters answer only nonce and balance of `a` may have
changed, to the given values, and the leaf of `a` says so. -/
structure ChangesOnly (an : CodeAnalysis) (st st' : EvmState) (a : Address) (nonce : UInt64)
    (balance : U256) : Prop where
  getNonce : ∀ b, st'.getNonce b = if b = a then nonce else st.getNonce b
  getBalance : ∀ b, st'.getBalance b = if b = a then balance else st.getBalance b
  getCode : ∀ b, st'.getCode an b = st.getCode an b
  getStorage : ∀ b k, st'.getStorage b k = st.getStorage b k
  leaf : st'.stateTrie[a.asSlice]?
    = some (encodeAccountLeaf { nonce, balance, codeHash := (st'.db.entry a).info.codeHash })

section SetInfo

variable (an : CodeAnalysis) (st : EvmState) {a : Address} (info : AccountInfo)
  {store : VsdbStateDb}

theorem setInfo_cache (b : Address) :
    (st.setInfo a info store).db.cache[b]?
      = if a = b then some { (st.db.cache[a]?).getD {} with info } else st.db.cache[b]? := by
  simp only [EvmState.setInfo, FMap.get_insert]

/-- The account has the record that was set, the others have theirs. -/
theorem setInfo_entry (h : ChangesRecord st.db.db store a) (b : Address) :
    ((st.setInfo a info store).db.entry b).info
      = if b = a then info else (st.db.entry b).info := by
  by_cases hba : b = a
  · subst hba
    rw [CacheDb.entry, setInfo_cache, if_pos rfl, if_pos rfl]
    rfl
  · rw [if_neg hba]
    simp only [CacheDb.entry]
    rw [setInfo_cache, if_neg (Ne.symm hba)]
    cases st.db.cache[b]? with
    | some acc => rfl
    | none =>
      simp only [Option.getD_none, CacheDb.fetch, EvmState.setInfo, h.basicRef b hba]

theorem setInfo_getCode (h : ChangesRecord st.db.db store a) (b : Address) :
    (st.setInfo a info store).getCode an b
      = if b = a then (info.code.map an.bytesSlice).getD (st.db.db.getCode a)
        else st.getCode an b := by
  unfold EvmState.getCode
  rw [setInfo_cache]
  by_cases hba : b = a
  · subst hba
    simp only [if_true, Option.bind_some]
    cases info.code with
    | none => exact h.getCode b
    | some code => rfl
  · rw [if_neg (Ne.symm hba), if_neg hba]
    cases (st.db.cache[b]?).bind (·.info.code) with
    | none => exact h.getCode b
    | some code => rfl

/-- Slots are never lost: a made up entry has none and hides none from the
getter. -/
theorem setInfo_getStorage (h : ChangesRecord st.db.db store a) (b : Address) (k : U256) :
    (st.setInfo a info store).getStorage b k = st.getStorage b k := by
  have hstore : (st.setInfo a info store).db.db.getStorage b k = st.db.db.getStorage b k :=
    h.getStorage b k
  unfold EvmState.getStorage
  rw [setInfo_cache, hstore]
  by_cases hba : a = b
  · subst hba
    rw [if_pos rfl]
    cases st.db.cache[a]? with
    | none => simp
    | some acc => rfl
  · rw [if_neg hba]

/-- What a setter leaves, whichever field it set. -/
theorem changesOnly_setInfo_iff (h : ChangesRecord st.db.db store a) (nonce : UInt64)
    (balance : U256) :
    ChangesOnly an st (st.setInfo a info store) a nonce balance ↔
      info.nonce = nonce ∧ info.balance = balance ∧
        (info.code.map an.bytesSlice).getD (st.db.db.getCode a) = st.getCode an a := by
  have hentry := setInfo_entry st info h
  have hn : ∀ b, (st.setInfo a info store).getNonce b
      = if b = a then info.nonce else st.getNonce b := by
    intro b
    rw [getNonce_eq_entry, hentry, getNonce_eq_entry]
    split <;> rfl
  have hb : ∀ b, (st.setInfo a info store).getBalance b
      = if b = a then info.balance else st.getBalance b := by
    intro b
    rw [getBalance_eq_entry, hentry, getBalance_eq_entry]
    split <;> rfl
  have hc := setInfo_getCode an st info h
  constructor
  · intro hchanges
    refine ⟨?_, ?_, ?_⟩
    · simpa [hn] using hchanges.getNonce a
    · simpa [hb] using hchanges.getBalance a
    · simpa [hc] using hchanges.getCode a
  · rintro ⟨rfl, rfl, hcode⟩
    refine ⟨hn, hb, fun b => ?_, setInfo_getStorage st info h, ?_⟩
    · rw [hc]
      split
      · subst b
        exact hcode
      · rfl
    · rw [hentry, if_pos rfl]
      simp only [EvmState.setInfo, FMap.get_insert, if_true]
      rfl

end SetInfo

/-! ## The entry a setter starts from

It is the cached one, or a made up default one, which never has what the
account has: its code is a `STOP`, the account's is nothing. -/

section Start

variable (an : CodeAnalysis) {st : EvmState} {a : Address}

theorem start_of_cached (h : (st.db.cache[a]?).isSome) :
    ((st.db.cache[a]?).getD {}).info.nonce = st.getNonce a ∧
      ((st.db.cache[a]?).getD {}).info.balance = st.getBalance a ∧
      (((st.db.cache[a]?).getD {}).info.code.map an.bytesSlice).getD (st.db.db.getCode a)
        = st.getCode an a := by
  obtain ⟨acc, hacc⟩ := Option.isSome_iff_exists.mp h
  unfold EvmState.getNonce EvmState.getBalance EvmState.getCode
  rw [hacc]
  refine ⟨rfl, rfl, ?_⟩
  simp only [Option.getD_some, Option.bind_some]
  cases acc.info.code <;> rfl

theorem start_code_iff (h : st.db.Codeless) :
    (((st.db.cache[a]?).getD {}).info.code.map an.bytesSlice).getD (st.db.db.getCode a)
        = st.getCode an a ↔ (st.db.cache[a]?).isSome := by
  refine ⟨fun hcode => ?_, fun hcached => (start_of_cached an hcached).2.2⟩
  cases hc : st.db.cache[a]? with
  | some acc => rfl
  | none =>
    rw [h.getCode an hc, hc] at hcode
    simp [an.bytesSlice_nil] at hcode

end Start

/-! ## Runs -/

/-- A call that changes the state: a setter's, or one of a node's. -/
inductive SetterOp where
  | setNonce (addr : Address) (nonce : UInt64)
  | setBalance (addr : Address) (balance : U256)
  | node (op : StateOp)

def EvmState.applySetter (an : CodeAnalysis) (st : EvmState) : SetterOp → EvmState
  | .setNonce addr nonce => st.setNonce addr nonce
  | .setBalance addr balance => st.setBalance addr balance
  | .node op => st.apply an op

/-- Storing under one account's key leaves the other records alone. -/
theorem codeless_setInfo {st : EvmState} (h : st.db.Codeless) (a : Address) (info : AccountInfo)
    (s : StoredAccount) (store : VsdbStateDb)
    (hstore : store.accounts = st.db.db.accounts.insert a.asSlice s) :
    (st.setInfo a info store).db.Codeless := by
  refine h.mono fun b hc => ?_
  rw [setInfo_cache] at hc
  split at hc
  · cases hc
  · rename_i hne
    refine ⟨hc, ?_⟩
    simp only [EvmState.setInfo, hstore]
    exact FMap.get_insert_of_ne _ _ fun hkey => hne (Address.asSlice_injective hkey)

theorem codeless_applySetter (an : CodeAnalysis) {st : EvmState} (h : st.db.Codeless)
    (op : SetterOp) : (st.applySetter an op).db.Codeless := by
  cases op with
  | setNonce a nonce => exact codeless_setInfo h a _ _ _ rfl
  | setBalance a balance => exact codeless_setInfo h a _ _ _ rfl
  | node op =>
    cases op with
    | load ld => exact h.load ld
    | commit changes => exact h.commit changes
    | flush order => exact h.flush an order

theorem codeless_run (an : CodeAnalysis) (genesis : EvmGenesis) (ops : List SetterOp) :
    (ops.foldl (EvmState.applySetter an) (.fromGenesis an genesis)).db.Codeless :=
  run_invariant_all (fun st : EvmState => st.db.Codeless)
    (fun _ op h => codeless_applySetter an h op) ops _ (codeless_fromGenesis an genesis)

theorem setNonce_changesOnly_iff (an : CodeAnalysis) {st : EvmState} (h : st.db.Codeless)
    (a : Address) (nonce : UInt64) :
    ChangesOnly an st (st.setNonce a nonce) a nonce (st.getBalance a) ↔
      (st.db.cache[a]?).isSome := by
  unfold EvmState.setNonce
  rw [changesOnly_setInfo_iff an st _ (changesRecord_setNonce st.db.db a nonce),
    start_code_iff an h]
  exact ⟨fun hchanges => hchanges.2.2, fun hc => ⟨rfl, (start_of_cached an hc).2.1, hc⟩⟩

theorem setBalance_changesOnly_iff (an : CodeAnalysis) {st : EvmState} (h : st.db.Codeless)
    (a : Address) (balance : U256) :
    ChangesOnly an st (st.setBalance a balance) a (st.getNonce a) balance ↔
      (st.db.cache[a]?).isSome := by
  unfold EvmState.setBalance
  rw [changesOnly_setInfo_iff an st _ (changesRecord_setBalance st.db.db a balance),
    start_code_iff an h]
  exact ⟨fun hchanges => hchanges.2.2, fun hc => ⟨(start_of_cached an hc).1, rfl, hc⟩⟩

/-- **When a setter changes one field.** For every genesis and every run of
setters, reads, commits and flushes: `set_nonce` changes the nonce alone,
and `set_balance` the balance alone, exactly when the account is cached. -/
theorem setters_change_one_field_iff (an : CodeAnalysis) (genesis : EvmGenesis)
    (ops : List SetterOp) (a : Address) (nonce : UInt64) (balance : U256) :
    let st := ops.foldl (EvmState.applySetter an) (.fromGenesis an genesis)
    (ChangesOnly an st (st.setNonce a nonce) a nonce (st.getBalance a) ↔
      (st.db.cache[a]?).isSome) ∧
    (ChangesOnly an st (st.setBalance a balance) a (st.getNonce a) balance ↔
      (st.db.cache[a]?).isSome) :=
  ⟨setNonce_changesOnly_iff an (codeless_run an genesis ops) a nonce,
    setBalance_changesOnly_iff an (codeless_run an genesis ops) a balance⟩

/-- Alice's ether is in the store alone; after `set_nonce` it reads as
zero. -/
theorem setNonce_loses_balance :
    ¬ ChangesOnly legacyAnalysis (.fromGenesis legacyAnalysis slotGenesis)
      ((EvmState.fromGenesis legacyAnalysis slotGenesis).setNonce alice0.sender 1) alice0.sender 1
      ((EvmState.fromGenesis legacyAnalysis slotGenesis).getBalance alice0.sender) := by
  intro h
  have hbalance := h.getBalance alice0.sender
  revert hbalance
  decide +kernel

end Nbnet.State
