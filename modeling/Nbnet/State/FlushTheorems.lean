/-
Nbnet.State.FlushTheorems — what is visible before and after a flush.

After a flush an account can be read in three places: through the live
cache as revm does, through the getters, and through a new cache over the
store. Balances and nonces always agree. A slot can differ in one case: the
cache hides the slots of an account that was created anew or destroyed, the
store has no operation that deletes them, and a slot that is not cached is
hidden in the first place and visible in the other two
(`flush_views_agree_iff`).
-/
import Nbnet.State.GenesisTheorems
import Nbnet.State.MirrorTheorems

namespace Nbnet.State

open Lib

/-! ## Runs -/

/-- revm reads, a transaction's change set is committed, or a block ends. -/
inductive StateOp where
  | load (ld : Load)
  | commit (changes : Changes)
  | flush (order : FlushOrder)

def EvmState.apply (an : CodeAnalysis) (st : EvmState) : StateOp → EvmState
  | .load ld => { st with db := st.db.load ld }
  | .commit changes => { st with db := st.db.commit changes }
  | .flush order => st.flushCacheToVsdb an order

/-- An account without a record has no slots. -/
def VsdbStateDb.Rooted (db : VsdbStateDb) : Prop :=
  ∀ a : Address, db.accounts[a.asSlice]? = none → ∀ k, db.getStorage a k = 0

/-- What every run keeps. -/
structure EvmState.Sound (st : EvmState) : Prop where
  tidy : st.db.Tidy
  rooted : st.db.db.Rooted

theorem sound_fromGenesis (an : CodeAnalysis) (genesis : EvmGenesis) :
    (EvmState.fromGenesis an genesis).Sound := by
  refine ⟨tidy_new _, fun a ha k => ?_⟩
  rw [fromGenesis_accounts, Option.map_eq_none_iff] at ha
  rw [fromGenesis_getStorage, ha]
  rfl

theorem rooted_flush (an : CodeAnalysis) {st : EvmState} (h : st.db.db.Rooted)
    (order : FlushOrder) : (st.flushCacheToVsdb an order).db.db.Rooted := by
  intro a ha k
  rw [flush_accounts] at ha
  rw [flush_getStorage]
  cases hc : st.db.cache[a]? with
  | some acc =>
    rw [hc] at ha
    cases ha
  | none =>
    rw [hc] at ha
    exact h a ha k

theorem EvmState.Sound.flush (an : CodeAnalysis) {st : EvmState} (h : st.Sound)
    (order : FlushOrder) : (st.flushCacheToVsdb an order).Sound :=
  ⟨h.tidy, rooted_flush an h.rooted order⟩

theorem EvmState.Sound.apply (an : CodeAnalysis) {st : EvmState} (h : st.Sound) (op : StateOp) :
    (st.apply an op).Sound := by
  cases op with
  | load ld =>
    refine ⟨h.tidy.load ld, ?_⟩
    simp only [EvmState.apply, load_db]
    exact h.rooted
  | commit changes => exact ⟨h.tidy.commit changes, h.rooted⟩
  | flush order => exact h.flush an order

theorem sound_run (an : CodeAnalysis) (genesis : EvmGenesis) (ops : List StateOp) :
    (ops.foldl (EvmState.apply an) (.fromGenesis an genesis)).Sound :=
  run_invariant_all EvmState.Sound (fun _ op h => h.apply an op) ops _
    (sound_fromGenesis an genesis)

/-! ## The three views -/

/-- The getters answer as the view does, an absent account being empty. -/
structure AgreesWith (st : EvmState) (view : DbView) : Prop where
  balance : ∀ a, (view.account a).balance = st.getBalance a
  nonce : ∀ a, (view.account a).nonce = st.getNonce a
  storage : ∀ a k, view.storage a k = st.getStorage a k

/-- The live cache, the getters and a new cache over the store agree. -/
def ViewsAgree (st : EvmState) : Prop :=
  AgreesWith st st.db.view ∧ AgreesWith st (CacheDb.new st.db.db).view

/-- Where the cache hides an account's slots, the store has only zeros at
the slots that are not cached. -/
def NothingHidden (st : EvmState) : Prop :=
  ∀ (a : Address) (acc : DbAccount), st.db.cache[a]? = some acc → acc.hidesStorage = true →
    ∀ k, acc.storage[k]? = none → st.db.db.getStorage a k = 0

theorem view_balance {st : EvmState} (h : st.db.Tidy) (a : Address) :
    (st.db.view.account a).balance = st.getBalance a := by
  rw [h.view_account, getBalance_eq_entry]

theorem view_nonce {st : EvmState} (h : st.db.Tidy) (a : Address) :
    (st.db.view.account a).nonce = st.getNonce a := by
  rw [h.view_account, getNonce_eq_entry]

theorem new_uncached (db : VsdbStateDb) (a : Address) : (CacheDb.new db).cache[a]? = none := by
  simp [CacheDb.new]

/-- A new cache has the records of the store. -/
theorem new_account (db : VsdbStateDb) (a : Address) :
    ((CacheDb.new db).view.account a).record = db.recordOf a := by
  rw [(tidy_new db).view_account, entry_of_uncached (new_uncached db a), fetch_record]
  rfl

/-- An account that is not cached shows the slots the store has. -/
theorem slotOf_uncached (db : CacheDb) (h : db.db.Rooted) {a : Address}
    (hc : db.cache[a]? = none) (k : U256) : db.slotOf a k = db.db.getStorage a k := by
  unfold CacheDb.slotOf
  rw [entry_of_uncached hc, fetch_storage]
  simp only [Std.ExtTreeMap.getElem?_empty, VsdbStateDb.storageRef]
  unfold CacheDb.fetch VsdbStateDb.basicRef
  cases ha : db.db.accounts[a.asSlice]? with
  | some s => rfl
  | none => exact (h a ha k).symm

/-- A new cache over what was flushed agrees with the getters: what they
answered from the cache is in the store now. -/
theorem agreesWith_new (an : CodeAnalysis) {st : EvmState} (h : st.db.db.Rooted)
    (order : FlushOrder) : AgreesWith (st.flushCacheToVsdb an order)
      (CacheDb.new (st.flushCacheToVsdb an order).db.db).view := by
  have hsync := synced_flush an order st
  refine ⟨fun a => ?_, fun a => ?_, fun a k => ?_⟩
  · rw [getBalance_eq_entry]
    exact congrArg RefAccount.balance ((new_account _ a).trans (hsync a).symm)
  · rw [getNonce_eq_entry]
    exact congrArg RefAccount.nonce ((new_account _ a).trans (hsync a).symm)
  · have hnew : (CacheDb.new (st.flushCacheToVsdb an order).db.db).view.storage a k
        = (st.flushCacheToVsdb an order).db.db.getStorage a k :=
      slotOf_uncached (.new _) (rooted_flush an h order) (new_uncached _ a) k
    rw [hnew, EvmState.getStorage, flush_cache, flush_getStorage]
    cases st.db.cache[a]? with
    | none => rfl
    | some acc =>
      simp only [Option.bind_some]
      cases acc.storage[k]? <;> rfl

/-- Where cache and getters differ on a slot: it is hidden, not cached, and
not zero in the store. -/
theorem slotOf_eq_iff {st : EvmState} (h : st.db.db.Rooted) (a : Address) (k : U256) :
    st.db.slotOf a k = st.getStorage a k ↔
      ∀ acc, st.db.cache[a]? = some acc → acc.hidesStorage = true → acc.storage[k]? = none →
        st.db.db.getStorage a k = 0 := by
  cases hc : st.db.cache[a]? with
  | none =>
    rw [slotOf_uncached _ h hc, EvmState.getStorage, hc]
    simp
  | some acc =>
    rw [CacheDb.slotOf, EvmState.getStorage, entry_of_cached hc, hc]
    simp only [Option.bind_some, VsdbStateDb.storageRef]
    cases hk : acc.storage[k]? with
    | some value =>
      refine ⟨fun _ acc' hacc' _ hnone => ?_, fun _ => rfl⟩
      obtain rfl := Option.some.inj hacc'
      rw [hk] at hnone
      cases hnone
    | none =>
      cases hhides : acc.hidesStorage with
      | true => exact ⟨fun hzero _ _ _ _ => hzero.symm, fun hall => (hall acc rfl hhides hk).symm⟩
      | false =>
        refine ⟨fun _ acc' hacc' hhides' => ?_, fun _ => rfl⟩
        obtain rfl := Option.some.inj hacc'
        rw [hhides] at hhides'
        cases hhides'

/-- A flush leaves hidden slots as they are. -/
theorem flush_hidden (an : CodeAnalysis) {st : EvmState} (order : FlushOrder) {a : Address}
    {acc : DbAccount} (hc : st.db.cache[a]? = some acc) {k : U256} (hk : acc.storage[k]? = none) :
    (st.flushCacheToVsdb an order).db.db.getStorage a k = st.db.db.getStorage a k := by
  rw [flush_getStorage, hc]
  simp [hk]

/-- **What a flush keeps visible.** For every genesis and every run of
reads, commits and flushes, the three views agree after one more flush
exactly when, before it, no account with hidden slots has a slot that is
not cached and not zero in the store. -/
theorem flush_views_agree_iff (an : CodeAnalysis) (genesis : EvmGenesis) (ops : List StateOp)
    (order : FlushOrder) :
    ViewsAgree
        ((ops.foldl (EvmState.apply an) (.fromGenesis an genesis)).flushCacheToVsdb an order) ↔
      NothingHidden (ops.foldl (EvmState.apply an) (.fromGenesis an genesis)) := by
  have hsound := sound_run an genesis ops
  generalize ops.foldl (EvmState.apply an) (.fromGenesis an genesis) = st at hsound
  have hflushed := hsound.flush an order
  have hslot := fun a k => slotOf_eq_iff hflushed.rooted a k
  constructor
  · rintro ⟨hlive, -⟩ a acc hc hhides k hk
    rw [← flush_hidden an order hc hk]
    exact (hslot a k).mp (hlive.storage a k) acc hc hhides hk
  · intro hhidden
    refine ⟨⟨view_balance hflushed.tidy, view_nonce hflushed.tidy, fun a k => ?_⟩,
      agreesWith_new an hsound.rooted order⟩
    refine (hslot a k).mpr fun acc hc hhides hk => ?_
    rw [flush_cache] at hc
    rw [flush_hidden an order hc hk]
    exact hhidden a acc hc hhides k hk

/-! ### An account with a slot, created anew -/

/-- Alice holds one ether, and the value 5 in slot 1. -/
def slotGenesis : EvmGenesis where
  chainId := 1337
  alloc := (∅ : FMap Address GenesisAlloc).insert alice0.sender
    { balance := 1000000000000000000, storage := (∅ : FMap U256 U256).insert 1 5 }

/-- A contract is created at Alice's address; its constructor writes no
slot. -/
def recreateAlice : Changes :=
  (∅ : Changes).insert alice0.sender
    { info := { balance := 1000000000000000000, nonce := 1 }, created := true }

theorem recreated_slot_reappears :
    ¬ ViewsAgree ((([.load (.account alice0.sender), .commit recreateAlice] : List StateOp).foldl
      (EvmState.apply legacyAnalysis) (.fromGenesis legacyAnalysis slotGenesis)).flushCacheToVsdb
        legacyAnalysis ⟨.ascending, .ascending⟩) := by
  rintro ⟨hlive, -⟩
  have hslot := hlive.storage alice0.sender 1
  revert hslot
  decide +kernel

end Nbnet.State
