/-
Nbnet.Execution.ReplayTheorems — nonces on chain count up and no
transaction is executed twice.

A `History` is a node with the transactions that got a receipt, block by
block. The invariant is per sender: the nonces of its receipted
transactions are consecutive from its genesis nonce and end just below its
current one. A turn of the execution loop keeps it because a transaction
is committed only at the current nonce and revm then moves that nonce by
one. Two receipts of one hash would be two transactions of one sender with
one nonce.
-/
import Nbnet.Execution.Node
import Nbnet.State.GenesisTheorems

namespace Nbnet.Execution

open Lib State Txpool

/-! ## Assumptions on revm -/

/-- An account somebody holds a key for. -/
def IsSigner (al : Alloy) (a : Address) : Prop := ∃ e, al.recoverSigner e = .ok a

/-- A transaction that runs raises its sender's nonce by one and moves the
nonce of no other signer. -/
def Revm.RaisesNonce (revm : Revm) (al : Alloy) : Prop :=
  ∀ chainId block tx view getStake run,
    (revm.transact chainId block tx view getStake).outcome = .ok run →
      (changedInfo run.changes tx.caller (view.account tx.caller)).nonce.toNat
          = (view.account tx.caller).nonce.toNat + 1 ∧
        ∀ a, IsSigner al a → a ≠ tx.caller →
          (changedInfo run.changes a (view.account a)).nonce = (view.account a).nonce

/-! ## Histories -/

/-- A node and the transactions it has given receipts for. -/
structure History where
  node : Node
  receipted : List (List VerifiedTx) := []

def History.fromGenesis (host : Host) (genesis : EvmGenesis) : History where
  node := .fromGenesis host genesis

def History.step (host : Host) (orders : Nat → FlushOrder) (h : History) (s : NodeStep) :
    History where
  node := h.node.step host orders s
  receipted :=
    match s with
    | .executeBlock txs ctx => h.receipted ++ [receiptedIn host h.node.executor txs ctx]
    | _ => h.receipted

/-- The nonces of one sender's transactions count up from `first` and end
just below `next`. -/
def Consecutive (s : Address) (first next : UInt64) (vs : List VerifiedTx) : Prop :=
  ∃ n, (vs.filter (·.sender = s)).map (·.envelope.nonce.toNat) = List.range' first.toNat n ∧
    next.toNat = first.toNat + n

/-- What identifies a transaction in its receipt. -/
def receiptKey (r : EvmReceipt) : B256 × Address := (r.txHash, r.sender)

def txKey (v : VerifiedTx) : B256 × Address := (v.txHash, v.sender)

theorem consecutive_nil (s : Address) (first : UInt64) : Consecutive s first first [] :=
  ⟨0, by simp, by simp⟩

/-- The next transaction of the sender has its next nonce. -/
theorem Consecutive.snoc {s : Address} {first next next' : UInt64} {vs : List VerifiedTx}
    (h : Consecutive s first next vs) {v : VerifiedTx} (hs : v.sender = s)
    (hnonce : v.envelope.nonce = next) (hnext : next'.toNat = next.toNat + 1) :
    Consecutive s first next' (vs ++ [v]) := by
  obtain ⟨n, hn, hlast⟩ := h
  refine ⟨n + 1, ?_, by omega⟩
  rw [List.filter_append, List.map_append, hn, List.range'_concat]
  simp [hs, hnonce, hlast]

/-- A transaction of somebody else. -/
theorem Consecutive.snoc_other {s : Address} {first next : UInt64} {vs : List VerifiedTx}
    (h : Consecutive s first next vs) {v : VerifiedTx} (hs : v.sender ≠ s) :
    Consecutive s first next (vs ++ [v]) := by
  obtain ⟨n, hn, hlast⟩ := h
  refine ⟨n, ?_, hlast⟩
  rw [List.filter_append, List.map_append, hn]
  simp [hs]

/-! ## Nonces along the loop -/

section Loop

variable {host : Host} {config : EvmChainConfig} {ctx : BlockContext}

theorem rejected_getNonce (l : Loop) (t : Transacted) (a : Address) :
    (l.rejected t).state.getNonce a = l.state.getNonce a := by
  rw [getNonce_eq_entry, getNonce_eq_entry]
  exact congrArg _ (entry_loads_info t.loads l.state.db a)

theorem committed_getNonce (l : Loop) (i : Nat) (v : VerifiedTx) (t : Transacted)
    (run : Executed) (a : Address) :
    (l.committed host config ctx i v t run).state.getNonce a
      = (changedInfo run.changes a (l.state.db.entry a).info).nonce := by
  rw [getNonce_eq_entry]
  refine congrArg _ ((entry_commit_info _ run.changes a).trans ?_)
  rw [entry_loads_info]

/-- What the loop of a block keeps, against the receipted transactions
before it (`past`) and in it. -/
structure Progress (host : Host) (first : Address → UInt64) (past : List VerifiedTx) (l : Loop)
    (ex : List VerifiedTx) : Prop where
  tidy : l.state.db.Tidy
  keys : l.receipts.map receiptKey = ex.map txKey
  decoded : ∀ v ∈ ex, ∃ raw, decodeAndRecover host.alloy raw = .ok v
  nonces : ∀ s, IsSigner host.alloy s →
    Consecutive s (first s) (l.state.getNonce s) (past ++ ex)

variable {first : Address → UInt64} {past ex : List VerifiedTx} {l : Loop} {v : VerifiedTx}

theorem Progress.rejected (h : Progress host first past l ex) (t : Transacted) :
    Progress host first past (l.rejected t) ex where
  tidy := h.tidy.loads t.loads
  keys := h.keys
  decoded := h.decoded
  nonces s hs := by
    rw [rejected_getNonce]
    exact h.nonces s hs

/-- A committed transaction takes its sender's current nonce, which revm
then raises by one. -/
theorem Progress.committed (hrevm : host.revm.RaisesNonce host.alloy)
    (h : Progress host first past l ex) (i : Nat) {run : Executed} {raw : Bytes}
    (hdec : decodeAndRecover host.alloy raw = .ok v)
    (hnonce : v.envelope.nonce = l.state.getNonce v.sender)
    (hout : (transactTx host config ctx l v).outcome = .ok run) :
    Progress host first past
      (l.committed host config ctx i v (transactTx host config ctx l v) run) (ex ++ [v]) := by
  obtain ⟨hraise, hkeep⟩ := hrevm _ _ _ _ _ _ hout
  simp only [h.tidy.view_account] at hraise hkeep
  rw [txEnvOf_caller] at hraise hkeep
  refine ⟨(h.tidy.loads _).commit _, ?_, ?_, ?_⟩
  · simp only [Loop.committed, List.map_append, h.keys]
    rfl
  · intro v' hv'
    rcases List.mem_append.mp hv' with hv' | hv'
    · exact h.decoded v' hv'
    · rw [List.mem_singleton.mp hv']
      exact ⟨raw, hdec⟩
  · intro s hs
    rw [committed_getNonce, ← List.append_assoc]
    by_cases hvs : v.sender = s
    · subst hvs
      refine (h.nonces v.sender hs).snoc rfl hnonce ?_
      rw [hraise, getNonce_eq_entry]
    · rw [hkeep s hs (Ne.symm hvs), ← getNonce_eq_entry]
      exact (h.nonces s hs).snoc_other hvs

end Loop

/-! ## Runs -/

section Run

variable {host : Host} {orders : Nat → FlushOrder} {genesis : EvmGenesis}

/-- The nonce a genesis document gives an account. -/
def genesisNonce (genesis : EvmGenesis) (a : Address) : UInt64 :=
  ((genesis.alloc[a]?).map (·.nonce)).getD 0

theorem fromGenesis_getNonce (an : CodeAnalysis) (genesis : EvmGenesis) (a : Address) :
    (EvmState.fromGenesis an genesis).getNonce a = genesisNonce genesis a := by
  rw [getNonce_eq_entry, fromGenesis_entry, genesisNonce]
  cases genesis.alloc[a]? <;> rfl

/-- What every run keeps. -/
structure Ordered (host : Host) (first : Address → UInt64) (h : History) : Prop where
  tidy : h.node.executor.state.db.Tidy
  keys : h.node.executor.receipts.map (·.map receiptKey) = h.receipted.map (·.map txKey)
  decoded : ∀ v ∈ h.receipted.flatten, ∃ raw, decodeAndRecover host.alloy raw = .ok v
  nonces : ∀ s, IsSigner host.alloy s →
    Consecutive s (first s) (h.node.executor.state.getNonce s) h.receipted.flatten

variable {first : Address → UInt64} {h : History}

/-- The loop of a block from an ordered history. -/
theorem Ordered.runBlock (hrevm : host.revm.RaisesNonce host.alloy) (ho : Ordered host first h)
    (txs : List Bytes) (ctx : BlockContext) :
    Progress host first h.receipted.flatten (runBlock host h.node.executor txs ctx).1
      (receiptedIn host h.node.executor txs ctx) := by
  have hstart : Progress host first h.receipted.flatten
      { state := startBlock h.node.executor.state ctx, staking := h.node.executor.staking } [] :=
    { tidy := by
        intro a acc hc
        exact ho.tidy a acc (startBlock_cache h.node.executor.state ctx ▸ hc)
      keys := rfl
      decoded := by simp
      nonces := fun s hs => by
        rw [List.append_nil, startBlock_getNonce]
        exact ho.nonces s hs }
  refine executeLoop_induct (motive := Progress host first h.receipted.flatten) _ 0 hstart ?_ ?_
  · intro l ex v err _ hl _ _
    exact hl.rejected _
  · intro l ex i v run hv hl hnonce hout
    exact hl.committed hrevm i (mem_decodeAll hv).2 hnonce hout

/-- One step keeps the history ordered. -/
theorem Ordered.step (hrevm : host.revm.RaisesNonce host.alloy) (ho : Ordered host first h)
    (s : NodeStep) : Ordered host first (h.step host orders s) := by
  cases s with
  | executeBlock txs ctx =>
    have hp := ho.runBlock hrevm txs ctx
    exact
      { tidy := hp.tidy
        keys := by
          simp only [History.step, Node.step, EvmExecutor.executeBlock, List.map_append,
            List.map_cons, List.map_nil, ho.keys, hp.keys]
        decoded := by
          intro v hv
          simp only [History.step, List.flatten_append, List.mem_append, List.flatten_cons,
            List.flatten_nil, List.append_nil] at hv
          exact hv.elim (ho.decoded v) (hp.decoded v)
        nonces := by
          intro a ha
          have hn := hp.nonces a ha
          simp only [History.step, Node.step, EvmExecutor.executeBlock, flush_getNonce,
            List.flatten_append, List.flatten_cons, List.flatten_nil, List.append_nil]
          exact hn }
  | onCommit it ctx => exact ⟨ho.tidy, ho.keys, ho.decoded, ho.nonces⟩
  | createPayload it => exact ⟨ho.tidy, ho.keys, ho.decoded, ho.nonces⟩
  | submitRawTx raw => exact ⟨ho.tidy, ho.keys, ho.decoded, ho.nonces⟩
  | ethCall req =>
    refine ⟨ho.tidy.loads _, ho.keys, ho.decoded, fun a ha => ?_⟩
    have hsame : (h.node.executor.ethCall host req).2.state.getNonce a
        = h.node.executor.state.getNonce a := by
      rw [getNonce_eq_entry, getNonce_eq_entry]
      exact congrArg _ (entry_loads_info _ h.node.executor.state.db a)
    simp only [History.step, Node.step]
    rw [hsame]
    exact ho.nonces a ha

theorem ordered_run (hrevm : host.revm.RaisesNonce host.alloy) (orders : Nat → FlushOrder)
    (genesis : EvmGenesis) (steps : List NodeStep) :
    Ordered host (genesisNonce genesis)
      (steps.foldl (History.step host orders) (.fromGenesis host genesis)) := by
  refine run_invariant_all (Ordered host (genesisNonce genesis))
    (fun h s ho => ho.step hrevm s) steps _ ?_
  refine ⟨tidy_new _, rfl, by simp [History.fromGenesis], fun s _ => ?_⟩
  have hgen : (History.fromGenesis host genesis).node.executor.state.getNonce s
      = genesisNonce genesis s :=
    fromGenesis_getNonce host.analysis genesis s
  rw [hgen]
  exact consecutive_nil s _

/-! ## No replay -/

/-- A sender's nonces are consecutive, so no two of its transactions share
one. -/
theorem Consecutive.nodup {s : Address} {first next : UInt64} {vs : List VerifiedTx}
    (h : Consecutive s first next vs) :
    ((vs.filter (·.sender = s)).map (·.envelope.nonce)).Nodup := by
  obtain ⟨n, hn, -⟩ := h
  refine List.Nodup.of_map UInt64.toNat ?_
  rw [List.map_map]
  exact hn ▸ List.nodup_range'

/-- Where no sender repeats a nonce, no two transactions have the same
sender and nonce. -/
theorem pairwise_of_sender_nodup {vs : List VerifiedTx}
    (h : ∀ v ∈ vs, ((vs.filter (·.sender = v.sender)).map (·.envelope.nonce)).Nodup) :
    vs.Pairwise fun v v' => ¬ (v.sender = v'.sender ∧ v.envelope.nonce = v'.envelope.nonce) := by
  induction vs with
  | nil => exact .nil
  | cons v vs ih =>
    refine List.pairwise_cons.mpr ⟨?_, ih fun v' hv' => ?_⟩
    · rintro v' hv' ⟨hs, hn⟩
      have hv := h v (List.mem_cons_self ..)
      rw [List.filter_cons_of_pos (by simp), List.map_cons, List.nodup_cons] at hv
      refine hv.1 (hn ▸ List.mem_map_of_mem (List.mem_filter.mpr ⟨hv', ?_⟩))
      simpa using hs.symm
    · refine (h v' (List.mem_cons_of_mem v hv')).sublist ?_
      exact (List.Sublist.filter _ (List.sublist_cons_self v vs)).map _

/-- The hashes of the receipts are those of the receipted transactions. -/
theorem Ordered.txHashes (ho : Ordered host first h) :
    h.node.executor.receipts.flatten.map (·.txHash) = h.receipted.flatten.map (·.txHash) := by
  have hkeys := congrArg (fun ls => ls.flatten.map Prod.fst) ho.keys
  simp only [← List.map_flatten, List.map_map] at hkeys
  exact hkeys

theorem Ordered.isSigner (ho : Ordered host first h) {v : VerifiedTx}
    (hv : v ∈ h.receipted.flatten) : IsSigner host.alloy v.sender := by
  obtain ⟨raw, hdec⟩ := ho.decoded v hv
  exact ⟨v.envelope, (decodeAndRecover_ok hdec).2.1⟩

theorem Ordered.nodup (hhash : HashDetermines host.alloy) (ho : Ordered host first h) :
    (h.node.executor.receipts.flatten.map (·.txHash)).Nodup := by
  rw [ho.txHashes]
  have hpairs := pairwise_of_sender_nodup fun v hv => (ho.nonces v.sender (ho.isSigner hv)).nodup
  refine List.pairwise_map.mpr (hpairs.imp_of_mem ?_)
  intro v v' hv hv' hne heq
  obtain ⟨raw, hdec⟩ := ho.decoded v hv
  obtain ⟨raw', hdec'⟩ := ho.decoded v' hv'
  exact hne (hhash.eq_sender hdec hdec' heq)

/-- Where no hash occurs twice, a lookup finds the receipt that has it. -/
theorem getReceiptByTxHash_of_nodup {e : EvmExecutor}
    (hnodup : (e.receipts.flatten.map (·.txHash)).Nodup) {r : EvmReceipt}
    (hr : r ∈ e.receipts.flatten) : e.getReceiptByTxHash r.txHash = some r := by
  obtain ⟨block, hblock, hrb⟩ := List.mem_flatten.mp hr
  unfold EvmExecutor.getReceiptByTxHash
  cases hfind : e.receipts.reverse.findSome? fun block => block.find? (·.txHash = r.txHash) with
  | none =>
    have hnone := List.findSome?_eq_none_iff.mp hfind block (List.mem_reverse.mpr hblock)
    simpa using List.find?_eq_none.mp hnone r hrb
  | some r' =>
    obtain ⟨block', hblock', hr'⟩ := List.exists_of_findSome?_eq_some hfind
    have hmem : r' ∈ e.receipts.flatten :=
      List.mem_flatten.mpr ⟨block', List.mem_reverse.mp hblock', List.mem_of_find?_eq_some hr'⟩
    have hhash : r'.txHash = r.txHash := by simpa using List.find?_some hr'
    rw [List.inj_on_of_nodup_map hnodup hmem hr hhash]

/-- Where no hash occurs twice, a lookup finds exactly the receipt that has
it. -/
theorem getReceiptByTxHash_eq_some_iff {e : EvmExecutor}
    (hnodup : (e.receipts.flatten.map (·.txHash)).Nodup) {txHash : B256} {r : EvmReceipt} :
    e.getReceiptByTxHash txHash = some r ↔ r ∈ e.receipts.flatten ∧ r.txHash = txHash := by
  constructor
  · intro hr
    obtain ⟨block, hblock, hfind⟩ := List.exists_of_findSome?_eq_some hr
    have hmem : r ∈ e.receipts.flatten :=
      List.mem_flatten.mpr ⟨block, List.mem_reverse.mp hblock, List.mem_of_find?_eq_some hfind⟩
    exact ⟨hmem, by simpa using List.find?_some hfind⟩
  · intro ⟨hr, heq⟩
    rw [← heq]
    exact getReceiptByTxHash_of_nodup hnodup hr

/-- The node of a history is the node of the run. -/
theorem history_node (steps : List NodeStep) (h : History) :
    (steps.foldl (History.step host orders) h).node
      = steps.foldl (Node.step host orders) h.node := by
  induction steps generalizing h with
  | nil => rfl
  | cons s steps ih => exact ih (h.step host orders s)

/-- The run of a node has an ordered history. -/
theorem exists_ordered (hrevm : host.revm.RaisesNonce host.alloy) (orders : Nat → FlushOrder)
    (genesis : EvmGenesis) (steps : List NodeStep) :
    ∃ h : History, h.node = steps.foldl (Node.step host orders) (.fromGenesis host genesis) ∧
      Ordered host (genesisNonce genesis) h :=
  ⟨_, history_node steps (.fromGenesis host genesis), ordered_run hrevm orders genesis steps⟩

/-- The receipts of a sender are as many as its receipted transactions. -/
theorem Ordered.count_sender (ho : Ordered host first h) (s : Address) :
    (h.node.executor.receipts.flatten.filter (·.sender = s)).length
      = (h.receipted.flatten.filter (·.sender = s)).length := by
  have hkeys := congrArg (fun ls => ls.flatten.map Prod.snd) ho.keys
  simp only [← List.map_flatten, List.map_map] at hkeys
  have hcount := congrArg (List.countP (· = s)) hkeys
  rw [List.countP_map, List.countP_map] at hcount
  simpa [List.countP_eq_length_filter, Function.comp_def, receiptKey, txKey] using hcount

/-- **No replay.** After every run from every genesis, whatever the blocks
hold: the receipts are those of `receipted`, block by block and in order;
each signer's receipted nonces are consecutive from its genesis nonce to
just below its current one; no hash occurs in two receipts, and a lookup
by hash has one candidate. -/
theorem receipts_replay_free (host : Host) (orders : Nat → FlushOrder) (genesis : EvmGenesis)
    (hhash : HashDetermines host.alloy) (hrevm : host.revm.RaisesNonce host.alloy)
    (steps : List NodeStep) :
    let h := steps.foldl (History.step host orders) (.fromGenesis host genesis)
    let e := h.node.executor
    e.receipts.map (·.map receiptKey) = h.receipted.map (·.map txKey) ∧
      (∀ v ∈ h.receipted.flatten, IsSigner host.alloy v.sender) ∧
      (∀ s, IsSigner host.alloy s →
        Consecutive s (genesisNonce genesis s) (e.state.getNonce s) h.receipted.flatten) ∧
      (e.receipts.flatten.map (·.txHash)).Nodup ∧
      (∀ txHash, (e.receipts.flatten.filter (·.txHash = txHash)).length ≤ 1) ∧
      ∀ r ∈ e.receipts.flatten, e.getReceiptByTxHash r.txHash = some r := by
  intro h e
  have ho : Ordered host (genesisNonce genesis) h := ordered_run hrevm orders genesis steps
  have hnodup := ho.nodup hhash
  refine ⟨ho.keys, fun v hv => ho.isSigner hv, ho.nonces, hnodup, fun txHash => ?_, fun r hr =>
    getReceiptByTxHash_of_nodup hnodup hr⟩
  have hcount := List.nodup_iff_count_le_one.mp hnodup txHash
  rw [List.count_eq_countP, List.countP_map, List.countP_eq_length_filter] at hcount
  simpa [Function.comp_def, beq_eq_decide] using hcount

end Run

/-! ### Two of Alice's transactions, offered more than once -/

theorem transferRevm_raisesNonce (al : Alloy) : transferRevm.RaisesNonce al := by
  intro chainId block tx view getStake run hout
  obtain ⟨recipient, -, ⟨hnonce, hmax, -⟩, rfl⟩ := transferRevm_ok hout
  simp only [changedInfo_transferChanges]
  constructor
  · rw [if_pos (List.mem_cons_self ..)]
    simp only [transferred, if_true]
    rw [hnonce] at hmax
    exact toNat_succ64 _ hmax
  · intro a _ hne
    split
    · simp only [transferred, if_neg hne]
    · rfl

/-- Two blocks that offer the nonces out of order, twice and with noise. -/
def replayedBlocks : List NodeStep :=
  [.executeBlock [alice1.raw, alice0.raw, [0xff], alice0.raw] block1,
    .executeBlock [alice0.raw, alice1.raw, alice1Cheap.raw, alice1.raw] block2]

def replayedHistory : History :=
  replayedBlocks.foldl (History.step sampleHost ascendingFlush)
    (.fromGenesis sampleHost aliceGenesis)

theorem receipts_replay_free_alice :
    HashDetermines sampleHost.alloy ∧ sampleHost.revm.RaisesNonce sampleHost.alloy ∧
      replayedHistory.node.executor.receipts.map (·.map (·.txHash))
        = [[alice0.txHash], [alice1.txHash]] ∧
      Consecutive alice0.sender 0 2 replayedHistory.receipted.flatten ∧
      (replayedHistory.node.executor.receipts.flatten.map (·.txHash)).Nodup := by
  have hsigner : IsSigner sampleHost.alloy alice0.sender := ⟨alice0.envelope, by decide +kernel⟩
  obtain ⟨-, -, hnonces, hnodup, -⟩ := receipts_replay_free sampleHost ascendingFlush aliceGenesis
    hashDetermines_sampleAlloy (transferRevm_raisesNonce _) replayedBlocks
  refine ⟨hashDetermines_sampleAlloy, transferRevm_raisesNonce _, by decide +kernel, ?_, hnodup⟩
  have hfirst : genesisNonce aliceGenesis alice0.sender = 0 := by decide +kernel
  have hnext : replayedHistory.node.executor.state.getNonce alice0.sender = 2 := by
    decide +kernel
  have hcons := hnonces alice0.sender hsigner
  rwa [hfirst, show (List.foldl (History.step sampleHost ascendingFlush)
    (History.fromGenesis sampleHost aliceGenesis) replayedBlocks).node.executor.state.getNonce
      alice0.sender = 2 from hnext] at hcons

end Nbnet.Execution
