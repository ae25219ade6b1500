/-
Nbnet.Execution.IndexTheorems — where a receipt says its transaction is.

`execute_block` decodes the byte strings of a block in one loop, dropping
those that do not decode, and executes what is left in a second one. The
index in a receipt counts the decoded list. It is the index in the block
as long as nothing was dropped in front (`receipts_located_iff`).
-/
import Nbnet.Execution.ReceiptTheorems
import Nbnet.State.GenesisTheorems

namespace Nbnet.Execution

open Lib State Txpool

/-! ## The receipts of a loop -/

/-- Receipts of transactions of `vs`, the first of which has index `i`. -/
structure Numbered (ctx : BlockContext) (vs : List VerifiedTx) (i : Nat)
    (rs : List EvmReceipt) : Prop where
  indexed : ∀ r ∈ rs, ∃ k v, vs[k]? = some v ∧ r.txIndex = i + k ∧ r.txHash = v.txHash
  increasing : rs.Pairwise fun a b => a.txIndex < b.txIndex
  number : ∀ r ∈ rs, r.blockNumber = ctx.height

section Loop

variable {host : Host} {config : EvmChainConfig} {ctx : BlockContext} {vs : List VerifiedTx}
  {i : Nat} {rs : List EvmReceipt}

/-- A transaction without a receipt only shifts the others. -/
theorem Numbered.skip (h : Numbered ctx vs (i + 1) rs) (v : VerifiedTx) :
    Numbered ctx (v :: vs) i rs := by
  refine ⟨fun r hr => ?_, h.increasing, h.number⟩
  obtain ⟨k, w, hw, hindex, hhash⟩ := h.indexed r hr
  exact ⟨k + 1, w, hw, by omega, hhash⟩

/-- A receipt for the first transaction. -/
theorem Numbered.receipt (h : Numbered ctx vs (i + 1) rs) (v : VerifiedTx) (used : UInt64)
    (result : ExecutionResult) :
    Numbered ctx (v :: vs) i (receiptOf host config ctx i v used result :: rs) := by
  have hrest := h.skip v
  refine ⟨fun r hr => ?_, List.pairwise_cons.mpr ⟨fun r hr => ?_, h.increasing⟩, fun r hr => ?_⟩
  · rcases List.mem_cons.mp hr with rfl | hr
    · exact ⟨0, v, rfl, rfl, rfl⟩
    · exact hrest.indexed r hr
  · obtain ⟨k, -, -, hindex, -⟩ := h.indexed r hr
    have : i < r.txIndex := by omega
    exact this
  · rcases List.mem_cons.mp hr with rfl | hr
    · rfl
    · exact h.number r hr

variable (host config ctx) in
theorem numbered_executions (vs : List VerifiedTx) (i : Nat) (l : Loop) :
    Numbered ctx vs i ((executions host config ctx i l vs).map ReceiptedTx.receipt) := by
  induction vs generalizing i l with
  | nil => exact ⟨by simp [executions], .nil, by simp [executions]⟩
  | cons v vs ih =>
    rcases executeTx_cases host config ctx l i v with
      ⟨-, heq⟩ | ⟨-, ⟨-, heq⟩ | ⟨-, ⟨err, -, heq⟩ | ⟨run, hout, heq⟩⟩⟩
    · simp only [executions, heq]
      exact (ih (i + 1) l).skip v
    · simp only [executions, heq, List.map_nil]
      exact ⟨by simp, .nil, by simp⟩
    · simp only [executions, heq]
      exact (ih (i + 1) _).skip v
    · simp only [executions, heq, hout, List.map_cons]
      exact (ih (i + 1) _).receipt v _ _

/-- The receipts of a block. -/
theorem numbered_runBlock (host : Host) (e : EvmExecutor) (txs : List Bytes)
    (ctx : BlockContext) :
    Numbered ctx (decodeAll host txs) 0 (runBlock host e txs ctx).1.receipts := by
  have hreceipts : (runBlock host e txs ctx).1.receipts
      = (executionsIn host e txs ctx).map ReceiptedTx.receipt := executions_receipts _ 0 _
  rw [hreceipts]
  exact numbered_executions host e.config ctx _ 0 _

end Loop

/-! ## Decoded transactions and their places -/

/-- The codec accepts a byte string. -/
def Decodes (al : Alloy) (raw : Bytes) : Prop := ∃ v, decodeAndRecover al raw = .ok v

/-- Nothing that decodes stands behind something that does not. -/
def DecodableFirst (al : Alloy) (txs : List Bytes) : Prop :=
  txs.Pairwise fun a b => Decodes al b → Decodes al a

section Places

variable {host : Host}

theorem decodeAll_cons_ok {raw : Bytes} {v : VerifiedTx} (txs : List Bytes)
    (h : decodeAndRecover host.alloy raw = .ok v) :
    decodeAll host (raw :: txs) = v :: decodeAll host txs := by
  simp [decodeAll, h]

theorem decodeAll_cons_error {raw : Bytes} (txs : List Bytes) (h : ¬ Decodes host.alloy raw) :
    decodeAll host (raw :: txs) = decodeAll host txs := by
  cases hdec : decodeAndRecover host.alloy raw with
  | ok v => exact absurd ⟨v, hdec⟩ h
  | error e => simp [decodeAll, hdec]

theorem decodeAll_eq_nil_iff (txs : List Bytes) :
    decodeAll host txs = [] ↔ ∀ raw ∈ txs, ¬ Decodes host.alloy raw := by
  induction txs with
  | nil => simp [decodeAll]
  | cons raw txs ih =>
    by_cases h : Decodes host.alloy raw
    · obtain ⟨v, hv⟩ := h
      rw [decodeAll_cons_ok txs hv]
      simp only [reduceCtorEq, false_iff]
      exact fun hall => hall raw (List.mem_cons_self ..) ⟨v, hv⟩
    · rw [decodeAll_cons_error txs h, ih]
      simp [h]

/-- Where nothing is dropped in front, a decoded transaction has the index
of its bytes. -/
theorem getElem?_decodeAll {txs : List Bytes} (h : DecodableFirst host.alloy txs) {k : Nat}
    {v : VerifiedTx} (hk : (decodeAll host txs)[k]? = some v) :
    ∃ raw, txs[k]? = some raw ∧ decodeAndRecover host.alloy raw = .ok v := by
  induction txs generalizing k with
  | nil => simp [decodeAll] at hk
  | cons raw txs ih =>
    obtain ⟨hhead, htail⟩ := List.pairwise_cons.mp h
    by_cases hraw : Decodes host.alloy raw
    · obtain ⟨w, hw⟩ := hraw
      rw [decodeAll_cons_ok txs hw] at hk
      cases k with
      | zero =>
        obtain rfl : w = v := by simpa using hk
        exact ⟨raw, rfl, hw⟩
      | succ k => exact ih htail (by simpa using hk)
    · -- nothing behind `raw` decodes either
      have hnil : decodeAll host txs = [] :=
        (decodeAll_eq_nil_iff txs).mpr fun b hb hdec => hraw (hhead b hb hdec)
      rw [decodeAll_cons_error txs hraw, hnil] at hk
      simp at hk

variable (host) in
/-- Otherwise some decoded transaction has the index of bytes that do not
decode: the first one behind the first such bytes. -/
theorem exists_misplaced {txs : List Bytes} (h : ¬ DecodableFirst host.alloy txs) :
    ∃ (k : Nat) (v : VerifiedTx) (raw : Bytes), (decodeAll host txs)[k]? = some v ∧
      txs[k]? = some raw ∧ ¬ Decodes host.alloy raw := by
  induction txs with
  | nil => exact absurd .nil h
  | cons raw txs ih =>
    by_cases hraw : Decodes host.alloy raw
    · have htail : ¬ DecodableFirst host.alloy txs := fun htail =>
        h (List.pairwise_cons.mpr ⟨fun _ _ _ => hraw, htail⟩)
      obtain ⟨k, v, bad, hk, hbad, hnot⟩ := ih htail
      obtain ⟨w, hw⟩ := hraw
      refine ⟨k + 1, v, bad, ?_, hbad, hnot⟩
      rw [decodeAll_cons_ok txs hw]
      exact hk
    · have hsome : decodeAll host txs ≠ [] := by
        intro hnil
        have hall := (decodeAll_eq_nil_iff txs).mp hnil
        refine h (List.pairwise_cons.mpr ⟨fun b hb hdec => absurd hdec (hall b hb), ?_⟩)
        exact List.pairwise_of_forall_mem_list fun a _ b hb hdec => absurd hdec (hall b hb)
      obtain ⟨v, vs, hvs⟩ := List.exists_cons_of_ne_nil hsome
      refine ⟨0, v, raw, ?_, rfl, hraw⟩
      rw [decodeAll_cons_error txs hraw, hvs]
      rfl

end Places

/-! ## A block in which every transaction can run

`willingRevm` runs whatever it is given, for no gas and without a trace, so
that any chosen transaction of any block can be seen with its receipt. -/

def willingRevm : Revm where
  transact _ block tx _ _ :=
    { loads := []
      outcome := .ok
        { result := .success 0 [] []
          changes := ∅
          tx := transferTree block tx tx.caller } }

def willingHost (al : Alloy) : Host := { sampleHost with alloy := al, revm := willingRevm }

/-- The account of a sender at the nonce of its transaction, in a chain
without a gas limit. -/
def nonceGenesis (v : VerifiedTx) : EvmGenesis where
  chainId := 1337
  alloc := (∅ : FMap Address GenesisAlloc).insert v.sender
    { balance := 0, nonce := v.envelope.nonce }
  gasLimit := u64Max

theorem nonceGenesis_getNonce (an : CodeAnalysis) (v : VerifiedTx) :
    (EvmState.fromGenesis an (nonceGenesis v)).getNonce v.sender = v.envelope.nonce := by
  have halloc : (nonceGenesis v).alloc[v.sender]?
      = some { balance := 0, nonce := v.envelope.nonce } := by
    simp [nonceGenesis]
  rw [getNonce_eq_entry, fromGenesis_entry, halloc]

theorem commit_empty (db : CacheDb) : db.commit ∅ = db := by
  have hkeys : (∅ : Changes).keys = [] := rfl
  rw [CacheDb.commit, hkeys]
  rfl

/-- Under the largest gas limit no transaction ends the loop. -/
theorem not_over_boundless {config : EvmChainConfig} (hlimit : config.blockGasLimit = u64Max)
    (used gasLimit : UInt64) : ¬ satAdd64 used gasLimit > config.blockGasLimit := by
  rw [hlimit, gt_iff_lt, UInt64.lt_iff_toNat_lt]
  have hsum := (satAdd64 used gasLimit).toNat_lt
  have hmax : u64Max.toNat = 2 ^ 64 - 1 := rfl
  omega

/-- A revm that runs everything changes nothing. -/
theorem willing_committed_state {al : Alloy} {config : EvmChainConfig} {ctx : BlockContext}
    {l : Loop} {w : VerifiedTx} {run : Executed}
    (hrun : (transactTx (willingHost al) config ctx l w).outcome = .ok run) (i : Nat) :
    (l.committed (willingHost al) config ctx i w (transactTx (willingHost al) config ctx l w)
      run).state = l.state := by
  have hloads : (transactTx (willingHost al) config ctx l w).loads = [] := by
    simp [transactTx, willingHost, willingRevm]
  have hchanges : run.changes = ∅ := by
    simp only [transactTx, willingHost, willingRevm, Except.ok.injEq] at hrun
    rw [← hrun]
  simp only [Loop.committed, hloads, hchanges, List.foldl_nil, commit_empty]

/-- With a revm that runs everything, a transaction whose nonce is its
sender's gets a receipt with its index. -/
theorem willing_executions (al : Alloy) {config : EvmChainConfig} (ctx : BlockContext)
    (hlimit : config.blockGasLimit = u64Max) {v : VerifiedTx} (vs : List VerifiedTx) (i k : Nat)
    (l : Loop) (hk : vs[k]? = some v) (hnonce : l.state.getNonce v.sender = v.envelope.nonce) :
    ∃ r ∈ (executions (willingHost al) config ctx i l vs).map ReceiptedTx.receipt,
      r.txIndex = i + k := by
  induction vs generalizing i k l with
  | nil => simp at hk
  | cons w vs ih =>
    have hout : ∀ err, (transactTx (willingHost al) config ctx l w).outcome ≠ .error err := by
      intro err
      simp [transactTx, willingHost, willingRevm]
    rcases executeTx_cases (willingHost al) config ctx l i w with
      ⟨hskip, heq⟩ | ⟨-, ⟨hover, -⟩ | ⟨-, ⟨err, herr, -⟩ | ⟨run, hrun, heq⟩⟩⟩
    · simp only [executions, heq]
      cases k with
      | zero =>
        obtain rfl : w = v := by simpa using hk
        exact absurd hnonce.symm hskip
      | succ k =>
        obtain ⟨r, hr, hindex⟩ := ih (i + 1) k l (by simpa using hk) hnonce
        exact ⟨r, hr, by omega⟩
    · exact absurd hover (not_over_boundless hlimit _ _)
    · exact absurd herr (hout err)
    · simp only [executions, heq, hrun, List.map_cons]
      cases k with
      | zero => exact ⟨_, List.mem_cons_self .., rfl⟩
      | succ k =>
        obtain ⟨r, hr, hindex⟩ := ih (i + 1) k
          (l.committed (willingHost al) config ctx i w
            (transactTx (willingHost al) config ctx l w) run)
          (by simpa using hk) (by rw [willing_committed_state hrun]; exact hnonce)
        exact ⟨r, List.mem_cons_of_mem _ hr, by omega⟩

/-! ## When a receipt locates its transaction -/

/-- The receipt points at bytes of the block that decode to its
transaction. -/
def Locates (al : Alloy) (txs : List Bytes) (r : EvmReceipt) : Prop :=
  ∃ raw v, txs[r.txIndex]? = some raw ∧ decodeAndRecover al raw = .ok v ∧ v.txHash = r.txHash

/-- Whatever node with this codec executes the block in whatever state,
each receipt locates its transaction. -/
def LocatesTxs (al : Alloy) (txs : List Bytes) : Prop :=
  ∀ (host : Host) (order : FlushOrder) (e : EvmExecutor) (ctx : BlockContext), host.alloy = al →
    ∃ rs, (e.executeBlock host order txs ctx).2.receipts = e.receipts ++ [rs] ∧
      ∀ r ∈ rs, Locates al txs r

/-- **When a receipt locates its transaction.** The receipts of a block do
so in every state exactly when no bytes that decode stand behind bytes that
do not. -/
theorem receipts_located_iff (al : Alloy) (txs : List Bytes) :
    LocatesTxs al txs ↔ DecodableFirst al txs := by
  constructor
  · intro h
    by_contra hfirst
    -- the misplaced transaction is made to run, from its own nonce
    obtain ⟨k, v, raw, hk, hraw, hbad⟩ := exists_misplaced (willingHost al) hfirst
    obtain ⟨rs, hrs, hall⟩ := h (willingHost al) ⟨.ascending, .ascending⟩
      (.fromGenesis (willingHost al) (nonceGenesis v)) block1 rfl
    have hreceipts : rs = (executionsIn (willingHost al)
        (.fromGenesis (willingHost al) (nonceGenesis v)) txs block1).map ReceiptedTx.receipt := by
      have hblock : [(runBlock (willingHost al) (.fromGenesis (willingHost al) (nonceGenesis v)) txs
          block1).1.receipts] = [rs] := hrs
      rw [← List.singleton_inj.mp hblock]
      exact executions_receipts _ 0 _
    obtain ⟨r, hr, hindex⟩ : ∃ r ∈ rs, r.txIndex = 0 + k := by
      rw [hreceipts]
      refine willing_executions al block1 rfl _ 0 k _ hk ?_
      rw [startBlock_getNonce]
      exact nonceGenesis_getNonce _ v
    obtain ⟨raw', v', hraw', hdec, -⟩ := hall r hr
    rw [hindex, Nat.zero_add, hraw] at hraw'
    obtain rfl := Option.some.inj hraw'
    exact hbad ⟨v', hdec⟩
  · rintro h host order e ctx rfl
    refine ⟨_, rfl, fun r hr => ?_⟩
    obtain ⟨k, v, hk, hindex, hhash⟩ := (numbered_runBlock host e txs ctx).indexed r hr
    obtain ⟨raw, hraw, hdec⟩ := getElem?_decodeAll h hk
    refine ⟨raw, v, ?_, hdec, hhash.symm⟩
    rw [hindex, Nat.zero_add]
    exact hraw

/-! ### Two bytes in front of a transfer -/

/-- Alice's transfer behind two bytes that are no transaction. -/
def shiftedBlock : List Bytes := [[0xde, 0xad], alice0.raw]

/-- Her receipt points at the two bytes. -/
theorem undecodable_shifts_index :
    ((EvmExecutor.fromGenesis sampleHost aliceGenesis).executeBlock sampleHost
        ⟨.ascending, .ascending⟩ shiftedBlock block1).2.receipts.map
          (fun rs => rs.map fun r => (r.txIndex, r.txHash))
      = [[(0, alice0.txHash)]] ∧
      (decodeAndRecover sampleAlloy [0xde, 0xad]).isOk = false ∧
      ¬ LocatesTxs sampleAlloy shiftedBlock := by
  have hreceipts : ((EvmExecutor.fromGenesis sampleHost aliceGenesis).executeBlock sampleHost
        ⟨.ascending, .ascending⟩ shiftedBlock block1).2.receipts.map
          (fun rs => rs.map fun r => (r.txIndex, r.txHash))
      = [[(0, alice0.txHash)]] := by
    decide +kernel
  have hbad : (decodeAndRecover sampleAlloy [0xde, 0xad]).isOk = false := by decide +kernel
  refine ⟨hreceipts, hbad, fun h => ?_⟩
  obtain ⟨rs, hrs, hall⟩ := h sampleHost ⟨.ascending, .ascending⟩
    (.fromGenesis sampleHost aliceGenesis) block1 rfl
  have hmap : rs.map (fun r => (r.txIndex, r.txHash)) = [(0, alice0.txHash)] := by
    rw [hrs] at hreceipts
    exact List.singleton_inj.mp hreceipts
  obtain ⟨r, hr, hpair⟩ : ∃ r ∈ rs, (r.txIndex, r.txHash) = (0, alice0.txHash) := by
    have hmem : (0, alice0.txHash) ∈ rs.map fun r => (r.txIndex, r.txHash) := by
      rw [hmap]
      exact List.mem_singleton_self _
    exact List.mem_map.mp hmem
  obtain ⟨raw, v, hraw, hdec, -⟩ := hall r hr
  rw [(Prod.mk.inj hpair).1] at hraw
  obtain rfl : [0xde, 0xad] = raw := Option.some.inj hraw
  rw [hdec] at hbad
  cases hbad

end Nbnet.Execution
