/-
Nbnet.Rpc.LogTheorems — what a log query returns.

`eth_getLogs` walks the entries 0 to `height` of the receipts, one more
than there are committed blocks, so between execution and commit it also
reads the block that is not committed. It looks for the topic among all
topics of a log. `Answers` is what the query is for: the logs of committed
blocks with the address and the first topic, in order, each once.
`logs_query_exact_iff` says when the response is that.
-/
import Mathlib.Data.List.Perm.Subperm
import Nbnet.Rpc.QueryTheorems

namespace Nbnet.Rpc

open Lib Execution

/-! ## What is asked -/

/-- The order of a chain: blocks, transactions, logs. -/
def Before (x y : LocatedLog) : Prop :=
  x.receipt.blockNumber.toNat < y.receipt.blockNumber.toNat ∨
    x.receipt.blockNumber = y.receipt.blockNumber ∧
      (x.receipt.txIndex < y.receipt.txIndex ∨
        x.receipt.txIndex = y.receipt.txIndex ∧ x.logIdx < y.logIdx)

/-- A log of some receipt, in its place. -/
def Logged (e : EvmExecutor) (x : LocatedLog) : Prop :=
  x.receipt ∈ e.receipts.flatten ∧ x.receipt.logs[x.logIdx]? = some x.log

/-- A log has the address and the first topic asked for. -/
structure Matches (address : Option Address) (topic : Option B256) (log : EvmLog) : Prop where
  address : ∀ a, address = some a → log.address = a
  topic : ∀ t, topic = some t → log.topics.head? = some t

/-- The matching logs up to a height, in order. -/
structure Answers (e : EvmExecutor) (height : Nat) (address : Option Address)
    (topic : Option B256) (xs : List LocatedLog) : Prop where
  ordered : xs.Pairwise Before
  exact : ∀ x, x ∈ xs ↔
    Logged e x ∧ x.receipt.blockNumber.toNat ≤ height ∧ Matches address topic x.log

/-- A string that may be absent, and what it parses to. -/
def Reads (parse : String → Except String α) (text : Option String) (value : Option α) : Prop :=
  match text, value with
  | none, none => True
  | some s, some a => parse s = .ok a
  | _, _ => False

/-- The parameters hold a filter with this address and this first topic, or
without. -/
structure Asks (libs : RpcLibs) (params : Json) (address : Option Address)
    (topic : Option B256) : Prop where
  address : Reads (parseAddressStr libs) ((params.first.getD .null).get "address").asStr address
  topic : Reads (parseB256Str libs)
    (((params.first.getD .null).get "topics").first.bind Json.asStr) topic

theorem Reads.toOption {parse : String → Except String α} {text : Option String}
    {value : Option α} (h : Reads parse text value) :
    (text.bind fun s => (parse s).toOption) = value := by
  cases text with
  | none =>
    cases value with
    | none => rfl
    | some a => cases h
  | some s =>
    cases value with
    | none => cases h
    | some a =>
      have hparse : parse s = .ok a := h
      rw [Option.bind_some, hparse]
      rfl

theorem Asks.logFilters {libs : RpcLibs} {params : Json} {address : Option Address}
    {topic : Option B256} (h : Asks libs params address topic) :
    logFilters libs params = (address, topic) := by
  have haddress := h.address.toOption
  have htopic := h.topic.toOption
  unfold Rpc.logFilters
  cases hfirst : params.first with
  | none =>
    rw [hfirst] at haddress htopic
    rw [← haddress, ← htopic]
    rfl
  | some f =>
    rw [hfirst] at haddress htopic
    rw [← haddress, ← htopic]
    rfl

/-! ## What is read -/

/-- Every log there is, in the order of the receipts. -/
def allLogs (e : EvmExecutor) : List LocatedLog := e.receipts.flatten.flatMap locatedLogs

theorem mem_locatedLogs {r : EvmReceipt} {x : LocatedLog} :
    x ∈ locatedLogs r ↔ x.receipt = r ∧ r.logs[x.logIdx]? = some x.log := by
  obtain ⟨receipt, logIdx, log⟩ := x
  simp only [locatedLogs, List.mem_map, Prod.exists, LocatedLog.mk.injEq]
  constructor
  · rintro ⟨log', logIdx', hmem, rfl, rfl, rfl⟩
    exact ⟨rfl, List.mem_zipIdx_iff_getElem?.mp hmem⟩
  · rintro ⟨rfl, hlog⟩
    exact ⟨log, logIdx, List.mem_zipIdx_iff_getElem?.mpr hlog, rfl, rfl, rfl⟩

theorem mem_allLogs {e : EvmExecutor} {x : LocatedLog} : x ∈ allLogs e ↔ Logged e x := by
  simp only [allLogs, List.mem_flatMap, mem_locatedLogs, Logged]
  constructor
  · rintro ⟨r, hr, rfl, hlog⟩
    exact ⟨hr, hlog⟩
  · exact fun h => ⟨x.receipt, h.1, rfl, h.2⟩

/-- Walking indices past the end of a list reads the whole list. -/
theorem flatMap_range_getElem? {α β : Type*} (f : α → List β) (l : List α) (n : Nat)
    (h : l.length ≤ n) :
    ((List.range n).flatMap fun k => (l[k]?).elim [] f) = l.flatMap f := by
  induction l generalizing n with
  | nil => simp
  | cons a l ih =>
    obtain ⟨m, rfl⟩ : ∃ m, n = m + 1 := ⟨n - 1, by simp at h; omega⟩
    rw [List.range_succ_eq_map, List.flatMap_cons, List.flatMap_map, List.flatMap_cons,
      ← ih m (by simpa using h)]
    rfl

section Queries

variable {p : Phase} {e : EvmExecutor}

/-- The walk sees every block, also the one that is not committed. -/
theorem InPhase.collectLogs_eq (hin : InPhase p e) (address : Option Address)
    (topic : Option B256) :
    collectLogs e address topic = (allLogs e).filter fun x => passes address topic x.log := by
  have hlen : e.receipts.length ≤ e.blockHeight.toNat + 1 := by
    rw [hin.blocks, hin.height]
    cases p <;> simp [Phase.blocks, Phase.height]
  have hturns := flatMap_range_getElem? (fun rs : List EvmReceipt => rs.flatMap fun r =>
    (locatedLogs r).filter fun x => passes address topic x.log) e.receipts _ hlen
  rw [allLogs, List.filter_flatMap, ← List.flatMap_id, List.flatMap_assoc]
  refine Eq.trans ?_ hturns
  refine List.flatMap_congr fun k _ => ?_
  rw [EvmExecutor.getReceipts]
  cases e.receipts[k]? <;> rfl

theorem locatedLogs_ordered (r : EvmReceipt) : (locatedLogs r).Pairwise Before := by
  rw [locatedLogs, List.pairwise_map]
  have hidx : (r.logs.zipIdx.map Prod.snd).Pairwise (· < ·) := by
    rw [List.zipIdx_map_snd]
    exact List.pairwise_lt_range'
  refine (List.pairwise_map.mp hidx).imp fun h => ?_
  exact .inr ⟨rfl, .inr ⟨rfl, h⟩⟩

/-- The receipts are kept in the order of the chain. -/
theorem InPhase.allLogs_ordered (hin : InPhase p e) : (allLogs e).Pairwise Before := by
  have hblocks : e.receipts.Pairwise fun a b =>
      ∀ r ∈ a, ∀ s ∈ b, r.blockNumber.toNat < s.blockNumber.toNat := by
    refine List.pairwise_iff_getElem.mpr fun i j hi hj hij r hr s hs => ?_
    have hri := hin.numbered i _ (List.getElem?_eq_getElem hi) r hr
    have hsj := hin.numbered j _ (List.getElem?_eq_getElem hj) s hs
    omega
  have hreceipts : e.receipts.flatten.Pairwise fun r s =>
      r.blockNumber.toNat < s.blockNumber.toNat ∨
        r.blockNumber = s.blockNumber ∧ r.txIndex < s.txIndex := by
    refine List.pairwise_flatten.mpr ⟨fun rs hrs => ?_, hblocks.imp fun h r hr s hs =>
      .inl (h r hr s hs)⟩
    obtain ⟨k, hk⟩ := List.mem_iff_getElem?.mp hrs
    refine (hin.increasing rs hrs).imp_of_mem fun {r s} hr hs hlt => .inr ⟨?_, hlt⟩
    have hr' := hin.numbered k rs hk r hr
    have hs' := hin.numbered k rs hk s hs
    exact UInt64.toNat_inj.mp (hr'.trans hs'.symm)
  refine List.pairwise_flatMap.mpr ⟨fun r _ => locatedLogs_ordered r, ?_⟩
  refine hreceipts.imp fun {r s} h x hx y hy => ?_
  obtain ⟨rfl, -⟩ := mem_locatedLogs.mp hx
  obtain ⟨rfl, -⟩ := mem_locatedLogs.mp hy
  rcases h with hlt | ⟨heq, hlt⟩
  · exact .inl hlt
  · exact .inr ⟨heq, .inl hlt⟩

end Queries

/-! ## The answer -/

theorem not_before_self (x : LocatedLog) : ¬ Before x x := by
  rintro (h | ⟨-, h | ⟨-, h⟩⟩) <;> exact Nat.lt_irrefl _ h

/-- Ordered lists that show the same number of entries are the same, if one
holds all of the other. -/
theorem same_of_length {xs ys : List LocatedLog} (hord : xs.Pairwise Before) (hsub : xs ⊆ ys)
    (hlen : xs.length = ys.length) : ys ⊆ xs := by
  have hnodup : xs.Nodup := by
    refine hord.imp fun {x y} h => ?_
    rintro rfl
    exact not_before_self x h
  have hperm := (List.subperm_of_subset hnodup hsub).perm_of_length_le hlen.ge
  exact hperm.symm.subset

/-- A strict match passes the filters. -/
theorem Matches.passes {address : Option Address} {topic : Option B256} {log : EvmLog}
    (h : Matches address topic log) : passes address topic log = true := by
  unfold Rpc.passes
  rw [Bool.and_eq_true]
  constructor
  · cases address with
    | none => rfl
    | some a => simp [h.address a rfl]
  · cases topic with
    | none => rfl
    | some t => simpa using List.mem_of_head? (h.topic t rfl)

/-- What passes the filters has the address. -/
theorem address_of_passes {address : Option Address} {topic : Option B256} {log : EvmLog}
    (h : passes address topic log = true) : ∀ a, address = some a → log.address = a := by
  rintro a rfl
  simpa using (Bool.and_eq_true_iff.mp h).1

/-- Every log that passes the filters is in a committed block and has the
topic first. -/
def OnlyMatches (e : EvmExecutor) (height : Nat) (address : Option Address)
    (topic : Option B256) : Prop :=
  ∀ x, Logged e x → passes address topic x.log = true →
    x.receipt.blockNumber.toNat ≤ height ∧ ∀ t, topic = some t → x.log.topics.head? = some t

section Answer

variable {p : Phase} {e : EvmExecutor} {address : Option Address} {topic : Option B256}

theorem InPhase.mem_collectLogs (hin : InPhase p e) (x : LocatedLog) :
    x ∈ collectLogs e address topic ↔ Logged e x ∧ passes address topic x.log = true := by
  rw [hin.collectLogs_eq, List.mem_filter, mem_allLogs]

theorem InPhase.onlyMatches_iff (hin : InPhase p e) :
    OnlyMatches e p.height address topic ↔
      ∀ x ∈ collectLogs e address topic, x.receipt.blockNumber.toNat ≤ p.height ∧
        ∀ t, topic = some t → x.log.topics.head? = some t := by
  constructor
  · intro h x hx
    obtain ⟨hlogged, hpass⟩ := (hin.mem_collectLogs x).mp hx
    exact h x hlogged hpass
  · exact fun h x hlogged hpass => h x ((hin.mem_collectLogs x).mpr ⟨hlogged, hpass⟩)

/-- The collected logs are shown as an answer exactly when all of them
belong to it. -/
theorem InPhase.answered_iff (hin : InPhase p e) :
    (∃ xs, Answers e p.height address topic xs ∧
      (collectLogs e address topic).map logToJson = xs.map logToJson) ↔
      OnlyMatches e p.height address topic := by
  rw [hin.onlyMatches_iff]
  constructor
  · rintro ⟨xs, hxs, hjson⟩ x hx
    have hlen : xs.length = (collectLogs e address topic).length := by
      simpa using (congrArg List.length hjson).symm
    have hsub : xs ⊆ collectLogs e address topic := by
      intro y hy
      obtain ⟨hlogged, -, hmatch⟩ := (hxs.exact y).mp hy
      exact (hin.mem_collectLogs y).mpr ⟨hlogged, hmatch.passes⟩
    obtain ⟨-, hheight, hmatch⟩ := (hxs.exact x).mp (same_of_length hxs.ordered hsub hlen hx)
    exact ⟨hheight, hmatch.topic⟩
  · intro honly
    refine ⟨collectLogs e address topic, ⟨?_, fun x => ?_⟩, rfl⟩
    · rw [hin.collectLogs_eq]
      exact hin.allLogs_ordered.filter _
    · constructor
      · intro hx
        obtain ⟨hlogged, hpass⟩ := (hin.mem_collectLogs x).mp hx
        obtain ⟨hheight, htopic⟩ := honly x hx
        exact ⟨hlogged, hheight, address_of_passes hpass, htopic⟩
      · rintro ⟨hlogged, -, hmatch⟩
        exact (hin.mem_collectLogs x).mpr ⟨hlogged, hmatch.passes⟩

/-- The same of the response. -/
theorem InPhase.response_iff (hin : InPhase p e) {libs : RpcLibs} {params : Json}
    (hasks : Asks libs params address topic) (host : Host) (chainId : UInt64) (sink : Bool)
    (id : Json) :
    (∃ xs, Answers e p.height address topic xs ∧
      (dispatch libs host ⟨e, chainId, sink⟩ ⟨"eth_getLogs", params, id⟩).response
        = .ok id (.array (xs.map logToJson))) ↔
      OnlyMatches e p.height address topic := by
  have hlogs : ethGetLogs libs e params
      = .array ((collectLogs e address topic).map logToJson) := by
    rw [ethGetLogs, hasks.logFilters]
  have hresponse : (dispatch libs host ⟨e, chainId, sink⟩ ⟨"eth_getLogs", params, id⟩).response
      = .ok id (.array ((collectLogs e address topic).map logToJson)) := by
    rw [← hlogs]
    rfl
  rw [← hin.answered_iff]
  refine exists_congr fun xs => and_congr_right fun _ => ?_
  rw [hresponse]
  simp [JsonRpcResponse.ok]

end Answer

/-- **When a log query returns exactly the committed matches.** After every
run that keeps to the schedule, and for every filter: the response is the
answer exactly when every log with the filter's address and its topic at
any place is in a committed block and has the topic first. -/
theorem logs_query_exact_iff (libs : RpcLibs) (host : Host) (orders : Nat → State.FlushOrder)
    (genesis : EvmGenesis) (steps : List NodeStep) (phase : Phase)
    (hrun : phaseAfter steps = some phase) (chainId : UInt64) (sink : Bool) (params id : Json)
    (address : Option Address) (topic : Option B256) (hasks : Asks libs params address topic) :
    let e := (steps.foldl (Node.step host orders) (.fromGenesis host genesis)).executor
    (∃ xs, Answers e phase.height address topic xs ∧
      (dispatch libs host ⟨e, chainId, sink⟩ ⟨"eth_getLogs", params, id⟩).response
        = .ok id (.array (xs.map logToJson))) ↔
      OnlyMatches e phase.height address topic :=
  (inPhase_run orders genesis hrun).response_iff hasks host chainId sink id

/-! ## A contract that logs

Alice creates a contract whose init code is one `LOG2` with the topics 1
and 2. `logRevm` does what revm does with that creation and rejects
everything else. -/

/-- Push 2, 1, 0, 0; `LOG2`; `STOP`. -/
def logCode : Bytes := [0x60, 2, 0x60, 1, 0x60, 0, 0x60, 0, 0xa2, 0]

def aliceLog : VerifiedTx where
  raw := beBytes 103 0x02f8648205398084773594008506fc23ac00830186a080808a6002600160006000a200c001a0dbc28bcbb82aa041c9b05e1c38f72bc71953458b9eaadfa3d10a525868852d63a05297d0056afff3048436c34c4ed9f4d73a6aaa36d25e43e0af4c7a6e64063352
  envelope :=
    { sampleEnvelope 0 2000000000 100000 (beBytes 65 0xdbc28bcbb82aa041c9b05e1c38f72bc71953458b9eaadfa3d10a525868852d635297d0056afff3048436c34c4ed9f4d73a6aaa36d25e43e0af4c7a6e6406335201) with
      toAddr := none
      value := 0
      input := logCode }
  sender := 0x62d283fe6939c01fc88f02c6d2c9a547cc3e2656
  txHash := 0x69bc047c80e6dfa3bcd5b5b777d618c5b5288c9951d6e5fb05d27d58d141eca0

/-- The address of a contract that Alice creates with nonce 0. -/
def logContract : Address := 0xe793b5423953e137f1e02711e4eb09e3aaf98c7d

/-- 53126 gas for a creation with this init code, 1137 to run it. -/
def logGas : Nat := 54263

def LogValid (chainId : UInt64) (block : BlockEnv) (tx : TxEnv) : Prop :=
  tx.chainId.getD chainId = chainId ∧ tx.data = logCode ∧ logGas ≤ tx.gasLimit.toNat ∧
    tx.gasLimit ≤ block.gasLimit ∧ block.basefee.toNat ≤ tx.gasPrice.toNat ∧
    tx.gasPriorityFee.getD 0 ≤ tx.gasPrice

instance LogValid.decidable (chainId : UInt64) (block : BlockEnv) (tx : TxEnv) :
    Decidable (LogValid chainId block tx) :=
  inferInstanceAs (Decidable (_ ∧ _))

/-- An account after the creation; the contract starts at nonce 1. -/
def afterLog (block : BlockEnv) (tx : TxEnv) (view : State.DbView) (a : Address) :
    State.AccountInfo :=
  let info := view.account a
  let price := effectivePrice block tx
  let spent := if a = tx.caller then logGas * price else 0
  let tip := if a = block.beneficiary then logGas * (price - block.basefee.toNat) else 0
  { info with
    nonce := if a = tx.caller ∨ a = logContract then info.nonce + 1 else info.nonce
    balance := BitVec.ofNat 256 (info.balance.toNat - spent + tip) }

def logTree (block : BlockEnv) (tx : TxEnv) : Precompile.Tx where
  sender := tx.caller
  upfront := BitVec.ofNat 256 (tx.gasLimit.toNat * effectivePrice block tx)
  refund := BitVec.ofNat 256 ((tx.gasLimit.toNat - logGas) * effectivePrice block tx)
  reward := BitVec.ofNat 256 (logGas * (effectivePrice block tx - block.basefee.toNat))
  beneficiary := block.beneficiary
  op :=
    { scheme := .call
      address := logContract
      value := 0
      input := .bytes []
      memory := []
      gasLimit := tx.gasLimit - 53126 }
  code := .done .stop

def logRevm : Revm where
  transact chainId block tx view _ :=
    match tx.kind with
    | .call _ => { loads := [], outcome := .error "Transaction" }
    | .create =>
        if ¬ LogValid chainId block tx then { loads := [], outcome := .error "Transaction" }
        else if ¬ SenderValid tx view then
          { loads := [.account tx.caller], outcome := .error "Transaction" }
        else
          { loads := [.account tx.caller, .account logContract, .account block.beneficiary]
            outcome := .ok
              { result := .success (.ofNat logGas)
                  [{ address := logContract, topics := [1, 2], data := [] }] []
                changes := [tx.caller, logContract, block.beneficiary].foldl
                  (fun changes a => changes.insert a { info := afterLog block tx view a }) ∅
                tx := logTree block tx } }

def logHost : Host :=
  { sampleHost with
    alloy := .ofTable [aliceLog]
    revm := logRevm
    createAddress := fun _ _ => logContract }

def logNode (steps : List NodeStep) : EvmExecutor :=
  (steps.foldl (Node.step logHost ascendingFlush) (.fromGenesis sampleHost aliceGenesis)).executor

def executedLog : List NodeStep := [.executeBlock [aliceLog.raw] block1]

def committedLog : List NodeStep := executedLog ++ [.onCommit .ascending block1]

/-- A filter for a topic, at an address. -/
def topicFilter (address topic : String) : Json :=
  .array [.object [("address", .string address), ("topics", .array [.string topic])]]

def contractText : String := "0xE793b5423953e137f1e02711e4eb09e3aaf98c7d"

def topicOne : String := "0x0000000000000000000000000000000000000000000000000000000000000001"

def topicTwo : String := "0x0000000000000000000000000000000000000000000000000000000000000002"

theorem contractText_parses : parseAddressStr sampleLibs contractText = .ok logContract := by
  decide +kernel

theorem asks_topicOne :
    Asks sampleLibs (topicFilter contractText topicOne) (some logContract) (some 1) :=
  ⟨contractText_parses, show parseB256Str sampleLibs topicOne = .ok 1 by decide +kernel⟩

theorem asks_topicTwo :
    Asks sampleLibs (topicFilter contractText topicTwo) (some logContract) (some 2) :=
  ⟨contractText_parses, show parseB256Str sampleLibs topicTwo = .ok 2 by decide +kernel⟩

theorem inPhase_committedLog : InPhase (.idle 1) (logNode committedLog) :=
  inPhase_run ascendingFlush aliceGenesis (by decide +kernel)

/-- The contract's log, asked for by its first topic after the commit. -/
theorem logs_query_first_topic :
    phaseAfter committedLog = some (.idle 1) ∧
      ∃ xs, Answers (logNode committedLog) 1 (some logContract) (some 1) xs ∧
        (dispatch sampleLibs logHost ⟨logNode committedLog, 1337, false⟩
            ⟨"eth_getLogs", topicFilter contractText topicOne, .null⟩).response
          = .ok .null (.array (xs.map logToJson)) := by
  have hrun : phaseAfter committedLog = some (.idle 1) := by decide +kernel
  have honly : OnlyMatches (logNode committedLog) 1 (some logContract) (some 1) := by
    refine inPhase_committedLog.onlyMatches_iff.mpr fun x hx => ?_
    have hall : ∀ x ∈ collectLogs (logNode committedLog) (some logContract) (some 1),
        x.receipt.blockNumber.toNat ≤ 1 ∧ x.log.topics.head? = some 1 := by
      decide +kernel
    obtain ⟨hheight, htopic⟩ := hall x hx
    refine ⟨hheight, ?_⟩
    rintro t ⟨⟩
    exact htopic
  exact ⟨hrun, (logs_query_exact_iff sampleLibs logHost ascendingFlush aliceGenesis committedLog
    (.idle 1) hrun 1337 false _ .null _ _ asks_topicOne).mpr honly⟩

/-- Before the commit the log is returned without being committed; after it
the log is returned for its second topic. -/
theorem logs_query_returns_more :
    (phaseAfter executedLog = some (.executed 0) ∧
      ¬ ∃ xs, Answers (logNode executedLog) 0 none none xs ∧
        (dispatch sampleLibs logHost ⟨logNode executedLog, 1337, false⟩
            ⟨"eth_getLogs", .array [], .null⟩).response
          = .ok .null (.array (xs.map logToJson))) ∧
    phaseAfter committedLog = some (.idle 1) ∧
      ¬ ∃ xs, Answers (logNode committedLog) 1 (some logContract) (some 2) xs ∧
        (dispatch sampleLibs logHost ⟨logNode committedLog, 1337, false⟩
            ⟨"eth_getLogs", topicFilter contractText topicTwo, .null⟩).response
          = .ok .null (.array (xs.map logToJson)) := by
  have hrun : phaseAfter executedLog = some (.executed 0) := by decide +kernel
  have hin : InPhase (.executed 0) (logNode executedLog) :=
    inPhase_run ascendingFlush aliceGenesis hrun
  refine ⟨⟨hrun, fun h => ?_⟩, by decide +kernel, fun h => ?_⟩
  · have hasks : Asks sampleLibs (.array []) none none := ⟨trivial, trivial⟩
    have honly := hin.onlyMatches_iff.mp ((hin.response_iff hasks logHost 1337 false .null).mp h)
    have hlate : ∃ x ∈ collectLogs (logNode executedLog) none none,
        ¬ x.receipt.blockNumber.toNat ≤ 0 := by
      decide +kernel
    obtain ⟨x, hx, hnot⟩ := hlate
    exact hnot (honly x hx).1
  · have honly := inPhase_committedLog.onlyMatches_iff.mp
      ((inPhase_committedLog.response_iff asks_topicTwo logHost 1337 false .null).mp h)
    have hsecond : ∃ x ∈ collectLogs (logNode committedLog) (some logContract) (some 2),
        x.log.topics.head? ≠ some 2 := by
      decide +kernel
    obtain ⟨x, hx, hnot⟩ := hsecond
    exact hnot ((honly x hx).2 2 rfl)

end Nbnet.Rpc
