/-
Nbnet.Rpc.BenchTheorems — what the benchmark reports is on chain
(`run_bench` in `crates/node/src/bench.rs`).

The benchmark submits its transactions to one node, counts the responses,
and then polls its nonce until it has reached that count or the deadline
has passed. Between any two requests the node does whatever it does; a
request may not arrive, and a response may be lost. Time enters only as
the number of requests that are made before the deadline.
-/
import Nbnet.Rpc.ClientTheorems

namespace Nbnet.Rpc

open Lib State Txpool Execution

/-! ## A session -/

/-- How far a request gets: not to the node, not back, or there and back. -/
inductive Link where
  | down
  | lost
  | up
  deriving DecidableEq, Repr

/-- A request of the client: what the node does before it, and its link. -/
structure Call where
  before : List NodeStep
  link : Link

/-- The genesis of the benchmark. -/
def benchEvmGenesis (sender recipient : Address) : EvmGenesis where
  chainId := 1337
  alloc := ((∅ : FMap Address GenesisAlloc).insert sender
    { balance := 1000000 * 1000000000000000000 }).insert recipient { balance := 0 }

section Session

variable (libs : RpcLibs) (host : Host) (orders : Nat → FlushOrder)

/-- What the client gets for a request. -/
def Link.post (n : Node) : Link → JsonRpcRequest → Option Json
  | .up => serveJson libs host ⟨n.executor, 1337, true⟩
  | _ => fun _ => none

/-- The node after a request. -/
def Link.serve (n : Node) (req : JsonRpcRequest) : Link → Node
  | .down => n
  | _ => { n with executor := (dispatch libs host ⟨n.executor, 1337, true⟩ req).executor }

/-- The submission loop of `run_bench`. -/
def submitLoop : Node → UInt64 → List (Call × Bytes) → UInt64 × Node
  | n, submitted, [] => (submitted, n)
  | n, submitted, (call, raw) :: sends =>
      let n := call.before.foldl (Node.step host orders) n
      let answered := rpcSendRawTx (call.link.post libs host n) raw
      submitLoop (call.link.serve libs host n (sendRequest raw))
        (if answered then submitted + 1 else submitted) sends

/-- `wait_for_confirmations`: the nonce last read, and the node then. -/
def waitForConfirmations (sender : Address) (expectedNonce : UInt64) :
    Node → UInt64 → List Call → UInt64 × Node
  | n, confirmed, [] => (confirmed, n)
  | n, confirmed, call :: calls =>
      let n := call.before.foldl (Node.step host orders) n
      let after := call.link.serve libs host n (nonceRequest sender)
      match rpcGetNonce (call.link.post libs host n) sender with
      | some nonce =>
          if expectedNonce ≤ nonce then (nonce, after)
          else waitForConfirmations sender expectedNonce after nonce calls
      | none => waitForConfirmations sender expectedNonce after confirmed calls

structure BenchReport where
  submitted : UInt64
  confirmed : UInt64
  /-- The node when the submissions are through, and at the end. -/
  loaded : Node
  node : Node

/-- `run_bench`, from the first submission to the last poll. -/
def runBench (sender recipient : Address) (sends : List (Call × Bytes)) (polls : List Call) :
    BenchReport :=
  let (submitted, loaded) :=
    submitLoop libs host orders (.fromGenesis host (benchEvmGenesis sender recipient)) 0 sends
  let (confirmed, node) := waitForConfirmations libs host orders sender submitted loaded 0 polls
  { submitted, confirmed, loaded, node }

end Session

/-- The receipts of a sender. -/
def confirmedOf (sender : Address) (n : Node) : Nat :=
  (n.executor.receipts.flatten.filter (·.sender = sender)).length

/-! ## The node of a session -/

section Run

variable {libs : RpcLibs} {host : Host} {orders : Nat → FlushOrder}

/-- A run only adds receipts. -/
theorem receipts_run (host : Host) (orders : Nat → FlushOrder) (n : Node) (steps : List NodeStep) :
    n.executor.receipts <+: (steps.foldl (Node.step host orders) n).executor.receipts := by
  refine run_invariant_all (fun m : Node => n.executor.receipts <+: m.executor.receipts)
    (fun m s hm => ?_) steps n (List.prefix_refl _)
  cases s with
  | executeBlock txs ctx => exact hm.trans (List.prefix_append _ _)
  | onCommit it ctx => exact hm
  | createPayload it => exact hm
  | submitRawTx raw => exact hm
  | ethCall req => exact hm

theorem confirmedOf_run (host : Host) (orders : Nat → FlushOrder) (sender : Address) (n : Node)
    (steps : List NodeStep) :
    confirmedOf sender n ≤ confirmedOf sender (steps.foldl (Node.step host orders) n) := by
  obtain ⟨more, hmore⟩ := receipts_run host orders n steps
  rw [confirmedOf, confirmedOf, ← hmore, List.flatten_append, List.filter_append,
    List.length_append]
  exact Nat.le_add_right _ _

/-- A poll leaves the node as it is. -/
theorem serve_nonceRequest (n : Node) (link : Link) (sender : Address) :
    link.serve libs host n (nonceRequest sender) = n := by
  have hread : (dispatch libs host ⟨n.executor, 1337, true⟩ (nonceRequest sender)).executor
      = n.executor :=
    (dispatch_does libs host _ (nonceRequest sender)).1
  cases link with
  | down => rfl
  | lost => simp only [Link.serve, hread]
  | up => simp only [Link.serve, hread]

/-- What a submission adds to a run. -/
def sendSteps (raw : Bytes) : Link → List NodeStep
  | .down => []
  | _ => [.submitRawTx raw]

theorem ReadsBack.serve_sendRequest (h : ReadsBack libs) (n : Node) (link : Link) (raw : Bytes) :
    link.serve libs host n (sendRequest raw)
      = (sendSteps raw link).foldl (Node.step host orders) n := by
  cases link with
  | down => rfl
  | lost => simp only [Link.serve, h.dispatch_send, sendSteps, List.foldl_cons, List.foldl_nil,
      Node.step]
  | up => simp only [Link.serve, h.dispatch_send, sendSteps, List.foldl_cons, List.foldl_nil,
      Node.step]

/-- The steps of a node while the client submits. -/
def loadSteps (sends : List (Call × Bytes)) : List NodeStep :=
  sends.flatMap fun (call, raw) => call.before ++ sendSteps raw call.link

theorem ReadsBack.submitLoop_run (h : ReadsBack libs) (n : Node) (submitted : UInt64)
    (sends : List (Call × Bytes)) :
    (submitLoop libs host orders n submitted sends).2
      = (loadSteps sends).foldl (Node.step host orders) n := by
  induction sends generalizing n submitted with
  | nil => rfl
  | cons send sends ih =>
    obtain ⟨call, raw⟩ := send
    rw [submitLoop, ih, h.serve_sendRequest, loadSteps, loadSteps, List.flatMap_cons,
      List.foldl_append, List.foldl_append]

/-- Submissions are counted that get an answer, of either kind. -/
theorem submitLoop_submitted (n : Node) (submitted : UInt64) (sends : List (Call × Bytes)) :
    (submitLoop libs host orders n submitted sends).1
      = submitted + .ofNat (sends.countP (·.1.link = .up)) := by
  induction sends generalizing n submitted with
  | nil => simp [submitLoop]
  | cons send sends ih =>
    obtain ⟨⟨before, link⟩, raw⟩ := send
    rw [submitLoop, ih, List.countP_cons]
    cases link with
    | down => simp [rpcSendRawTx, Link.post]
    | lost => simp [rpcSendRawTx, Link.post]
    | up => simp [rpcSendRawTx, Link.post, serveJson, UInt64.add_assoc, UInt64.add_comm]

/-- The node after the steps before some polls. -/
def afterPolls (host : Host) (orders : Nat → FlushOrder) (n : Node) (polls : List Call) : Node :=
  (polls.flatMap (·.before)).foldl (Node.step host orders) n

theorem afterPolls_cons (n : Node) (call : Call) (polls : List Call) :
    afterPolls host orders n (call :: polls)
      = afterPolls host orders (call.before.foldl (Node.step host orders) n) polls := by
  rw [afterPolls, List.flatMap_cons, List.foldl_append, afterPolls]

/-- A poll got through when the sender had as many receipts. -/
def Seen (host : Host) (orders : Nat → FlushOrder) (sender : Address) (expected : Nat) (n : Node)
    (polls : List Call) : Prop :=
  ∃ before call after, polls = before ++ call :: after ∧ call.link = .up ∧
    expected ≤ confirmedOf sender (afterPolls host orders n (before ++ [call]))

theorem seen_cons {sender : Address} {expected : Nat} {n : Node} {call : Call}
    {polls : List Call} :
    Seen host orders sender expected n (call :: polls) ↔
      (call.link = .up ∧
        expected ≤ confirmedOf sender (call.before.foldl (Node.step host orders) n)) ∨
      Seen host orders sender expected (call.before.foldl (Node.step host orders) n) polls := by
  have hone : afterPolls host orders n [call] = call.before.foldl (Node.step host orders) n := by
    rw [afterPolls_cons]
    rfl
  constructor
  · rintro ⟨before, call', after, heq, hup, hle⟩
    rcases List.cons_eq_append_iff.mp heq with ⟨rfl, hcall⟩ | ⟨before', rfl, rfl⟩
    · obtain ⟨rfl, rfl⟩ := List.cons.inj hcall
      rw [List.nil_append, hone] at hle
      exact .inl ⟨hup, hle⟩
    · rw [List.cons_append, afterPolls_cons] at hle
      exact .inr ⟨before', call', after, rfl, hup, hle⟩
  · rintro (⟨hup, hle⟩ | ⟨before, call', after, rfl, hup, hle⟩)
    · refine ⟨[], call, polls, rfl, hup, ?_⟩
      rwa [List.nil_append, hone]
    · refine ⟨call :: before, call', after, rfl, hup, ?_⟩
      rwa [List.cons_append, afterPolls_cons]

/-- What the polls are made against: the nonce is the number of receipts. -/
def Counts (sender : Address) (n : Node) : Prop :=
  (n.executor.state.getNonce sender).toNat = confirmedOf sender n

theorem ReadsBack.rpcGetNonce_post (h : ReadsBack libs) (n : Node) (link : Link)
    (sender : Address) :
    rpcGetNonce (link.post libs host n) sender
      = if link = .up then some (n.executor.state.getNonce sender) else none := by
  cases link with
  | down => rfl
  | lost => rfl
  | up => exact h.rpcGetNonce_serveJson host _ sender

/-- The polling loop returns no more than there are receipts, and reaches
what it waits for just when a poll has seen it. -/
theorem ReadsBack.waitForConfirmations_spec (h : ReadsBack libs) {sender : Address}
    (expected : UInt64) (polls : List Call) (n : Node) (confirmed : UInt64)
    (hcounts : ∀ steps : List NodeStep, Counts sender (steps.foldl (Node.step host orders) n))
    (hle : confirmed.toNat ≤ confirmedOf sender n) :
    let (nonce, node) := waitForConfirmations libs host orders sender expected n confirmed polls
    nonce.toNat ≤ confirmedOf sender node ∧
      (expected ≤ nonce ↔ Seen host orders sender expected.toNat n polls ∨
        ((∀ call ∈ polls, call.link ≠ .up) ∧ expected ≤ confirmed)) := by
  induction polls generalizing n confirmed with
  | nil => simp [waitForConfirmations, hle, Seen]
  | cons call polls ih =>
    have hrun := confirmedOf_run host orders sender n call.before
    have hnext : ∀ steps : List NodeStep, Counts sender (steps.foldl (Node.step host orders)
        (call.before.foldl (Node.step host orders) n)) := by
      intro steps
      rw [← List.foldl_append]
      exact hcounts (call.before ++ steps)
    rw [waitForConfirmations, h.rpcGetNonce_post, serve_nonceRequest, seen_cons]
    generalize call.before.foldl (Node.step host orders) n = m at hrun hnext ⊢
    have hcount : (m.executor.state.getNonce sender).toNat = confirmedOf sender m := hnext []
    have hsaw : expected.toNat ≤ confirmedOf sender m ↔
        expected ≤ m.executor.state.getNonce sender := by
      rw [← hcount, UInt64.le_iff_toNat_le]
    by_cases hup : call.link = .up
    · by_cases hreached : expected ≤ m.executor.state.getNonce sender
      · simp [hup, hsaw, hreached, hcount]
      · simpa [hup, hsaw, hreached] using ih m _ hnext hcount.le
    · simpa [hup] using ih m confirmed hnext (hle.trans hrun)

end Run

/-! ## The report -/

theorem genesisNonce_bench (sender recipient a : Address) :
    genesisNonce (benchEvmGenesis sender recipient) a = 0 := by
  simp only [genesisNonce, benchEvmGenesis]
  by_cases hr : recipient = a
  · simp [← hr]
  · rw [FMap.get_insert_of_ne _ _ hr]
    by_cases hs : sender = a
    · simp [← hs]
    · rw [FMap.get_insert_of_ne _ _ hs]
      simp

theorem submitted_runBench (libs : RpcLibs) (host : Host) (orders : Nat → FlushOrder)
    (sender recipient : Address) (sends : List (Call × Bytes)) (polls : List Call) :
    (runBench libs host orders sender recipient sends polls).submitted
      = .ofNat (sends.countP (·.1.link = .up)) :=
  (submitLoop_submitted _ 0 sends).trans (UInt64.zero_add _)

theorem ReadsBack.loaded_runBench {libs : RpcLibs} (h : ReadsBack libs) (host : Host)
    (orders : Nat → FlushOrder) (sender recipient : Address) (sends : List (Call × Bytes))
    (polls : List Call) :
    (runBench libs host orders sender recipient sends polls).loaded
      = (loadSteps sends).foldl (Node.step host orders)
          (.fromGenesis host (benchEvmGenesis sender recipient)) :=
  h.submitLoop_run _ _ sends

/-- **The benchmark reports what is on chain.** Whatever it submits, and
whatever the node does between its requests: it counts the submissions
that were answered, the transactions it reports as confirmed are at most
the receipts of its sender, and it gives no warning just when it counted
none or a poll got through when the sender had as many receipts. -/
theorem bench_confirms_receipts (libs : RpcLibs) (hlibs : ReadsBack libs) (host : Host)
    (hrevm : host.revm.RaisesNonce host.alloy) (orders : Nat → FlushOrder)
    (sender recipient : Address) (hsender : IsSigner host.alloy sender)
    (sends : List (Call × Bytes)) (polls : List Call) :
    let r := runBench libs host orders sender recipient sends polls
    r.submitted = .ofNat (sends.countP (·.1.link = .up)) ∧
      r.confirmed.toNat ≤ confirmedOf sender r.node ∧
      (r.submitted ≤ r.confirmed ↔
        r.submitted = 0 ∨ Seen host orders sender r.submitted.toNat r.loaded polls) := by
  intro r
  have hloaded := hlibs.loaded_runBench host orders sender recipient sends polls
  have hcounts : ∀ steps : List NodeStep,
      Counts sender (steps.foldl (Node.step host orders) r.loaded) := by
    intro steps
    have hrun : (loadSteps sends ++ steps).foldl (Node.step host orders)
        (.fromGenesis host (benchEvmGenesis sender recipient))
          = steps.foldl (Node.step host orders) r.loaded := by
      rw [List.foldl_append, ← hloaded]
    have hnonce := getNonce_run hrevm hrun hsender
    rwa [genesisNonce_bench, UInt64.toNat_zero, Nat.zero_add] at hnonce
  obtain ⟨hle, hiff⟩ := hlibs.waitForConfirmations_spec r.submitted polls r.loaded 0
    hcounts (Nat.zero_le _)
  refine ⟨submitted_runBench .., hle, hiff.trans ⟨?_, ?_⟩⟩
  · rintro (hseen | ⟨-, hzero⟩)
    · exact .inr hseen
    · exact .inl (UInt64.le_zero_iff.mp hzero)
  · rintro (hzero | hseen)
    · by_cases hup : ∃ call ∈ polls, call.link = .up
      · obtain ⟨call, hmem, hlink⟩ := hup
        obtain ⟨before, after, hpolls⟩ := List.append_of_mem hmem
        exact .inl ⟨before, call, after, hpolls, hlink, by simp [hzero]⟩
      · exact .inr ⟨fun call hmem hlink => hup ⟨call, hmem, hlink⟩, UInt64.le_zero_iff.mpr hzero⟩
    · exact .inl hseen

/-- One transfer is submitted; the first poll is lost, the second sees its
block. -/
def aliceSends : List (Call × Bytes) := [(⟨[], .up⟩, alice0.raw)]

def alicePolls : List Call := [⟨[], .lost⟩, ⟨[.executeBlock [alice0.raw] block1], .up⟩]

/-- It is reported as confirmed, and is. -/
theorem bench_confirms_alice :
    let r := runBench sampleLibs sampleHost ascendingFlush alice0.sender 0 aliceSends alicePolls
    r.submitted = 1 ∧ r.submitted ≤ r.confirmed ∧
      r.confirmed.toNat ≤ confirmedOf alice0.sender r.node := by
  have hsigner : IsSigner sampleHost.alloy alice0.sender := ⟨alice0.envelope, by decide +kernel⟩
  have hseen : Seen sampleHost ascendingFlush alice0.sender 1 ((loadSteps aliceSends).foldl
      (Node.step sampleHost ascendingFlush)
        (.fromGenesis sampleHost (benchEvmGenesis alice0.sender 0))) alicePolls :=
    ⟨[⟨[], .lost⟩], _, [], rfl, rfl, by decide +kernel⟩
  have hbench := bench_confirms_receipts sampleLibs readsBack_sampleLibs sampleHost
    (transferRevm_raisesNonce _) ascendingFlush alice0.sender 0 hsigner aliceSends alicePolls
  rw [← readsBack_sampleLibs.loaded_runBench sampleHost ascendingFlush alice0.sender 0 aliceSends
    alicePolls] at hseen
  generalize runBench sampleLibs sampleHost ascendingFlush alice0.sender 0 aliceSends alicePolls
    = r at hbench hseen ⊢
  obtain ⟨hsubmitted, hle, hiff⟩ := hbench
  have hone : r.submitted = 1 := hsubmitted
  refine ⟨hone, hiff.mpr (.inr ?_), hle⟩
  rw [hone]
  exact hseen

end Nbnet.Rpc
