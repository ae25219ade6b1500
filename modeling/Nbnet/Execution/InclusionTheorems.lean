/-
Nbnet.Execution.InclusionTheorems — the best paying valid transaction is in
the next block.

From a commit until the next block the pool holds nothing below the
account nonces, so a transaction accepted at its sender's nonce is the
sender's candidate (`lowest_submitted`). If it also pays the best tip it
heads the payload (`heads_payload`), so the executor meets it in the state
`validate_tx` has seen, and it has a receipt (`executes_first`). The rules
`validate_tx` lacks are a condition, as in `validated_executes_iff`, and so
is room for it in a payload: the pool takes transactions of any length.
-/
import Nbnet.Execution.FreshTheorems
import Nbnet.Execution.GasTheorems
import Nbnet.Execution.IndexTheorems
import Nbnet.Execution.TraceTheorems
import Nbnet.Execution.ValidationTheorems
import Nbnet.Txpool.DrainTheorems

namespace Nbnet.Execution

open Lib State Txpool

/-! ## In the pool -/

section Submitted

variable {al : Alloy} {config : EvmTxPoolConfig} {f : Address → UInt64} {pool : PoolInner}
  {raw : Bytes} {v : VerifiedTx}

/-- The entry of a transaction that was submitted. -/
def pickOf (config : EvmTxPoolConfig) (v : VerifiedTx) : Pick where
  sender := v.sender
  nonce := v.envelope.nonce
  entry := entryOf config v

/-- A transaction stored at its sender's nonce is the lowest one pending. -/
theorem lowest_submitted (hsound : Sound al pool) (hcurrent : Current pool f)
    (hdec : decodeAndRecover al raw = .ok v) (hnonce : v.envelope.nonce = f v.sender)
    {hash : B256} (hsent : (submitTx al config (some f) pool raw).1 = .ok hash) :
    (pickOf config v).Lowest (submitTx al config (some f) pool raw).2 := by
  have hafter := hsound.applyOp config (.submit (some f) raw)
  have hcurrent' := hcurrent.submit hsound config raw
  constructor
  · obtain ⟨old, htakes, -, hpool⟩ := submitTx_ok hdec (Prod.ext hsent rfl)
    have hslot : targetSlot (some f) pool v = .pending := if_pos (.inl hnonce)
    have hplaced := (htakes.storedIn (hsound.inv.queueOf_zero _)
      (reindex pool.byHash old v.txHash v.sender)).placed
    rw [hslot] at hplaced
    rcases hplaced with hp | ⟨hqueued, -⟩
    · exact (congrArg (fun p => (queueOf p v.sender).pending[v.envelope.nonce]?) hpool).trans hp
    · cases hqueued
  · intro n hn
    obtain ⟨e, he⟩ := Option.isSome_iff_exists.mp hn
    obtain ⟨-, hkey⟩ := hafter.filed v.sender .pending n e he
    have hheld := (mem_held_iff _ v.sender e).mpr ⟨.pending, n, he⟩
    have hfresh : ¬ e.verified.envelope.nonce < f v.sender := hcurrent' _ hheld
    rw [hkey, ← hnonce, UInt64.lt_iff_toNat_lt] at hfresh
    exact Nat.le_of_not_lt hfresh

end Submitted

/-! ## In the payload -/

section Payload

variable {pool : PoolInner} {it : IterOrder Address SenderQueue}

/-- The candidate with the best tip comes first. -/
theorem sortByTip_best {p : Pick} (hp : p.Lowest pool)
    (hbest : ∀ c ∈ candidates it pool, c.sender ≠ p.sender → c.tip < p.entry.effectiveTip) :
    ∃ rest, sortByTip (candidates it pool) = p.candidate :: rest := by
  have hmem : p.candidate ∈ sortByTip (candidates it pool) :=
    (sortByTip_perm _).mem_iff.mpr (mem_candidates_of_toList it hp.toList)
  have hnodup : ((sortByTip (candidates it pool)).map Candidate.sender).Nodup :=
    ((sortByTip_perm _).map _).nodup_iff.mpr (candidates_nodup it pool)
  have hsorted := sortByTip_sorted (candidates it pool)
  obtain ⟨c, rest, hcons⟩ := List.exists_cons_of_ne_nil (List.ne_nil_of_mem hmem)
  have hc : c ∈ candidates it pool :=
    (sortByTip_perm _).mem_iff.mp (hcons ▸ List.mem_cons_self ..)
  rw [hcons] at hmem hnodup hsorted
  rcases List.mem_cons.mp hmem with rfl | hrest
  · exact ⟨rest, hcons⟩
  · -- somebody else in front would pay at least as much
    have hsender : c.sender ≠ p.sender := by
      intro heq
      exact (List.nodup_cons.mp hnodup).1 (List.mem_map.mpr ⟨_, hrest, heq.symm⟩)
    have hle : p.entry.effectiveTip ≤ c.tip := (List.pairwise_cons.mp hsorted).1 _ hrest
    exact absurd (hbest c hc hsender) (UInt64.not_lt.mpr hle)

/-- It heads the payload. -/
theorem heads_payload {p : Pick} {maxBytes : Nat} (maxGas : UInt64) (hmax : maxBytes < 2 ^ 32)
    (hp : p.Lowest pool)
    (hbest : ∀ c ∈ candidates it pool, c.sender ≠ p.sender → c.tip < p.entry.effectiveTip)
    (hbytes : 4 + p.entry.verified.raw.length ≤ maxBytes)
    (hgas : ¬ (maxGas > 0 ∧ p.entry.verified.envelope.gasLimit > maxGas)) :
    ∃ rest, parseRecords 4 (collectPayload it pool maxBytes maxGas).1
      = some (p.entry.verified.raw :: rest) := by
  obtain ⟨others, hsorted⟩ := sortByTip_best hp hbest
  obtain ⟨cs, hinc⟩ := takes_first hsorted hbytes (by rwa [hp.candidateGas])
  obtain ⟨picked, hsel⟩ := exists_selected it pool maxBytes maxGas
  have hparses := parses_selected hmax hsel
  cases picked with
  | nil =>
    rw [hsel.included] at hinc
    cases hinc
  | cons q picked =>
    rw [hsel.included, List.map_cons] at hinc
    obtain ⟨hq, -⟩ := List.cons.inj hinc
    have hraw : q.entry.verified.raw = p.entry.verified.raw := congrArg Candidate.raw hq
    rw [List.map_cons, hraw] at hparses
    exact ⟨_, hparses⟩

end Payload

/-! ## In the block -/

section Block

variable {host : Host} {config : EvmChainConfig} {ctx : BlockContext}

/-- What a sender could have executed depends on the state only. -/
theorem Executable.of_state {e e' : EvmExecutor} {raw : Bytes} {v : VerifiedTx}
    (h : Executable host e raw v) (hstate : e'.state = e.state) : Executable host e' raw v where
  decoded := h.decoded
  txType := h.txType
  codeHash := hstate ▸ h.codeHash
  code := hstate ▸ h.code
  nonce := hstate ▸ h.nonce
  nonceRoom := h.nonceRoom
  funds := by
    have hfunds := h.funds
    simp only [EvmExecutor.config, hstate] at hfunds ⊢
    exact hfunds
  initCode := h.initCode

variable (host config ctx) in
/-- Receipts once made stay in front. -/
theorem receipts_executeLoop (i : Nat) (l : Loop) (vs : List VerifiedTx) :
    l.receipts <+: (executeLoop host config ctx i l vs).1.receipts := by
  refine executeLoop_induct (motive := fun l' _ => l.receipts <+: l'.receipts) [] i
    (List.prefix_refl _) ?_ ?_
  · intro l' ex v err _ h _ _
    exact h
  · intro l' ex i v run _ h _ _
    exact h.trans (List.prefix_append _ _)

/-- The first transaction of a block is committed when revm runs it. -/
theorem executeTx_first {e : EvmExecutor} {v : VerifiedTx} {run : Executed} (ctx : BlockContext)
    (hnonce : v.envelope.nonce = e.state.getNonce v.sender)
    (hgas : v.envelope.gasLimit ≤ e.config.blockGasLimit)
    (hout : (transactTx host e.config ctx (startLoop e ctx) v).outcome = .ok run) :
    executeTx host e.config ctx (startLoop e ctx) 0 v
      = .commit ((startLoop e ctx).committed host e.config ctx 0 v
          (transactTx host e.config ctx (startLoop e ctx) v) run) := by
  have hstart : v.envelope.nonce = (startLoop e ctx).state.getNonce v.sender := by
    rw [startLoop, startBlock_getNonce]
    exact hnonce
  have hfits : ¬ satAdd64 (startLoop e ctx).cumulativeGasUsed v.envelope.gasLimit
      > e.config.blockGasLimit := by
    have hle := UInt64.le_iff_toNat_le.mp hgas
    have hzero : (startLoop e ctx).cumulativeGasUsed.toNat = 0 := rfl
    rw [gt_iff_lt, UInt64.lt_iff_toNat_lt, satAdd64_toNat]
    omega
  unfold executeTx
  rw [if_neg (not_not_intro hstart), if_neg hfits]
  simp only [hout]

/-- A valid transaction in front of a block has the block's first
receipt. -/
theorem executes_first (e : EvmExecutor) {raw : Bytes} {v : VerifiedTx} (order : FlushOrder)
    (ctx : BlockContext) (rest : List Bytes) (hrevm : host.revm.AppliesRules)
    (htidy : e.state.db.Tidy) (hexec : Executable host e raw v)
    (hok : e.validateVerified v = .ok ()) (hrules : KeepsEngineRules e.config.baseFeePerGas v) :
    ∃ r receipts, (e.executeBlock host order (raw :: rest) ctx).2.receipts
        = e.receipts ++ [r :: receipts] ∧
      r.txHash = v.txHash ∧ r.txIndex = 0 ∧ r.blockNumber = ctx.height ∧ r.sender = v.sender := by
  obtain ⟨-, hpass⟩ := (validateVerified_ok_iff e v).mp hok
  obtain ⟨run, hout⟩ := (hrevm _ _ _ _ (startLoop e ctx).staking.getStake
    (hexec.senderReady htidy ctx hpass.gasLimit)).mpr
      ((engineRules_iff ctx hexec hpass.chainId).mpr hrules)
  have hturn := executeTx_first ctx hexec.nonce hpass.gasLimit hout
  obtain ⟨receipts, hreceipts⟩ := receipts_executeLoop host e.config ctx 1
    ((startLoop e ctx).committed host e.config ctx 0 v
      (transactTx host e.config ctx (startLoop e ctx) v) run) (decodeAll host rest)
  have hblock : (runBlock host e (raw :: rest) ctx).1.receipts
      = receiptOf host e.config ctx 0 v (satAdd64 0 run.result.gasUsed) run.result :: receipts := by
    have hrun : runBlock host e (raw :: rest) ctx
        = executeLoop host e.config ctx 0 (startLoop e ctx) (v :: decodeAll host rest) := by
      rw [← decodeAll_cons_ok rest hexec.decoded]
      rfl
    simp only [hrun, executeLoop, hturn]
    exact hreceipts.symm
  exact ⟨_, receipts, congrArg (fun b => e.receipts ++ [b]) hblock, rfl, rfl, rfl, rfl⟩

end Block

/-- **The best paying valid transaction is in the next block.** In every
run from every genesis, from any commit until the next block: a
transaction that `validate_tx` accepts and revm's rules allow, that is at
its sender's nonce and accepted by the pool, whose record of four bytes and
the transaction fits the 4 MiB of a payload, and that pays a better tip
than any other sender's candidate, heads the payload. When that payload is
executed it has the block's first receipt, which a lookup by its hash
returns, and after the commit the pool does not hold it any more. -/
theorem best_paid_included (host : Host) (hhash : HashDetermines host.alloy)
    (hraises : host.revm.RaisesNonce host.alloy) (hrevm : host.revm.AppliesRules)
    (orders : Nat → FlushOrder) (genesis : EvmGenesis) (before after : List NodeStep)
    (it : IterOrder Address SenderQueue) (ctx : BlockContext)
    (hafter : ∀ s ∈ after, s.isBlock = false) (raw : Bytes) (v : VerifiedTx)
    (itPayload itCommit : IterOrder Address SenderQueue) (ctxNext : BlockContext) :
    let n := (before ++ .onCommit it ctx :: after).foldl (Node.step host orders)
      (.fromGenesis host genesis)
    let sent := n.executor.submitRawTx host raw
    Executable host n.executor raw v → n.executor.validateVerified v = .ok () →
      KeepsEngineRules n.executor.config.baseFeePerGas v → sent.1 = .ok v.txHash →
      4 + raw.length ≤ 4 * 1024 * 1024 →
      (∀ c ∈ candidates itPayload sent.2.txpool, c.sender ≠ v.sender →
        c.tip < effectiveGasTip v.envelope n.executor.config.baseFeePerGas) →
      ∃ rest r, parseRecords 4 (sent.2.createPayload itPayload).1 = some (raw :: rest) ∧
        let e := ([.submitRawTx raw, .createPayload itPayload, .executeBlock (raw :: rest) ctxNext,
          .onCommit itCommit ctxNext].foldl (Node.step host orders) n).executor
        e.getReceiptByTxHash v.txHash = some r ∧ r.txIndex = 0 ∧
          r.blockNumber = ctxNext.height ∧ r.sender = v.sender ∧
          ∀ x ∈ held e.txpool, x.2.verified.txHash ≠ v.txHash := by
  intro n sent hexec hok hrules hsent hbytes hbest
  have hsound : Sound host.alloy n.executor.txpool := sound_run host orders genesis _
  have hcurrent : n.Current := current_run host orders genesis before after it ctx hafter
  have hraw : v.raw = raw := (decodeAndRecover_ok hexec.decoded).1
  obtain ⟨-, hpass⟩ := (validateVerified_ok_iff n.executor v).mp hok
  have hlow : (pickOf n.executor.poolConfig v).Lowest sent.2.txpool :=
    lowest_submitted hsound hcurrent hexec.decoded hexec.nonce hsent
  obtain ⟨rest, hparses⟩ := heads_payload n.executor.config.blockGasLimit
    (show 4 * 1024 * 1024 < 2 ^ 32 by decide) hlow hbest
    (show 4 + v.raw.length ≤ _ from hraw ▸ hbytes)
    fun h => UInt64.not_lt.mpr hpass.gasLimit h.2
  have htidy : n.executor.state.db.Tidy := Reachable.tidy ⟨orders, genesis, _, rfl⟩
  let payloadStep := (sent.2.createPayload itPayload).2
  obtain ⟨r, receipts, hblock, hrhash, hindex, hnumber, hsender⟩ :=
    executes_first payloadStep (orders payloadStep.receipts.length) ctxNext rest hrevm htidy
      (hexec.of_state rfl) hok hrules
  refine ⟨rest, r, ?_, ?_⟩
  · rw [← hraw]
    exact hparses
  · let steps := before ++ .onCommit it ctx :: after ++
      [.submitRawTx raw, .createPayload itPayload, .executeBlock (raw :: rest) ctxNext]
    have hrun : [NodeStep.submitRawTx raw, .createPayload itPayload,
        .executeBlock (raw :: rest) ctxNext, .onCommit itCommit ctxNext].foldl
          (Node.step host orders) n
        = (steps ++ NodeStep.onCommit itCommit ctxNext :: []).foldl (Node.step host orders)
            (.fromGenesis host genesis) := by
      simp [steps, n]
    intro e
    have hmem : r ∈ e.receipts.flatten := by
      have hreceipts : e.receipts = payloadStep.receipts ++ [r :: receipts] := hblock
      simp [hreceipts]
    have hcurrent' := current_run host orders genesis steps [] itCommit ctxNext (by simp)
    have hfresh := hcurrent'.no_receipt hhash hraises
    obtain ⟨history, hnode, ho⟩ := exists_ordered hraises orders genesis
      (steps ++ .onCommit itCommit ctxNext :: [])
    have hnodup := ho.nodup hhash
    rw [hnode, ← hrun] at hnodup
    rw [← hrun] at hfresh
    refine ⟨(getReceiptByTxHash_eq_some_iff hnodup).mpr ⟨hmem, hrhash⟩, hindex, hnumber, hsender,
      fun x hx heq => ?_⟩
    exact (hfresh x hx).2 r hmem (hrhash.trans heq.symm)

/-! ### Alice's transfer -/

theorem ruledRevm_raisesNonce (al : Alloy) : ruledRevm.RaisesNonce al := by
  intro chainId block tx view getStake run hout
  simp only [ruledRevm] at hout
  split at hout
  · rename_i hvalid
    cases htransfer : (transferRevm.transact chainId block tx view getStake).outcome with
    | ok run' =>
      simp only [htransfer] at hout
      exact transferRevm_raisesNonce al _ _ _ _ getStake _ (htransfer.trans hout)
    | error err =>
      simp only [htransfer] at hout
      obtain ⟨hnonce, hmax, -⟩ := hvalid.2
      rw [hnonce] at hmax
      rw [← Except.ok.inj hout]
      simp only [changedInfo, List.foldl_cons, List.foldl_nil, FMap.get_insert]
      refine ⟨?_, fun a _ hne => ?_⟩
      · by_cases hb : block.beneficiary = tx.caller
        · simpa [hb, burned] using toNat_succ64 _ hmax
        · simpa [hb, burned] using toNat_succ64 _ hmax
      · by_cases hb : block.beneficiary = a
        · simp [hb, burned, hne]
        · simp [hb, Ne.symm hne]
  · cases hout

theorem hashDetermines_ruledHost : HashDetermines ruledHost.alloy :=
  hashDetermines_ofTable (by decide +kernel) (by decide +kernel)

/-- After an empty block and its commit Alice sends her transfer, and it is
the next block. -/
theorem best_paid_included_alice :
    let n := ([.executeBlock [] block1, .onCommit .ascending block1] : List NodeStep).foldl
      (Node.step ruledHost ascendingFlush) (.fromGenesis sampleHost aliceGenesis)
    let sent := n.executor.submitRawTx ruledHost alice0.raw
    HashDetermines ruledHost.alloy ∧ ruledHost.revm.RaisesNonce ruledHost.alloy ∧
      ruledHost.revm.AppliesRules ∧ Executable ruledHost n.executor alice0.raw alice0 ∧
      n.executor.validateVerified alice0 = .ok () ∧ sent.1 = .ok alice0.txHash ∧
      ∃ rest r, parseRecords 4 (sent.2.createPayload .ascending).1 = some (alice0.raw :: rest) ∧
        (([.submitRawTx alice0.raw, .createPayload .ascending,
          .executeBlock (alice0.raw :: rest) block2, .onCommit .ascending block2] :
            List NodeStep).foldl (Node.step ruledHost ascendingFlush)
              n).executor.getReceiptByTxHash alice0.txHash = some r := by
  intro n sent
  have hexec : Executable ruledHost n.executor alice0.raw alice0 := by
    constructor <;> decide +kernel
  have hok : n.executor.validateVerified alice0 = .ok () := by decide +kernel
  have hrules : KeepsEngineRules n.executor.config.baseFeePerGas alice0 := by
    constructor <;> decide +kernel
  have hsent : sent.1 = .ok alice0.txHash := by decide +kernel
  have hbest : ∀ c ∈ candidates .ascending sent.2.txpool, c.sender ≠ alice0.sender →
      c.tip < effectiveGasTip alice0.envelope n.executor.config.baseFeePerGas := by
    decide +kernel
  obtain ⟨rest, r, hparses, hfound, -⟩ := best_paid_included ruledHost hashDetermines_ruledHost
    (ruledRevm_raisesNonce _) ruledRevm_appliesRules ascendingFlush aliceGenesis
    [.executeBlock [] block1] [] .ascending block1 (by simp) alice0.raw alice0 .ascending .ascending
    block2 hexec hok hrules hsent (by decide +kernel) hbest
  exact ⟨hashDetermines_ruledHost, ruledRevm_raisesNonce _, ruledRevm_appliesRules, hexec, hok,
    hsent, rest, r, hparses, hfound⟩

/-! ## The whole block -/

/-- The turns the loop of a block takes. -/
def turns (host : Host) (config : EvmChainConfig) (ctx : BlockContext) :
    Nat → Loop → List VerifiedTx → List Turn
  | _, _, [] => []
  | i, l, v :: rest =>
      match executeTx host config ctx l i v with
      | .skip => .skip :: turns host config ctx (i + 1) l rest
      | .stop => [.stop]
      | .reject l' => .reject l' :: turns host config ctx (i + 1) l' rest
      | .commit l' => .commit l' :: turns host config ctx (i + 1) l' rest

/-- Whether the transaction of a turn was put to revm. -/
def Turn.reachesRevm : Turn → Bool
  | .skip | .stop => false
  | .reject _ | .commit _ => true

def Turn.isCommit : Turn → Bool
  | .commit _ => true
  | _ => false

section Turns

variable {host : Host} {config : EvmChainConfig} {ctx : BlockContext}

/-- The receipts of a loop are those of its commits. -/
theorem receipts_turns (i : Nat) (l : Loop) (vs : List VerifiedTx) :
    (executeLoop host config ctx i l vs).1.receipts.map (·.txHash)
      = l.receipts.map (·.txHash)
        ++ ((vs.zip (turns host config ctx i l vs)).filter (·.2.isCommit)).map (·.1.txHash) := by
  induction vs generalizing i l with
  | nil => simp [executeLoop, turns]
  | cons v vs ih =>
    rcases executeTx_cases host config ctx l i v with
      ⟨-, heq⟩ | ⟨-, ⟨-, heq⟩ | ⟨-, ⟨err, -, heq⟩ | ⟨run, -, heq⟩⟩⟩
    · simp [executeLoop, turns, heq, ih, Turn.isCommit]
    · simp [executeLoop, turns, heq, Turn.isCommit]
    · simp [executeLoop, turns, heq, ih, Turn.isCommit, Loop.rejected]
    · have hnew : (l.committed host config ctx i v (transactTx host config ctx l v)
          run).receipts.map (·.txHash) = l.receipts.map (·.txHash) ++ [v.txHash] := by
        simp only [Loop.committed, List.map_append]
        rfl
      simp only [executeLoop, turns, heq, ih, hnew]
      simp [Turn.isCommit]

/-- Transactions of different signers, each at its sender's nonce, whose
gas limits fit are all put to revm: none of them moves another's nonce. -/
theorem turns_reach_revm (config : EvmChainConfig) (ctx : BlockContext)
    (hraises : host.revm.RaisesNonce host.alloy) (hgas : host.revm.GasWithinLimit) (i : Nat)
    (l : Loop) (htidy : l.state.db.Tidy)
    {vs : List VerifiedTx} (hnodup : (vs.map VerifiedTx.sender).Nodup)
    (hsigner : ∀ v ∈ vs, IsSigner host.alloy v.sender)
    (hready : ∀ v ∈ vs, v.envelope.nonce = l.state.getNonce v.sender)
    (hfit : l.cumulativeGasUsed.toNat + gasLimits vs ≤ config.blockGasLimit.toNat) :
    (turns host config ctx i l vs).length = vs.length ∧
      ∀ t ∈ turns host config ctx i l vs, t.reachesRevm = true := by
  induction vs generalizing i l with
  | nil => simp [turns]
  | cons v vs ih =>
    obtain ⟨hfresh, hnodup⟩ := List.nodup_cons.mp hnodup
    obtain ⟨-, hsigner⟩ := List.forall_mem_cons.mp hsigner
    obtain ⟨hnonce, hready⟩ := List.forall_mem_cons.mp hready
    have hcons : gasLimits (v :: vs) = v.envelope.gasLimit.toNat + gasLimits vs := by
      simp [gasLimits]
    have hlim := config.blockGasLimit.toNat_lt
    rcases executeTx_cases host config ctx l i v with
      ⟨hskip, -⟩ | ⟨-, ⟨hover, -⟩ | ⟨-, ⟨err, -, heq⟩ | ⟨run, hout, heq⟩⟩⟩
    · exact absurd hnonce hskip
    · rw [gt_iff_lt, UInt64.lt_iff_toNat_lt, satAdd64_toNat] at hover
      omega
    · have hrest := ih (i + 1) (l.rejected (transactTx host config ctx l v)) (htidy.loads _)
        hnodup hsigner (fun w hw => by rw [rejected_getNonce, hready w hw])
        (show l.cumulativeGasUsed.toNat + _ ≤ _ by omega)
      simpa [turns, heq, Turn.reachesRevm] using hrest
    · obtain ⟨-, hkeep⟩ := hraises _ _ _ _ _ _ hout
      simp only [htidy.view_account, txEnvOf_caller] at hkeep
      have hused := hgas _ _ _ _ _ _ hout
      rw [txEnvOf_gasLimit] at hused
      have hrest := ih (i + 1)
        (l.committed host config ctx i v (transactTx host config ctx l v) run)
        ((htidy.loads _).commit _) hnodup hsigner (fun w hw => ?_) ?_
      · simpa [turns, heq, Turn.reachesRevm] using hrest
      · have hne : w.sender ≠ v.sender := fun h => hfresh (List.mem_map.mpr ⟨w, hw, h⟩)
        rw [committed_getNonce, hkeep _ (hsigner w hw) hne, hready w hw, getNonce_eq_entry]
      · simp only [Loop.committed, satAdd64_toNat]
        omega

end Turns

/-- **Every proposed transaction is put to revm.** In every run from every
genesis, whatever the order of the hash table: if the block gas limit is
not zero (the pool reads zero as no limit, the executor as no gas), the
candidates of the pool are at their senders' nonces and the walk over them
does not wrap the sum of gas limits, the block made of the node's own
payload skips no transaction for its nonce and is not stopped for its gas.
Its receipts are those of the transactions revm ran, in payload order. -/
theorem proposals_reach_revm (host : Host) (hraises : host.revm.RaisesNonce host.alloy)
    (hgas : host.revm.GasWithinLimit) (orders : Nat → FlushOrder) (genesis : EvmGenesis)
    (steps : List NodeStep) (it : IterOrder Address SenderQueue) (order : FlushOrder)
    (ctx : BlockContext) :
    let e := (steps.foldl (Node.step host orders) (.fromGenesis host genesis)).executor
    0 < e.config.blockGasLimit →
      (∀ c ∈ candidates it e.txpool, c.nonce = e.state.getNonce c.sender) →
      NoWrap e.txpool (4 * 1024 * 1024) e.config.blockGasLimit 0 0
        (sortByTip (candidates it e.txpool)) →
      ∃ (vs : List VerifiedTx) (block : List EvmReceipt),
        parseRecords 4 (e.createPayload it).1 = some (vs.map (·.raw)) ∧
        ((e.createPayload it).2.executeBlock host order (vs.map (·.raw)) ctx).2.receipts
          = e.receipts ++ [block] ∧
        let ts := turns host e.config ctx 0 (startLoop e ctx) vs
        ts.length = vs.length ∧ (∀ t ∈ ts, t.reachesRevm = true) ∧
          block.map (·.txHash) = ((vs.zip ts).filter (·.2.isCommit)).map (·.1.txHash) := by
  intro e hpos hready hwrap
  have hsound : Sound host.alloy e.txpool := sound_run host orders genesis steps
  have htidy : e.state.db.Tidy := Reachable.tidy ⟨orders, genesis, steps, rfl⟩
  obtain ⟨picked, hsel⟩ := exists_selected it e.txpool (4 * 1024 * 1024) e.config.blockGasLimit
  let vs := picked.map fun p => p.entry.verified
  have hpick : ∀ p ∈ picked, decodeAndRecover host.alloy p.entry.verified.raw
        = .ok p.entry.verified ∧ p.entry.verified.sender = p.sender ∧
      p.entry.verified.envelope.nonce = e.state.getNonce p.sender := by
    intro p hp
    have hpending := (hsel.lowest p hp).pending
    have hheld := (mem_held_iff _ p.sender p.entry).mpr ⟨.pending, p.nonce, hpending⟩
    obtain ⟨hsender, hnonce⟩ := hsound.filed p.sender .pending p.nonce p.entry hpending
    refine ⟨hsound.genuine _ hheld, hsender, hnonce.trans ?_⟩
    exact hready p.candidate (mem_candidates_of_toList it (hsel.lowest p hp).toList)
  have hdec : decodeAll host (vs.map (·.raw)) = vs := by
    refine decodeAll_raw fun v hv => ?_
    obtain ⟨p, hp, rfl⟩ := List.mem_map.mp hv
    exact (hpick p hp).1
  have hsenders : vs.map VerifiedTx.sender = picked.map Pick.sender := by
    rw [List.map_map]
    exact List.map_congr_left fun p hp => (hpick p hp).2.1
  have hraws : (selection it e.txpool (4 * 1024 * 1024)
      e.config.blockGasLimit).included.map (·.raw) = vs.map (·.raw) := by
    rw [hsel.included, List.map_map, List.map_map]
    rfl
  have hfit : gasLimits vs ≤ e.config.blockGasLimit.toNat := by
    have hexact := (selectLoop_exact_iff e.txpool (4 * 1024 * 1024) hpos
      (sortByTip (candidates it e.txpool)) {} rfl (Nat.zero_le _)).mpr hwrap
    have hsum := gasLimits_decodeAll hsound.genuine it
      (selection it e.txpool (4 * 1024 * 1024) e.config.blockGasLimit).included
      fun c hc => mem_selection hc
    rw [hraws, hdec] at hsum
    rw [hsum]
    exact hexact
  obtain ⟨hlen, hreach⟩ := turns_reach_revm e.config ctx hraises hgas 0 (startLoop e ctx)
    (tidy_startBlock htidy ctx) (hsenders ▸ hsel.onePerSender)
    (fun v hv => by
      obtain ⟨p, hp, rfl⟩ := List.mem_map.mp hv
      exact ⟨_, (decodeAndRecover_ok (hpick p hp).1).2.1⟩)
    (fun v hv => by
      obtain ⟨p, hp, rfl⟩ := List.mem_map.mp hv
      rw [startLoop, startBlock_getNonce, (hpick p hp).2.1, (hpick p hp).2.2])
    (by simpa [startLoop] using hfit)
  refine ⟨vs, _, ?_, rfl, hlen, hreach, ?_⟩
  · rw [List.map_map]
    exact parses_selected (by decide) hsel
  · have hrun : runBlock host (e.createPayload it).2 (vs.map (·.raw)) ctx
        = executeLoop host e.config ctx 0 (startLoop e ctx) vs := by
      rw [runBlock, hdec]
      rfl
    rw [hrun, receipts_turns]
    rfl

/-- A pool with two of Alice's transactions, of which the first is
proposed. -/
def aliceNode : EvmExecutor :=
  ([.submitRawTx alice0.raw, .submitRawTx alice1.raw] : List NodeStep).foldl
    (Node.step sampleHost ascendingFlush) (.fromGenesis sampleHost aliceGenesis) |>.executor

theorem proposals_reach_revm_alice :
    sampleHost.revm.RaisesNonce sampleHost.alloy ∧ sampleHost.revm.GasWithinLimit ∧
      (∀ c ∈ candidates .ascending aliceNode.txpool,
        c.nonce = aliceNode.state.getNonce c.sender) ∧
      ∃ (vs : List VerifiedTx) (block : List EvmReceipt),
        parseRecords 4 (aliceNode.createPayload .ascending).1 = some (vs.map (·.raw)) ∧
        ((aliceNode.createPayload .ascending).2.executeBlock sampleHost ⟨.ascending, .ascending⟩
          (vs.map (·.raw)) block1).2.receipts = aliceNode.receipts ++ [block] ∧
        (turns sampleHost aliceNode.config block1 0 (startLoop aliceNode block1) vs).length
          = vs.length := by
  have hready : ∀ c ∈ candidates .ascending aliceNode.txpool,
      c.nonce = aliceNode.state.getNonce c.sender := by
    decide +kernel
  have hcs : sortByTip (candidates .ascending aliceNode.txpool)
      = [⟨alice0.sender, 0, 2000000000, alice0.raw⟩] := by
    decide +kernel
  have hgas : (candidateGas aliceNode.txpool
      ⟨alice0.sender, 0, 2000000000, alice0.raw⟩).toNat = 21000 := by
    decide +kernel
  have hlimit : aliceNode.config.blockGasLimit = 30000000 := by decide +kernel
  have hwrap : NoWrap aliceNode.txpool (4 * 1024 * 1024) aliceNode.config.blockGasLimit 0 0
      (sortByTip (candidates .ascending aliceNode.txpool)) := by
    rw [hcs, hlimit]
    simp [NoWrap, hgas]
  obtain ⟨vs, block, hparses, hblock, hlen, -⟩ := proposals_reach_revm sampleHost
    (transferRevm_raisesNonce _) transferRevm_gasWithinLimit ascendingFlush aliceGenesis
    [.submitRawTx alice0.raw, .submitRawTx alice1.raw] .ascending ⟨.ascending, .ascending⟩ block1
    (by decide +kernel) hready hwrap
  exact ⟨transferRevm_raisesNonce _, transferRevm_gasWithinLimit, hready, vs, block, hparses,
    hblock, hlen⟩

end Nbnet.Execution
