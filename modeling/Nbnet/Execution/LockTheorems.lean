/-
Nbnet.Execution.LockTheorems — the order in which a node's operations take
the pool lock and the state lock.

Each operation is the list of its acquisitions and releases of the two
mutexes, `EvmTxPool.inner` and `EvmExecutor.state`, on each of its paths.
`submit_tx` calls the nonce function while it holds the pool lock, and the
function installed by `setup_nonce_fn` takes the state lock. `on_commit`
holds the state lock while it calls into the pool. `create_payload`, by
contrast, drops the state lock before it enters the pool.

`deadlock_free_iff`: any mix of operations in flight is free of deadlock
exactly when it does not have both of the crossing ones.
-/
import Nbnet.Lib.Locks

namespace Nbnet.Execution

open Lib

/-- The two mutexes. -/
inductive NodeLock where
  /-- `EvmTxPool.inner`. -/
  | pool
  /-- `EvmExecutor.state`. -/
  | state
  deriving DecidableEq, Repr

/-- How far a `submit_tx` gets. -/
inductive SubmitPath where
  /-- The bytes do not decode: no lock is taken. -/
  | undecodable
  /-- The hash is already known: the nonce function is not called. -/
  | alreadyKnown
  /-- The nonce function is called. -/
  | lookup
  deriving DecidableEq, Repr

/-- An operation in flight. `decodes` says whether `validate_tx` got past
decoding, `logs` whether `on_commit`'s `info!` evaluates its arguments. -/
inductive NodeOp where
  | submitTx (path : SubmitPath)
  | validateTx (decodes : Bool)
  | executeBlock
  | createPayload
  | onCommit (logs : Bool)
  | query
  | ethCall
  deriving DecidableEq, Repr

/-- A critical section: a body between taking a lock and dropping it. -/
def locked (l : NodeLock) (body : List (LockStep NodeLock)) : List (LockStep NodeLock) :=
  .acquire l :: body ++ [.release l]

/-- The lock steps of an operation. -/
def NodeOp.lockSteps : NodeOp → List (LockStep NodeLock)
  | .submitTx .undecodable => []
  | .submitTx .alreadyKnown => locked .pool []
  | .submitTx .lookup => locked .pool (locked .state [])
  | .validateTx false => []
  | .validateTx true => locked .state []
  | .executeBlock => locked .state []
  -- `self.config()` is a critical section of its own
  | .createPayload => locked .state [] ++ locked .pool []
  -- the pool's `on_commit`, then `pending_count` for the log line
  | .onCommit false => locked .state (locked .pool [])
  | .onCommit true => locked .state (locked .pool [] ++ locked .pool [])
  | .query => locked .state []
  | .ethCall => locked .state []

/-- Pool before state, the order of `submit_tx`. -/
def poolFirst : NodeLock → Nat
  | .pool => 0
  | .state => 1

/-- State before pool, the order of `on_commit`. -/
def stateFirst : NodeLock → Nat
  | .pool => 1
  | .state => 0

theorem ranked_poolFirst {op : NodeOp} (h : ∀ logs, op ≠ .onCommit logs) :
    RankedFrom poolFirst [] op.lockSteps := by
  cases op with
  | submitTx path => cases path <;> simp [NodeOp.lockSteps, locked, RankedFrom, poolFirst]
  | validateTx decodes => cases decodes <;> simp [NodeOp.lockSteps, locked, RankedFrom]
  | onCommit logs => exact absurd rfl (h logs)
  | executeBlock | createPayload | query | ethCall =>
    simp [NodeOp.lockSteps, locked, RankedFrom]

theorem ranked_stateFirst {op : NodeOp} (h : op ≠ .submitTx .lookup) :
    RankedFrom stateFirst [] op.lockSteps := by
  cases op with
  | submitTx path =>
    cases path with
    | lookup => exact absurd rfl h
    | undecodable | alreadyKnown => simp [NodeOp.lockSteps, locked, RankedFrom]
  | validateTx decodes => cases decodes <;> simp [NodeOp.lockSteps, locked, RankedFrom]
  | onCommit logs => cases logs <;> simp [NodeOp.lockSteps, locked, RankedFrom, stateFirst]
  | executeBlock | createPayload | query | ethCall =>
    simp [NodeOp.lockSteps, locked, RankedFrom]

/-- Every `on_commit` begins by taking the state lock and then the pool
lock. -/
theorem onCommit_lockSteps (logs : Bool) :
    ∃ rest, (NodeOp.onCommit logs).lockSteps = .acquire .state :: .acquire .pool :: rest := by
  cases logs <;> exact ⟨_, rfl⟩

/-- **When submissions and commits cannot deadlock.** Over every
interleaving of any operations in flight, no set of them waits for each
other exactly when the operations do not include both a `submit_tx` that
looks up a nonce and an `on_commit`. -/
theorem deadlock_free_iff (ops : List NodeOp) :
    (∀ c, Reaches (launch (ops.map NodeOp.lockSteps)) c → ¬ Deadlocked c) ↔
      ¬ (.submitTx .lookup ∈ ops ∧ ∃ logs, .onCommit logs ∈ ops) := by
  constructor
  · rintro hfree ⟨hsubmit, logs, hcommit⟩
    obtain ⟨rest, hrest⟩ := onCommit_lockSteps logs
    obtain ⟨c, hreach, hdead⟩ := crossed_deadlock
      (a := NodeLock.pool) (b := NodeLock.state) (by decide)
      (List.mem_map.mpr ⟨_, hsubmit, rfl⟩) (List.mem_map.mpr ⟨_, hcommit, hrest⟩)
    exact hfree c hreach hdead
  · intro hnot c hreach
    by_cases hsubmit : NodeOp.submitTx .lookup ∈ ops
    · refine not_deadlocked_of_ranked poolFirst (fun p hp => ?_) hreach
      obtain ⟨op, hop, rfl⟩ := List.mem_map.mp hp
      exact ranked_poolFirst fun logs heq => hnot ⟨hsubmit, logs, heq ▸ hop⟩
    · refine not_deadlocked_of_ranked stateFirst (fun p hp => ?_) hreach
      obtain ⟨op, hop, rfl⟩ := List.mem_map.mp hp
      exact ranked_stateFirst fun heq => hsubmit (heq ▸ hop)

/-- One submission and one commit in flight. -/
def submitAndCommit : List NodeOp := [.submitTx .lookup, .onCommit true]

theorem submit_commit_deadlock :
    ∃ c, Reaches (launch (submitAndCommit.map NodeOp.lockSteps)) c ∧ Deadlocked c :=
  crossed_deadlock (a := NodeLock.pool) (b := NodeLock.state) (by decide)
    (List.mem_map.mpr ⟨.submitTx .lookup, by decide, rfl⟩)
    (List.mem_map.mpr ⟨.onCommit true, by decide, rfl⟩)

end Nbnet.Execution
