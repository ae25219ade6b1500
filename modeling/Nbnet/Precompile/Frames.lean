/-
Nbnet.Precompile.Frames — trees of call frames, as revm runs them around
the precompiles.

The bytecode interpreter is revm's and decides which calls a frame makes
and how it ends; a `Code` is one such decision tree, and statements about
every transaction are statements about every tree. What revm does around
the calls is fixed here, because the balances and the ledger depend on it:

* how each call instruction fills `CallInputs` (`CallOp.inputs`);
* the value moves before the callee runs;
* the provider is asked first, by `bytecode_address`;
* a frame that does not succeed takes back every change its part of the
  journal has an entry for (`FrameRun.settle`). The ledger is not the
  journal's: it keeps what the frame did to it.

A CREATE is, for balances and ledger, a CALL of the new address; one whose
new address has no room for the value is refused before anything moves, and
is no step at all.
-/
import Nbnet.Precompile.WriteTheorems

namespace Nbnet.Precompile

open Lib

/-- Who runs: the account executing the frame and who called it. -/
structure FrameCtx where
  caller : Address
  executing : Address
  isStatic : Bool
  deriving DecidableEq, Repr

/-- A call instruction: its scheme, operands and the memory it reads its
calldata from. -/
structure CallOp where
  scheme : CallScheme
  address : Address
  value : U256
  input : CallInput
  memory : Bytes
  gasLimit : UInt64
  deriving DecidableEq, Repr

/-- The call inputs revm builds. DELEGATECALL keeps the caller of the
frame that executes it, CALLCODE and DELEGATECALL keep its account. -/
def CallOp.inputs (ctx : FrameCtx) (op : CallOp) : CallInputs where
  input := op.input
  gasLimit := op.gasLimit
  bytecodeAddress := op.address
  targetAddress :=
    match op.scheme with
    | .call | .staticCall => op.address
    | .callCode | .delegateCall => ctx.executing
  caller :=
    match op.scheme with
    | .call | .callCode | .staticCall => ctx.executing
    | .delegateCall => ctx.caller
  value :=
    match op.scheme with
    | .call | .callCode => .transfer op.value
    | .staticCall => .transfer 0
    | .delegateCall => .apparent op.value
  scheme := op.scheme
  isStatic := ctx.isStatic || op.scheme == .staticCall

/-- What a frame does: it ends, it makes a call and goes on, or it
destroys itself. `callee` is the code that runs when the called address is
no precompile; `dies` tells a contract created in the same transaction. -/
inductive Code where
  | done (result : InstructionResult)
  | call (op : CallOp) (callee rest : Code)
  | selfDestruct (target : Address) (dies : Bool)
  deriving Repr

/-- A precompile run: who issued the call, what it was given and the world
it started from. -/
structure Invocation where
  ctx : FrameCtx
  inputs : CallInputs
  buffer : Bytes
  before : World

/-- A delegation or an unbonding the precompile reported as done. -/
structure StakeEvent where
  delegator : Address
  validator : Address
  delegated : U256
  unbonded : U256
  deriving DecidableEq, Repr

/-- What a run of frames did. `kept` are the stake events of frames that
were not rolled back, `rolledBack` those of frames that were; `trace` is
every precompile run. -/
structure FrameRun where
  world : World
  result : InstructionResult
  trace : List Invocation := []
  kept : List StakeEvent := []
  rolledBack : List StakeEvent := []

/-- The end of a frame entered at a checkpoint of the journal. -/
def FrameRun.settle (checkpoint : Nat) (r : FrameRun) : FrameRun :=
  if r.result.isOk then r
  else
    { r with
      world := { r.world with journal := r.world.journal.revertTo checkpoint }
      kept := []
      rolledBack := r.rolledBack ++ r.kept }

/-- A run followed by the rest of the same frame. -/
def FrameRun.andThen (r r' : FrameRun) : FrameRun :=
  { r' with
    trace := r.trace ++ r'.trace
    kept := r.kept ++ r'.kept
    rolledBack := r.rolledBack ++ r'.rolledBack }

/-- The stake event of a write that was reported as done. -/
def Write.events (caller : Address) : Write → List StakeEvent
  | .transfer _ _ => []
  | .delegate validator amount => [⟨caller, validator, amount, 0⟩]
  | .unbond validator amount => [⟨caller, validator, 0, amount⟩]

/-- The stake events of a precompile run. -/
def stakeEvents (buffer : Bytes) (inputs : CallInputs) (result : InterpreterResult) :
    List StakeEvent :=
  match writeOf buffer inputs with
  | some write => if result.result.isOk then write.events inputs.caller else []
  | none => []

/-- The value of a call moves before anything else happens. -/
def moveValue (j : Journal Address 256) (inputs : CallInputs) :
    Option TransferError × Journal Address 256 :=
  match inputs.value with
  | .transfer value => j.transfer inputs.caller inputs.targetAddress value
  | .apparent _ => (none, j)

def TransferError.toResult : TransferError → InstructionResult
  | .outOfFunds => .outOfFunds
  | .overflowPayment => .overflowPayment

/-- A call: value, then the provider, then the callee's code in a frame of
its own. -/
def callFrame (p : HotmintPrecompiles) (ctx : FrameCtx) (w : World) (op : CallOp)
    (callee : FrameCtx → World → FrameRun) : FrameRun :=
  let inputs := op.inputs ctx
  FrameRun.settle w.journal.entries.length <|
    match moveValue w.journal inputs with
    | (some e, journal) => { world := { w with journal }, result := TransferError.toResult e }
    | (none, journal) =>
        let before : World := { w with journal }
        match p.run op.memory before inputs with
        | (.ok (some result), after) =>
            { world := after
              result := result.result
              trace := [⟨ctx, inputs, op.memory, before⟩]
              kept := stakeEvents op.memory inputs result }
        | (.ok none, after) =>
            callee ⟨inputs.caller, inputs.targetAddress, inputs.isStatic⟩ after
        | (.error _, after) => { world := after, result := .fatalExternalError }

/-- SELFDESTRUCT moves the whole balance; sent to itself it is kept, or
burnt when the contract dies. -/
def destroy (j : Journal Address 256) (a target : Address) (dies : Bool) : Journal Address 256 :=
  if target = a then if dies then j.burn a else j
  else j.move a target (j.balances a)

/-- The instructions of a frame that touch balances or make calls. -/
def exec (p : HotmintPrecompiles) : FrameCtx → World → Code → FrameRun
  | _, w, .done result => { world := w, result }
  | ctx, w, .call op callee rest =>
      if ctx.isStatic ∧ op.scheme = .call ∧ op.value ≠ 0 then
        { world := w, result := .callNotAllowedInsideStatic }
      else
        let r := callFrame p ctx w op fun ctx' w' => exec p ctx' w' callee
        r.andThen (exec p ctx r.world rest)
  | ctx, w, .selfDestruct target dies =>
      if ctx.isStatic then { world := w, result := .stateChangeDuringStaticCall }
      else
        { world := { w with journal := destroy w.journal ctx.executing target dies }
          result := .selfDestruct }

/-- A transaction: what the sender pays before execution, what comes back
after it, what the beneficiary gets, the top-level call and its code. -/
structure Tx where
  sender : Address
  upfront : U256
  refund : U256
  reward : U256
  beneficiary : Address
  op : CallOp
  code : Code

/-- A transaction that can be committed: its sender has a key, so it is
not `STAKING_ADDR`; its top-level call is a CALL; refund and reward come
out of what was paid. -/
structure SignedTx extends Tx where
  sender_ne : sender ≠ stakingAddr
  topLevel : op.scheme = .call
  fees : refund.toNat + reward.toNat ≤ upfront.toNat

/-- The top-level call is issued by the sender. -/
def Tx.ctx (tx : Tx) : FrameCtx := ⟨tx.sender, tx.sender, false⟩

/-- Add to one balance. -/
def credit (b : Address → U256) (a : Address) (amount : U256) : Address → U256 :=
  Function.update b a (b a + amount)

/-- The world in which a transaction has paid up front. -/
def World.charge (w : World) (tx : Tx) : World :=
  { w with
    journal := { w.journal with
      balances := Function.update w.balances tx.sender (w.balances tx.sender - tx.upfront) } }

/-- A transaction whose sender can pay for it. The fee is outside every
frame: it is charged whatever becomes of the call. Its end empties the
log. -/
def execTx (p : HotmintPrecompiles) (w : World) (tx : Tx) : FrameRun :=
  if w.balances tx.sender < tx.upfront then { world := w, result := .outOfFunds }
  else
    let r := callFrame p tx.ctx (w.charge tx) tx.op fun ctx w => exec p ctx w tx.code
    { r with
      world := { r.world with
        journal :=
          { balances :=
              credit (credit r.world.balances tx.sender tx.refund) tx.beneficiary tx.reward } } }

end Nbnet.Precompile
