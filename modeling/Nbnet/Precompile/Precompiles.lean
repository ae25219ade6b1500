/-
Nbnet.Precompile.Precompiles — the Balances and Staking precompiles
(`crates/precompile/src/lib.rs`).

The staking ledger lives behind a mutex of its own, outside revm's
journal. A `World` is the pair of what a precompile can change: the
journal and the ledger. When a frame fails revm takes back what its journal
has an entry for; nothing takes the ledger back.

Of revm the model needs three things. The journal is `Lib.Journal`; its
`transfer` is revm's, which debits the payer first and gives up on a payee
without room, leaving the debit and no entry. (`VsdbStateDb` never reports
a database error, so missing funds and a full payee are all that can go
wrong.) `Gas` is a limit and what is left of it. The standard Ethereum
precompiles are a field of `HotmintPrecompiles`: they compute a result and
change neither balances nor the ledger.
-/
import Nbnet.Lib.Journal
import Nbnet.Types.Primitives

namespace Nbnet.Precompile

open Lib

/-- Address of the Balances precompile. -/
def balancesAddr : Address := 0x0800

/-- Address of the Staking precompile. -/
def stakingAddr : Address := 0x0801

/-- Gas cost for simple precompile queries. -/
def precompileBaseGas : UInt64 := 150

/-- Gas cost for state-modifying precompile operations. -/
def precompileWriteGas : UInt64 := 500

/-! ## Staking state -/

/-- Delegation records: (delegator, validator) → amount. -/
structure StakingState where
  delegations : FMap (Address × Address) U256 := ∅
  deriving DecidableEq

def StakingState.new : StakingState := {}

def StakingState.getStake (s : StakingState) (delegator validator : Address) : U256 :=
  (s.delegations[(delegator, validator)]?).getD 0

def StakingState.delegate (s : StakingState) (delegator validator : Address) (amount : U256) :
    StakingState where
  delegations := s.delegations.insert (delegator, validator)
    (satAdd (s.getStake delegator validator) amount)

/-- A failing `unbond` changes no amount, but `entry().or_default()` has
left a record behind. -/
def StakingState.unbond (s : StakingState) (delegator validator : Address) (amount : U256) :
    Except String Unit × StakingState :=
  let entry := s.getStake delegator validator
  if entry < amount then
    (.error "insufficient delegation",
      { delegations := s.delegations.insert (delegator, validator) entry })
  else
    (.ok (),
      { delegations := s.delegations.insert (delegator, validator) (satSub entry amount) })

/-- The fold runs over the table in hash order. -/
def StakingState.totalStake (it : IterOrder (Address × Address) U256) (s : StakingState)
    (validator : Address) : U256 :=
  ((it.order s.delegations).filter fun p => p.2 = validator).foldl
    (fun acc p => satAdd acc (s.getStake p.1 p.2)) 0

/-- What a precompile can change. -/
structure World where
  journal : Journal Address 256
  staking : StakingState

def World.balances (w : World) : Address → U256 := w.journal.balances

@[simp] theorem World.balances_mk (j : Journal Address 256) (s : StakingState) :
    World.balances ⟨j, s⟩ = j.balances := rfl

/-! ## Calls -/

inductive InstructionResult where
  | stop
  | ret
  | selfDestruct
  | revert
  | outOfGas
  | outOfFunds
  | overflowPayment
  | callNotAllowedInsideStatic
  | stateChangeDuringStaticCall
  | precompileOOG
  | precompileError
  | fatalExternalError
  | otherHalt
  deriving DecidableEq, Repr

/-- `InstructionResult::is_ok`. -/
def InstructionResult.isOk : InstructionResult → Bool
  | .stop | .ret | .selfDestruct => true
  | _ => false

structure Gas where
  limit : UInt64
  remaining : UInt64
  deriving DecidableEq, Repr

def Gas.new (limit : UInt64) : Gas := ⟨limit, limit⟩

/-- `Gas::record_cost`: the gas left after the cost, if there was enough. -/
def Gas.recordCost (gas : Gas) (cost : UInt64) : Option Gas :=
  if gas.remaining < cost then none else some { gas with remaining := gas.remaining - cost }

structure InterpreterResult where
  result : InstructionResult
  gas : Gas
  output : Bytes
  deriving DecidableEq, Repr

inductive CallScheme where
  | call
  | callCode
  | delegateCall
  | staticCall
  deriving DecidableEq, Repr

/-- The calldata: a range of the shared memory buffer, or bytes. -/
inductive CallInput where
  | sharedBuffer (start stop : Nat)
  | bytes (data : Bytes)
  deriving DecidableEq, Repr

/-- The value of a call: moved to the target, or only shown to it. -/
inductive CallValue where
  | transfer (value : U256)
  | apparent (value : U256)
  deriving DecidableEq, Repr

structure CallInputs where
  input : CallInput
  gasLimit : UInt64
  bytecodeAddress : Address
  targetAddress : Address
  caller : Address
  value : CallValue
  scheme : CallScheme
  isStatic : Bool
  deriving DecidableEq, Repr

/-- The bytes `[start, stop)` of a buffer. -/
def slice (b : Bytes) (start stop : Nat) : Bytes := (b.take stop).drop start

/-- `extract_input`. A range outside the shared buffer reads as empty. -/
def extractInput (buffer : Bytes) (inputs : CallInputs) : Bytes :=
  match inputs.input with
  | .sharedBuffer start stop =>
      if start ≤ stop ∧ stop ≤ buffer.length then slice buffer start stop else []
  | .bytes data => data

/-! ## The two precompiles -/

/-- `balanceOf(address)`. -/
def selBalanceOf : Bytes := [0x70, 0xa0, 0x82, 0x31]
/-- `transfer(address,uint256)`. -/
def selTransfer : Bytes := [0xa9, 0x05, 0x9c, 0xbb]
/-- `delegate(address,uint256)`. -/
def selDelegate : Bytes := [0x02, 0x6e, 0x40, 0x2b]
/-- `unbond(address,uint256)`. -/
def selUnbond : Bytes := [0xa5, 0xd0, 0x59, 0xca]
/-- `getStake(address,address)`. -/
def selGetStake : Bytes := [0x82, 0xdd, 0xa2, 0x2d]
/-- `totalStake(address)`. -/
def selTotalStake : Bytes := [0xb2, 0x73, 0xfc, 0x9a]

/-- A 256-bit word of output. -/
def wordOutput (x : U256) : Bytes := (U256.toBeBytes x).val

/-- The head of every selector's branch: the length check, then the gas
charge, then the body. -/
def charged (input : Bytes) (minLen : Nat) (cost : UInt64) (gas : Gas) (w : World)
    (body : Gas → InterpreterResult × World) : InterpreterResult × World :=
  if input.length < minLen then (⟨.precompileError, gas, []⟩, w)
  else
    match gas.recordCost cost with
    | none => (⟨.precompileOOG, gas, []⟩, w)
    | some gas => body gas

/-- The first address argument, bytes 16 to 36. -/
def argAddress (input : Bytes) : Address := Address.fromSlice (slice input 16 36)

/-- The second argument as an amount, bytes 36 to 68. -/
def argAmount (input : Bytes) : U256 := U256.fromBeSlice (slice input 36 68)

/-- `run_balances`. -/
def runBalances (buffer : Bytes) (w : World) (inputs : CallInputs) : InterpreterResult × World :=
  let input := extractInput buffer inputs
  let gas := Gas.new inputs.gasLimit
  if input.length < 4 then (⟨.precompileError, gas, []⟩, w)
  else if input.take 4 = selBalanceOf then
    charged input 36 precompileBaseGas gas w fun gas =>
      (⟨.ret, gas, wordOutput (w.balances (argAddress input))⟩, w)
  else if input.take 4 = selTransfer then
    charged input 68 precompileWriteGas gas w fun gas =>
      match w.journal.transfer inputs.caller (argAddress input) (argAmount input) with
      | (none, journal) => (⟨.ret, gas, wordOutput 1⟩, { w with journal })
      | (some _, journal) => (⟨.revert, gas, wordOutput 0⟩, { w with journal })
  else (⟨.precompileError, gas, []⟩, w)

/-- `run_staking`. `delegate` moves the tokens first and records the
delegation after; `unbond` takes the stake off the ledger first, and a
payout that then fails does not put it back. -/
def runStaking (it : IterOrder (Address × Address) U256) (buffer : Bytes) (w : World)
    (inputs : CallInputs) : InterpreterResult × World :=
  let input := extractInput buffer inputs
  let gas := Gas.new inputs.gasLimit
  if input.length < 4 then (⟨.precompileError, gas, []⟩, w)
  else if input.take 4 = selDelegate then
    charged input 68 precompileWriteGas gas w fun gas =>
      match w.journal.transfer inputs.caller stakingAddr (argAmount input) with
      | (some _, journal) => (⟨.revert, gas, wordOutput 0⟩, { w with journal })
      | (none, journal) =>
          (⟨.ret, gas, wordOutput 1⟩,
            { journal
              staking := w.staking.delegate inputs.caller (argAddress input) (argAmount input) })
  else if input.take 4 = selUnbond then
    charged input 68 precompileWriteGas gas w fun gas =>
      match w.staking.unbond inputs.caller (argAddress input) (argAmount input) with
      | (.error _, staking) => (⟨.revert, gas, wordOutput 0⟩, { w with staking })
      | (.ok (), staking) =>
          match w.journal.transfer stakingAddr inputs.caller (argAmount input) with
          | (some _, journal) => (⟨.revert, gas, wordOutput 0⟩, { journal, staking })
          | (none, journal) => (⟨.ret, gas, wordOutput 1⟩, { journal, staking })
  else if input.take 4 = selGetStake then
    charged input 68 precompileBaseGas gas w fun gas =>
      let validator := Address.fromSlice (slice input 48 68)
      (⟨.ret, gas, wordOutput (w.staking.getStake (argAddress input) validator)⟩, w)
  else if input.take 4 = selTotalStake then
    charged input 36 precompileBaseGas gas w fun gas =>
      (⟨.ret, gas, wordOutput (w.staking.totalStake it (argAddress input))⟩, w)
  else (⟨.precompileError, gas, []⟩, w)

/-- The provider: the standard precompiles (`none` where the address is
not one of theirs) and the order in which the delegation table is walked. -/
structure HotmintPrecompiles where
  eth : Bytes → CallInputs → Except String (Option InterpreterResult)
  tableOrder : IterOrder (Address × Address) U256

/-- `HotmintPrecompiles::run`: `none` when the address is no precompile. -/
def HotmintPrecompiles.run (p : HotmintPrecompiles) (buffer : Bytes) (w : World)
    (inputs : CallInputs) : Except String (Option InterpreterResult) × World :=
  if inputs.bytecodeAddress = balancesAddr then
    let (result, w') := runBalances buffer w inputs
    (.ok (some result), w')
  else if inputs.bytecodeAddress = stakingAddr then
    let (result, w') := runStaking p.tableOrder buffer w inputs
    (.ok (some result), w')
  else (p.eth buffer inputs, w)

end Nbnet.Precompile
