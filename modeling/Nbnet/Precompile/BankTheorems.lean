/-
Nbnet.Precompile.BankTheorems — the two precompiles are one exact bank.

Two levels. Above, a `Bank`: funds and stakes in natural numbers, and six
commands with the obvious meaning. Below, `run_balances` and
`run_staking`: words that wrap, a ledger that saturates, calldata that is
cut by hand. Between them stands the grammar of the calldata (`Encodes`):
a selector and one 32-byte word per argument, with anything behind and
anything in the twelve bytes in front of an address.

`commandOf` reads exactly that grammar, `run_serves` says that a
precompile reads its command, charges it and carries it out, and
`refines_perform` that in a solvent world carrying it out is what the bank
does.
-/
import Nbnet.Precompile.RollbackTheorems
import Nbnet.Precompile.StakingTheorems

namespace Nbnet.Precompile

open Lib

/-! ## Commands and their calldata -/

inductive Command where
  | balanceOf (account : Address)
  | transfer (dst : Address) (amount : U256)
  | delegate (validator : Address) (amount : U256)
  | unbond (validator : Address) (amount : U256)
  | getStake (delegator validator : Address)
  | totalStake (validator : Address)
  deriving DecidableEq, Repr

/-- An argument of a command. -/
inductive Arg where
  | address (a : Address)
  | amount (x : U256)
  deriving DecidableEq, Repr

namespace Command

/-- The precompile that takes the command. -/
def home : Command → Address
  | balanceOf _ | transfer _ _ => balancesAddr
  | delegate _ _ | unbond _ _ | getStake _ _ | totalStake _ => stakingAddr

def selector : Command → Bytes
  | balanceOf _ => selBalanceOf
  | transfer _ _ => selTransfer
  | delegate _ _ => selDelegate
  | unbond _ _ => selUnbond
  | getStake _ _ => selGetStake
  | totalStake _ => selTotalStake

def cost : Command → UInt64
  | balanceOf _ | getStake _ _ | totalStake _ => precompileBaseGas
  | transfer _ _ | delegate _ _ | unbond _ _ => precompileWriteGas

def args : Command → List Arg
  | balanceOf a => [.address a]
  | transfer dst x => [.address dst, .amount x]
  | delegate v x => [.address v, .amount x]
  | unbond v x => [.address v, .amount x]
  | getStake d v => [.address d, .address v]
  | totalStake v => [.address v]

end Command

/-- The words that stand for an argument. -/
def Arg.IsWord (word : Bytes) : Arg → Prop
  | .address a => ∃ pad : Bytes, pad.length = 12 ∧ word = pad ++ a.asSlice
  | .amount x => word = wordOutput x

/-- The calldata of a command. -/
def Encodes (input : Bytes) (cmd : Command) : Prop :=
  ∃ (words : List Bytes) (rest : Bytes),
    List.Forall₂ (fun arg word => arg.IsWord word) cmd.args words ∧
      input = cmd.selector ++ (words.flatten ++ rest)

/-- The command in some calldata. -/
def commandOf (home : Address) (input : Bytes) : Option Command :=
  let second := Address.fromSlice (slice input 48 68)
  if home = balancesAddr then
    if input.take 4 = selBalanceOf ∧ 36 ≤ input.length then some (.balanceOf (argAddress input))
    else if input.take 4 = selTransfer ∧ 68 ≤ input.length then
      some (.transfer (argAddress input) (argAmount input))
    else none
  else if home = stakingAddr then
    if input.take 4 = selDelegate ∧ 68 ≤ input.length then
      some (.delegate (argAddress input) (argAmount input))
    else if input.take 4 = selUnbond ∧ 68 ≤ input.length then
      some (.unbond (argAddress input) (argAmount input))
    else if input.take 4 = selGetStake ∧ 68 ≤ input.length then
      some (.getStake (argAddress input) second)
    else if input.take 4 = selTotalStake ∧ 36 ≤ input.length then
      some (.totalStake (argAddress input))
    else none
  else none

section Grammar

theorem isWord_address_iff {word : Bytes} {a : Address} :
    (Arg.address a).IsWord word ↔ word.length = 32 ∧ a = Address.fromSlice (word.drop 12) := by
  constructor
  · rintro ⟨pad, hpad, rfl⟩
    refine ⟨by simp [hpad, Address.asSlice, wordBytes], ?_⟩
    rw [List.drop_left' hpad]
    exact (ofWordBytes_wordBytes (n := 20) rfl a).symm
  · rintro ⟨hlen, rfl⟩
    refine ⟨word.take 12, by simp [hlen], ?_⟩
    have hback := wordBytes_ofWordBytes (n := 20) (w := 160) rfl ⟨word.drop 12, by simp [hlen]⟩
    have hval : (Address.fromSlice (word.drop 12)).asSlice = word.drop 12 :=
      congrArg Subtype.val hback
    rw [hval, List.take_append_drop]

theorem isWord_amount_iff {word : Bytes} {x : U256} :
    (Arg.amount x).IsWord word ↔ word.length = 32 ∧ x = U256.fromBeSlice word := by
  constructor
  · rintro rfl
    refine ⟨by simp [wordOutput, U256.toBeBytes, wordBytes], ?_⟩
    exact (ofWordBytes_wordBytes (n := 32) rfl x).symm
  · rintro ⟨hlen, rfl⟩
    have hback := wordBytes_ofWordBytes (n := 32) (w := 256) rfl ⟨word, hlen⟩
    exact (congrArg Subtype.val hback).symm

theorem Arg.IsWord.length {arg : Arg} {word : Bytes} (h : arg.IsWord word) : word.length = 32 := by
  cases arg with
  | address a => exact (isWord_address_iff.mp h).1
  | amount x => exact (isWord_amount_iff.mp h).1

/-- Arguments read off the front of a byte string, word by word. -/
def ReadsAs : List Arg → Bytes → Prop
  | [], _ => True
  | arg :: args, body => arg.IsWord (body.take 32) ∧ ReadsAs args (body.drop 32)

theorem readsAs_nil (body : Bytes) : ReadsAs [] body ↔ True := Iff.rfl

theorem readsAs_iff (args : List Arg) (body : Bytes) :
    ReadsAs args body ↔ ∃ (words : List Bytes) (rest : Bytes),
      List.Forall₂ (fun arg word => arg.IsWord word) args words ∧
        body = words.flatten ++ rest := by
  induction args generalizing body with
  | nil => simp [ReadsAs]
  | cons arg args ih =>
    rw [ReadsAs, ih]
    constructor
    · rintro ⟨hword, words, rest, hwords, hbody⟩
      refine ⟨body.take 32 :: words, rest, .cons hword hwords, ?_⟩
      rw [List.flatten_cons, List.append_assoc, ← hbody, List.take_append_drop]
    · rintro ⟨_, rest, hwords, rfl⟩
      cases hwords with
      | cons hword hwords =>
        rename_i word words
        have hlen := hword.length
        rw [List.flatten_cons, List.append_assoc, List.take_left' hlen, List.drop_left' hlen]
        exact ⟨hword, words, rest, hwords, rfl⟩

theorem Command.selector_length (cmd : Command) : cmd.selector.length = 4 := by
  cases cmd <;> rfl

theorem encodes_iff {input : Bytes} {cmd : Command} :
    Encodes input cmd ↔ input.take 4 = cmd.selector ∧ ReadsAs cmd.args (input.drop 4) := by
  rw [readsAs_iff]
  constructor
  · rintro ⟨words, rest, hwords, rfl⟩
    rw [List.take_left' cmd.selector_length, List.drop_left' cmd.selector_length]
    exact ⟨rfl, words, rest, hwords, rfl⟩
  · rintro ⟨hsel, words, rest, hwords, hbody⟩
    refine ⟨words, rest, hwords, ?_⟩
    rw [← hsel, ← hbody, List.take_append_drop]

/-- The first word, as an address. -/
theorem readsAs_first_iff {input : Bytes} {a : Address} {args : List Arg} :
    ReadsAs (.address a :: args) (input.drop 4) ↔
      36 ≤ input.length ∧ a = argAddress input ∧ ReadsAs args (input.drop 36) := by
  have hslice : ((input.drop 4).take 32).drop 12 = slice input 16 36 := by
    simp [slice, List.drop_take]
  rw [ReadsAs, isWord_address_iff, hslice, List.drop_drop, List.length_take, List.length_drop]
  constructor
  · rintro ⟨⟨hlen, ha⟩, hargs⟩
    exact ⟨by omega, ha, hargs⟩
  · rintro ⟨hlen, ha, hargs⟩
    exact ⟨⟨by omega, ha⟩, hargs⟩

/-- The second word, as an amount or as an address. -/
theorem readsAs_amount_iff {input : Bytes} {x : U256} :
    ReadsAs [.amount x] (input.drop 36) ↔ 68 ≤ input.length ∧ x = argAmount input := by
  have hslice : (input.drop 36).take 32 = slice input 36 68 := by
    simp [slice, List.drop_take]
  simp only [ReadsAs, isWord_amount_iff, and_true]
  rw [hslice]
  refine and_congr_left fun _ => ?_
  simp only [slice, List.length_drop, List.length_take]
  omega

theorem readsAs_address_iff {input : Bytes} {a : Address} :
    ReadsAs [.address a] (input.drop 36) ↔
      68 ≤ input.length ∧ a = Address.fromSlice (slice input 48 68) := by
  have hslice : ((input.drop 36).take 32).drop 12 = slice input 48 68 := by
    simp [slice, List.drop_take]
  simp only [ReadsAs, isWord_address_iff, and_true]
  rw [hslice]
  refine and_congr_left fun _ => ?_
  simp only [List.length_drop, List.length_take]
  omega

/-- What each command's calldata looks like. -/
def Command.ReadsFrom (input : Bytes) : Command → Prop
  | balanceOf a => 36 ≤ input.length ∧ a = argAddress input
  | transfer dst x => 68 ≤ input.length ∧ dst = argAddress input ∧ x = argAmount input
  | delegate v x => 68 ≤ input.length ∧ v = argAddress input ∧ x = argAmount input
  | unbond v x => 68 ≤ input.length ∧ v = argAddress input ∧ x = argAmount input
  | getStake d v =>
      68 ≤ input.length ∧ d = argAddress input ∧ v = Address.fromSlice (slice input 48 68)
  | totalStake v => 36 ≤ input.length ∧ v = argAddress input

theorem readsFrom_iff {input : Bytes} {cmd : Command} :
    ReadsAs cmd.args (input.drop 4) ↔ cmd.ReadsFrom input := by
  have htwo : ∀ {p q : Prop}, (36 ≤ input.length ∧ p ∧ 68 ≤ input.length ∧ q) ↔
      68 ≤ input.length ∧ p ∧ q := by
    intro p q
    constructor
    · rintro ⟨-, hp, hlen, hq⟩
      exact ⟨hlen, hp, hq⟩
    · rintro ⟨hlen, hp, hq⟩
      exact ⟨by omega, hp, hlen, hq⟩
  cases cmd <;>
    simp only [Command.args, Command.ReadsFrom, readsAs_first_iff, readsAs_amount_iff,
      readsAs_address_iff, htwo, readsAs_nil, and_true]

/-- A command is read exactly from its calldata. -/
theorem commandOf_eq_some_iff (home : Address) (input : Bytes) (cmd : Command) :
    commandOf home input = some cmd ↔ cmd.home = home ∧ Encodes input cmd := by
  rw [encodes_iff, readsFrom_iff]
  constructor
  · intro h
    simp only [commandOf] at h
    split_ifs at h with hbal h1 h2 hstk h3 h4 h5 h6 <;>
      obtain rfl := Option.some.inj h <;>
      simp_all [Command.home, Command.selector, Command.ReadsFrom]
  · rintro ⟨rfl, hsel, hreads⟩
    cases cmd <;>
      simp only [Command.selector, Command.ReadsFrom] at hsel hreads <;>
      simp [commandOf, Command.home, hsel, hreads, stakingAddr_ne_balancesAddr, selBalanceOf,
        selTransfer, selDelegate, selUnbond, selGetStake, selTotalStake]

end Grammar

/-! ## Serving a command -/

/-- The answer to a command that was paid for: a number as a word, or a
revert with zero. -/
def reply {S : Type} (gas : Gas) : Option Nat × S → InterpreterResult × S
  | (some n, s) => (⟨.ret, gas, wordOutput (BitVec.ofNat 256 n)⟩, s)
  | (none, s) => (⟨.revert, gas, wordOutput 0⟩, s)

/-- What a precompile does with some calldata, whatever it is that carries
out commands: malformed calldata and missing gas are answered without
effect. -/
def serve {S : Type} (home : Address) (gasLimit : UInt64) (input : Bytes) (s : S)
    (obey : Command → Option Nat × S) : InterpreterResult × S :=
  match commandOf home input with
  | none => (⟨.precompileError, .new gasLimit, []⟩, s)
  | some cmd =>
      if gasLimit < cmd.cost then (⟨.precompileOOG, .new gasLimit, []⟩, s)
      else reply ⟨gasLimit, gasLimit - cmd.cost⟩ (obey cmd)

/-- The commands on the precompiles' own state. -/
def Command.perform (it : IterOrder (Address × Address) U256) (caller : Address) (w : World) :
    Command → Option Nat × World
  | .balanceOf a => (some (w.balances a).toNat, w)
  | .getStake d v => (some (w.staking.getStake d v).toNat, w)
  | .totalStake v => (some (w.staking.totalStake it v).toNat, w)
  | .transfer dst x =>
      ((Write.transfer dst x).perform caller w).map (bif · then some 1 else none) id
  | .delegate v x => ((Write.delegate v x).perform caller w).map (bif · then some 1 else none) id
  | .unbond v x => ((Write.unbond v x).perform caller w).map (bif · then some 1 else none) id

section Serve

variable {it : IterOrder (Address × Address) U256} {buffer : Bytes} {w : World}
  {inputs : CallInputs}

/-- A branch serves its command. -/
theorem charged_serves {home : Address} {input : Bytes} {minLen : Nat} {limit : UInt64}
    {body : Gas → InterpreterResult × World} {obey : Command → Option Nat × World} (cmd : Command)
    (hcmd : commandOf home input = if minLen ≤ input.length then some cmd else none)
    (hbody : ∀ gas, body gas = reply gas (obey cmd)) :
    charged input minLen cmd.cost (Gas.new limit) w body = serve home limit input w obey := by
  unfold charged serve
  rw [hcmd]
  by_cases hlen : minLen ≤ input.length
  · by_cases hgas : limit < cmd.cost <;>
      simp [hlen, Nat.not_lt.mpr hlen, Gas.recordCost, Gas.new, hgas, hbody]
  · simp [hlen, Nat.not_le.mp hlen]

theorem commandOf_of_short {home : Address} {input : Bytes} (h : input.length < 36) :
    commandOf home input = none := by
  have hone : ¬ 36 ≤ input.length := by omega
  have htwo : ¬ 68 ≤ input.length := by omega
  simp [commandOf, hone, htwo]

theorem serve_of_none {home : Address} {input : Bytes} {limit : UInt64}
    {obey : Command → Option Nat × World} (h : commandOf home input = none) :
    serve home limit input w obey = (⟨.precompileError, .new limit, []⟩, w) := by
  simp [serve, h]

theorem runBalances_serves (it : IterOrder (Address × Address) U256) :
    runBalances buffer w inputs
      = serve balancesAddr inputs.gasLimit (extractInput buffer inputs) w
          (Command.perform it inputs.caller w) := by
  unfold runBalances
  simp only
  split
  · rename_i hlen
    exact (serve_of_none (commandOf_of_short (by omega))).symm
  · split
    · rename_i hsel
      refine charged_serves (.balanceOf (argAddress (extractInput buffer inputs))) ?_ fun gas => ?_
      · simp [commandOf, hsel, selBalanceOf, selTransfer]
      · simp [Command.perform, reply]
    · split
      · rename_i hsel
        refine charged_serves (.transfer (argAddress (extractInput buffer inputs))
          (argAmount (extractInput buffer inputs))) ?_ fun gas => ?_
        · simp [commandOf, hsel, selBalanceOf, selTransfer]
        · simp only [Command.perform, Write.perform]
          rcases w.journal.transfer inputs.caller (argAddress (extractInput buffer inputs))
            (argAmount (extractInput buffer inputs)) with ⟨_ | _, _⟩ <;> rfl
      · rename_i hbal htrans
        refine (serve_of_none ?_).symm
        simp [commandOf, hbal, htrans]

theorem runStaking_serves :
    runStaking it buffer w inputs
      = serve stakingAddr inputs.gasLimit (extractInput buffer inputs) w
          (Command.perform it inputs.caller w) := by
  unfold runStaking
  simp only
  split
  · rename_i hlen
    exact (serve_of_none (commandOf_of_short (by omega))).symm
  · split
    · rename_i hsel
      refine charged_serves (.delegate (argAddress (extractInput buffer inputs))
        (argAmount (extractInput buffer inputs))) ?_ fun gas => ?_
      · simp [commandOf, hsel, stakingAddr_ne_balancesAddr, selDelegate, selUnbond, selGetStake,
          selTotalStake]
      · simp only [Command.perform, Write.perform]
        rcases w.journal.transfer inputs.caller stakingAddr
          (argAmount (extractInput buffer inputs)) with ⟨_ | _, _⟩ <;> rfl
    · rename_i hdel
      split
      · rename_i hsel
        refine charged_serves (.unbond (argAddress (extractInput buffer inputs))
          (argAmount (extractInput buffer inputs))) ?_ fun gas => ?_
        · simp [commandOf, hsel, stakingAddr_ne_balancesAddr, selDelegate, selUnbond, selGetStake,
            selTotalStake]
        · simp only [Command.perform, Write.perform]
          rcases unbond_cases w.staking inputs.caller (argAddress (extractInput buffer inputs))
            (argAmount (extractInput buffer inputs)) with ⟨e, s', h, -⟩ | ⟨s', h, -⟩
          · simp only [h]
            rfl
          · simp only [h]
            rcases w.journal.transfer stakingAddr inputs.caller
              (argAmount (extractInput buffer inputs)) with ⟨_ | _, _⟩ <;> rfl
      · rename_i hunb
        split
        · rename_i hsel
          refine charged_serves (.getStake (argAddress (extractInput buffer inputs))
            (.fromSlice (slice (extractInput buffer inputs) 48 68))) ?_ fun gas => ?_
          · simp [commandOf, hsel, stakingAddr_ne_balancesAddr, selDelegate, selUnbond,
              selGetStake, selTotalStake]
          · simp [Command.perform, reply]
        · rename_i hget
          split
          · rename_i hsel
            refine charged_serves (.totalStake (argAddress (extractInput buffer inputs))) ?_
              fun gas => ?_
            · simp [commandOf, hsel, stakingAddr_ne_balancesAddr, selDelegate, selUnbond,
                selGetStake, selTotalStake]
            · simp [Command.perform, reply]
          · rename_i htotal
            refine (serve_of_none ?_).symm
            simp [commandOf, stakingAddr_ne_balancesAddr, hdel, hunb, hget, htotal]

variable (buffer w inputs) in
/-- Both precompiles serve the command in their calldata. -/
theorem run_serves (p : HotmintPrecompiles)
    (hhome : inputs.bytecodeAddress = balancesAddr ∨ inputs.bytecodeAddress = stakingAddr) :
    p.run buffer w inputs
      = (serve inputs.bytecodeAddress inputs.gasLimit (extractInput buffer inputs) w
          (Command.perform p.tableOrder inputs.caller w)).map (fun r => .ok (some r)) id := by
  unfold HotmintPrecompiles.run
  rcases hhome with h | h
  · rw [if_pos h, h, runBalances_serves p.tableOrder]
    rfl
  · rw [if_neg (h ▸ stakingAddr_ne_balancesAddr), if_pos h, h, runStaking_serves]
    rfl

end Serve

/-! ## The bank -/

/-- What the precompiles are for, in exact numbers: what each account has,
and what each delegator has with each validator. -/
structure Bank where
  funds : Address → Nat
  stakes : Address × Address → Nat

namespace Bank

/-- Pay from one account to another, or to itself. -/
def pay (bank : Bank) (src dst : Address) (amount : Nat) : Bank where
  funds a := bank.funds a - (if a = src then amount else 0) + (if a = dst then amount else 0)
  stakes := bank.stakes

/-- Everything with a validator. Irreducible: nothing should try to
enumerate the delegators. -/
@[irreducible] def stakedWith (bank : Bank) (validator : Address) : Nat :=
  ∑ d : Address, bank.stakes (d, validator)

/-- The commands. What is delegated is kept at `STAKING_ADDR`. -/
def obey (bank : Bank) (caller : Address) : Command → Option Nat × Bank
  | .balanceOf a => (some (bank.funds a), bank)
  | .transfer dst x =>
      if bank.funds caller < x.toNat then (none, bank)
      else (some 1, bank.pay caller dst x.toNat)
  | .delegate v x =>
      if bank.funds caller < x.toNat then (none, bank)
      else
        (some 1, { bank.pay caller stakingAddr x.toNat with
          stakes := Function.update bank.stakes (caller, v) (bank.stakes (caller, v) + x.toNat) })
  | .unbond v x =>
      if bank.stakes (caller, v) < x.toNat then (none, bank)
      else
        (some 1, { bank.pay stakingAddr caller x.toNat with
          stakes := Function.update bank.stakes (caller, v) (bank.stakes (caller, v) - x.toNat) })
  | .getStake d v => (some (bank.stakes (d, v)), bank)
  | .totalStake v => (some (bank.stakedWith v), bank)

/-- The bank a genesis opens. -/
def ofGenesis (genesis : EvmGenesis) : Bank where
  funds a := ((World.ofGenesis genesis).balances a).toNat
  stakes _ := 0

end Bank

/-- A solvent world that holds what the bank says. -/
structure Refines (w : World) (bank : Bank) : Prop where
  solvent : Solvent w
  funds : ∀ a, (w.balances a).toNat = bank.funds a
  stakes : ∀ d v, (w.staking.getStake d v).toNat = bank.stakes (d, v)

section Refinement

variable {w : World} {bank : Bank} {caller : Address}

/-- A transfer that goes through pays. -/
theorem funds_transfer {j j' : Journal Address 256} {src dst : Address} {amount : U256}
    (h : j.transfer src dst amount = (none, j')) (a : Address) :
    (j'.balances a).toNat = (j.balances a).toNat - (if a = src then amount.toNat else 0)
      + (if a = dst then amount.toNat else 0) := by
  have hfunds := transfer_funds h
  by_cases hne : src = dst
  · subst hne
    obtain ⟨-, rfl⟩ := Prod.mk.inj ((transfer_self hfunds).symm.trans h)
    rw [BitVec.le_def] at hfunds
    split
    · rename_i heq
      subst heq
      omega
    · omega
  · have hsrc := transfer_payer hne hfunds
    have hdst := transfer_payee hne h
    simp only [h] at hsrc
    by_cases has : a = src
    · subst has
      rw [if_pos rfl, if_neg hne]
      omega
    · rw [if_neg has]
      by_cases had : a = dst
      · subst had
        rw [if_pos rfl]
        omega
      · have hother := transfer_other j amount has had
        simp only [h] at hother
        rw [if_neg had, hother]
        omega

theorem solvent_perform (hw : Solvent w) (hcaller : caller ≠ stakingAddr) (write : Write) :
    Solvent (write.perform caller w).2 :=
  (sound_perform hw hcaller write rfl .stop).solvent hw

/-- A transfer out of an account goes through exactly when the funds
suffice, and one that does not changes nothing. -/
theorem solvent_transfer_cases (hw : Solvent w) (src dst : Address) (amount : U256) :
    ((w.balances src).toNat < amount.toNat ∧
        ∃ e, w.journal.transfer src dst amount = (some e, w.journal)) ∨
      (¬ (w.balances src).toNat < amount.toNat ∧
        ∃ j, w.journal.transfer src dst amount = (none, j) ∧
          ∀ a, (j.balances a).toNat
            = (w.balances a).toNat - (if a = src then amount.toNat else 0)
              + (if a = dst then amount.toNat else 0)) := by
  rcases transfer_of_total hw.supply src dst amount with
    ⟨hlt, h⟩ | ⟨hle, j, h⟩
  · exact .inl ⟨BitVec.lt_def.mp hlt, _, h⟩
  · exact .inr ⟨Nat.not_lt.mpr (BitVec.le_def.mp hle), j, h, funds_transfer h⟩

/-- Everything with a validator fits a word. -/
theorem totalStake_exact (it : IterOrder (Address × Address) U256) (h : Refines w bank)
    (v : Address) :
    (w.staking.totalStake it v).toNat = bank.stakedWith v := by
  have hsum : ∑ d : Address, (w.staking.getStake d v).toNat ≤ total (stakes w.staking) :=
    column_le_total (stakes w.staking) v
  have hword := lt_of_le_of_lt (hsum.trans h.solvent.backed) (w.balances stakingAddr).isLt
  have hexact : (w.staking.totalStake it v).toNat
      = ∑ d : Address, (w.staking.getStake d v).toNat := by
    rw [toNat_totalStake, Nat.min_eq_left (Nat.le_sub_one_of_lt hword)]
  unfold Bank.stakedWith
  exact hexact.trans (Finset.sum_congr rfl fun d _ => h.stakes d v)

/-- **A command does to the precompiles what it does to the bank.** -/
theorem refines_perform (it : IterOrder (Address × Address) U256) (h : Refines w bank)
    (hcaller : caller ≠ stakingAddr) (cmd : Command) :
    (cmd.perform it caller w).1 = (bank.obey caller cmd).1 ∧
      Refines (cmd.perform it caller w).2 (bank.obey caller cmd).2 := by
  cases cmd with
  | balanceOf a => exact ⟨congrArg some (h.funds a), h⟩
  | getStake d v => exact ⟨congrArg some (h.stakes d v), h⟩
  | totalStake v => exact ⟨congrArg some (totalStake_exact it h v), h⟩
  | transfer dst x =>
    have hsolvent := solvent_perform h.solvent hcaller (.transfer dst x)
    rcases solvent_transfer_cases h.solvent caller dst x with ⟨hlt, e, he⟩ | ⟨hlt, j, hj, hfunds⟩
    · simp only [Command.perform, Write.perform, he, Bank.obey, ← h.funds caller, if_pos hlt]
      exact ⟨rfl, h⟩
    · simp only [Write.perform, hj] at hsolvent
      simp only [Command.perform, Write.perform, hj, Bank.obey, ← h.funds caller, if_neg hlt]
      exact ⟨rfl, hsolvent, fun a => by simp [hfunds a, Bank.pay, h.funds a], h.stakes⟩
  | delegate v x =>
    have hsolvent := solvent_perform h.solvent hcaller (.delegate v x)
    rcases solvent_transfer_cases h.solvent caller stakingAddr x with
      ⟨hlt, e, he⟩ | ⟨hlt, j, hj, hfunds⟩
    · simp only [Command.perform, Write.perform, he, Bank.obey, ← h.funds caller, if_pos hlt]
      exact ⟨rfl, h⟩
    · simp only [Write.perform, hj] at hsolvent
      simp only [Command.perform, Write.perform, hj, Bank.obey, ← h.funds caller, if_neg hlt]
      refine ⟨rfl, hsolvent, fun a => by simp [hfunds a, Bank.pay, h.funds a], fun d v' => ?_⟩
      have hstake := stake_le_total w.staking caller v
      have hbacked := h.solvent.backed
      have hvault := hfunds stakingAddr
      have hword := (j.balances stakingAddr).isLt
      rw [if_neg hcaller.symm, if_pos rfl] at hvault
      change ((w.staking.delegate caller v x).getStake d v').toNat
        = Function.update bank.stakes (caller, v) _ (d, v')
      rw [getStake_delegate]
      by_cases hpair : (caller, v) = (d, v')
      · rw [if_pos hpair, ← hpair, Function.update_self, satAdd_toNat, ← h.stakes caller v]
        omega
      · rw [if_neg hpair, Function.update_of_ne (Ne.symm hpair), h.stakes]
  | unbond v x =>
    have hsolvent := solvent_perform h.solvent hcaller (.unbond v x)
    rcases unbond_cases w.staking caller v x with ⟨e, s', hs, hlt⟩ | ⟨s', hs, hle⟩
    · have hrefused : bank.stakes (caller, v) < x.toNat := by
        rw [← h.stakes]
        exact BitVec.lt_def.mp hlt
      simp only [Write.perform, hs] at hsolvent
      simp only [Command.perform, Write.perform, hs, Bank.obey, if_pos hrefused]
      exact ⟨rfl, hsolvent, h.funds, fun d v' => by
        simp [getStake_unbond_error hs, h.stakes d v']⟩
    · obtain ⟨hfit, hget⟩ := getStake_unbond_ok hs
      have hserved : ¬ bank.stakes (caller, v) < x.toNat := by
        rw [← h.stakes]
        omega
      have hstake := stake_le_total w.staking caller v
      have hbacked := h.solvent.backed
      rcases solvent_transfer_cases h.solvent stakingAddr caller x with
        ⟨hlt, e, he⟩ | ⟨-, j, hj, hfunds⟩
      · omega
      · simp only [Write.perform, hs, hj] at hsolvent
        simp only [Command.perform, Write.perform, hs, hj, Bank.obey, if_neg hserved]
        refine ⟨rfl, hsolvent, fun a => by simp [hfunds a, Bank.pay, h.funds a], fun d v' => ?_⟩
        change (s'.getStake d v').toNat = Function.update bank.stakes (caller, v) _ (d, v')
        rw [hget]
        by_cases hpair : (caller, v) = (d, v')
        · rw [if_pos hpair, ← hpair, Function.update_self, satSub_toNat, h.stakes]
        · rw [if_neg hpair, Function.update_of_ne (Ne.symm hpair), h.stakes]

end Refinement

/-! ## Runs -/

/-- A call of a precompile: the memory its calldata may lie in, and its
inputs. -/
structure PrecompileCall where
  buffer : Bytes
  inputs : CallInputs

/-- Calls one after another: what the provider returns for each, and the
world they leave. -/
def runCalls (p : HotmintPrecompiles) : World → List PrecompileCall →
    List (Except String (Option InterpreterResult)) × World
  | w, [] => ([], w)
  | w, c :: cs =>
      let (result, w') := p.run c.buffer w c.inputs
      let (results, last) := runCalls p w' cs
      (result :: results, last)

/-- The same calls at the bank. -/
def Bank.serveCalls : Bank → List PrecompileCall → List InterpreterResult × Bank
  | bank, [] => ([], bank)
  | bank, c :: cs =>
      let (result, bank') := serve c.inputs.bytecodeAddress c.inputs.gasLimit
        (extractInput c.buffer c.inputs) bank (bank.obey c.inputs.caller)
      let (results, last) := bank'.serveCalls cs
      (result :: results, last)

/-- A call of one of the two precompiles by somebody other than the staking
precompile itself, which has neither code nor key. -/
structure FromOutside (c : PrecompileCall) : Prop where
  caller : c.inputs.caller ≠ stakingAddr
  home : c.inputs.bytecodeAddress = balancesAddr ∨ c.inputs.bytecodeAddress = stakingAddr

section Runs

variable {p : HotmintPrecompiles} {w : World} {bank : Bank}

/-- Serving a command on both levels. -/
theorem refines_serve (h : Refines w bank) {caller : Address} (hcaller : caller ≠ stakingAddr)
    (it : IterOrder (Address × Address) U256) (home : Address) (gasLimit : UInt64) (input : Bytes) :
    let below := serve home gasLimit input w (Command.perform it caller w)
    let above := serve home gasLimit input bank (bank.obey caller)
    below.1 = above.1 ∧ Refines below.2 above.2 := by
  simp only [serve]
  cases commandOf home input with
  | none => exact ⟨rfl, h⟩
  | some cmd =>
    obtain ⟨hanswer, hnext⟩ := refines_perform it h hcaller cmd
    by_cases hgas : gasLimit < cmd.cost
    · simp only [if_pos hgas]
      exact ⟨trivial, h⟩
    · simp only [if_neg hgas]
      generalize cmd.perform it caller w = below at hanswer hnext
      generalize bank.obey caller cmd = above at hanswer hnext
      obtain ⟨answer, w'⟩ := below
      obtain ⟨answer', bank'⟩ := above
      obtain rfl : answer = answer' := hanswer
      cases answer <;> exact ⟨rfl, hnext⟩

/-- Calls one after another. -/
theorem refines_calls (h : Refines w bank) (calls : List PrecompileCall)
    (hcalls : ∀ c ∈ calls, FromOutside c) :
    (runCalls p w calls).1 = (bank.serveCalls calls).1.map (fun r => .ok (some r)) ∧
      Refines (runCalls p w calls).2 (bank.serveCalls calls).2 := by
  induction calls generalizing w bank with
  | nil => exact ⟨rfl, h⟩
  | cons c calls ih =>
    obtain ⟨hc, hrest⟩ := List.forall_mem_cons.mp hcalls
    obtain ⟨hresult, hnext⟩ := refines_serve h hc.caller p.tableOrder c.inputs.bytecodeAddress
      c.inputs.gasLimit (extractInput c.buffer c.inputs)
    obtain ⟨hresults, hlast⟩ := ih hnext hrest
    simp only [runCalls, Bank.serveCalls, run_serves c.buffer w c.inputs p hc.home, Prod.map_fst,
      Prod.map_snd, id_eq, List.map_cons]
    exact ⟨by rw [hresults, hresult], hlast⟩

/-- A genesis opens a bank. -/
theorem refines_ofGenesis {genesis : EvmGenesis}
    (hsupply : total (World.ofGenesis genesis).balances < 2 ^ 256) :
    Refines (World.ofGenesis genesis) (.ofGenesis genesis) where
  solvent := (balanced_ofGenesis hsupply).solvent
  funds _ := rfl
  stakes d v := by simp [World.ofGenesis, StakingState.new, StakingState.getStake, Bank.ofGenesis]

end Runs

/-- **The precompiles are an exact bank.** From every genesis whose supply
fits a word, over every sequence of calls of the two precompiles by others
than the staking precompile, with any calldata, gas and place of the
calldata: the results, with their gas and output, are those of the bank,
and afterwards every balance and every stake is the bank's number. The
commands served are exactly those the calldata encodes. -/
theorem precompiles_refine_bank (p : HotmintPrecompiles) (genesis : EvmGenesis)
    (hsupply : total (World.ofGenesis genesis).balances < 2 ^ 256) (calls : List PrecompileCall)
    (hcalls : ∀ c ∈ calls, FromOutside c) :
    let below := runCalls p (World.ofGenesis genesis) calls
    let above := (Bank.ofGenesis genesis).serveCalls calls
    below.1 = above.1.map (fun r => .ok (some r)) ∧
      (∀ a, (below.2.balances a).toNat = above.2.funds a) ∧
      (∀ d v, (below.2.staking.getStake d v).toNat = above.2.stakes (d, v)) ∧
      ∀ home input cmd, commandOf home input = some cmd ↔ cmd.home = home ∧ Encodes input cmd := by
  obtain ⟨hresults, hlast⟩ := refines_calls (p := p) (refines_ofGenesis hsupply) calls hcalls
  exact ⟨hresults, hlast.funds, hlast.stakes, commandOf_eq_some_iff⟩

/-- `0xa1` delegates 100 to `0x11`, asks for 150 back and then for 40, the
last time with bytes behind the amount. -/
def stakeCalls : List PrecompileCall :=
  [calldata selDelegate 0x11 100, calldata selUnbond 0x11 150,
    calldata selUnbond 0x11 40 ++ [1, 2, 3]].map fun input =>
      ⟨[], (plainCall .call stakingAddr input).inputs ⟨0xa1, 0xa1, false⟩⟩

/-- 60 are left, and the middle call is refused. -/
theorem precompiles_refine_bank_stakes :
    total (World.ofGenesis stakingGenesis).balances < 2 ^ 256 ∧
      (∀ c ∈ stakeCalls, FromOutside c) ∧
      ((Bank.ofGenesis stakingGenesis).serveCalls stakeCalls).1.map (·.result)
        = [.ret, .revert, .ret] ∧
      ((Bank.ofGenesis stakingGenesis).serveCalls stakeCalls).2.stakes (0xa1, 0x11) = 60 ∧
      ((runCalls bareProvider (World.ofGenesis stakingGenesis)
        stakeCalls).2.staking.getStake 0xa1 0x11).toNat = 60 := by
  have hcalls : ∀ c ∈ stakeCalls, FromOutside c := by
    intro c hc
    obtain ⟨input, -, rfl⟩ := List.mem_map.mp hc
    exact ⟨show (0xa1 : Address) ≠ stakingAddr by decide, .inr rfl⟩
  have hsixty : ((Bank.ofGenesis stakingGenesis).serveCalls stakeCalls).2.stakes (0xa1, 0x11)
      = 60 := by decide +kernel
  obtain ⟨-, -, hstakes, -⟩ := precompiles_refine_bank bareProvider stakingGenesis
    stakingGenesis_supply stakeCalls hcalls
  exact ⟨stakingGenesis_supply, hcalls, by decide +kernel, hsixty, (hstakes 0xa1 0x11).trans hsixty⟩

end Nbnet.Precompile
