/-
Nbnet.Lib.Journal — balances with an undo log.

A `Journal` is a ledger and the entries that say how to take its changes
back, the newest first. `revertTo` takes back everything above a
checkpoint; it gives the old balances back as far as every change has left
an entry (`Restores`).

`transfer` debits the payer before it looks at the payee. A payee without
room ends it there: the debit stays and has no entry, so no revert gives
it back (`revertTo_transfer_iff`). In a ledger whose total fits a word
there is always room.
-/
import Nbnet.Lib.Ledger

namespace Nbnet.Lib

/-- An amount that went from one account to another; from an account to
itself, an amount that account lost. -/
structure Entry (A : Type) (w : Nat) where
  src : A
  dst : A
  amount : BitVec w
  deriving DecidableEq, Repr

structure Journal (A : Type) (w : Nat) where
  balances : A → BitVec w
  entries : List (Entry A w) := []

variable {A : Type} [DecidableEq A] {w : Nat}

/-! ## Taking changes back -/

/-- The balances before an entry was made. -/
def Entry.undo (b : A → BitVec w) (e : Entry A w) : A → BitVec w :=
  let credited := Function.update b e.src (b e.src + e.amount)
  if e.src = e.dst then credited else Function.update credited e.dst (b e.dst - e.amount)

/-- Undo the newest entries until `n` are left. -/
def undoTo (n : Nat) (b : A → BitVec w) : List (Entry A w) → Journal A w
  | [] => ⟨b, []⟩
  | e :: es => if es.length < n then ⟨b, e :: es⟩ else undoTo n (e.undo b) es

/-- A checkpoint is a number of entries. -/
def Journal.revertTo (j : Journal A w) (checkpoint : Nat) : Journal A w :=
  undoTo checkpoint j.balances j.entries

/-- `j'` comes from `j` by changes that can all be taken back. -/
def Restores (j j' : Journal A w) : Prop :=
  ∃ es, j'.entries = es ++ j.entries ∧ es.foldl Entry.undo j'.balances = j.balances

variable {j j' j'' : Journal A w} {b : A → BitVec w} {src dst a : A} {amount : BitVec w}

theorem Restores.refl (j : Journal A w) : Restores j j := ⟨[], rfl, rfl⟩

theorem Restores.trans (h : Restores j j') (h' : Restores j' j'') : Restores j j'' := by
  obtain ⟨es, hentries, hundo⟩ := h
  obtain ⟨es', hentries', hundo'⟩ := h'
  refine ⟨es' ++ es, by rw [hentries', hentries, List.append_assoc], ?_⟩
  rw [List.foldl_append, hundo', hundo]

theorem undoTo_append (es old : List (Entry A w)) (b : A → BitVec w) :
    undoTo old.length b (es ++ old) = ⟨es.foldl Entry.undo b, old⟩ := by
  induction es generalizing b with
  | nil =>
    cases old with
    | nil => rfl
    | cons e es => simp [undoTo]
  | cons e es ih =>
    have hlong : ¬ (es ++ old).length < old.length := by simp
    simp only [List.cons_append, undoTo, if_neg hlong, List.foldl_cons, ih]

/-- A revert gives back the journal at the checkpoint. -/
theorem Restores.revertTo (h : Restores j j') : j'.revertTo j.entries.length = j := by
  obtain ⟨es, hentries, hundo⟩ := h
  rw [Journal.revertTo, hentries, undoTo_append, hundo]

/-- Account by account. -/
theorem undo_apply (e : Entry A w) (b : A → BitVec w) (a : A) :
    e.undo b a = if a = e.dst ∧ e.src ≠ e.dst then b a - e.amount
      else if a = e.src then b a + e.amount else b a := by
  unfold Entry.undo
  by_cases heq : e.src = e.dst
  · rw [if_neg fun h : a = e.dst ∧ e.src ≠ e.dst => h.2 heq]
    simp only [if_pos heq, Function.update_apply]
    split
    · rename_i ha
      rw [ha]
    · rfl
  · simp only [if_neg heq, Function.update_apply]
    by_cases hd : a = e.dst
    · rw [if_pos hd, if_pos ⟨hd, heq⟩, hd]
    · rw [if_neg hd, if_neg fun h : a = e.dst ∧ e.src ≠ e.dst => hd h.1]
      split
      · rename_i ha
        rw [ha]
      · rfl

/-- Undoing an entry forgets nothing about the balances. -/
theorem undo_injective {b b' : A → BitVec w} {e : Entry A w} (h : e.undo b = e.undo b') :
    b = b' := by
  funext a
  have ha := congrFun h a
  rw [undo_apply, undo_apply] at ha
  split at ha
  · have := congrArg (· + e.amount) ha
    simpa [BitVec.sub_add_cancel] using this
  · split at ha
    · exact (BitVec.add_left_inj e.amount).mp ha
    · exact ha

theorem foldl_undo_injective {es : List (Entry A w)} {b b' : A → BitVec w}
    (h : es.foldl Entry.undo b = es.foldl Entry.undo b') : b = b' := by
  induction es generalizing b b' with
  | nil => exact h
  | cons e es ih => exact undo_injective (ih h)

/-- Balances changed behind the log's back stay changed after a revert. -/
theorem Restores.revertTo_eq_iff (h : Restores j j') (hentries : j''.entries = j'.entries) :
    (j''.revertTo j.entries.length).balances = j.balances ↔ j''.balances = j'.balances := by
  obtain ⟨es, hlog, hundo⟩ := h
  rw [Journal.revertTo, hentries, hlog, undoTo_append, ← hundo]
  constructor
  · exact foldl_undo_injective
  · intro hsame
    rw [hsame]

/-! ## Moving an amount -/

/-- Debit one account and credit another. -/
def Journal.move (j : Journal A w) (src dst : A) (amount : BitVec w) : Journal A w where
  balances :=
    Function.update (Function.update j.balances src (j.balances src - amount)) dst
      (j.balances dst + amount)
  entries := ⟨src, dst, amount⟩ :: j.entries

/-- Empty an account. -/
def Journal.burn (j : Journal A w) (a : A) : Journal A w where
  balances := Function.update j.balances a 0
  entries := ⟨a, a, j.balances a⟩ :: j.entries

theorem move_src (hne : src ≠ dst) :
    (j.move src dst amount).balances src = j.balances src - amount := by
  simp only [Journal.move, Function.update_of_ne hne, Function.update_self]

theorem move_dst : (j.move src dst amount).balances dst = j.balances dst + amount := by
  simp only [Journal.move, Function.update_self]

theorem move_other (hs : a ≠ src) (hd : a ≠ dst) :
    (j.move src dst amount).balances a = j.balances a := by
  simp only [Journal.move, Function.update_of_ne hd, Function.update_of_ne hs]

theorem restores_move (hne : src ≠ dst) (j : Journal A w) (amount : BitVec w) :
    Restores j (j.move src dst amount) := by
  refine ⟨[⟨src, dst, amount⟩], rfl, ?_⟩
  funext a
  rw [List.foldl_cons, List.foldl_nil, undo_apply]
  by_cases hd : a = dst
  · rw [if_pos ⟨hd, hne⟩, hd, move_dst, BitVec.add_sub_cancel]
  · rw [if_neg fun h => hd h.1]
    by_cases hs : a = src
    · rw [if_pos hs, hs, move_src hne, BitVec.sub_add_cancel]
    · rw [if_neg hs, move_other hs hd]

theorem restores_burn (j : Journal A w) (a : A) : Restores j (j.burn a) := by
  refine ⟨[⟨a, a, j.balances a⟩], rfl, ?_⟩
  simp [Entry.undo, Journal.burn]

/-! ## Transfers -/

inductive TransferError where
  | outOfFunds
  | overflowPayment
  deriving DecidableEq, Repr

/-- Move `amount` from `src` to `dst`: what went wrong, if anything, and
the journal after it. -/
def Journal.transfer (j : Journal A w) (src dst : A) (amount : BitVec w) :
    Option TransferError × Journal A w :=
  if src = dst then (if j.balances src < amount then some .outOfFunds else none, j)
  else if amount = 0 then (none, j)
  else if j.balances src < amount then (some .outOfFunds, j)
  else if 2 ^ w ≤ (j.balances dst).toNat + amount.toNat then
    -- the payer has been debited, and nothing is written to the log
    (some .overflowPayment,
      { j with balances := Function.update j.balances src (j.balances src - amount) })
  else (none, j.move src dst amount)

/-- The payer has the amount and the payee, somebody else, no room for it. -/
def NoRoom (b : A → BitVec w) (src dst : A) (amount : BitVec w) : Prop :=
  src ≠ dst ∧ amount ≤ b src ∧ 2 ^ w ≤ (b dst).toNat + amount.toNat

instance : Decidable (NoRoom b src dst amount) :=
  inferInstanceAs (Decidable (_ ∧ _ ∧ _))

omit [DecidableEq A] in
theorem NoRoom.ne_zero (h : NoRoom b src dst amount) : amount ≠ 0 := by
  rintro rfl
  have hword := (b dst).isLt
  have hfull := h.2.2
  simp at hfull
  omega

/-- The ways a transfer ends. -/
theorem transfer_cases (j : Journal A w) (src dst : A) (amount : BitVec w) :
    (j.balances src < amount ∧ j.transfer src dst amount = (some .outOfFunds, j)) ∨
    (amount ≤ j.balances src ∧ (src = dst ∨ amount = 0) ∧
      j.transfer src dst amount = (none, j)) ∨
    (NoRoom j.balances src dst amount ∧
      j.transfer src dst amount = (some .overflowPayment,
        { j with balances := Function.update j.balances src (j.balances src - amount) })) ∨
    (amount ≤ j.balances src ∧ src ≠ dst ∧ amount ≠ 0 ∧
      (j.balances dst).toNat + amount.toNat < 2 ^ w ∧
      j.transfer src dst amount = (none, j.move src dst amount)) := by
  by_cases hfunds : j.balances src < amount
  · refine .inl ⟨hfunds, ?_⟩
    have hpos : amount ≠ 0 := by
      rintro rfl
      simp [BitVec.lt_def] at hfunds
    simp only [Journal.transfer, if_pos hfunds, if_neg hpos, ite_self]
  · have hle : amount ≤ j.balances src := by simpa using hfunds
    by_cases hsame : src = dst ∨ amount = 0
    · refine .inr (.inl ⟨hle, hsame, ?_⟩)
      rcases hsame with rfl | rfl
      · simp [Journal.transfer, hfunds]
      · simp [Journal.transfer]
    · obtain ⟨hne, hpos⟩ := not_or.mp hsame
      by_cases hfull : 2 ^ w ≤ (j.balances dst).toNat + amount.toNat
      · exact .inr (.inr (.inl ⟨⟨hne, hle, hfull⟩, by
          simp only [Journal.transfer, if_neg hne, if_neg hpos, if_neg hfunds, if_pos hfull]⟩))
      · exact .inr (.inr (.inr ⟨hle, hne, hpos, Nat.lt_of_not_le hfull, by
          simp only [Journal.transfer, if_neg hne, if_neg hpos, if_neg hfunds, if_neg hfull]⟩))

/-- Moving nothing always succeeds. -/
theorem transfer_zero (j : Journal A w) (src dst : A) :
    j.transfer src dst 0 = (none, j) := by
  simp [Journal.transfer]

/-- A payer without the amount is refused. -/
theorem transfer_of_poor (h : ¬ amount ≤ j.balances src) :
    j.transfer src dst amount = (some .outOfFunds, j) := by
  rcases transfer_cases j src dst amount with ⟨-, heq⟩ | ⟨hle, -⟩ | ⟨hnoroom, -⟩ | ⟨hle, -⟩
  · exact heq
  · exact absurd hle h
  · exact absurd hnoroom.2.1 h
  · exact absurd hle h

/-- A payment to oneself of an amount one has. -/
theorem transfer_self (h : amount ≤ j.balances src) : j.transfer src src amount = (none, j) := by
  have hnot : ¬ j.balances src < amount := by simpa using h
  simp [Journal.transfer, hnot]

/-- A transfer goes wrong exactly when the payer has too little or the
payee no room. -/
theorem transfer_error_iff :
    (∃ e, (j.transfer src dst amount).1 = some e) ↔
      j.balances src < amount ∨ NoRoom j.balances src dst amount := by
  rcases transfer_cases j src dst amount with
    ⟨hlt, h⟩ | ⟨hle, hsame, h⟩ | ⟨hnoroom, h⟩ | ⟨hle, hne, -, hfits, h⟩ <;> rw [h]
  · simp [hlt]
  · have hroom : ¬ NoRoom j.balances src dst amount := fun hnoroom =>
      hsame.elim hnoroom.1 hnoroom.ne_zero
    simp [hle, hroom]
  · simp [hnoroom]
  · have hroom : ¬ NoRoom j.balances src dst amount := fun hnoroom => by
      have := hnoroom.2.2
      omega
    simp [hle, hroom]

/-- Only the payer's balance goes down. -/
theorem transfer_mono (dst : A) (amount : BitVec w) (hs : a ≠ src) :
    (j.balances a).toNat ≤ ((j.transfer src dst amount).2.balances a).toNat := by
  rcases transfer_cases j src dst amount with
    ⟨-, h⟩ | ⟨-, -, h⟩ | ⟨-, h⟩ | ⟨-, -, -, hfits, h⟩ <;> simp only [h]
  · exact le_rfl
  · exact le_rfl
  · rw [Function.update_of_ne hs]
  · by_cases hd : a = dst
    · rw [hd, move_dst, BitVec.toNat_add, Nat.mod_eq_of_lt hfits]
      omega
    · rw [move_other hs hd]

/-- A payer who has the amount loses it, whether or not the payee gets it. -/
theorem transfer_payer (hne : src ≠ dst) (hle : amount ≤ j.balances src) :
    ((j.transfer src dst amount).2.balances src).toNat + amount.toNat
      = (j.balances src).toNat := by
  have hsub : (j.balances src - amount).toNat + amount.toNat = (j.balances src).toNat := by
    rw [BitVec.toNat_sub_of_le hle]
    rw [BitVec.le_def] at hle
    omega
  rcases transfer_cases j src dst amount with
    ⟨hlt, -⟩ | ⟨-, hsame, h⟩ | ⟨-, h⟩ | ⟨-, -, -, -, h⟩
  · exact absurd hle (by simpa using hlt)
  · obtain rfl := hsame.resolve_left hne
    rw [h]
    simp
  · simp only [h, Function.update_self]
    exact hsub
  · simp only [h, move_src hne]
    exact hsub

/-- The payee of a transfer that goes through is credited. -/
theorem transfer_payee (hne : src ≠ dst) (h : j.transfer src dst amount = (none, j')) :
    (j'.balances dst).toNat = (j.balances dst).toNat + amount.toNat := by
  rcases transfer_cases j src dst amount with
    ⟨-, heq⟩ | ⟨-, hsame, heq⟩ | ⟨-, heq⟩ | ⟨-, -, -, hfits, heq⟩ <;>
    obtain ⟨herr, rfl⟩ := Prod.mk.inj (heq.symm.trans h)
  · cases herr
  · obtain rfl := hsame.resolve_left hne
    simp
  · cases herr
  · rw [move_dst, BitVec.toNat_add, Nat.mod_eq_of_lt hfits]

/-- A transfer that goes through is covered by the payer's balance. -/
theorem transfer_funds (h : j.transfer src dst amount = (none, j')) :
    amount ≤ j.balances src := by
  rcases transfer_cases j src dst amount with
    ⟨-, heq⟩ | ⟨hle, -⟩ | ⟨-, heq⟩ | ⟨hle, -⟩
  · cases (Prod.mk.inj (heq.symm.trans h)).1
  · exact hle
  · cases (Prod.mk.inj (heq.symm.trans h)).1
  · exact hle

theorem transfer_other (j : Journal A w) (amount : BitVec w) (hs : a ≠ src) (hd : a ≠ dst) :
    (j.transfer src dst amount).2.balances a = j.balances a := by
  rcases transfer_cases j src dst amount with
    ⟨-, h⟩ | ⟨-, -, h⟩ | ⟨-, h⟩ | ⟨-, -, -, -, h⟩ <;> simp only [h]
  · rw [Function.update_of_ne hs]
  · rw [move_other hs hd]

/-- Whom a transfer debits: the payer, of a nonzero amount it has and to
somebody else. The payee's room does not come into it. -/
theorem transfer_debits_iff :
    (j.transfer src dst amount).2.balances a < j.balances a ↔
      a = src ∧ amount ≠ 0 ∧ amount ≤ j.balances src ∧ src ≠ dst := by
  rw [BitVec.lt_def]
  constructor
  · intro hlt
    obtain rfl : a = src := by
      by_contra hs
      have := transfer_mono (j := j) dst amount hs
      omega
    rcases transfer_cases j a dst amount with
      ⟨-, h⟩ | ⟨-, -, h⟩ | ⟨hnoroom, -⟩ | ⟨hle, hne, hpos, -, -⟩
    · simp only [h, lt_irrefl] at hlt
    · simp only [h, lt_irrefl] at hlt
    · exact ⟨rfl, hnoroom.ne_zero, hnoroom.2.1, hnoroom.1⟩
    · exact ⟨rfl, hpos, hle, hne⟩
  · rintro ⟨rfl, hpos, hle, hne⟩
    have hpayer := transfer_payer hne hle
    have hnz : amount.toNat ≠ 0 := fun h => hpos (BitVec.eq_of_toNat_eq (by simpa using h))
    omega

/-- When a transfer changes a balance. -/
theorem transfer_changes_iff :
    (j.transfer src dst amount).2.balances ≠ j.balances ↔
      amount ≠ 0 ∧ amount ≤ j.balances src ∧ src ≠ dst := by
  constructor
  · intro hchange
    rcases transfer_cases j src dst amount with
      ⟨-, h⟩ | ⟨-, -, h⟩ | ⟨hnoroom, -⟩ | ⟨hle, hne, hpos, -, -⟩
    · exact absurd (by rw [h]) hchange
    · exact absurd (by rw [h]) hchange
    · exact ⟨hnoroom.ne_zero, hnoroom.2.1, hnoroom.1⟩
    · exact ⟨hpos, hle, hne⟩
  · intro h heq
    have hlt := (transfer_debits_iff (j := j) (a := src)).mpr ⟨rfl, h⟩
    rw [heq] at hlt
    simp at hlt

/-- A transfer to a payee with room can be taken back. -/
theorem restores_transfer (hroom : ¬ NoRoom j.balances src dst amount) :
    Restores j (j.transfer src dst amount).2 := by
  rcases transfer_cases j src dst amount with ⟨-, h⟩ | ⟨-, -, h⟩ | ⟨hnoroom, -⟩ | ⟨-, hne, -, -, h⟩
  · rw [h]
    exact .refl j
  · rw [h]
    exact .refl j
  · exact absurd hnoroom hroom
  · rw [h]
    exact restores_move hne j amount

/-- A revert behind a transfer gives the old balances back exactly when the
payee had room. -/
theorem revertTo_transfer_iff (hj : Restores j j') :
    ((j'.transfer src dst amount).2.revertTo j.entries.length).balances = j.balances ↔
      ¬ NoRoom j'.balances src dst amount := by
  by_cases hnoroom : NoRoom j'.balances src dst amount
  · refine iff_of_false (fun hback => ?_) (not_not.mpr hnoroom)
    rcases transfer_cases j' src dst amount with
      ⟨hlt, -⟩ | ⟨-, hsame, -⟩ | ⟨-, h⟩ | ⟨-, -, -, hfits, -⟩
    · exact absurd hnoroom.2.1 (by simpa using hlt)
    · exact hsame.elim hnoroom.1 hnoroom.ne_zero
    · -- the debit has left no entry
      have hentries : (j'.transfer src dst amount).2.entries = j'.entries := by rw [h]
      exact transfer_changes_iff.mpr ⟨hnoroom.ne_zero, hnoroom.2.1, hnoroom.1⟩
        ((hj.revertTo_eq_iff hentries).mp hback)
    · have := hnoroom.2.2
      omega
  · refine iff_of_true ?_ hnoroom
    rw [(hj.trans (restores_transfer hnoroom)).revertTo]

/-! ## A total that fits a word -/

variable [Fintype A]

theorem total_move (hne : src ≠ dst) (hle : amount ≤ j.balances src)
    (hfits : (j.balances dst).toNat + amount.toNat < 2 ^ w) :
    total (j.move src dst amount).balances = total j.balances := by
  have h1 := total_update j.balances src (j.balances src - amount)
  have h2 := total_update (Function.update j.balances src (j.balances src - amount)) dst
    (j.balances dst + amount)
  rw [Function.update_of_ne (Ne.symm hne)] at h2
  rw [BitVec.toNat_sub_of_le hle] at h1
  rw [BitVec.toNat_add, Nat.mod_eq_of_lt hfits] at h2
  rw [BitVec.le_def] at hle
  simp only [Journal.move]
  omega

theorem total_burn (j : Journal A w) (a : A) :
    total (j.burn a).balances + (j.balances a).toNat = total j.balances := by
  simpa [Journal.burn] using total_update j.balances a 0

theorem room_of_total (htotal : total b < 2 ^ w) : ¬ NoRoom b src dst amount := by
  rintro ⟨hne, hle, hfull⟩
  have hsum := add_le_total b hne
  rw [BitVec.le_def] at hle
  omega

/-- Where the total fits a word, the funds alone decide what a transfer
does. -/
theorem transfer_of_total (htotal : total j.balances < 2 ^ w) (src dst : A)
    (amount : BitVec w) :
    (j.balances src < amount ∧ j.transfer src dst amount = (some .outOfFunds, j)) ∨
    (amount ≤ j.balances src ∧ ∃ j', j.transfer src dst amount = (none, j')) := by
  rcases transfer_cases j src dst amount with h | ⟨hle, -, h⟩ | ⟨hnoroom, -⟩ | ⟨hle, -, -, -, h⟩
  · exact .inl h
  · exact .inr ⟨hle, j, h⟩
  · exact absurd hnoroom (room_of_total htotal)
  · exact .inr ⟨hle, _, h⟩

theorem total_transfer (htotal : total j.balances < 2 ^ w) :
    total (j.transfer src dst amount).2.balances = total j.balances := by
  rcases transfer_cases j src dst amount with
    ⟨-, h⟩ | ⟨-, -, h⟩ | ⟨hnoroom, -⟩ | ⟨hle, hne, -, hfits, h⟩
  · rw [h]
  · rw [h]
  · exact absurd hnoroom (room_of_total htotal)
  · rw [h]
    exact total_move hne hle hfits

end Nbnet.Lib
