/-
Nbnet.Lib.Struct — records read member by member.

How a derived deserializer reads a record from named members: the members
in the order they come, each at most once, unknown ones skipped, the
required ones checked at the end; what is missing keeps the value it has
in the record one starts from. Fields are lenses: `readStruct_eq_ok` says
exactly which members read as which record, with no order in it.
-/
import Nbnet.Lib.Text

namespace Nbnet.Lib

variable {J R : Type}

/-- A field of a record: its name, whether it has to be there, how its
value is read, and where in the record it is. -/
structure RecordField (J R : Type) where
  {A : Type}
  name : String
  required : Bool
  read : J → Outcome String A
  get : R → A
  put : A → R → R

/-- The field a member is for. -/
def fieldOf (fields : List (RecordField J R)) (name : String) : Option (RecordField J R) :=
  fields.find? (·.name = name)

/-- The members in turn; `seen` are the names that have been read. -/
def visitMembers (fields : List (RecordField J R)) :
    List String → R → List (String × J) → Outcome String (List String × R)
  | seen, r, [] => .ok (seen, r)
  | seen, r, (name, j) :: members =>
      match fieldOf fields name with
      | none => visitMembers fields seen r members
      | some f =>
          if name ∈ seen then .err s!"duplicate field `{name}`"
          else (f.read j).bind fun a => visitMembers fields (name :: seen) (f.put a r) members

def readStruct (fields : List (RecordField J R)) (init : R) (members : List (String × J)) :
    Outcome String R :=
  (visitMembers fields [] init members).bind fun (seen, r) =>
    match fields.find? fun f => f.required ∧ f.name ∉ seen with
    | some f => .err s!"missing field `{f.name}`"
    | none => .ok r

/-- The same record from values without names, in the order of the fields. -/
def readTuple : List (RecordField J R) → Nat → R → List J → Outcome String R
  | [], _, r, [] => .ok r
  | [], _, _, _ :: _ => .err "trailing characters"
  | f :: fields, i, r, [] =>
      if f.required then .err s!"invalid length {i}" else readTuple fields (i + 1) r []
  | f :: fields, i, r, j :: js =>
      (f.read j).bind fun a => readTuple fields (i + 1) (f.put a r) js

/-! ## What is read -/

/-- A record with a member put in, if some field takes it. -/
def putMember (fields : List (RecordField J R)) (r : R) (member : String × J) : R :=
  match fieldOf fields member.1 with
  | none => r
  | some f =>
      match f.read member.2 with
      | .ok a => f.put a r
      | _ => r

/-- The names some field takes. -/
def knownNames (fields : List (RecordField J R)) (members : List (String × J)) : List String :=
  (members.map Prod.fst).filter fun name => (fieldOf fields name).isSome

/-- Every member a field takes can be read. -/
def AllRead (fields : List (RecordField J R)) (members : List (String × J)) : Prop :=
  ∀ member ∈ members, ∀ f, fieldOf fields member.1 = some f → ∃ a, f.read member.2 = .ok a

section Read

variable {fields : List (RecordField J R)}

theorem bind_eq_ok {ε α β : Type} {x : Outcome ε α} {f : α → Outcome ε β} {b : β} :
    x.bind f = .ok b ↔ ∃ a, x = .ok a ∧ f a = .ok b := by
  cases x <;> simp [Outcome.bind]

theorem knownNames_cons (name : String) (j : J) (members : List (String × J)) :
    knownNames fields ((name, j) :: members)
      = if (fieldOf fields name).isSome then name :: knownNames fields members
        else knownNames fields members := by
  simp only [knownNames, List.map_cons, List.filter_cons]

theorem allRead_cons (name : String) (j : J) (members : List (String × J)) :
    AllRead fields ((name, j) :: members) ↔
      (∀ f, fieldOf fields name = some f → ∃ a, f.read j = .ok a) ∧ AllRead fields members := by
  simp only [AllRead, List.forall_mem_cons]

theorem visitMembers_ok_iff (seen seen' : List String) (r r' : R) (members : List (String × J)) :
    visitMembers fields seen r members = .ok (seen', r') ↔
      ((knownNames fields members).Nodup ∧ (∀ name ∈ knownNames fields members, name ∉ seen) ∧
        AllRead fields members) ∧
      seen' = (knownNames fields members).reverse ++ seen ∧
        r' = members.foldl (putMember fields) r := by
  induction members generalizing seen r with
  | nil => simp [visitMembers, knownNames, AllRead, eq_comm]
  | cons member members ih =>
    obtain ⟨name, j⟩ := member
    rw [visitMembers, knownNames_cons, allRead_cons, List.foldl_cons]
    cases hfield : fieldOf fields name with
    | none =>
      have hput : putMember fields r (name, j) = r := by simp [putMember, hfield]
      simp [ih, hput]
    | some f =>
      by_cases hseen : name ∈ seen
      · simp [hseen]
      · cases hread : f.read j with
        | ok a =>
          have hput : putMember fields r (name, j) = f.put a r := by
            simp [putMember, hfield, hread]
          simp only [hseen, if_false, Outcome.bind_ok, ih, hput, Option.isSome_some, if_true,
            List.nodup_cons, List.reverse_cons, List.append_assoc, List.singleton_append,
            Option.some.injEq, forall_eq', hread, Outcome.ok.injEq, exists_eq', true_and,
            List.mem_cons, not_or, forall_eq_or_imp]
          constructor
          · rintro ⟨⟨hnodup, hfresh, hall⟩, hlast⟩
            exact ⟨⟨⟨fun hmem => (hfresh name hmem).1 rfl, hnodup⟩,
              ⟨not_false, fun n hn => (hfresh n hn).2⟩, hall⟩, hlast⟩
          · rintro ⟨⟨⟨hname, hnodup⟩, ⟨-, hfresh⟩, hall⟩, hlast⟩
            exact ⟨⟨hnodup, fun n hn => ⟨fun heq => hname (heq ▸ hn), hfresh n hn⟩, hall⟩, hlast⟩
        | err e => simp [hseen, Outcome.bind, hread]
        | panicked => simp [hseen, Outcome.bind, hread]

/-- What a record can be read from: every name that is known once, every
value readable, every required name there. -/
structure Readable (fields : List (RecordField J R)) (members : List (String × J)) : Prop where
  once : (knownNames fields members).Nodup
  read : AllRead fields members
  complete : ∀ f ∈ fields, f.required → f.name ∈ knownNames fields members

theorem readStruct_ok_iff (init r : R) (members : List (String × J)) :
    readStruct fields init members = .ok r ↔
      Readable fields members ∧ r = members.foldl (putMember fields) init := by
  have hfind : ∀ seen : List String,
      (fields.find? fun f => f.required ∧ f.name ∉ seen) = none ↔
        ∀ f ∈ fields, f.required → f.name ∈ seen := by
    intro seen
    simp [List.find?_eq_none]
  rw [readStruct, bind_eq_ok]
  constructor
  · rintro ⟨⟨seen, r'⟩, hvisit, hmissing⟩
    obtain ⟨⟨honce, -, hread⟩, rfl, rfl⟩ := (visitMembers_ok_iff ..).mp hvisit
    dsimp only at hmissing
    split at hmissing
    · cases hmissing
    · rename_i hnone
      refine ⟨⟨honce, hread, ?_⟩, (Outcome.ok.inj hmissing).symm⟩
      simpa using (hfind _).mp hnone
  · rintro ⟨hreadable, rfl⟩
    refine ⟨((knownNames fields members).reverse ++ [], _), (visitMembers_ok_iff ..).mpr
      ⟨⟨hreadable.once, by simp, hreadable.read⟩, rfl, rfl⟩, ?_⟩
    dsimp only
    rw [(hfind _).mpr (by simpa using hreadable.complete)]

/-! ## RecordField by field -/

/-- The fields are lenses on different parts of the record, and make it up. -/
structure Lawful (fields : List (RecordField J R)) : Prop where
  names : (fields.map (·.name)).Nodup
  get_put : ∀ f ∈ fields, ∀ a r, f.get (f.put a r) = a
  get_put_ne : ∀ f ∈ fields, ∀ g ∈ fields, f.name ≠ g.name → ∀ a r, f.get (g.put a r) = f.get r
  ext : ∀ r r', (∀ f ∈ fields, f.get r = f.get r') → r = r'

/-- A field has the value of its member, or is not required and has the
value one starts from. -/
def RecordField.Given (f : RecordField J R) (init : R) (members : List (String × J)) (r : R) : Prop :=
  (∃ j, (f.name, j) ∈ members ∧ f.read j = .ok (f.get r)) ∨
    (f.name ∉ members.map Prod.fst ∧ f.required = false ∧ f.get r = f.get init)

theorem fieldOf_eq_some {name : String} {f : RecordField J R} (h : fieldOf fields name = some f) :
    f ∈ fields ∧ f.name = name :=
  ⟨List.mem_of_find?_eq_some h, by simpa using List.find?_some h⟩

theorem isSome_fieldOf {f : RecordField J R} (hf : f ∈ fields) : (fieldOf fields f.name).isSome := by
  rw [fieldOf, List.find?_isSome]
  exact ⟨f, hf, by simp⟩

theorem Lawful.fieldOf_name (h : Lawful fields) {f : RecordField J R} (hf : f ∈ fields) :
    fieldOf fields f.name = some f := by
  obtain ⟨g, hg⟩ := Option.isSome_iff_exists.mp (isSome_fieldOf hf)
  obtain ⟨hmem, hname⟩ := fieldOf_eq_some hg
  rw [hg, List.inj_on_of_nodup_map h.names hmem hf hname]

/-- A member that is known comes at most once. -/
theorem Readable.count_le {members : List (String × J)} (h : Readable fields members)
    {f : RecordField J R} (hf : f ∈ fields) : (members.map Prod.fst).count f.name ≤ 1 := by
  have hcount := List.nodup_iff_count_le_one.mp h.once f.name
  have hknown : (knownNames fields members).count f.name = (members.map Prod.fst).count f.name :=
    List.count_filter (a := f.name) (isSome_fieldOf hf)
  rwa [hknown] at hcount

theorem nodup_knownNames {members : List (String × J)}
    (h : ∀ f ∈ fields, (members.map Prod.fst).count f.name ≤ 1) :
    (knownNames fields members).Nodup := by
  refine List.nodup_iff_count_le_one.mpr fun name => ?_
  cases hfield : fieldOf fields name with
  | none =>
    have habsent : name ∉ knownNames fields members := by simp [knownNames, hfield]
    rw [List.count_eq_zero_of_not_mem habsent]
    exact Nat.zero_le 1
  | some f =>
    obtain ⟨hf, rfl⟩ := fieldOf_eq_some hfield
    exact (List.filter_sublist.count_le _).trans (h f hf)

/-- Members with a name that comes once are one member. -/
theorem eq_of_count_le {members : List (String × J)} {name : String} {j j' : J}
    (hcount : (members.map Prod.fst).count name ≤ 1) (hj : (name, j) ∈ members)
    (hj' : (name, j') ∈ members) : j = j' := by
  obtain ⟨before, after, rfl⟩ := List.append_of_mem hj
  simp only [List.map_append, List.map_cons, List.count_append, List.count_cons_self] at hcount
  have hbefore : name ∉ before.map Prod.fst := List.count_eq_zero.mp (by omega)
  have hafter : name ∉ after.map Prod.fst := List.count_eq_zero.mp (by omega)
  rcases List.mem_append.mp hj' with hmem | hmem
  · exact absurd (List.mem_map_of_mem hmem) hbefore
  · rcases List.mem_cons.mp hmem with heq | hmem
    · exact (Prod.mk.inj heq).2.symm
    · exact absurd (List.mem_map_of_mem hmem) hafter

theorem Lawful.get_putMember (h : Lawful fields) {f : RecordField J R} (hf : f ∈ fields) (r : R)
    {member : String × J} (hne : member.1 ≠ f.name) :
    f.get (putMember fields r member) = f.get r := by
  unfold putMember
  cases hfield : fieldOf fields member.1 with
  | none => rfl
  | some g =>
    obtain ⟨hg, hname⟩ := fieldOf_eq_some hfield
    dsimp only
    split
    · exact h.get_put_ne f hf g hg (fun heq => hne (hname.symm.trans heq.symm)) _ r
    · rfl

theorem Lawful.get_foldl_of_absent (h : Lawful fields) {f : RecordField J R} (hf : f ∈ fields)
    {members : List (String × J)} (habsent : f.name ∉ members.map Prod.fst) (r : R) :
    f.get (members.foldl (putMember fields) r) = f.get r := by
  induction members generalizing r with
  | nil => rfl
  | cons member members ih =>
    rw [List.map_cons, List.mem_cons, not_or] at habsent
    rw [List.foldl_cons, ih habsent.2, h.get_putMember hf r (Ne.symm habsent.1)]

theorem Lawful.get_foldl_of_mem (h : Lawful fields) {f : RecordField J R} (hf : f ∈ fields)
    {members : List (String × J)} (hcount : (members.map Prod.fst).count f.name ≤ 1) {j : J}
    {a : f.A} (hmem : (f.name, j) ∈ members) (hread : f.read j = .ok a) (r : R) :
    f.get (members.foldl (putMember fields) r) = a := by
  obtain ⟨before, after, rfl⟩ := List.append_of_mem hmem
  simp only [List.map_append, List.map_cons, List.count_append, List.count_cons_self] at hcount
  have hafter : f.name ∉ after.map Prod.fst := List.count_eq_zero.mp (by omega)
  have hput : ∀ r, putMember fields r (f.name, j) = f.put a r := by
    intro r
    simp [putMember, h.fieldOf_name hf, hread]
  rw [List.foldl_append, List.foldl_cons, h.get_foldl_of_absent hf hafter, hput, h.get_put f hf]

/-- **Which members read as which record**: those that give every field, and
no field twice. -/
theorem readStruct_eq_ok (h : Lawful fields) (init r : R) (members : List (String × J)) :
    readStruct fields init members = .ok r ↔
      (∀ f ∈ fields, (members.map Prod.fst).count f.name ≤ 1) ∧
        ∀ f ∈ fields, f.Given init members r := by
  rw [readStruct_ok_iff]
  constructor
  · rintro ⟨hreadable, rfl⟩
    refine ⟨fun f hf => hreadable.count_le hf, fun f hf => ?_⟩
    by_cases hmem : f.name ∈ members.map Prod.fst
    · obtain ⟨⟨name, j⟩, hmember, rfl⟩ := List.mem_map.mp hmem
      obtain ⟨a, hread⟩ := hreadable.read _ hmember f (h.fieldOf_name hf)
      refine .inl ⟨j, hmember, ?_⟩
      rw [hread, h.get_foldl_of_mem hf (hreadable.count_le hf) hmember hread]
    · refine .inr ⟨hmem, Bool.eq_false_iff.mpr fun hreq => ?_, h.get_foldl_of_absent hf hmem init⟩
      exact hmem (List.mem_of_mem_filter (hreadable.complete f hf hreq))
  · rintro ⟨hcount, hgiven⟩
    refine ⟨⟨nodup_knownNames hcount, fun member hmember f hfield => ?_, fun f hf hreq => ?_⟩, ?_⟩
    · obtain ⟨hf, hname⟩ := fieldOf_eq_some hfield
      obtain ⟨name, j⟩ := member
      obtain rfl : f.name = name := hname
      rcases hgiven f hf with ⟨j', hmem, hread⟩ | ⟨habsent, -, -⟩
      · rw [eq_of_count_le (hcount f hf) hmember hmem]
        exact ⟨_, hread⟩
      · exact absurd (List.mem_map_of_mem hmember) habsent
    · rcases hgiven f hf with ⟨j, hmem, -⟩ | ⟨-, hopt, -⟩
      · exact List.mem_filter.mpr ⟨List.mem_map_of_mem hmem, isSome_fieldOf hf⟩
      · rw [hopt] at hreq
        cases hreq
    · refine h.ext _ _ fun f hf => ?_
      rcases hgiven f hf with ⟨j, hmem, hread⟩ | ⟨habsent, -, hinit⟩
      · exact (h.get_foldl_of_mem hf (hcount f hf) hmem hread init).symm
      · rw [hinit, h.get_foldl_of_absent hf habsent]

end Read

end Nbnet.Lib
