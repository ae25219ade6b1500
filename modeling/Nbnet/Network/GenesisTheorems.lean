/-
Nbnet.Network.GenesisTheorems — the genesis document survives its file.

What a home's document says is read field by field: in any order, with
defaults for what is left out and nothing made of unknown members, and no
field twice. So every node of a cluster starts from the document the
cluster was given, however often `init` and `node` run in its home.
-/
import Nbnet.Network.GenesisFile
import Nbnet.Rpc.WireTheorems
import Nbnet.Types.HexTheorems

namespace Nbnet.Network

open Lib Execution Rpc

/-! ## What a document says -/

/-- A member of this name, whose value reads as `a`. -/
def HasMember (members : List (String × Json)) (name : String) (read : Json → Outcome String A)
    (a : A) : Prop :=
  ∃ j, (name, j) ∈ members ∧ read j = .ok a

/-- The same, or no member and the default. -/
def HasMemberOr (members : List (String × Json)) (name : String) (read : Json → Outcome String A)
    (default a : A) : Prop :=
  HasMember members name read a ∨ (name ∉ members.map Prod.fst ∧ a = default)

/-- A map as an object gives it: one entry per member, and the last entry of
a key counts. -/
def DescribesMap {K V : Type} [Ord K] [Std.TransOrd K] [DecidableEq K]
    (key : Json → Outcome String K) (value : Json → Outcome String V) (j : Json)
    (m : FMap K V) : Prop :=
  ∃ members entries, j = .object members ∧
    List.Forall₂ (fun member e => key (.string member.1) = .ok e.1 ∧ value member.2 = .ok e.2)
      members entries ∧
    ∀ k, m[k]? = (entries.reverse.find? (·.1 = k)).map Prod.snd

section Spec

variable (libs : SerdeLibs)

structure DescribesAlloc (members : List (String × Json)) (alloc : GenesisAlloc) : Prop where
  once : ∀ name ∈ ["balance", "nonce", "code", "storage"], (members.map Prod.fst).count name ≤ 1
  balance : HasMember members "balance" (readU256 libs) alloc.balance
  nonce : HasMemberOr members "nonce" (readU64 libs) 0 alloc.nonce
  code : HasMemberOr members "code" readCode [] alloc.code
  storage : HasMemberOr members "storage" (readStorage libs) ∅ alloc.storage

structure DescribesGenesis (members : List (String × Json)) (doc : GenesisDocument) : Prop where
  once : ∀ name ∈ ["chain_id", "alloc", "gas_limit", "base_fee_per_gas", "coinbase", "timestamp"],
    (members.map Prod.fst).count name ≤ 1
  chainId : HasMember members "chain_id" (readU64 libs) doc.chainId
  alloc : HasMember members "alloc" (readAlloc libs) doc.alloc
  gasLimit : HasMemberOr members "gas_limit" (readU64 libs) 30000000 doc.gasLimit
  baseFeePerGas : HasMemberOr members "base_fee_per_gas" (readU64 libs) 1000000000 doc.baseFeePerGas
  coinbase : HasMemberOr members "coinbase" (readAddress libs) 0 doc.coinbase
  timestamp : HasMemberOr members "timestamp" (readU64 libs) 0 doc.timestamp

theorem lawful_allocFields : Lawful (allocFields libs) where
  names := by
    show ["balance", "nonce", "code", "storage"].Nodup
    decide
  get_put := by simp [allocFields]
  get_put_ne := by simp [allocFields]
  ext := by
    rintro ⟨⟩ ⟨⟩ h
    simpa [allocFields] using h

theorem lawful_genesisFields : Lawful (genesisFields libs) where
  names := by
    show ["chain_id", "alloc", "gas_limit", "base_fee_per_gas", "coinbase", "timestamp"].Nodup
    decide
  get_put := by simp [genesisFields]
  get_put_ne := by simp [genesisFields]
  ext := by
    rintro ⟨⟨⟩⟩ ⟨⟨⟩⟩ h
    simpa [genesisFields, and_assoc] using h

variable {libs}

theorem given_required {R : Type} {f : RecordField Json R} (hreq : f.required = true) {init r : R}
    {members : List (String × Json)} :
    f.Given init members r ↔ HasMember members f.name f.read (f.get r) := by
  simp [RecordField.Given, HasMember, hreq]

theorem given_optional {R : Type} {f : RecordField Json R} (hopt : f.required = false) {init r : R}
    {members : List (String × Json)} :
    f.Given init members r ↔ HasMemberOr members f.name f.read (f.get init) (f.get r) := by
  simp [RecordField.Given, HasMemberOr, HasMember, hopt]

theorem alloc_fromJson_eq_ok (members : List (String × Json)) (alloc : GenesisAlloc) :
    GenesisAlloc.fromJson libs (.object members) = .ok alloc ↔
      DescribesAlloc libs members alloc := by
  rw [GenesisAlloc.fromJson, readRecord, readStruct_eq_ok (lawful_allocFields libs)]
  simp only [allocFields, List.forall_mem_cons, given_required, given_optional]
  constructor
  · rintro ⟨⟨h1, h2, h3, h4, -⟩, hbalance, hnonce, hcode, hstorage, -⟩
    exact ⟨by simp [h1, h2, h3, h4], hbalance, hnonce, hcode, hstorage⟩
  · rintro ⟨honce, hbalance, hnonce, hcode, hstorage⟩
    exact ⟨by simpa using honce, hbalance, hnonce, hcode, hstorage, by simp⟩

theorem genesis_fromJson_eq_ok (members : List (String × Json)) (doc : GenesisDocument) :
    GenesisDocument.fromJson libs (.object members) = .ok doc ↔
      DescribesGenesis libs members doc := by
  rw [GenesisDocument.fromJson, readRecord, readStruct_eq_ok (lawful_genesisFields libs)]
  simp only [genesisFields, List.forall_mem_cons, given_required, given_optional]
  constructor
  · rintro ⟨⟨h1, h2, h3, h4, h5, h6, -⟩, hchain, halloc, hgas, hfee, hcoinbase, htime, -⟩
    exact ⟨by simp [h1, h2, h3, h4, h5, h6], hchain, halloc, hgas, hfee, hcoinbase, htime⟩
  · rintro ⟨honce, hchain, halloc, hgas, hfee, hcoinbase, htime⟩
    exact ⟨by simpa using honce, hchain, halloc, hgas, hfee, hcoinbase, htime, by simp⟩

end Spec

/-! ## Maps -/

section Maps

variable {K V : Type} [Ord K] [Std.TransOrd K] [Std.LawfulEqOrd K]

omit [Std.LawfulEqOrd K] in
theorem readEntries_eq_ok {key : Json → Outcome String K} {value : Json → Outcome String V}
    (members : List (String × Json)) (m m' : FMap K V) :
    readEntries key value m members = .ok m' ↔
      ∃ entries : List (K × V),
        List.Forall₂ (fun member e => key (.string member.1) = .ok e.1 ∧ value member.2 = .ok e.2)
          members entries ∧ m' = entries.foldl (fun m e => m.insert e.1 e.2) m := by
  induction members generalizing m with
  | nil => simp [readEntries, eq_comm]
  | cons member members ih =>
    obtain ⟨k, j⟩ := member
    simp only [readEntries, bind_eq_ok, ih, List.forall₂_cons_left_iff]
    constructor
    · rintro ⟨k', hk, v, hv, entries, hentries, rfl⟩
      exact ⟨(k', v) :: entries, ⟨(k', v), entries, ⟨hk, hv⟩, hentries, rfl⟩, rfl⟩
    · rintro ⟨_, ⟨⟨k', v⟩, entries, ⟨hk, hv⟩, hentries, rfl⟩, rfl⟩
      exact ⟨k', hk, v, hv, entries, hentries, rfl⟩

/-- Of the entries of one key the last counts. -/
theorem get_foldl_insert [DecidableEq K] (entries : List (K × V)) (k : K) :
    (entries.foldl (fun (m : FMap K V) e => m.insert e.1 e.2) ∅)[k]?
      = (entries.reverse.find? (·.1 = k)).map Prod.snd := by
  induction entries using List.reverseRecOn with
  | nil => simp
  | append_singleton entries e ih =>
    rw [List.foldl_append, List.reverse_append, List.reverse_singleton, List.singleton_append,
      List.foldl_cons, List.foldl_nil, List.find?_cons]
    by_cases hk : e.1 = k
    · subst hk
      simp
    · rw [FMap.get_insert_of_ne _ _ hk, ih]
      simp [hk]

theorem readMap_eq_ok [DecidableEq K] {key : Json → Outcome String K}
    {value : Json → Outcome String V} (j : Json) (m : FMap K V) :
    readMap key value j = .ok m ↔ DescribesMap key value j m := by
  cases j with
  | object members =>
    simp only [readMap, readEntries_eq_ok, DescribesMap, Json.object.injEq]
    constructor
    · rintro ⟨entries, hentries, rfl⟩
      exact ⟨members, entries, rfl, hentries, get_foldl_insert entries⟩
    · rintro ⟨_, entries, rfl, hentries, hget⟩
      refine ⟨entries, hentries, Std.ExtTreeMap.ext_getElem? fun k => ?_⟩
      rw [hget, get_foldl_insert]
  | _ => simp [readMap, DescribesMap]

end Maps

/-! ## What is written is read -/

/-- What is assumed of the texts of numbers and addresses: they read back. -/
structure SerdeLibs.ReadsBack (libs : SerdeLibs) : Prop where
  address : ∀ a, libs.addressOfJson (.string (libs.addressText a)) = .ok a
  u256 : ∀ x, libs.u256OfJson (.string (libs.u256Text x)) = .ok x
  u64 : ∀ n : UInt64, libs.u64OfJson (.number (toString n)) = .ok n

/-- And of serde_json: it reads the text it writes for a document. -/
def SerdeLibs.Prints (libs : SerdeLibs) (doc : GenesisDocument) : Prop :=
  libs.fromStr (libs.toStringPretty (doc.toJson libs)) = .ok (doc.toJson libs)

section RoundTrip

theorem readEntries_map {K V : Type} [Ord K] [Std.TransOrd K] {key : K → String}
    {value : V → Json} {readKey : Json → Outcome String K} {readValue : Json → Outcome String V}
    (hkey : ∀ k, readKey (.string (key k)) = .ok k) (hvalue : ∀ v, readValue (value v) = .ok v)
    (entries : List (K × V)) (m : FMap K V) :
    readEntries readKey readValue m (entries.map fun e => (key e.1, value e.2))
      = .ok (entries.foldl (fun m e => m.insert e.1 e.2) m) := by
  induction entries generalizing m with
  | nil => rfl
  | cons e entries ih => simp [readEntries, hkey, hvalue, ih]

/-- Putting the entries of a map into an empty one gives the map. -/
theorem foldl_insert_toList {K V : Type} [Ord K] [Std.TransOrd K] [Std.LawfulEqOrd K]
    (m : FMap K V) : m.toList.foldl (fun m e => m.insert e.1 e.2) ∅ = m := by
  refine Std.ExtTreeMap.ext_getElem? fun k => ?_
  have hcell := foldl_entries (fun (m : FMap K V) k => m[k]?) (fun m e => m.insert e.1 e.2)
    (fun v _ => some v) (fun m e => by simp) (fun m e k hne => FMap.get_insert_of_ne _ _ hne.symm)
    m ∅ k
  rw [hcell]
  cases m[k]? <;> simp

theorem readMap_mapJson {K V : Type} [Ord K] [Std.TransOrd K] [Std.LawfulEqOrd K]
    {key : K → String} {value : V → Json} {readKey : Json → Outcome String K}
    {readValue : Json → Outcome String V} (hkey : ∀ k, readKey (.string (key k)) = .ok k)
    (hvalue : ∀ v, readValue (value v) = .ok v) (m : FMap K V) :
    readMap readKey readValue (mapJson key value m) = .ok m := by
  rw [mapJson, readMap, readEntries_map hkey hvalue, foldl_insert_toList]

theorem readCode_serialize (b : Bytes) : readCode (.string (HexBytes.serialize b)) = .ok b := by
  rw [readCode, HexBytes.serialize, HexBytes.encode, hexPairs_digits,
    deserialize_digits (digitsOfBytes_hexDigits b) (by simp) (by simp),
    bytesOfDigits_digitsOfBytes]

variable {libs : SerdeLibs} (hlibs : libs.ReadsBack)

include hlibs

theorem SerdeLibs.ReadsBack.readU64 (n : UInt64) : readU64 libs (u64Json n) = .ok n := by
  simp [Network.readU64, u64Json, hlibs.u64, ofExcept]

theorem SerdeLibs.ReadsBack.readU256 (x : U256) : readU256 libs (u256Json libs x) = .ok x := by
  simp [Network.readU256, u256Json, hlibs.u256, ofExcept]

theorem SerdeLibs.ReadsBack.readAddress (a : Address) :
    readAddress libs (addressJson libs a) = .ok a := by
  simp [Network.readAddress, addressJson, hlibs.address, ofExcept]

theorem SerdeLibs.ReadsBack.readStorage (storage : FMap U256 U256) :
    readStorage libs (mapJson libs.u256Text (u256Json libs) storage) = .ok storage :=
  readMap_mapJson hlibs.readU256 hlibs.readU256 storage

/-- An account's entry reads back. -/
theorem alloc_fromJson_toJson (alloc : GenesisAlloc) :
    GenesisAlloc.fromJson libs (GenesisAlloc.toJson libs alloc) = .ok alloc := by
  refine (alloc_fromJson_eq_ok ..).mpr ⟨?_, ⟨_, ?_, hlibs.readU256 _⟩,
    .inl ⟨_, ?_, hlibs.readU64 _⟩, .inl ⟨_, ?_, readCode_serialize alloc.code⟩,
    .inl ⟨_, ?_, hlibs.readStorage _⟩⟩
  · show ∀ name ∈ ["balance", "nonce", "code", "storage"],
      ["balance", "nonce", "code", "storage"].count name ≤ 1
    decide
  all_goals simp [GenesisAlloc.members]

theorem SerdeLibs.ReadsBack.readAlloc (alloc : FMap Address GenesisAlloc) :
    readAlloc libs (mapJson libs.addressText (GenesisAlloc.toJson libs) alloc) = .ok alloc :=
  readMap_mapJson hlibs.readAddress (alloc_fromJson_toJson hlibs) alloc

/-- A written document reads back. -/
theorem genesis_fromJson_toJson (doc : GenesisDocument) :
    GenesisDocument.fromJson libs (doc.toJson libs) = .ok doc := by
  refine (genesis_fromJson_eq_ok ..).mpr ⟨?_, ⟨_, ?_, hlibs.readU64 _⟩, ⟨_, ?_, hlibs.readAlloc _⟩,
    .inl ⟨_, ?_, hlibs.readU64 _⟩, .inl ⟨_, ?_, hlibs.readU64 _⟩, .inl ⟨_, ?_, hlibs.readAddress _⟩,
    .inl ⟨_, ?_, hlibs.readU64 _⟩⟩
  · show ∀ name ∈
        ["chain_id", "alloc", "gas_limit", "base_fee_per_gas", "coinbase", "timestamp"],
      ["chain_id", "alloc", "gas_limit", "base_fee_per_gas", "coinbase", "timestamp"].count name
        ≤ 1
    decide
  all_goals simp [GenesisDocument.members]

theorem load_print {doc : GenesisDocument} (hprint : libs.Prints doc) :
    GenesisDocument.load libs (libs.toStringPretty (doc.toJson libs)) = .ok doc := by
  rw [GenesisDocument.load, hprint]
  exact genesis_fromJson_toJson hlibs doc

end RoundTrip

/-- **A genesis document is read field by field**: its members in any order
and unknown ones among them, no field twice, chain id and accounts always
there and the rest with defaults; likewise each account. Of two entries of
one account the last counts. What is written reads back. -/
theorem genesis_document_exact (libs : SerdeLibs) :
    (∀ members doc, GenesisDocument.fromJson libs (.object members) = .ok doc ↔
      DescribesGenesis libs members doc) ∧
    (∀ j accounts, readAlloc libs j = .ok accounts ↔
      DescribesMap (readAddress libs) (GenesisAlloc.fromJson libs) j accounts) ∧
    (∀ members alloc, GenesisAlloc.fromJson libs (.object members) = .ok alloc ↔
      DescribesAlloc libs members alloc) ∧
    (libs.ReadsBack → ∀ doc, GenesisDocument.fromJson libs (doc.toJson libs) = .ok doc) :=
  ⟨genesis_fromJson_eq_ok, readMap_eq_ok, alloc_fromJson_eq_ok, genesis_fromJson_toJson⟩

/-! ### A short document -/

mutual

/-- How serde_json lays a value out, for strings without escapes. -/
def pretty (indent : String) : Json → String
  | .null => "null"
  | .bool b => toString b
  | .number literal => literal
  | .string s => "\"" ++ s ++ "\""
  | .array [] => "[]"
  | .array items =>
      "[\n" ++ ",\n".intercalate (prettyItems (indent ++ "  ") items) ++ "\n" ++ indent ++ "]"
  | .object [] => "\x7b\x7d"
  | .object members =>
      "\x7b\n" ++ ",\n".intercalate (prettyMembers (indent ++ "  ") members) ++ "\n" ++ indent
        ++ "\x7d"

def prettyItems (indent : String) : List Json → List String
  | [] => []
  | item :: items => (indent ++ pretty indent item) :: prettyItems indent items

def prettyMembers (indent : String) : List (String × Json) → List String
  | [] => []
  | (name, j) :: members =>
      (indent ++ "\"" ++ name ++ "\": " ++ pretty indent j) :: prettyMembers indent members

end

def decimal (literal : String) : Except String Nat :=
  if literal ≠ "" ∧ literal.toList.all Char.isDigit then
    .ok (Nat.ofDigitChars 10 literal.toList 0)
  else .error "invalid number"

def below (bound : Nat) (n : Nat) : Except String Nat :=
  if n < bound then .ok n else .error "number too large"

/-- The texts as the crates write and read them. -/
def sampleTexts : SerdeLibs where
  addressText a := "0x" ++ hexEncode a.asSlice
  addressOfJson
    | .string s => parseAddressStr sampleLibs s
    | _ => .error "invalid type"
  u256Text x := "0x" ++ String.ofList (Nat.toDigits 16 x.toNat)
  u256OfJson
    | .string s => sampleLibs.u256FromStrRadix16 (strip0xStr s)
    | .number literal => do return BitVec.ofNat 256 (← below (2 ^ 64) (← decimal literal))
    | _ => .error "invalid type"
  u64OfJson
    | .number literal => do return UInt64.ofNat (← below (2 ^ 64) (← decimal literal))
    | _ => .error "invalid type"
  toStringPretty := pretty ""
  fromStr _ := .error "expected value"

/-- And the one file they are used on here. -/
def sampleSerde : SerdeLibs where
  __ := sampleTexts
  fromStr data :=
    if data = pretty "" (defaultDevGenesis.toJson sampleTexts) then
      .ok (defaultDevGenesis.toJson sampleTexts)
    else .error "expected value"

theorem decimal_toString (n : UInt64) : decimal (toString n) = .ok n.toNat := by
  have htext : toString n = n.toNat.repr := rfl
  have hne : n.toNat.repr ≠ "" := by
    intro hempty
    have hnil := congrArg String.toList hempty
    simp at hnil
  have hdigits : n.toNat.repr.toList.all Char.isDigit = true := by
    rw [List.all_eq_true, Nat.toList_repr]
    exact fun c hc => Nat.isDigit_of_mem_toDigits (by omega) (by omega) hc
  rw [htext, decimal, if_pos ⟨hne, hdigits⟩, Nat.toList_repr, Nat.ofDigitChars_ten_toDigits]

theorem readsBack_sampleSerde : sampleSerde.ReadsBack where
  address a := readsBack_sampleLibs.parseAddressStr a
  u256 x := by
    show sampleLibs.u256FromStrRadix16 (strip0xStr ("0x" ++ _)) = _
    rw [strip0xStr_0x, readsBack_sampleLibs.u256]
  u64 n := by
    have hbelow : below (2 ^ 64) n.toNat = .ok n.toNat := if_pos n.toNat_lt
    show (decimal (toString n)).bind (fun v =>
      (below (2 ^ 64) v).bind fun v => .ok (UInt64.ofNat v)) = _
    rw [decimal_toString, Except.bind, hbelow, Except.bind, UInt64.ofNat_toNat]

theorem prints_default : sampleSerde.Prints defaultDevGenesis := by
  have htext : ∀ doc : GenesisDocument, doc.toJson sampleSerde = doc.toJson sampleTexts :=
    fun _ => rfl
  have hfile : ∀ data, sampleSerde.fromStr data
      = if data = pretty "" (defaultDevGenesis.toJson sampleTexts) then
          .ok (defaultDevGenesis.toJson sampleTexts)
        else .error "expected value" := fun _ => rfl
  have hprint : sampleSerde.toStringPretty = pretty "" := rfl
  rw [SerdeLibs.Prints, htext, hfile, hprint, if_pos rfl]

/-- The members of a short document: one account with a balance. -/
def shortDocument : List (String × Json) :=
  [("alloc", .object [("0xaaaaaaaaaaaaaaaaaaaaaaaaaaaaaaaaaaaaaaaa",
      .object [("balance", .string "0xde0b6b3a7640000")])]),
    ("comment", .null), ("chain_id", .number "1337")]

/-- It reads, with the defaults; written out it reads back. -/
theorem genesis_document_exact_short :
    GenesisDocument.fromJson sampleSerde (.object shortDocument)
        = .ok { chainId := 1337,
                alloc := (∅ : FMap Address GenesisAlloc).insert (repeatByte 0xAA)
                  { balance := 1000000000000000000 } } ∧
      GenesisDocument.fromJson sampleSerde (defaultDevGenesis.toJson sampleSerde)
        = .ok defaultDevGenesis := by
  obtain ⟨hdoc, haccounts, halloc, hback⟩ := genesis_document_exact sampleSerde
  refine ⟨(hdoc ..).mpr ⟨?_, ⟨.number "1337", ?_, ?_⟩, ⟨_, List.mem_cons_self .., ?_⟩,
    .inr ?_, .inr ?_, .inr ?_, .inr ?_⟩, hback readsBack_sampleSerde _⟩
  · show ∀ name ∈ ["chain_id", "alloc", "gas_limit", "base_fee_per_gas", "coinbase", "timestamp"],
      ["alloc", "comment", "chain_id"].count name ≤ 1
    decide
  · simp [shortDocument]
  · exact readsBack_sampleSerde.readU64 1337
  · refine (haccounts ..).mpr ⟨_, [(repeatByte 0xAA, { balance := 1000000000000000000 })], rfl,
      .cons ⟨?_, (halloc ..).mpr ⟨by decide, ⟨_, List.mem_cons_self .., ?_⟩, .inr ?_, .inr ?_,
        .inr ?_⟩⟩ .nil, fun k => ?_⟩
    · decide +kernel
    · decide +kernel
    · decide
    · decide
    · simp
    · by_cases hk : repeatByte 0xAA = k
      · simp [← hk]
      · rw [FMap.get_insert_of_ne _ _ hk]
        simp [hk]
  all_goals simp [shortDocument]

/-! ## Homes -/

theorem loadHome_runCommand {libs : SerdeLibs} (hlibs : libs.ReadsBack)
    (hdefault : libs.Prints defaultDevGenesis) (cmd : Command) (home : Option String) :
    loadHome libs (runCommand libs cmd home) = loadHome libs home := by
  cases cmd with
  | node => rfl
  | init made =>
    cases made with
    | false => rfl
    | true =>
      cases home with
      | none => exact load_print hlibs hdefault
      | some data => rfl

/-- Commands never change what a home loads. -/
theorem loadHome_commands {libs : SerdeLibs} (hlibs : libs.ReadsBack)
    (hdefault : libs.Prints defaultDevGenesis) (cmds : List Command) (home : Option String) :
    loadHome libs (cmds.foldl (fun home cmd => runCommand libs cmd home) home)
      = loadHome libs home := by
  induction cmds generalizing home with
  | nil => rfl
  | cons cmd cmds ih => rw [List.foldl_cons, ih, loadHome_runCommand hlibs hdefault]

/-- **A home keeps its genesis.** Whatever commands run in a home, a node
there starts as it would have at first: `init` writes what a node without
a file assumes, and never over a file. In a cluster the nodes that were set
up start from the document the cluster was given, whatever was in their
homes. -/
theorem homes_keep_genesis (host : Host) (libs : SerdeLibs) (hlibs : libs.ReadsBack)
    (hdefault : libs.Prints defaultDevGenesis) (genesis : GenesisDocument)
    (hgenesis : libs.Prints genesis) (validatorCount : Nat) (homes : Nat → Option String)
    (cmds : Nat → List Command) :
    let later := fun (homes : Nat → Option String) i =>
      (cmds i).foldl (fun home cmd => runCommand libs cmd home) (homes i)
    (∀ i, startNode libs host (later homes i) = startNode libs host (homes i)) ∧
      ∀ i, startNode libs host (later (initEvmCluster libs validatorCount genesis homes) i)
        = if i < validatorCount then .ok (.fromGenesis host genesis.toEvmGenesis)
          else startNode libs host (homes i) := by
  have hkeep : ∀ (homes : Nat → Option String) i,
      startNode libs host ((cmds i).foldl (fun home cmd => runCommand libs cmd home) (homes i))
        = startNode libs host (homes i) := by
    intro homes i
    rw [startNode, loadHome_commands hlibs hdefault, startNode]
  refine ⟨hkeep homes, fun i => (hkeep _ i).trans ?_⟩
  by_cases hi : i < validatorCount
  · have hload := load_print hlibs hgenesis
    simp only [initEvmCluster, hi, if_true, startNode, loadHome, hload, Outcome.bind_ok]
  · simp only [initEvmCluster, hi, if_false]

/-- A cluster over a home with a broken file and one without: the first is
set up, the second keeps the default through two runs of `init`. -/
theorem homes_keep_genesis_dev :
    let homes := initEvmCluster sampleSerde 1 defaultDevGenesis fun i =>
      if i = 0 then some "broken" else none
    let later := fun i => [Command.init true, .node, .init true].foldl
      (fun home cmd => runCommand sampleSerde cmd home) (homes i)
    startNode sampleSerde sampleHost (later 0)
        = .ok (.fromGenesis sampleHost defaultDevGenesis.toEvmGenesis) ∧
      startNode sampleSerde sampleHost (later 1)
        = .ok (.fromGenesis sampleHost defaultDevGenesis.toEvmGenesis) := by
  have hkeep := (homes_keep_genesis sampleHost sampleSerde readsBack_sampleSerde prints_default
    defaultDevGenesis prints_default 1 (fun i => if i = 0 then some "broken" else none)
    (fun _ => [Command.init true, .node, .init true])).2
  exact ⟨hkeep 0, hkeep 1⟩

end Nbnet.Network
