/-
Nbnet.Rpc.WireTheorems — what is written into requests and responses is
what is read out of them.

Values cross the wire as text: addresses, hashes and code as pairs of
digits, numbers as quantities without zeros in front. `ReadsBack` says what
the server relies on in the two parsers of other crates. The queries also
cross the byte interface of `Application::query`. `quantity` and `dataOf`
are how a client reads a result; both accept one spelling of each value.
-/
import Nbnet.Lib.Quantity
import Nbnet.Rpc.Client
import Nbnet.Rpc.QueryTheorems

namespace Nbnet.Rpc

open Lib State Txpool Execution

/-! ## Text -/

theorem toList_hexEncode (b : Bytes) : (hexEncode b).toList = digitsOfBytes b :=
  toList_hexPairs b

@[simp] theorem strip0xStr_0x (s : String) : strip0xStr ("0x" ++ s) = s := by
  have hchars : ("0x" ++ s).toList = '0' :: 'x' :: s.toList := by simp
  rw [strip0xStr, hchars]
  exact String.ofList_toList

@[simp] theorem stripPrefix0x_0x (s : String) : stripPrefix0x ("0x" ++ s) = some s := by
  have hchars : ("0x" ++ s).toList = '0' :: 'x' :: s.toList := by simp
  rw [stripPrefix0x, hchars]
  simp only [String.ofList_toList]

/-- The parsers of the other crates read what is written here: `hex::decode`
inverts `hex::encode`, `U256::from_str_radix` inverts `{:x}`. -/
structure ReadsBack (libs : RpcLibs) : Prop where
  hex : ∀ b, libs.hexDecode (hexEncode b) = .ok b
  u256 : ∀ v : U256, libs.u256FromStrRadix16 (String.ofList (Nat.toDigits 16 v.toNat)) = .ok v

theorem readsBack_sampleLibs : ReadsBack sampleLibs where
  hex b := by
    have hall : (digitsOfBytes b).all hexDigits.contains = true := by
      simpa using digitsOfBytes_hexDigits b
    simp only [sampleLibs, toList_hexEncode, digitsOfBytes_length, hall,
      bytesOfDigits_digitsOfBytes, Nat.mul_mod_right, and_self, if_true]
  u256 v := by
    have hall : (Nat.toDigits 16 v.toNat).all hexDigits.contains = true := by
      simpa using toDigits_hexDigits v.toNat
    have hne : String.ofList (Nat.toDigits 16 v.toNat) ≠ "" := by
      intro hempty
      have hnil := congrArg String.toList hempty
      simp at hnil
    have hvalue : (Nat.toDigits 16 v.toNat).foldl (fun acc c => acc * 16 + digitOf c) 0 = v.toNat :=
      valueOfDigits_toDigits v.toNat
    simp only [sampleLibs, String.toList_ofList, hall, hvalue, hne, v.isLt, ne_eq,
      not_false_eq_true, and_self, if_true, BitVec.ofNat_toNat, BitVec.setWidth_eq]

/-! ## Parameters -/

theorem length_asSlice (a : Address) : a.asSlice.length = 20 := (wordBytes 20 a).property

theorem fromSlice_asSlice (a : Address) : Address.fromSlice a.asSlice = a :=
  ofWordBytes_wordBytes (n := 20) rfl a

section Params

variable {libs : RpcLibs}

theorem ReadsBack.parseAddressStr (h : ReadsBack libs) (a : Address) :
    parseAddressStr libs ("0x" ++ hexEncode a.asSlice) = .ok a := by
  rw [Rpc.parseAddressStr, strip0xStr_0x, h.hex]
  simp only [Except.mapError, length_asSlice, bind, Except.bind, ne_eq, not_true_eq_false,
    if_false, fromSlice_asSlice]
  rfl

theorem ReadsBack.parseB256Str (h : ReadsBack libs) (x : B256) :
    parseB256Str libs ("0x" ++ hexEncode (U256.toBeBytes x).val) = .ok x := by
  have hlen : (U256.toBeBytes x).val.length = 32 := (U256.toBeBytes x).property
  rw [Rpc.parseB256Str, strip0xStr_0x, h.hex]
  simp only [Except.mapError, hlen, bind, Except.bind, ne_eq, not_true_eq_false, if_false,
    U256.fromBeSlice_toBeBytes]
  rfl

theorem ReadsBack.parseAddress (h : ReadsBack libs) (a : Address) :
    parseAddress libs (hexAddress a) = .ok a :=
  h.parseAddressStr a

theorem ReadsBack.parseU256 (h : ReadsBack libs) (v : U256) :
    parseU256 libs (toHexU256 v) = .ok v := by
  simp only [Rpc.parseU256, toHexU256, toHex, Json.asStr, orError, bind, Except.bind,
    strip0xStr_0x, h.u256, Except.mapError]

theorem ReadsBack.parseAddrBlock (h : ReadsBack libs) (a : Address) (rest : List Json) :
    ∃ tag, parseAddrBlock libs (.array (hexAddress a :: rest)) = .ok (a, tag) := by
  refine ⟨(rest[0]?.bind Json.asStr).getD "latest", ?_⟩
  simp only [Rpc.parseAddrBlock, Json.asArray, orError, bind, Except.bind, List.head?_cons,
    h.parseAddress, List.getElem?_cons_succ]
  rfl

theorem ReadsBack.parseHashParam (h : ReadsBack libs) (x : B256) (rest : List Json) :
    parseHashParam libs (.array (hexB256 x :: rest)) = .ok x :=
  h.parseB256Str x

theorem ReadsBack.rawParam (h : ReadsBack libs) (raw : Bytes) (rest : List Json) :
    rawParam libs (.array (hexString raw :: rest)) = .ok raw := by
  simp only [Rpc.rawParam, Json.first, Json.asArray, Option.bind_some, List.head?_cons, orError,
    bind, Except.bind, hexString, Json.asStr, strip0xStr_0x, h.hex, Except.mapError]

end Params

/-! ## Queries -/

section Queries

variable (host : Host) (e : EvmExecutor) (a : Address)

theorem queryBalance_eq : queryBalance host e a = e.state.getBalance a := by
  have hdata : (e.query host "eth_getBalance" a.asSlice).data
      = (e.state.getBalance a).toBeBytes.val := by
    simp [EvmExecutor.query, length_asSlice, fromSlice_asSlice]
  simp only [queryBalance, hdata, (U256.toBeBytes _).property, if_true,
    U256.fromBeSlice_toBeBytes]

theorem queryNonce_eq : queryNonce host e a = e.state.getNonce a := by
  have hdata : (e.query host "eth_getTransactionCount" a.asSlice).data
      = (u64BeBytes (e.state.getNonce a)).val := by
    simp [EvmExecutor.query, length_asSlice, fromSlice_asSlice]
  simp only [queryNonce, hdata, (u64BeBytes _).property, if_true]
  exact UInt64.toBitVec_inj.mp (ofWordBytes_wordBytes (n := 8) rfl (e.state.getNonce a).toBitVec)

theorem queryCode_eq : queryCode host e a = e.state.getCode host.analysis a := by
  simp [queryCode, EvmExecutor.query, length_asSlice, fromSlice_asSlice]

theorem queryStorage_eq (slot : U256) :
    queryStorage host e a slot = e.state.getStorage a slot := by
  have hdata : (e.query host "eth_getStorageAt" (a.asSlice ++ slot.toBeBytes.val)).data
      = (e.state.getStorage a slot).toBeBytes.val := by
    have htake : (a.asSlice ++ slot.toBeBytes.val).take 20 = a.asSlice :=
      List.take_left' (length_asSlice a)
    have hdrop : (a.asSlice ++ slot.toBeBytes.val).drop 20 = slot.toBeBytes.val :=
      List.drop_left' (length_asSlice a)
    simp [EvmExecutor.query, length_asSlice, (U256.toBeBytes slot).property, htake, hdrop,
      fromSlice_asSlice]
  simp only [queryStorage, hdata, (U256.toBeBytes _).property, if_true,
    U256.fromBeSlice_toBeBytes]

end Queries

/-! ## Results -/

/-- A result spells a number: `0x` and its canonical digits. -/
def Spells (j : Json) (n : Nat) : Prop :=
  ∃ ds, j = .string ("0x" ++ String.ofList ds) ∧ Canonical ds ∧ valueOfDigits ds = n

/-- A result spells bytes: `0x` and two lower-case digits for each. -/
def SpellsBytes (j : Json) (b : Bytes) : Prop :=
  ∃ ds, j = .string ("0x" ++ String.ofList ds) ∧ (∀ c ∈ ds, c ∈ hexDigits ∧ c.toLower = c) ∧
    ds.length = 2 * b.length ∧ bytesOfDigits ds = b

theorem spells_toHex (n : Nat) : Spells (toHex n) n :=
  ⟨Nat.toDigits 16 n, rfl, canonical_toDigits n, valueOfDigits_toDigits n⟩

/-- Each number has one spelling. -/
theorem spells_iff {j : Json} {n : Nat} : Spells j n ↔ j = toHex n := by
  constructor
  · intro ⟨ds, hj, hcanon, hvalue⟩
    rw [hj, toHex, ← hvalue, toDigits_valueOfDigits hcanon]
  · intro hj
    rw [hj]
    exact spells_toHex n

theorem toHex_injective {m n : Nat} (h : toHex m = toHex n) : m = n := by
  have hchars := congrArg String.toList (Json.string.inj h)
  simp only [String.toList_append, String.toList_ofList, List.append_cancel_left_eq] at hchars
  exact toDigits_injective hchars

theorem ofList_digitsOfBytes (b : Bytes) : String.ofList (digitsOfBytes b) = hexEncode b := by
  rw [← toList_hexEncode, String.ofList_toList]

/-- Each byte string has one spelling. -/
theorem spellsBytes_iff {j : Json} {b : Bytes} : SpellsBytes j b ↔ j = hexString b := by
  constructor
  · intro ⟨ds, hj, hdigits, hlen, hbytes⟩
    have hback := digitsOfBytes_bytesOfDigits b.length (fun c hc => (hdigits c hc).1) hlen
    rw [hbytes, List.map_congr_left (fun c hc => (hdigits c hc).2), List.map_id'] at hback
    rw [hj, hexString, ← ofList_digitsOfBytes, hback]
  · intro hj
    refine ⟨digitsOfBytes b, ?_, fun c hc => ⟨digitsOfBytes_hexDigits b c hc, ?_⟩,
      digitsOfBytes_length b, bytesOfDigits_digitsOfBytes b⟩
    · rw [hj, hexString, ofList_digitsOfBytes]
    · obtain ⟨x, -, hx⟩ := List.mem_flatMap.mp hc
      have hlt := x.toNat_lt
      simp only [List.mem_cons, List.not_mem_nil, or_false] at hx
      rcases hx with rfl | rfl
      · exact digitChar_lower _ (by omega)
      · exact digitChar_lower _ (by omega)

theorem hexString_injective {b b' : Bytes} (h : hexString b = hexString b') : b = b' := by
  have hchars := congrArg String.toList (Json.string.inj h)
  simp only [String.toList_append, toList_hexEncode, List.append_cancel_left_eq] at hchars
  rw [← bytesOfDigits_digitsOfBytes b, hchars, bytesOfDigits_digitsOfBytes]

theorem hexAddress_injective {a a' : Address} (h : hexAddress a = hexAddress a') : a = a' :=
  Address.asSlice_injective (hexString_injective h)

theorem hexB256_injective {x x' : B256} (h : hexB256 x = hexB256 x') : x = x' := by
  have hbytes := congrArg U256.fromBeSlice (hexString_injective h)
  simpa using hbytes

/-! ## Receipts -/

theorem ofOption_injective {α : Type} {f : α → Json} (hf : ∀ a b, f a = f b → a = b)
    (hnull : ∀ a, f a ≠ .null) {x y : Option α} (h : Json.ofOption f x = Json.ofOption f y) :
    x = y := by
  cases x with
  | none =>
    cases y with
    | none => rfl
    | some b => exact absurd h.symm (hnull b)
  | some a =>
    cases y with
    | none => exact absurd h (hnull a)
    | some b => rw [hf a b h]

/-- What is determined item by item is determined for a list. -/
theorem map_eq_of_map_eq {α β γ : Type} {f : α → β} {g : α → γ}
    (hfg : ∀ x y, f x = f y → g x = g y) {l l' : List α} (h : l.map f = l'.map f) :
    l.map g = l'.map g := by
  induction l generalizing l' with
  | nil =>
    rw [List.map_eq_nil_iff.mp h.symm]
  | cons x l ih =>
    obtain ⟨y, l', rfl⟩ : ∃ y l'', l' = y :: l'' := by
      cases l' with
      | nil => cases h
      | cons y l'' => exact ⟨y, l'', rfl⟩
    rw [List.map_cons, List.map_cons, List.cons.injEq] at h
    rw [List.map_cons, List.map_cons, hfg x y h.1, ih h.2]

theorem locatedLogs_log (r : EvmReceipt) : (locatedLogs r).map (·.log) = r.logs := by
  rw [locatedLogs, List.map_map]
  exact List.zipIdx_map_fst 0 r.logs

/-- A log object determines the log. -/
theorem receiptLogToJson_log {x y : LocatedLog} (h : receiptLogToJson x = receiptLogToJson y) :
    x.log = y.log := by
  simp only [receiptLogToJson, Json.object.injEq, List.cons.injEq, Prod.mk.injEq, true_and,
    Json.array.injEq] at h
  obtain ⟨haddress, htopics, hdata, -⟩ := h
  have htop := map_eq_of_map_eq (g := id) (fun _ _ h => hexB256_injective h) htopics
  rw [List.map_id, List.map_id] at htop
  cases hx : x.log
  cases hy : y.log
  simp only [hx, hy] at haddress htop hdata
  rw [hexAddress_injective haddress, htop, hexString_injective hdata]

/-- **A receipt object determines the receipt**, logs included. -/
theorem receiptToJson_injective {r r' : EvmReceipt} (h : receiptToJson r = receiptToJson r') :
    r = r' := by
  have haddr : ∀ {x y : Option Address}, Json.ofOption hexAddress x = Json.ofOption hexAddress y →
      x = y :=
    ofOption_injective (fun _ _ h => hexAddress_injective h) (by simp [hexAddress, hexString])
  have hu64 : ∀ {x y : UInt64}, toHexU64 x = toHexU64 y → x = y :=
    fun h => UInt64.toNat_inj.mp (toHex_injective h)
  simp only [receiptToJson, Json.object.injEq, List.cons.injEq, Prod.mk.injEq, true_and,
    Json.array.injEq, and_true] at h
  obtain ⟨hhash, hindex, hblock, hnumber, hsender, hrecipient, hcumulative, hgas, hcontract, hlogs,
    hbloom, hstatus, hprice⟩ := h
  have hlog := map_eq_of_map_eq (g := fun x : LocatedLog => x.log)
    (fun _ _ h => receiptLogToJson_log h) hlogs
  rw [locatedLogs_log, locatedLogs_log] at hlog
  cases r
  cases r'
  simp only [EvmReceipt.mk.injEq]
  exact ⟨hexB256_injective hhash, toHex_injective hindex, hexB256_injective hblock, hu64 hnumber,
    hexAddress_injective hsender, haddr hrecipient, hu64 hcumulative, hu64 hgas,
    haddr hcontract, hlog, hexString_injective hbloom,
    UInt8.toNat_inj.mp (toHex_injective hstatus),
    BitVec.eq_of_toNat_eq (toHex_injective hprice)⟩

/-! ## State queries -/

/-- A request is answered with a result. -/
def AnsweredWith (s : Served) (id : Json) (P : Json → Prop) : Prop :=
  ∃ j, s.response = .ok id j ∧ P j

/-- **State queries are exact.** In any state of a node, whatever stands
behind the parameters: height, balance, nonce and storage are answered
with the one spelling of the value in the state, code with that of its
bytes. -/
theorem state_queries_exact (libs : RpcLibs) (hlibs : ReadsBack libs) (host : Host)
    (state : EvmRpcState) (id : Json) (a : Address) (slot : U256) (rest : List Json) :
    let answer := fun method params => dispatch libs host state ⟨method, .array params, id⟩
    let st := state.executor.state
    AnsweredWith (answer "eth_blockNumber" rest) id (Spells · state.executor.blockHeight.toNat) ∧
      AnsweredWith (answer "eth_getBalance" (hexAddress a :: rest)) id
        (Spells · (st.getBalance a).toNat) ∧
      AnsweredWith (answer "eth_getTransactionCount" (hexAddress a :: rest)) id
        (Spells · (st.getNonce a).toNat) ∧
      AnsweredWith (answer "eth_getCode" (hexAddress a :: rest)) id
        (SpellsBytes · (st.getCode host.analysis a)) ∧
      AnsweredWith (answer "eth_getStorageAt" (hexAddress a :: toHexU256 slot :: rest)) id
        (Spells · (st.getStorage a slot).toNat) := by
  intro answer st
  obtain ⟨tag, htag⟩ := hlibs.parseAddrBlock a rest
  refine ⟨⟨_, rfl, ?_⟩, ⟨toHexU256 (st.getBalance a), ?_, spells_iff.mpr rfl⟩,
    ⟨toHexU64 (st.getNonce a), ?_, spells_iff.mpr rfl⟩, ⟨hexString (st.getCode host.analysis a),
      ?_, spellsBytes_iff.mpr rfl⟩, ⟨toHexU256 (st.getStorage a slot), ?_, spells_iff.mpr rfl⟩⟩
  · rw [queryBlockNumber_eq]
    exact spells_iff.mpr rfl
  · simp only [answer, dispatch, htag, replyParsed, replyOk, queryBalance_eq, st]
  · simp only [answer, dispatch, htag, replyParsed, replyOk, queryNonce_eq, st]
  · simp only [answer, dispatch, htag, replyParsed, replyOk, queryCode_eq, st]
  · simp only [answer, dispatch, ethGetStorageAt, Json.asArray, hlibs.parseAddress,
      hlibs.parseU256, replyParsed, replyOk, queryStorage_eq, st]

/-- Alice's ether. -/
theorem state_queries_exact_alice :
    ReadsBack sampleLibs ∧
      ((EvmExecutor.fromGenesis sampleHost aliceGenesis).state.getBalance alice0.sender).toNat
        = 10 ^ 18 ∧
      AnsweredWith (dispatch sampleLibs sampleHost
        ⟨.fromGenesis sampleHost aliceGenesis, 1337, true⟩
        ⟨"eth_getBalance", .array [hexAddress alice0.sender], .null⟩) .null
          (Spells · (10 ^ 18)) := by
  have hbalance :
      ((EvmExecutor.fromGenesis sampleHost aliceGenesis).state.getBalance alice0.sender).toNat
        = 10 ^ 18 := by
    decide +kernel
  obtain ⟨-, h, -⟩ := state_queries_exact sampleLibs readsBack_sampleLibs sampleHost
    ⟨.fromGenesis sampleHost aliceGenesis, 1337, true⟩ .null alice0.sender 0 []
  exact ⟨readsBack_sampleLibs, hbalance, by rwa [hbalance] at h⟩

/-! ## The client -/

/-- The bytes of digits parse as their number, where it fits. -/
theorem u64Digits_encodeChars {ds : List Char} (h : ∀ c ∈ ds, c ∈ hexDigits) (acc : Nat)
    (hfit : ds.foldl (fun acc c => acc * 16 + digitOf c) acc < 2 ^ 64) :
    u64Digits (encodeChars ds) acc
      = some (UInt64.ofNat (ds.foldl (fun acc c => acc * 16 + digitOf c) acc)) := by
  induction ds generalizing acc with
  | nil => rfl
  | cons c ds ih =>
    obtain ⟨hc, hds⟩ := List.forall_mem_cons.mp h
    have hgrow : ∀ (ds : List Char) (acc : Nat),
        acc ≤ ds.foldl (fun acc c => acc * 16 + digitOf c) acc := by
      intro ds
      induction ds with
      | nil => exact fun _ => Nat.le_refl _
      | cons c ds ih =>
        intro acc
        have := ih (acc * 16 + digitOf c)
        rw [List.foldl_cons]
        omega
    rw [List.foldl_cons] at hfit ⊢
    have hlt : acc * 16 + digitOf c < 2 ^ 64 :=
      Nat.lt_of_le_of_lt (hgrow ds _) hfit
    rw [encodeChars_cons, (utf8EncodeChar_one (utf8Size_hexDigit c hc)).1, List.cons_append,
      List.nil_append, u64Digits, (hexDigit_byte c hc).2, Option.bind_some, if_pos hlt]
    exact ih hds _ hfit

/-- `u64::from_str_radix` reads what `{:x}` writes. -/
theorem u64FromStrRadix16_toDigits (v : UInt64) :
    u64FromStrRadix16 (utf8 (String.ofList (Nat.toDigits 16 v.toNat))) = some v := by
  have hdigits := toDigits_hexDigits v.toNat
  have hvalue := valueOfDigits_toDigits v.toNat
  have hparse := u64Digits_encodeChars hdigits 0 (by
    rw [show List.foldl _ 0 _ = v.toNat from hvalue]
    exact v.toNat_lt)
  rw [show List.foldl _ 0 _ = v.toNat from hvalue, UInt64.ofNat_toNat] at hparse
  rw [utf8_eq_encodeChars, String.toList_ofList]
  cases hds : Nat.toDigits 16 v.toNat with
  | nil => exact absurd hds Nat.toDigits_ne_nil
  | cons c ds =>
    rw [hds] at hparse hdigits
    obtain ⟨hc, -⟩ := List.forall_mem_cons.mp hdigits
    have hbyte := (utf8EncodeChar_one (utf8Size_hexDigit c hc)).1
    have hplus := (hexDigit_byte c hc).1
    have hminus : UInt8.ofNat c.toNat ≠ 0x2d := by
      intro heq
      have hval := (hexDigit_byte c hc).2
      rw [heq] at hval
      cases hval
    rw [encodeChars_cons, hbyte, List.cons_append, List.nil_append] at hparse ⊢
    rw [u64FromStrRadix16, if_neg (by simp [hplus, hminus]), if_neg (by simpa using hplus)]
    exact hparse

end Nbnet.Rpc
