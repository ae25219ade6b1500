/-
Nbnet.Network.GenesisFile — the genesis document of a node's home
directory (`crates/types/src/genesis.rs`, `crates/node/src/main.rs`,
`cluster.rs`).

The document is read and written by derived serde code: an object with the
fields of `EvmGenesis`, four of which have defaults, and one entry of
`alloc` per account with the fields of `GenesisAlloc`, three of which have
defaults. A derived reader also takes the fields as an array. The text of
addresses and of 256-bit numbers is alloy's, the text of JSON is
serde_json's; both are parameters. Contract code goes through `hex_bytes`.

`init` writes the default document where there is none, `init_evm_cluster`
writes one document into every home, and a node loads what is there.
-/
import Nbnet.Execution.Node
import Nbnet.Lib.Struct
import Nbnet.Rpc.Server
import Nbnet.Types.Hex

namespace Nbnet.Network

open Lib Execution Rpc

/-! ## The document -/

/-- The whole document: the two fields nothing reads are kept here. -/
structure GenesisDocument extends EvmGenesis where
  coinbase : Address := 0
  timestamp : UInt64 := 0

/-- What the document is written and read with. -/
structure SerdeLibs where
  addressText : Address → String
  addressOfJson : Json → Except String Address
  u256Text : U256 → String
  u256OfJson : Json → Except String U256
  u64OfJson : Json → Except String UInt64
  toStringPretty : Json → String
  fromStr : String → Except String Json

section Codec

variable (libs : SerdeLibs)

/-! ## Writing -/

def u64Json (n : UInt64) : Json := .number (toString n)

def addressJson (a : Address) : Json := .string (libs.addressText a)

def u256Json (x : U256) : Json := .string (libs.u256Text x)

/-- A `BTreeMap`: one member per entry, in the order of the keys. -/
def mapJson {K V : Type} [Ord K] [Std.TransOrd K] (key : K → String) (value : V → Json)
    (m : FMap K V) : Json :=
  .object (m.toList.map fun e => (key e.1, value e.2))

def GenesisAlloc.members (alloc : GenesisAlloc) : List (String × Json) :=
  [("balance", u256Json libs alloc.balance), ("nonce", u64Json alloc.nonce),
    ("code", .string (HexBytes.serialize alloc.code)),
    ("storage", mapJson libs.u256Text (u256Json libs) alloc.storage)]

def GenesisAlloc.toJson (alloc : GenesisAlloc) : Json :=
  .object (GenesisAlloc.members libs alloc)

def GenesisDocument.members (doc : GenesisDocument) : List (String × Json) :=
  [("chain_id", u64Json doc.chainId),
    ("alloc", mapJson libs.addressText (GenesisAlloc.toJson libs) doc.alloc),
    ("gas_limit", u64Json doc.gasLimit), ("base_fee_per_gas", u64Json doc.baseFeePerGas),
    ("coinbase", addressJson libs doc.coinbase), ("timestamp", u64Json doc.timestamp)]

def GenesisDocument.toJson (doc : GenesisDocument) : Json := .object (doc.members libs)

/-! ## Reading -/

def ofExcept : Except String α → Outcome String α
  | .ok a => .ok a
  | .error e => .err e

def readU64 (j : Json) : Outcome String UInt64 := ofExcept (libs.u64OfJson j)

def readU256 (j : Json) : Outcome String U256 := ofExcept (libs.u256OfJson j)

def readAddress (j : Json) : Outcome String Address := ofExcept (libs.addressOfJson j)

def readCode : Json → Outcome String Bytes
  | .string s => HexBytes.deserialize s
  | _ => .err "invalid type"

/-- The entries of a `BTreeMap` in turn; a later one replaces an earlier
one with its key. A key is read like a string. -/
def readEntries {K V : Type} [Ord K] [Std.TransOrd K] (key : Json → Outcome String K)
    (value : Json → Outcome String V) : FMap K V → List (String × Json) → Outcome String (FMap K V)
  | m, [] => .ok m
  | m, (k, j) :: members =>
      (key (.string k)).bind fun k =>
        (value j).bind fun v => readEntries key value (m.insert k v) members

def readMap {K V : Type} [Ord K] [Std.TransOrd K] (key : Json → Outcome String K)
    (value : Json → Outcome String V) : Json → Outcome String (FMap K V)
  | .object members => readEntries key value ∅ members
  | _ => .err "invalid type"

/-- A derived reader: from an object, or from an array in declaration
order. -/
def readRecord {R : Type} (fields : List (RecordField Json R)) (init : R) : Json → Outcome String R
  | .object members => readStruct fields init members
  | .array items => readTuple fields 0 init items
  | _ => .err "invalid type"

def readStorage : Json → Outcome String (FMap U256 U256) :=
  readMap (readU256 libs) (readU256 libs)

def allocFields : List (RecordField Json GenesisAlloc) :=
  [{ name := "balance", required := true, read := readU256 libs,
      get := (·.balance), put := fun x r => { r with balance := x } },
    { name := "nonce", required := false, read := readU64 libs,
      get := (·.nonce), put := fun x r => { r with nonce := x } },
    { name := "code", required := false, read := readCode,
      get := (·.code), put := fun x r => { r with code := x } },
    { name := "storage", required := false, read := readStorage libs,
      get := (·.storage), put := fun x r => { r with storage := x } }]

def GenesisAlloc.fromJson : Json → Outcome String GenesisAlloc :=
  readRecord (allocFields libs) { balance := 0 }

def readAlloc : Json → Outcome String (FMap Address GenesisAlloc) :=
  readMap (readAddress libs) (GenesisAlloc.fromJson libs)

def genesisFields : List (RecordField Json GenesisDocument) :=
  [{ name := "chain_id", required := true, read := readU64 libs,
      get := (·.chainId), put := fun x r => { r with chainId := x } },
    { name := "alloc", required := true, read := readAlloc libs,
      get := (·.alloc), put := fun x r => { r with alloc := x } },
    { name := "gas_limit", required := false, read := readU64 libs,
      get := (·.gasLimit), put := fun x r => { r with gasLimit := x } },
    { name := "base_fee_per_gas", required := false, read := readU64 libs,
      get := (·.baseFeePerGas), put := fun x r => { r with baseFeePerGas := x } },
    { name := "coinbase", required := false, read := readAddress libs,
      get := (·.coinbase), put := fun x r => { r with coinbase := x } },
    { name := "timestamp", required := false, read := readU64 libs,
      get := (·.timestamp), put := fun x r => { r with timestamp := x } }]

def GenesisDocument.fromJson : Json → Outcome String GenesisDocument :=
  readRecord (genesisFields libs) { chainId := 0, alloc := ∅ }

/-- `EvmGenesis::load`, of the text of the file. -/
def GenesisDocument.load (data : String) : Outcome String GenesisDocument :=
  (ofExcept (libs.fromStr data)).bind (GenesisDocument.fromJson libs)

/-! ## Homes -/

/-- An address of one repeated byte, `Address::repeat_byte`. -/
def repeatByte (x : UInt8) : Address := .fromSlice (List.replicate 20 x)

/-- Default dev genesis with funded test accounts. -/
def defaultDevGenesis : GenesisDocument where
  chainId := 1337
  alloc := ((∅ : FMap Address GenesisAlloc).insert (repeatByte 0xAA)
      { balance := 10000 * 1000000000000000000 }).insert (repeatByte 0xBB)
      { balance := 10000 * 1000000000000000000 }
  gasLimit := 30000000
  baseFeePerGas := 1000000000

/-- What `nbnet init` leaves as a home's `evm-genesis.json`. -/
def initHome (home : Option String) : Option String :=
  some (home.getD (libs.toStringPretty (defaultDevGenesis.toJson libs)))

/-- What `run_node` loads from a home. -/
def loadHome : Option String → Outcome String GenesisDocument
  | some data => GenesisDocument.load libs data
  | none => .ok defaultDevGenesis

/-- The commands of the node binary. Of `init` the model keeps whether
`init_node_dir` could make the directory. -/
inductive Command where
  | init (made : Bool)
  | node
  deriving DecidableEq, Repr

/-- What a command leaves as the document of its home. -/
def runCommand : Command → Option String → Option String
  | .init true, home => initHome libs home
  | .init false, home => home
  | .node, home => home

/-- The node `run_node` starts from a home. -/
def startNode (host : Host) (home : Option String) : Outcome String Node :=
  (loadHome libs home).bind fun genesis => .ok (.fromGenesis host genesis.toEvmGenesis)

/-- The files `init_evm_cluster` writes: one document for the first
`validatorCount` homes. -/
def initEvmCluster (validatorCount : Nat) (genesis : GenesisDocument)
    (homes : Nat → Option String) : Nat → Option String :=
  fun i =>
    if i < validatorCount then some (libs.toStringPretty (genesis.toJson libs)) else homes i

end Codec

end Nbnet.Network
