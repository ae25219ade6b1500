/-
Nbnet.Types.Chain — chain configuration, genesis document and receipts
(`crates/types/src/config.rs`, `genesis.rs`, `receipt.rs`).

Only the fields some modelled function reads or fills are kept: the fee
adjustment parameters of the configuration and the genesis coinbase and
timestamp are read nowhere.
-/
import Nbnet.Types.Tx

namespace Nbnet

open Lib

structure EvmChainConfig where
  chainId : UInt64
  blockGasLimit : UInt64
  baseFeePerGas : UInt64
  deriving DecidableEq, Repr

/-- Genesis account allocation. -/
structure GenesisAlloc where
  balance : U256
  nonce : UInt64 := 0
  code : Bytes := []
  storage : FMap U256 U256 := ∅

/-- EVM genesis document. -/
structure EvmGenesis where
  chainId : UInt64
  alloc : FMap Address GenesisAlloc
  gasLimit : UInt64 := 30000000
  baseFeePerGas : UInt64 := 1000000000

/-- An EVM execution log entry. -/
structure EvmLog where
  address : Address
  topics : List B256
  data : Bytes
  deriving DecidableEq, Repr

/-- An EVM transaction receipt. `txIndex` is a `usize` cast to `u64`: it
indexes a vector in memory, so it is a plain number here. -/
structure EvmReceipt where
  txHash : B256
  txIndex : Nat
  blockHash : B256
  blockNumber : UInt64
  sender : Address
  recipient : Option Address
  cumulativeGasUsed : UInt64
  gasUsed : UInt64
  contractAddress : Option Address
  logs : List EvmLog
  logsBloom : Bytes
  status : UInt8
  effectiveGasPrice : U256
  deriving DecidableEq, Repr

end Nbnet
