import BitcoinCanister.UnstableBlocks

/-! # The canister state of `state.rs`

A shallow embedding of `insert_block` and `ingest_stable_blocks_into_utxoset` of
`src/canister/src/state.rs`, over the parts of `State` they read or write: the UTXO set's next
height and paused ingestion, the unstable blocks, and the store of stable block headers. The
metrics they write (`block_insertion`, `block_ingestion_stats`) are left out.

The UTXO set and the header validator are not among the sources. The UTXO set is modelled from
the spec (§4.3): its ingestor is time-sliced, and whether a call ends the block or pauses depends
on the instruction counter. A call of `ingest_stable_blocks_into_utxoset` therefore takes the
answers of its ingestor calls as input (`IngestionSlice`), and a run of the canister is any list
of calls (`Event`) with any answers. The spec's ingestor also aborts, fatally, on an input whose
outpoint is missing (§4.3, §7); the model's ingestor answers only `Paused` or `Done`, so every
result that a call or a run does not panic assumes an ingestor that does not abort. The header
validator is a parameter. The header store is not among the sources either; it is modelled from
the one call of it that `state.rs` makes.

What each call can do is proved in `State.Calls`, what runs of calls do in `State.Runs`, and what
they keep in the header store in `State.Headers`. -/

namespace BitcoinCanister

variable {Block BlockHash : Type} [HasBlockHash Block BlockHash]

/-! ## The UTXO set's ingestor -/

/-- Modelled from the spec: `PartialIngestionState`, where a paused ingestion stopped. The
position in the block (`tx_index`, `io_index` and the phase) is abstracted to a number. -/
structure PartialIngestionState (Block : Type) where
  /-- The block being ingested. -/
  block : Block
  /-- How far the ingestion got. -/
  position : Nat
  deriving DecidableEq

/-- Modelled from the spec: the part of `UtxoSet` that `state.rs` reads. The shards and the address
index are left out, and so is the spec's fatal abort on an input whose outpoint is missing (§4.3,
§7): this ingestor answers only `Paused` or `Done`, and the results that a call or a run does not
panic hold for such an ingestor. -/
structure UtxoSet (Block : Type) where
  /-- `next_height`, the height of the next block to ingest. -/
  nextHeight : Nat
  /-- `ingesting_block`, the paused ingestion, if any. -/
  ingestingBlock : Option (PartialIngestionState Block)

/-- `Slicing<T, U>`: a time-sliced computation that paused, or finished. -/
inductive Slicing (T U : Type)
  | paused (value : T)
  | done (value : U)

/-- How far one call of the time-sliced ingestor gets before its instruction budget is spent:
to the end of the block, or to a pause at some position. -/
inductive IngestionSlice
  | done
  | paused (position : Nat)
  deriving DecidableEq

/-- The answer for the next call of the ingestor, and the answers left. When none is left, the
budget is spent and the call pauses before its first step. -/
def nextSlice : List IngestionSlice → IngestionSlice × List IngestionSlice
  | [] => (.paused 0, [])
  | slice :: slices => (slice, slices)

namespace UtxoSet

/-- Modelled from the spec: `UtxoSet::new(network)`. -/
def new : UtxoSet Block := ⟨0, none⟩

/-- Modelled from the spec: `ingest_block(block)` for one time slice. When the slice reaches the
end of the block, the next height goes up by one and the block's hash is returned. Otherwise the
position is kept in `ingesting_block`. The UTXOs themselves and the stats are not modelled, nor
the fatal abort on an input whose outpoint is missing: the answer is `Paused` or `Done`. -/
def ingestBlock (utxos : UtxoSet Block) (block : Block) :
    IngestionSlice → Slicing Unit BlockHash × UtxoSet Block
  | .done => (.done (blockHash block), ⟨utxos.nextHeight + 1, none⟩)
  | .paused position => (.paused (), { utxos with ingestingBlock := some ⟨block, position⟩ })

/-- Modelled from the spec: `ingest_block_continue()` resumes the paused ingestion, if any. -/
def ingestBlockContinue (utxos : UtxoSet Block) (slice : IngestionSlice) :
    Option (Slicing Unit BlockHash) × UtxoSet Block :=
  match utxos.ingestingBlock with
  | none => (none, utxos)
  | some paused =>
    let (result, utxos) := utxos.ingestBlock paused.block slice
    (some result, utxos)

end UtxoSet

/-! ## The header store -/

/-- Modelled from its one use in `state.rs`: `BlockHeaderStore`, where the ingest loop keeps the
header of each block it starts to ingest, at the block's height. Its two maps, from hashes to
headers and from heights to hashes, are read here as one map from heights to headers, and a
header is the block itself: the model reads no other part of a block. -/
structure BlockHeaderStore (Block : Type) where
  /-- The header stored at each height, if any. -/
  headerAt : Nat → Option Block

namespace BlockHeaderStore

/-- `BlockHeaderStore::init()`: no header stored. -/
def init : BlockHeaderStore Block := ⟨fun _ => none⟩

/-- `insert_block(block, height)`: store the block's header at the height. -/
def insertBlock (store : BlockHeaderStore Block) (block : Block) (height : Nat) :
    BlockHeaderStore Block :=
  ⟨fun h => if h = height then some block else store.headerAt h⟩

@[simp] theorem headerAt_init (h : Nat) : (init : BlockHeaderStore Block).headerAt h = none := rfl

@[simp] theorem headerAt_insertBlock (store : BlockHeaderStore Block) (block : Block)
    (height h : Nat) :
    (store.insertBlock block height).headerAt h = if h = height then some block else
      store.headerAt h := rfl

end BlockHeaderStore

/-! ## The state -/

/-- The part of `State` that `insert_block` and `ingest_stable_blocks_into_utxoset` read or
write. The other fields are left out: no modelled function reads them, and the only ones these
two functions write are the metrics. -/
structure State (Block : Type) where
  /-- `utxos`, the UTXO set of the stable blocks. -/
  utxos : UtxoSet Block
  /-- `unstable_blocks`, the blocks not yet stable. -/
  unstableBlocks : UnstableBlocks Block
  /-- `stable_block_headers`, the headers of the blocks whose ingestion has started. -/
  stableBlockHeaders : BlockHeaderStore Block

/-- Modelled from the spec: the errors of `validate_header`, which `state.rs` imports as
`InsertBlockError`. `insert_block` builds `PrevHeaderNotFound` itself. The validator's other
errors are kept by name. -/
inductive InsertBlockError
  | prevHeaderNotFound
  | invalidHeader (name : String)
  deriving DecidableEq

/-- Modelled from the spec: `ValidationContext`, the chain of blocks that a new header is
checked against. -/
structure ValidationContext (Block : Type) where
  /-- The chain ending at the header's parent. -/
  chain : BlockChain Block

namespace State

open Blocktree

/-- `State::new(stability_threshold, network, genesis_block)`. -/
def new (stabilityThreshold : Nat) (genesisBlock : Block) : State Block :=
  let utxos := UtxoSet.new
  { utxos, unstableBlocks := UnstableBlocks.new stabilityThreshold genesisBlock,
    stableBlockHeaders := BlockHeaderStore.init }

/-- `State::stable_height`. -/
def stableHeight (state : State Block) : Nat := state.utxos.nextHeight

@[simp] theorem stableHeight_new (k : Nat) (genesis : Block) : (new k genesis).stableHeight = 0 :=
  rfl

@[simp] theorem stableBlockHeaders_new (k : Nat) (genesis : Block) :
    (new k genesis).stableBlockHeaders = BlockHeaderStore.init :=
  rfl

section Calls

variable [DecidableEq BlockHash]

/-- Modelled from the spec: `ValidationContext::new(state, header)` is the chain of unstable
blocks ending at the parent the header names. It fails when there is no such block. -/
def validationContext (state : State Block) (block : Block) :
    Except Panic (Except (BlockDoesNotExtendTree Block) (ValidationContext Block)) := do
  match ← getChainWithTip state.unstableBlocks.tree (prevBlockhash block) with
  | some chain => pure (.ok ⟨chain⟩)
  | none => pure (.error ⟨block⟩)

/-- `insert_block`: validate the block's header against the chain it extends, then push the
block into the unstable blocks, and panic if the push fails. `validateHeader` is
`validate_header` with the network and the time fixed. The instruction counter and the metric
it feeds are not modelled. -/
def insertBlock (validateHeader : ValidationContext Block → Block → Except InsertBlockError Unit)
    (state : State Block) (block : Block) :
    Except Panic (Except InsertBlockError Unit × State Block) := do
  match ← validationContext state block with
  | .error _ => pure (.error .prevHeaderNotFound, state)
  | .ok context =>
    match validateHeader context block with
    | .error err => pure (.error err, state)
    | .ok () =>
      let (result, unstableBlocks) ← UnstableBlocks.push state.unstableBlocks block
      expect "Inserting a block with a validated header must succeed." result
      pure (.ok (), { state with unstableBlocks })

/-- `pop_block` of `ingest_stable_blocks_into_utxoset`: pop the stable block, then check that
it is the block just ingested. -/
def popBlock (state : State Block) (ingestedBlockHash : BlockHash) :
    Except Panic (State Block) := do
  let stableHeight := state.stableHeight
  -- Pop the stable block.
  let (poppedBlock, unstableBlocks) := UnstableBlocks.pop state.unstableBlocks stableHeight
  -- Sanity check that we just popped the same block that was ingested.
  assertEq (blockHash (← unwrap poppedBlock)) ingestedBlockHash
  pure { state with unstableBlocks }

/-- The loop `while let Some(new_stable_block) = peek(..)` of
`ingest_stable_blocks_into_utxoset`, given the answers of its ingestor calls. Each round stores
the block's header at the next height, then ingests the block. -/
def ingestLoop (state : State Block) (slices : List IngestionSlice) :
    Except Panic (State Block) :=
  match UnstableBlocks.peek state.unstableBlocks with
  | none => pure state
  | some newStableBlock =>
    -- Store the block's header.
    let state := { state with stableBlockHeaders :=
      state.stableBlockHeaders.insertBlock newStableBlock state.utxos.nextHeight }
    match slices with
    | [] =>
      pure { state with utxos := (state.utxos.ingestBlock newStableBlock (nextSlice []).1).2 }
    | slice :: slices =>
      match state.utxos.ingestBlock newStableBlock slice with
      | (.paused (), utxos) => pure { state with utxos }
      | (.done ingestedBlockHash, utxos) => do
        let state ← popBlock { state with utxos } ingestedBlockHash
        ingestLoop state slices

/-- `ingest_stable_blocks_into_utxoset`: finish the paused ingestion, if any, then ingest
stable blocks until none is left or the ingestor pauses. Returns whether the next height or
the paused ingestion changed. -/
def ingestStableBlocksIntoUtxoset [DecidableEq Block] (state : State Block)
    (slices : List IngestionSlice) : Except Panic (Bool × State Block) :=
  let prevState := (state.utxos.nextHeight, state.utxos.ingestingBlock)
  let hasStateChanged := fun (state : State Block) =>
    prevState != (state.utxos.nextHeight, state.utxos.ingestingBlock)
  -- Finish ingesting the stable block that's partially ingested, if that exists.
  match state.utxos.ingestBlockContinue (nextSlice slices).1 with
  | (none, _) => do
    let state ← ingestLoop state slices
    pure (hasStateChanged state, state)
  | (some (.paused ()), utxos) => pure (hasStateChanged { state with utxos }, { state with utxos })
  | (some (.done ingestedBlockHash), utxos) => do
    let state ← popBlock { state with utxos } ingestedBlockHash
    let state ← ingestLoop state (nextSlice slices).2
    pure (hasStateChanged state, state)

/-- A call into the state from outside: `insert_block` with a block, or
`ingest_stable_blocks_into_utxoset` with the answers of its ingestor calls. -/
inductive Event (Block : Type)
  | insertBlock (block : Block)
  | ingestStableBlocksIntoUtxoset (slices : List IngestionSlice)

/-- One call, whatever it returns. -/
def step [DecidableEq Block]
    (validateHeader : ValidationContext Block → Block → Except InsertBlockError Unit)
    (state : State Block) : Event Block → Except Panic (State Block)
  | .insertBlock block => do
    let (_, state) ← insertBlock validateHeader state block
    pure state
  | .ingestStableBlocksIntoUtxoset slices => do
    let (_, state) ← ingestStableBlocksIntoUtxoset state slices
    pure state

/-- A run: the calls one after the other, until one panics. -/
def run [DecidableEq Block]
    (validateHeader : ValidationContext Block → Block → Except InsertBlockError Unit) :
    State Block → List (Event Block) → Except Panic (State Block)
  | state, [] => pure state
  | state, event :: events => do
    let state ← step validateHeader state event
    run validateHeader state events

end Calls

end State

end BitcoinCanister
