import BitcoinCanister.State.Runs

/-! # The header store and the stable chain

`ingest_stable_blocks_into_utxoset` stores the header of each block it starts ingesting in
`stable_block_headers`, at the next height of the UTXO set. The invariant `ChainFrom base stable`
says what the calls keep from a state `base` on, where `stable` lists the blocks made stable
since `base`, oldest first:

* the blocks of `stable`, then the root, are a hash-linked chain from the root of `base`;
* the stable height has grown by one per block of `stable`;
* the header store keeps the headers of `base` below its stable height, and holds from there
  on the blocks of `stable`, then the block whose ingestion is paused, if any.

One lemma per call keeps it (`ChainFrom.of_insertBlock`, `ChainFrom.of_ingestLoop`,
`ChainFrom.of_ingestStableBlocksIntoUtxoset`), and `run_inv` carries it over runs:

* `run_stableChain`: after a run from `State::new` that returns, the header store holds, one
  header per height below the stable height, a hash-linked chain from the genesis block up to
  the root, then the header of the paused block, and nothing else;
* `run_finalizes`: from any state whose tree is linked and whose header store holds nothing from
  the stable height on but the paused block, a run that returns keeps every header below the
  stable height, and the headers it stores from there on are the blocks of a hash-linked chain
  from the root then to the root now: no call undoes the ingestion of a block. -/

namespace BitcoinCanister

variable {Block BlockHash : Type} [HasBlockHash Block BlockHash]

namespace State

open Blocktree BlockTree UnstableBlocks

/-- The block whose ingestion is paused, if any. -/
def pausedBlocks (state : State Block) : List Block :=
  (state.utxos.ingestingBlock.map PartialIngestionState.block).toList

theorem pausedBlocks_eq_nil {state : State Block} (h : state.utxos.ingestingBlock = none) :
    pausedBlocks state = [] := by
  simp [pausedBlocks, h]

theorem pausedBlocks_eq_singleton {state : State Block} {p : PartialIngestionState Block}
    (h : state.utxos.ingestingBlock = some p) : pausedBlocks state = [p.block] := by
  simp [pausedBlocks, h]

/-- `store` is `base` below `height`, and holds `blocks`, in order, from `height` on. -/
def StoresFrom (base : BlockHeaderStore Block) (height : Nat) (blocks : List Block)
    (store : BlockHeaderStore Block) : Prop :=
  ∀ h, store.headerAt h = if h < height then base.headerAt h else blocks[h - height]?

/-- Storing a block just above the blocks stored appends it to them. -/
theorem StoresFrom.insertBlock {base store : BlockHeaderStore Block} {height : Nat}
    {blocks : List Block} (hs : StoresFrom base height blocks store) (block : Block) :
    StoresFrom base height (blocks ++ [block])
      (store.insertBlock block (height + blocks.length)) := by
  intro h
  rw [BlockHeaderStore.headerAt_insertBlock, hs h, List.getElem?_append]
  by_cases hh : h = height + blocks.length
  · simp [hh]
  · rw [if_neg hh]
    split_ifs
    · rfl
    · rfl
    · rw [List.getElem?_eq_none (by omega), List.getElem?_eq_none (by simp; omega)]

/-! ## The invariant -/

/-- What the calls keep from `base` on, where `stable` lists the blocks made stable since `base`,
oldest first. -/
structure ChainFrom (base : State Block) (stable : List Block) (state : State Block) : Prop where
  /-- Every child names its parent's hash, and no two blocks share a hash. -/
  wellLinked : WellLinked state.unstableBlocks.tree
  /-- The stable height has grown by one per block made stable. -/
  stableHeight_eq : state.stableHeight = base.stableHeight + stable.length
  /-- The blocks made stable, then the root, are a hash-linked chain. -/
  hashLinked : HashLinked (stable ++ [state.unstableBlocks.tree.root])
  /-- The chain starts at the root of `base`. -/
  head?_eq : (stable ++ [state.unstableBlocks.tree.root]).head? = some base.unstableBlocks.tree.root
  /-- The header store keeps the headers of `base` below its stable height, and holds the blocks
  made stable, then the paused block, from there on. -/
  stores : StoresFrom base.stableBlockHeaders base.stableHeight (stable ++ pausedBlocks state)
    state.stableBlockHeaders

/-- A state whose tree is linked, and whose header store holds nothing from the stable height on
but the paused block, starts a chain with no block made stable. -/
theorem chainFrom_self {state : State Block} (hwl : WellLinked state.unstableBlocks.tree)
    (hstore : ∀ h, state.stableHeight ≤ h →
      state.stableBlockHeaders.headerAt h = (pausedBlocks state)[h - state.stableHeight]?) :
    ChainFrom state [] state where
  wellLinked := hwl
  stableHeight_eq := rfl
  hashLinked i hi := by simp at hi
  head?_eq := rfl
  stores h := by
    split_ifs with hh
    · rfl
    · exact hstore h (by omega)

/-- `State::new` starts a chain at the genesis block. -/
theorem chainFrom_new (k : Nat) (genesis : Block) :
    ChainFrom (new k genesis) [] (new k genesis) :=
  chainFrom_self (wellLinked_new genesis) fun _ _ => rfl

/-! ## What each call does to the chain -/

section Calls

variable {base state : State Block} {stable : List Block}

/-- A resumed ingestion that pauses again keeps the chain: the paused block stays the same. -/
theorem ChainFrom.of_paused {p : PartialIngestionState Block} (hc : ChainFrom base stable state)
    (hI : state.utxos.ingestingBlock = some p) (position : Nat) :
    ChainFrom base stable
      { state with utxos := { state.utxos with ingestingBlock := some ⟨p.block, position⟩ } } :=
  { hc with
    stores := by
      rw [pausedBlocks_eq_singleton rfl, ← pausedBlocks_eq_singleton hI]
      exact hc.stores }

/-- While no ingestion is paused, the root's header, stored at the next height, follows the
blocks made stable. -/
theorem ChainFrom.stores_insertBlock_root (hc : ChainFrom base stable state)
    (hI : state.utxos.ingestingBlock = none) :
    StoresFrom base.stableBlockHeaders base.stableHeight
      (stable ++ [state.unstableBlocks.tree.root])
      (state.stableBlockHeaders.insertBlock state.unstableBlocks.tree.root
        state.utxos.nextHeight) := by
  have hs := hc.stores
  rw [pausedBlocks_eq_nil hI, List.append_nil] at hs
  rw [show state.utxos.nextHeight = base.stableHeight + stable.length from hc.stableHeight_eq]
  exact hs.insertBlock _

/-- A round of the loop that pauses keeps the chain: it stores the root's header and leaves the
root paused. -/
theorem ChainFrom.of_round_paused (hc : ChainFrom base stable state)
    (hI : state.utxos.ingestingBlock = none) (position : Nat) :
    ChainFrom base stable ⟨{ state.utxos with
      ingestingBlock := some ⟨state.unstableBlocks.tree.root, position⟩ }, state.unstableBlocks,
      state.stableBlockHeaders.insertBlock state.unstableBlocks.tree.root state.utxos.nextHeight⟩ :=
  { hc with stores := hc.stores_insertBlock_root hI }

/-- Popping the stable root, once its header is stored, moves the chain one block up: the root
joins the blocks made stable, and its stable child is the root. -/
theorem ChainFrom.descend {child : BlockTree Block} {store : BlockHeaderStore Block}
    (hc : ChainFrom base stable state) (hs : getStableChild state.unstableBlocks = some child)
    (hstore : StoresFrom base.stableBlockHeaders base.stableHeight
      (stable ++ [state.unstableBlocks.tree.root]) store) :
    ChainFrom base (stable ++ [state.unstableBlocks.tree.root])
      ⟨⟨state.utxos.nextHeight + 1, none⟩, { state.unstableBlocks with tree := child }, store⟩ := by
  obtain ⟨i, hi⟩ := get?_of_getStableChild hs
  refine ⟨hc.wellLinked.of_get? hi, ?_, ?_, ?_, by simpa [pausedBlocks] using hstore⟩
  · have h := hc.stableHeight_eq
    simp only [stableHeight, List.length_append, List.length_singleton] at h ⊢
    omega
  · rw [List.append_assoc, List.singleton_append]
    exact hc.hashLinked.snoc (hc.wellLinked.prevBlockhash_child hi)
  · rw [List.head?_append_of_ne_nil _ (by simp)]
    exact hc.head?_eq

variable [DecidableEq BlockHash]

/-- `insert_block` keeps the chain: it keeps the UTXO set, the header store and the root. -/
theorem ChainFrom.of_insertBlock
    {validateHeader : ValidationContext Block → Block → Except InsertBlockError Unit}
    {block : Block} {r : Except InsertBlockError Unit} {state' : State Block}
    (hc : ChainFrom base stable state)
    (h : insertBlock validateHeader state block = .ok (r, state')) :
    ChainFrom base stable state' := by
  obtain ⟨r', s, h', hutxos, -, hcase, -, hstore⟩ := insertBlock_ok validateHeader state block
  cases h.symm.trans h'
  rcases hcase with ⟨-, he⟩ | rfl
  · have hroot := root_of_extend he
    exact ⟨hc.wellLinked.of_extend he, by rw [stableHeight, hutxos]; exact hc.stableHeight_eq,
      hroot ▸ hc.hashLinked, hroot ▸ hc.head?_eq,
      by rw [pausedBlocks, hutxos, hstore]; exact hc.stores⟩
  · exact hc

/-- The loop of `ingest_stable_blocks_into_utxoset` keeps the chain: each round stores the root's
header at the next height, and a round that ends the block pops the root. -/
theorem ChainFrom.of_ingestLoop : ∀ (slices : List IngestionSlice) {state state' : State Block}
    {stable : List Block}, state.utxos.ingestingBlock = none → ChainFrom base stable state →
    ingestLoop state slices = .ok state' → ∃ stable', ChainFrom base stable' state'
  | slices, state, state', stable, hI, hc, h => by
    cases hs : getStableChild state.unstableBlocks with
    | none =>
      rw [ingestLoop_of_getStableChild_eq_none slices hs] at h
      cases h
      exact ⟨stable, hc⟩
    | some child =>
      rcases slices with _ | ⟨_ | position, slices⟩
      · rw [ingestLoop_of_paused hs [] rfl] at h
        cases h
        exact ⟨stable, hc.of_round_paused hI 0⟩
      · rw [ingestLoop_of_done hs] at h
        exact ChainFrom.of_ingestLoop slices rfl
          (hc.descend hs (hc.stores_insertBlock_root hI)) h
      · rw [ingestLoop_of_paused hs (.paused position :: slices) rfl] at h
        cases h
        exact ⟨stable, hc.of_round_paused hI position⟩

variable [DecidableEq Block]

/-- `ingest_stable_blocks_into_utxoset` keeps the chain, from a state whose paused ingestion, if
any, is of the root. A resumed ingestion that ends pops the root, whose header is already
stored. -/
theorem ChainFrom.of_ingestStableBlocksIntoUtxoset {slices : List IngestionSlice} {changed : Bool}
    {state' : State Block} (hroot : IngestingRoot state) (hc : ChainFrom base stable state)
    (h : ingestStableBlocksIntoUtxoset state slices = .ok (changed, state')) :
    ∃ stable', ChainFrom base stable' state' := by
  cases hI : state.utxos.ingestingBlock with
  | none =>
    obtain ⟨s, hloop, -⟩ := ingestLoop_ok slices state hI
    rw [ingestStableBlocksIntoUtxoset_of_idle hI, hloop] at h
    cases h
    exact hc.of_ingestLoop slices hI hloop
  | some p =>
    rcases hslice : nextSlice slices with ⟨_ | position, rest⟩
    · obtain rfl : slices = .done :: rest := by cases slices <;> cases hslice; rfl
      cases hs : getStableChild state.unstableBlocks with
      | none =>
        rw [ingestStableBlocksIntoUtxoset_of_unstable hI hs] at h
        cases h
      | some child =>
        have hp := hroot p hI
        have hstore : StoresFrom base.stableBlockHeaders base.stableHeight
            (stable ++ [state.unstableBlocks.tree.root]) state.stableBlockHeaders := by
          rw [← hp, ← pausedBlocks_eq_singleton hI]
          exact hc.stores
        obtain ⟨s, hloop, -⟩ := ingestLoop_ok rest ⟨⟨state.utxos.nextHeight + 1, none⟩,
          { state.unstableBlocks with tree := child }, state.stableBlockHeaders⟩ rfl
        rw [ingestStableBlocksIntoUtxoset_of_done hI hp hs, hloop] at h
        cases h
        exact (hc.descend hs hstore).of_ingestLoop rest rfl hloop
    · obtain ⟨c, h'⟩ := ingestStableBlocksIntoUtxoset_of_paused hI (congrArg Prod.fst hslice)
      cases h.symm.trans h'
      exact ⟨stable, hc.of_paused hI position⟩

/-- Every call that returns keeps the chain, from a state whose paused ingestion, if any, is of
the root. -/
theorem ChainFrom.of_step
    {validateHeader : ValidationContext Block → Block → Except InsertBlockError Unit}
    {event : Event Block} {state' : State Block} (hroot : IngestingRoot state)
    (hc : ChainFrom base stable state) (h : step validateHeader state event = .ok state') :
    ∃ stable', ChainFrom base stable' state' := by
  cases event with
  | insertBlock block =>
    obtain ⟨r, s, hins, -⟩ := insertBlock_ok validateHeader state block
    obtain rfl : s = state' := by simpa [step, hins] using h
    exact ⟨stable, hc.of_insertBlock hins⟩
  | ingestStableBlocksIntoUtxoset slices =>
    rcases ingestStableBlocksIntoUtxoset_cases hroot slices with
      ⟨s, ⟨c, hs⟩, -⟩ | ⟨-, -, -, herr⟩
    · obtain rfl : s = state' := by simpa [step, hs] using h
      exact hc.of_ingestStableBlocksIntoUtxoset hroot hs
    · simp [step, herr] at h

/-- A run that returns keeps the chain, from a state whose paused ingestion, if any, is of the
root. -/
theorem ChainFrom.of_run
    {validateHeader : ValidationContext Block → Block → Except InsertBlockError Unit}
    {events : List (Event Block)} {state' : State Block} (hroot : IngestingRoot state)
    (hc : ChainFrom base stable state) (h : run validateHeader state events = .ok state') :
    ∃ stable', ChainFrom base stable' state' :=
  (run_inv (fun s => ∃ stable, ChainFrom base stable s)
    (fun _ _ _ hroot ⟨_, hc⟩ h => hc.of_step hroot h) events state state' hroot ⟨stable, hc⟩ h).2

end Calls

/-! ## Runs -/

variable [DecidableEq BlockHash] [DecidableEq Block]

/-- **The header store holds the stable chain.** Whatever the header validator, the threshold,
the genesis block, the calls and the ingestor's answers, after a run from `State::new` that
returns, the unstable tree is linked with unique hashes, and there is a list `stable` of blocks,
one per height below the stable height, such that `stable` followed by the root is a
hash-linked chain from the genesis block, and the header store holds exactly `stable` followed
by the paused block, if any: the header at each height is the block of `stable`, or the paused
block, at that height, and there is none above. -/
theorem run_stableChain
    (validateHeader : ValidationContext Block → Block → Except InsertBlockError Unit)
    (k : Nat) (genesis : Block) (events : List (Event Block)) (state' : State Block)
    (h : run validateHeader (new k genesis) events = .ok state') :
    WellLinked state'.unstableBlocks.tree ∧ ∃ stable : List Block,
      stable.length = state'.stableHeight ∧
      HashLinked (stable ++ [state'.unstableBlocks.tree.root]) ∧
      (stable ++ [state'.unstableBlocks.tree.root]).head? = some genesis ∧
      ∀ height, state'.stableBlockHeaders.headerAt height =
        (stable ++ pausedBlocks state')[height]? := by
  obtain ⟨stable, hc⟩ := (chainFrom_new k genesis).of_run (ingestingRoot_new k genesis) h
  refine ⟨hc.wellLinked, stable, ?_, hc.hashLinked, hc.head?_eq, fun height => ?_⟩
  · simpa using hc.stableHeight_eq.symm
  · simpa using hc.stores height

/-- After inserting `A` on top of `G` and ingesting `G` in one slice, the header store holds `G`
at height 0 and nothing else, and `G`, `A` is the stable chain up to the root `A`. -/
theorem run_stableChain_after_one_pop :
    run (fun _ _ => .ok ()) (new 1 (⟨1, 0⟩ : HeaderStub))
      [.insertBlock ⟨2, 1⟩, .ingestStableBlocksIntoUtxoset [.done]] =
      .ok ⟨⟨1, none⟩, ⟨1, .new ⟨2, 1⟩⟩, BlockHeaderStore.init.insertBlock (⟨1, 0⟩ : HeaderStub) 0⟩ ∧
    WellLinked (BlockTree.new (⟨2, 1⟩ : HeaderStub)) ∧ ∃ stable : List HeaderStub,
      stable.length = 1 ∧ HashLinked (stable ++ [(⟨2, 1⟩ : HeaderStub)]) ∧
      (stable ++ [(⟨2, 1⟩ : HeaderStub)]).head? = some ⟨1, 0⟩ ∧
      ∀ height, (BlockHeaderStore.init.insertBlock (⟨1, 0⟩ : HeaderStub) 0).headerAt height =
        (stable ++ [])[height]? :=
  ⟨rfl, run_stableChain (fun _ _ => .ok ()) 1 (⟨1, 0⟩ : HeaderStub)
    [.insertBlock ⟨2, 1⟩, .ingestStableBlocksIntoUtxoset [.done]]
    ⟨⟨1, none⟩, ⟨1, .new ⟨2, 1⟩⟩, BlockHeaderStore.init.insertBlock ⟨1, 0⟩ 0⟩ rfl⟩

/-- A state reached from `State::new` meets the hypotheses of `run_finalizes`: its header store
holds nothing from the stable height on but the paused block. -/
theorem headerAt_of_run_new
    (validateHeader : ValidationContext Block → Block → Except InsertBlockError Unit)
    (k : Nat) (genesis : Block) (events : List (Event Block)) (state' : State Block)
    (h : run validateHeader (new k genesis) events = .ok state') (height : Nat)
    (hh : state'.stableHeight ≤ height) :
    state'.stableBlockHeaders.headerAt height =
      (pausedBlocks state')[height - state'.stableHeight]? := by
  obtain ⟨stable, hc⟩ := (chainFrom_new k genesis).of_run (ingestingRoot_new k genesis) h
  have hlen : state'.stableHeight = stable.length := by simpa using hc.stableHeight_eq
  rw [hc.stores height, stableHeight_new, if_neg (Nat.not_lt_zero _), Nat.sub_zero,
    List.getElem?_append_right (hlen ▸ hh), hlen]

/-- **Stable blocks are final.** Take any state whose paused ingestion, if any, is of the root,
whose unstable tree is linked with unique hashes, and whose header store holds nothing from the
stable height on but the paused block; take any header validator, calls and answers of the
ingestor. After a run that returns, there is a list `stable` of the blocks made stable meanwhile
(`ChainFrom`): `stable` followed by the root now is a hash-linked chain from the root then, the
stable height has grown by the length of `stable`, every header below the old stable height is
as it was, and from there on the header store holds `stable` followed by the paused block. So
the stable height never decreases, and no call undoes or rewrites the ingestion of a block. -/
theorem run_finalizes
    (validateHeader : ValidationContext Block → Block → Except InsertBlockError Unit)
    (events : List (Event Block)) (state state' : State Block) (hroot : IngestingRoot state)
    (hwl : WellLinked state.unstableBlocks.tree)
    (hstore : ∀ h, state.stableHeight ≤ h →
      state.stableBlockHeaders.headerAt h = (pausedBlocks state)[h - state.stableHeight]?)
    (h : run validateHeader state events = .ok state') :
    ∃ stable, ChainFrom state stable state' :=
  (chainFrom_self hwl hstore).of_run hroot h

/-- From `State::new` with threshold 1, inserting `A` on top of `G` and ingesting `G` in one
slice makes `G` stable: its header is stored at height 0, and `A` is the root. -/
theorem run_finalizes_after_one_pop :
    IngestingRoot (new 1 (⟨1, 0⟩ : HeaderStub)) ∧
    WellLinked (new 1 (⟨1, 0⟩ : HeaderStub)).unstableBlocks.tree ∧
    (∀ h, (new 1 (⟨1, 0⟩ : HeaderStub)).stableHeight ≤ h →
      (new 1 (⟨1, 0⟩ : HeaderStub)).stableBlockHeaders.headerAt h =
        (pausedBlocks (new 1 (⟨1, 0⟩ : HeaderStub)))[h -
          (new 1 (⟨1, 0⟩ : HeaderStub)).stableHeight]?) ∧
    run (fun _ _ => .ok ()) (new 1 (⟨1, 0⟩ : HeaderStub))
      [.insertBlock ⟨2, 1⟩, .ingestStableBlocksIntoUtxoset [.done]] =
      .ok ⟨⟨1, none⟩, ⟨1, .new ⟨2, 1⟩⟩, BlockHeaderStore.init.insertBlock (⟨1, 0⟩ : HeaderStub) 0⟩ ∧
    ∃ stable, ChainFrom (new 1 ⟨1, 0⟩) stable
      ⟨⟨1, none⟩, ⟨1, .new ⟨2, 1⟩⟩, BlockHeaderStore.init.insertBlock (⟨1, 0⟩ : HeaderStub) 0⟩ :=
  ⟨ingestingRoot_new 1 _, wellLinked_new _, fun _ _ => rfl, rfl,
    run_finalizes (fun _ _ => .ok ())
      [.insertBlock (⟨2, 1⟩ : HeaderStub), .ingestStableBlocksIntoUtxoset [.done]] (new 1 ⟨1, 0⟩)
      _ (ingestingRoot_new 1 _) (wellLinked_new _) (fun _ _ => rfl) rfl⟩

end State

end BitcoinCanister
