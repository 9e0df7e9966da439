import BitcoinCanister.State

/-! # What one call of the canister can do

The step lemmas say once what each call of `state.rs` can do (`insertBlock_ok`, `ingestLoop_ok`,
`ingestStableBlocksIntoUtxoset_cases`), including how it moves the unstable tree (`Moves`); the
run lemmas of `State.Runs` follow from them by induction over the calls. Of single calls:

* `insertBlock_of_contains`: a duplicate insert leaves the UTXO set, the unstable blocks and the
  header store unchanged (the metrics it writes are not modelled);
* `ingestStableBlocksIntoUtxoset_changed_iff`: the returned flag is `false` exactly when the call
  leaves the state unchanged, and a call that keeps the next height pops no block;
* `ingestStableBlocksIntoUtxoset_drains`: when the ingestor ends every block it is given, enough
  answers ingest every stable block. -/

namespace BitcoinCanister

variable {Block BlockHash : Type} [HasBlockHash Block BlockHash]

namespace State

open Blocktree

/-! ## What one call can do -/

/-- The paused ingestion, if any, is of the root of the unstable blocks. -/
def IngestingRoot (state : State Block) : Prop :=
  ∀ p, state.utxos.ingestingBlock = some p → p.block = state.unstableBlocks.tree.root

/-- The paused ingestion, if any, is of a root that is still stable. -/
def IngestingStable (state : State Block) : Prop :=
  ∀ p, state.utxos.ingestingBlock = some p → (UnstableBlocks.peek state.unstableBlocks).isSome

open BlockTree UnstableBlocks

variable {state : State Block}
  {validateHeader : ValidationContext Block → Block → Except InsertBlockError Unit}

/-- With no paused ingestion, there is nothing to be of the root. -/
theorem ingestingRoot_of_ingestingBlock_eq_none (h : state.utxos.ingestingBlock = none) :
    IngestingRoot state := by
  intro p hp; simp [h] at hp

/-- With no paused ingestion, there is nothing to be stable. -/
theorem ingestingStable_of_ingestingBlock_eq_none (h : state.utxos.ingestingBlock = none) :
    IngestingStable state := by
  intro p hp; simp [h] at hp

/-- A new state has no paused ingestion, so none that is not of the root. -/
theorem ingestingRoot_new (k : Nat) (genesis : Block) : IngestingRoot (new k genesis) :=
  ingestingRoot_of_ingestingBlock_eq_none rfl

/-- A new state has no paused ingestion, so none of a root that is not stable. -/
theorem ingestingStable_new (k : Nat) (genesis : Block) : IngestingStable (new k genesis) :=
  ingestingStable_of_ingestingBlock_eq_none rfl

/-- A round of the loop that pauses leaves the stable root paused, whatever the header store. -/
theorem ingestingRoot_ingestingStable_of_paused {child : BlockTree Block}
    (hs : getStableChild state.unstableBlocks = some child) (position : Nat)
    (store : BlockHeaderStore Block) :
    let state' : State Block := ⟨{ state.utxos with
      ingestingBlock := some ⟨state.unstableBlocks.tree.root, position⟩ }, state.unstableBlocks,
      store⟩
    IngestingRoot state' ∧ IngestingStable state' := by
  constructor <;> rintro p ⟨⟩ <;> simp [peek, hs]

/-! ## How a call moves the unstable tree -/

/-- The tree moves down a path to a subtree, and the stable height goes up by the path's
length: one unit per block popped. -/
def Descends (state state' : State Block) : Prop :=
  ∃ p, state.unstableBlocks.tree.get? p = some state'.unstableBlocks.tree ∧
    state'.stableHeight = state.stableHeight + p.length

/-- Two descents make one, along the joined path. -/
theorem Descends.trans {s₁ s₂ s₃ : State Block} (h₁ : Descends s₁ s₂) (h₂ : Descends s₂ s₃) :
    Descends s₁ s₃ := by
  obtain ⟨p, hp, hh₁⟩ := h₁
  obtain ⟨q, hq, hh₂⟩ := h₂
  refine ⟨p ++ q, by rw [get?_append, hp]; exact hq, ?_⟩
  rw [hh₂, hh₁, List.length_append, Nat.add_assoc]

/-- Popping the stable root, once its ingestion has ended, descends to the stable child. -/
theorem descends_of_getStableChild {child : BlockTree Block}
    (hs : getStableChild state.unstableBlocks = some child) (store : BlockHeaderStore Block) :
    Descends state
      ⟨⟨state.utxos.nextHeight + 1, none⟩, { state.unstableBlocks with tree := child }, store⟩ := by
  obtain ⟨i, hi⟩ := get?_of_getStableChild hs
  exact ⟨[i], hi, rfl⟩

variable [DecidableEq BlockHash]

/-- What a call that returns does to the unstable tree and the stable height: `extend` adds a
block and the height stays, or the tree descends. -/
def Moves (state state' : State Block) : Prop :=
  (∃ block r, extend state.unstableBlocks.tree block = .ok (r, state'.unstableBlocks.tree) ∧
    state'.stableHeight = state.stableHeight) ∨ Descends state state'

/-- A block that the validator accepts and `extend` adds is inserted. -/
theorem insertBlock_of_extend {block : Block} {chain : BlockChain Block}
    {tree : BlockTree Block}
    (hc : getChainWithTip state.unstableBlocks.tree (prevBlockhash block) = .ok (some chain))
    (hv : validateHeader ⟨chain⟩ block = .ok ())
    (he : extend state.unstableBlocks.tree block = .ok (.ok (), tree)) :
    insertBlock validateHeader state block =
      .ok (.ok (), { state with unstableBlocks := { state.unstableBlocks with tree } }) := by
  simp [insertBlock, validationContext, hc, hv, push_of_extend he, expect]

/-- **`insert_block` never panics.** Its `expect` never fails, because `extend` accepts every
block whose parent is in the tree. The call leaves the UTXO set, the threshold and the header
store as they were. It changes the tree only when it returns `Ok`, and then as `extend` does. It
returns `PrevHeaderNotFound` when no block has the parent's hash. -/
theorem insertBlock_ok
    (validateHeader : ValidationContext Block → Block → Except InsertBlockError Unit)
    (state : State Block) (block : Block) :
    ∃ r state', insertBlock validateHeader state block = .ok (r, state') ∧
      state'.utxos = state.utxos ∧
      state'.unstableBlocks.stabilityThreshold = state.unstableBlocks.stabilityThreshold ∧
      ((r = .ok () ∧
          extend state.unstableBlocks.tree block = .ok (.ok (), state'.unstableBlocks.tree)) ∨
        state' = state) ∧
      ((∀ q, ¬ HasHashAt state.unstableBlocks.tree.get? (prevBlockhash block) q) →
        r = .error .prevHeaderNotFound) ∧
      state'.stableBlockHeaders = state.stableBlockHeaders := by
  obtain ⟨c, hc, hfinds⟩ := getChainWithTip_finds state.unstableBlocks.tree (prevBlockhash block)
  cases c with
  | none =>
    exact ⟨.error .prevHeaderNotFound, state, by simp [insertBlock, validationContext, hc], rfl,
      rfl, .inr rfl, fun _ => rfl, rfl⟩
  | some chain =>
    obtain ⟨p, hp, -⟩ := hfinds
    cases hv : validateHeader ⟨chain⟩ block with
    | error e =>
      exact ⟨.error e, state, by simp [insertBlock, validationContext, hc, hv], rfl, rfl, .inr rfl,
        fun h => absurd hp.1 (h p), rfl⟩
    | ok u =>
      obtain ⟨tree, he, -⟩ := extend_of_parent ⟨p, hp.1⟩
      exact ⟨_, _, insertBlock_of_extend hc hv he, rfl, rfl, .inl ⟨rfl, he⟩,
        fun h => absurd hp.1 (h p), rfl⟩

/-- `insert_block` keeps the root of the unstable blocks and the UTXO set. -/
theorem insertBlock_frame (block : Block) {r : Except InsertBlockError Unit} {state' : State Block}
    (h : insertBlock validateHeader state block = .ok (r, state')) :
    state'.utxos = state.utxos ∧
      state'.unstableBlocks.tree.root = state.unstableBlocks.tree.root := by
  obtain ⟨r', state'', h', hutxos, -, hcase, -⟩ := insertBlock_ok validateHeader state block
  cases h.symm.trans h'
  refine ⟨hutxos, ?_⟩
  rcases hcase with ⟨-, he⟩ | rfl
  exacts [root_of_extend he, rfl]

example : insertBlock (fun _ _ => .ok ()) (new 1 (⟨1, 0⟩ : HeaderStub)) ⟨1, 0⟩ =
    .ok (.error .prevHeaderNotFound, new 1 ⟨1, 0⟩) := rfl

/-- Popping the stable root leaves its stable child as the tree. -/
theorem popBlock_of_getStableChild (utxos : UtxoSet Block) (store : BlockHeaderStore Block)
    {unstableBlocks : UnstableBlocks Block} {child : BlockTree Block}
    (hs : getStableChild unstableBlocks = some child) :
    popBlock ⟨utxos, unstableBlocks, store⟩ (blockHash unstableBlocks.tree.root) =
      .ok ⟨utxos, { unstableBlocks with tree := child }, store⟩ := by
  simp [popBlock, pop_of_getStableChild _ hs]

/-- Popping when the root is not stable panics in the `unwrap`. -/
theorem popBlock_of_getStableChild_eq_none (utxos : UtxoSet Block) (store : BlockHeaderStore Block)
    {unstableBlocks : UnstableBlocks Block} (h : BlockHash)
    (hs : getStableChild unstableBlocks = none) :
    popBlock ⟨utxos, unstableBlocks, store⟩ h =
      .error ⟨"called `Option::unwrap()` on a `None` value"⟩ := by
  simp [popBlock, pop_of_getStableChild_eq_none _ hs, unwrap]

/-- A descent from a state that has just ended a block leaves a higher next height than the one
before that block. -/
theorem Descends.utxos_ne {utxos : UtxoSet Block} {unstableBlocks : UnstableBlocks Block}
    {store : BlockHeaderStore Block} {state' : State Block}
    (h : Descends ⟨⟨utxos.nextHeight + 1, none⟩, unstableBlocks, store⟩ state') :
    state'.utxos ≠ utxos := fun hu => by
  obtain ⟨p, -, hh⟩ := h
  have := congrArg UtxoSet.nextHeight hu
  simp only [stableHeight] at hh
  omega

/-! ## The rounds of the ingest loop -/

/-- With no stable root, the loop does nothing. -/
theorem ingestLoop_of_getStableChild_eq_none (slices : List IngestionSlice)
    (hs : getStableChild state.unstableBlocks = none) : ingestLoop state slices = .ok state := by
  rw [ingestLoop.eq_def, peek_eq_none_iff.mpr hs]; rfl

/-- A round whose ingestion pauses: the root's header is stored at the next height and the root
is left paused. An answer list that has run out pauses at the start of the block. -/
theorem ingestLoop_of_paused {child : BlockTree Block}
    (hs : getStableChild state.unstableBlocks = some child) (slices : List IngestionSlice)
    {position : Nat} (hslice : (nextSlice slices).1 = .paused position) :
    ingestLoop state slices = .ok ⟨{ state.utxos with
      ingestingBlock := some ⟨state.unstableBlocks.tree.root, position⟩ }, state.unstableBlocks,
      state.stableBlockHeaders.insertBlock state.unstableBlocks.tree.root
        state.utxos.nextHeight⟩ := by
  rw [ingestLoop.eq_def, peek_of_getStableChild hs]
  rcases slices with _ | ⟨_ | _, _⟩ <;> cases hslice <;> rfl

/-- A round whose ingestion ends: the root's header is stored at the next height, the root is
popped, and the loop goes on from the stable child. -/
theorem ingestLoop_of_done {child : BlockTree Block}
    (hs : getStableChild state.unstableBlocks = some child) (slices : List IngestionSlice) :
    ingestLoop state (.done :: slices) = ingestLoop ⟨⟨state.utxos.nextHeight + 1, none⟩,
      { state.unstableBlocks with tree := child },
      state.stableBlockHeaders.insertBlock state.unstableBlocks.tree.root
        state.utxos.nextHeight⟩ slices := by
  rw [ingestLoop.eq_def, peek_of_getStableChild hs]
  simp only [UtxoSet.ingestBlock]
  rw [popBlock_of_getStableChild _ _ hs]
  rfl

/-- **The loop never panics.** From a state with no paused ingestion, the loop of
`ingest_stable_blocks_into_utxoset` returns. In the state it leaves, the paused ingestion, if
any, is of the root, and that root is stable. Each round pops the root it ingested, which
`peek` has just found stable, so `pop` returns it, and the tree descends one level per block
ingested. A loop that leaves the UTXO set as it was has stored no header either. -/
theorem ingestLoop_ok : ∀ (slices : List IngestionSlice) (state : State Block),
    state.utxos.ingestingBlock = none →
    ∃ state', ingestLoop state slices = .ok state' ∧ IngestingRoot state' ∧
      IngestingStable state' ∧
      state'.unstableBlocks.stabilityThreshold = state.unstableBlocks.stabilityThreshold ∧
      Descends state state' ∧ (state'.utxos = state.utxos → state' = state)
  | slices, state, hnone => by
    cases hs : getStableChild state.unstableBlocks with
    | none =>
      exact ⟨state, ingestLoop_of_getStableChild_eq_none slices hs,
        ingestingRoot_of_ingestingBlock_eq_none hnone,
        ingestingStable_of_ingestingBlock_eq_none hnone, rfl, ⟨[], rfl, rfl⟩, fun _ => rfl⟩
    | some child =>
      have hpaused := ingestingRoot_ingestingStable_of_paused hs
      -- A round that pauses leaves a paused ingestion where there was none.
      have hchanged : ∀ position, ({ state.utxos with
          ingestingBlock := some ⟨state.unstableBlocks.tree.root, position⟩ } : UtxoSet Block) ≠
          state.utxos := fun _ h =>
        Option.some_ne_none _ ((congrArg UtxoSet.ingestingBlock h).trans hnone)
      rcases slices with _ | ⟨_ | position, slices⟩
      · exact ⟨_, ingestLoop_of_paused hs _ rfl, (hpaused 0 _).1, (hpaused 0 _).2, rfl,
          ⟨[], rfl, rfl⟩, fun h => absurd h (hchanged 0)⟩
      · obtain ⟨state', hloop, hroot, hstable, hk, hdesc, -⟩ := ingestLoop_ok slices
          ⟨⟨state.utxos.nextHeight + 1, none⟩, { state.unstableBlocks with tree := child },
            state.stableBlockHeaders.insertBlock state.unstableBlocks.tree.root
              state.utxos.nextHeight⟩ rfl
        exact ⟨state', (ingestLoop_of_done hs slices).trans hloop, hroot, hstable, hk,
          (descends_of_getStableChild hs _).trans hdesc, fun h => absurd h hdesc.utxos_ne⟩
      · exact ⟨_, ingestLoop_of_paused hs _ rfl, (hpaused position _).1, (hpaused position _).2,
          rfl, ⟨[], rfl, rfl⟩, fun h => absurd h (hchanged position)⟩

/-- **The loop drains the stable blocks.** From a state with no paused ingestion, a loop whose
ingestor ends every block it is given, with at least as many answers as the unstable tree has
blocks, returns with no stable root left and no paused ingestion. Each round pops the root and
moves to a child, which has fewer blocks. -/
theorem ingestLoop_drains (n : Nat) : ∀ state : State Block, state.utxos.ingestingBlock = none →
    state.unstableBlocks.tree.size ≤ n →
    ∃ state', ingestLoop state (List.replicate n .done) = .ok state' ∧
      peek state'.unstableBlocks = none ∧ state'.utxos.ingestingBlock = none := by
  induction n with
  | zero => exact fun state _ hsize => absurd hsize (Nat.not_le.mpr (size_pos _))
  | succ m ih =>
    intro state hnone hsize
    cases hs : getStableChild state.unstableBlocks with
    | none =>
      exact ⟨state, ingestLoop_of_getStableChild_eq_none _ hs, peek_eq_none_iff.mpr hs, hnone⟩
    | some child =>
      obtain ⟨i, hi⟩ := get?_of_getStableChild hs
      have hlt := size_lt_of_get?_singleton hi
      obtain ⟨state', hloop, hpeek', hI⟩ :=
        ih ⟨⟨state.utxos.nextHeight + 1, none⟩, { state.unstableBlocks with tree := child },
          state.stableBlockHeaders.insertBlock state.unstableBlocks.tree.root
            state.utxos.nextHeight⟩ rfl (by dsimp only; omega)
      exact ⟨state', by rw [List.replicate_succ, ingestLoop_of_done hs]; exact hloop, hpeek', hI⟩

variable [DecidableEq Block]

/-- With no paused ingestion, a call runs the loop and compares the state it leaves. -/
theorem ingestStableBlocksIntoUtxoset_of_idle (hI : state.utxos.ingestingBlock = none)
    (slices : List IngestionSlice) :
    ingestStableBlocksIntoUtxoset state slices = (ingestLoop state slices).map
      fun state' : State Block => ((state.utxos.nextHeight, state.utxos.ingestingBlock) !=
        (state'.utxos.nextHeight, state'.utxos.ingestingBlock), state') := by
  simp only [ingestStableBlocksIntoUtxoset, UtxoSet.ingestBlockContinue, hI, bind_pure_comp]
  rfl

/-- A call that resumes the paused ingestion and ends it, while the root is no longer stable,
panics in the `unwrap` of `pop_block`. -/
theorem ingestStableBlocksIntoUtxoset_of_unstable {p : PartialIngestionState Block}
    (hI : state.utxos.ingestingBlock = some p) (hs : getStableChild state.unstableBlocks = none)
    (slices : List IngestionSlice) :
    ingestStableBlocksIntoUtxoset state (.done :: slices) =
      .error ⟨"called `Option::unwrap()` on a `None` value"⟩ := by
  simp [ingestStableBlocksIntoUtxoset, UtxoSet.ingestBlockContinue, hI, nextSlice,
    UtxoSet.ingestBlock, popBlock_of_getStableChild_eq_none _ _ _ hs]

/-- A call that resumes the paused ingestion and pauses again keeps the tree. -/
theorem ingestStableBlocksIntoUtxoset_of_paused {p : PartialIngestionState Block}
    {slices : List IngestionSlice} {position : Nat} (hI : state.utxos.ingestingBlock = some p)
    (hslice : (nextSlice slices).1 = .paused position) :
    ∃ changed, ingestStableBlocksIntoUtxoset state slices = .ok (changed,
      { state with utxos := { state.utxos with ingestingBlock := some ⟨p.block, position⟩ } }) := by
  simp [ingestStableBlocksIntoUtxoset, UtxoSet.ingestBlockContinue, hI, hslice,
    UtxoSet.ingestBlock]

/-- A call that resumes the paused ingestion, ends it, and pops the stable root, then runs the
loop from the stable child with the answers left. -/
theorem ingestStableBlocksIntoUtxoset_of_done {p : PartialIngestionState Block}
    {slices : List IngestionSlice} {child : BlockTree Block}
    (hI : state.utxos.ingestingBlock = some p) (hp : p.block = state.unstableBlocks.tree.root)
    (hs : getStableChild state.unstableBlocks = some child) :
    ingestStableBlocksIntoUtxoset state (.done :: slices) =
      (ingestLoop ⟨⟨state.utxos.nextHeight + 1, none⟩, { state.unstableBlocks with tree := child },
        state.stableBlockHeaders⟩ slices).map fun state' : State Block =>
        ((state.utxos.nextHeight, state.utxos.ingestingBlock) !=
          (state'.utxos.nextHeight, state'.utxos.ingestingBlock), state') := by
  simp only [ingestStableBlocksIntoUtxoset, UtxoSet.ingestBlockContinue, hI, nextSlice,
    UtxoSet.ingestBlock, hp]
  rw [popBlock_of_getStableChild _ _ hs]
  simp only [bind_pure_comp]
  rfl

/-- **What one call of `ingest_stable_blocks_into_utxoset` can do.** Take a state whose paused
ingestion, if any, is of the root. Either the call returns, its paused ingestion is again of the
root, and that root is stable if the state's was. Or it panics in the `unwrap` of `pop_block`.
The panic happens exactly when the call resumes a paused ingestion, the first answer ends the
block, and the root is no longer stable. A call that returns makes the tree descend, and a call
that leaves the UTXO set as it was changes nothing. -/
theorem ingestStableBlocksIntoUtxoset_cases (hroot : IngestingRoot state)
    (slices : List IngestionSlice) :
    (∃ state', (∃ changed, ingestStableBlocksIntoUtxoset state slices = .ok (changed, state')) ∧
      IngestingRoot state' ∧ (IngestingStable state → IngestingStable state') ∧
      state'.unstableBlocks.stabilityThreshold = state.unstableBlocks.stabilityThreshold ∧
      Descends state state' ∧ (state'.utxos = state.utxos → state' = state)) ∨
    (state.utxos.ingestingBlock.isSome ∧ slices.head? = some .done ∧
      peek state.unstableBlocks = none ∧
      ingestStableBlocksIntoUtxoset state slices =
        .error ⟨"called `Option::unwrap()` on a `None` value"⟩) := by
  cases hI : state.utxos.ingestingBlock with
  | none =>
    obtain ⟨state', hloop, hr, hs, hk, hdesc, hsame⟩ := ingestLoop_ok slices state hI
    exact .inl ⟨state', ⟨_, by rw [ingestStableBlocksIntoUtxoset_of_idle hI, hloop]; rfl⟩, hr,
      fun _ => hs, hk, hdesc, hsame⟩
  | some p =>
    have hp := hroot p hI
    rcases hslice : nextSlice slices with ⟨_ | position, rest⟩
    · -- The resumed ingestion ends, and the root is popped.
      obtain rfl : slices = .done :: rest := by cases slices <;> cases hslice; rfl
      cases hs : getStableChild state.unstableBlocks with
      | none =>
        exact .inr ⟨by simp, rfl, peek_eq_none_iff.mpr hs,
          ingestStableBlocksIntoUtxoset_of_unstable hI hs rest⟩
      | some child =>
        obtain ⟨state', hloop, hr, hst, hk, hdesc, -⟩ := ingestLoop_ok rest
          ⟨⟨state.utxos.nextHeight + 1, none⟩, { state.unstableBlocks with tree := child },
            state.stableBlockHeaders⟩ rfl
        refine .inl ⟨state', ⟨_, by
          rw [ingestStableBlocksIntoUtxoset_of_done hI hp hs, hloop]; rfl⟩, hr, fun _ => hst, hk,
          (descends_of_getStableChild hs _).trans hdesc, fun h => absurd h hdesc.utxos_ne⟩
    · -- The resumed ingestion pauses again, at the same root.
      obtain ⟨changed, h⟩ := ingestStableBlocksIntoUtxoset_of_paused hI (congrArg Prod.fst hslice)
      refine .inl ⟨_, ⟨changed, h⟩, fun q hq => ?_, fun hs _ _ => hs p hI, rfl, ⟨[], rfl, rfl⟩,
        fun h => congrArg (fun utxos => ({ state with utxos } : State Block)) h⟩
      cases hq
      exact hp

/-- **The flag says whether anything changed.** From a state whose paused ingestion, if any, is
of the root, a call of `ingest_stable_blocks_into_utxoset` that returns says `false` exactly when
it leaves the whole state as it was: the UTXO set, the unstable blocks and the header store. The
flag is `has_state_changed` of the state left, which compares the next height and the paused
ingestion. A call that leaves the next height as it was has popped no block: the unstable blocks
are as they were. -/
theorem ingestStableBlocksIntoUtxoset_changed_iff (hroot : IngestingRoot state)
    (slices : List IngestionSlice) {changed : Bool} {state' : State Block}
    (h : ingestStableBlocksIntoUtxoset state slices = .ok (changed, state')) :
    (changed = false ↔ state' = state) ∧
      (state'.utxos.nextHeight = state.utxos.nextHeight →
        state'.unstableBlocks = state.unstableBlocks) := by
  -- The flag is `has_state_changed` of the state the call leaves.
  have hflag : changed = ((state.utxos.nextHeight, state.utxos.ingestingBlock) !=
      (state'.utxos.nextHeight, state'.utxos.ingestingBlock)) := by
    unfold ingestStableBlocksIntoUtxoset at h
    split at h
    · obtain ⟨s, -, h⟩ := bind_eq_ok.mp h
      cases h; rfl
    · cases h; rfl
    · obtain ⟨s, -, h⟩ := bind_eq_ok.mp h
      obtain ⟨s, -, h⟩ := bind_eq_ok.mp h
      cases h; rfl
  rcases ingestStableBlocksIntoUtxoset_cases hroot slices with
    ⟨s, ⟨c, hs⟩, -, -, hk, ⟨p, hp, hh⟩, hsame⟩ | ⟨-, -, -, herr⟩
  · cases h.symm.trans hs
    refine ⟨?_, fun hn => ?_⟩
    · rw [hflag, bne_eq_false_iff_eq, Prod.mk.injEq]
      exact ⟨fun ⟨hn, hi⟩ => hsame (congrArg₂ UtxoSet.mk hn.symm hi.symm), fun h => h ▸ ⟨rfl, rfl⟩⟩
    · -- No block was popped, so the tree did not move.
      obtain rfl : p = [] := List.length_eq_zero.mp (by simp only [stableHeight] at hh; omega)
      exact congrArg₂ UnstableBlocks.mk hk (Option.some.inj hp).symm
  · cases h.symm.trans herr

/-- After `A` is inserted on top of `G`, a call whose ingestion of `G` pauses says `true`: it
stored the header of `G` and left `G` paused, at the same next height and with the same tree. -/
theorem ingestStableBlocksIntoUtxoset_changed_iff_paused :
    IngestingRoot (⟨⟨0, none⟩, ⟨1, ⟨⟨1, 0⟩, [.new ⟨2, 1⟩]⟩⟩, .init⟩ : State HeaderStub) ∧
    ingestStableBlocksIntoUtxoset
      (⟨⟨0, none⟩, ⟨1, ⟨⟨1, 0⟩, [.new ⟨2, 1⟩]⟩⟩, .init⟩ : State HeaderStub) [.paused 0] =
      .ok (true, ⟨⟨0, some ⟨⟨1, 0⟩, 0⟩⟩, ⟨1, ⟨⟨1, 0⟩, [.new ⟨2, 1⟩]⟩⟩,
        BlockHeaderStore.init.insertBlock ⟨1, 0⟩ 0⟩) ∧
    ((true = false ↔ (⟨⟨0, some ⟨⟨1, 0⟩, 0⟩⟩, ⟨1, ⟨⟨1, 0⟩, [.new ⟨2, 1⟩]⟩⟩,
        BlockHeaderStore.init.insertBlock ⟨1, 0⟩ 0⟩ : State HeaderStub) =
      ⟨⟨0, none⟩, ⟨1, ⟨⟨1, 0⟩, [.new ⟨2, 1⟩]⟩⟩, .init⟩) ∧
      (0 = 0 → (⟨1, ⟨⟨1, 0⟩, [.new ⟨2, 1⟩]⟩⟩ : UnstableBlocks HeaderStub) =
        ⟨1, ⟨⟨1, 0⟩, [.new ⟨2, 1⟩]⟩⟩)) :=
  ⟨ingestingRoot_of_ingestingBlock_eq_none rfl, rfl,
    ingestStableBlocksIntoUtxoset_changed_iff (ingestingRoot_of_ingestingBlock_eq_none rfl)
      [.paused 0] rfl⟩

/-- **Ingestion makes progress.** From a state whose paused ingestion, if any, is of the root
and of a root that is still stable, a call of `ingest_stable_blocks_into_utxoset` whose ingestor
ends every block it is given, with at least as many answers as the unstable tree has blocks,
returns with no stable root left and no paused ingestion: it ingests every stable block. -/
theorem ingestStableBlocksIntoUtxoset_drains (hroot : IngestingRoot state)
    (hstable : IngestingStable state) (n : Nat) (hn : state.unstableBlocks.tree.size ≤ n) :
    ∃ changed state', ingestStableBlocksIntoUtxoset state (List.replicate n .done) =
        .ok (changed, state') ∧
      peek state'.unstableBlocks = none ∧ state'.utxos.ingestingBlock = none := by
  cases hI : state.utxos.ingestingBlock with
  | none =>
    obtain ⟨state', hloop, hpeek, hI'⟩ := ingestLoop_drains n state hI hn
    exact ⟨_, state', by rw [ingestStableBlocksIntoUtxoset_of_idle hI, hloop]; rfl, hpeek, hI'⟩
  | some p =>
    -- The paused root is still stable, so the ingestion that ends pops it.
    obtain ⟨child, hs⟩ : ∃ child, getStableChild state.unstableBlocks = some child :=
      Option.isSome_iff_exists.mp (by simpa [peek] using hstable p hI)
    have hlt := size_lt_of_get?_singleton (get?_of_getStableChild hs).choose_spec
    obtain ⟨m, rfl⟩ : ∃ m, n = m + 1 := ⟨n - 1, by omega⟩
    obtain ⟨state', hloop, hpeek, hI'⟩ := ingestLoop_drains m
      ⟨⟨state.utxos.nextHeight + 1, none⟩, { state.unstableBlocks with tree := child },
        state.stableBlockHeaders⟩ rfl (by dsimp only; omega)
    exact ⟨_, state', by
      rw [List.replicate_succ, ingestStableBlocksIntoUtxoset_of_done hI (hroot p hI) hs, hloop]
      rfl, hpeek, hI'⟩

/-- With `A` on top of `G` and two answers that end their blocks, the call ingests `G` and
leaves no stable root. -/
theorem ingestStableBlocksIntoUtxoset_drains_two :
    IngestingRoot (⟨⟨0, none⟩, ⟨1, ⟨⟨1, 0⟩, [.new ⟨2, 1⟩]⟩⟩, .init⟩ : State HeaderStub) ∧
    IngestingStable (⟨⟨0, none⟩, ⟨1, ⟨⟨1, 0⟩, [.new ⟨2, 1⟩]⟩⟩, .init⟩ : State HeaderStub) ∧
    (⟨⟨1, 0⟩, [.new ⟨2, 1⟩]⟩ : BlockTree HeaderStub).size ≤ 2 ∧
    ∃ changed state', ingestStableBlocksIntoUtxoset
        (⟨⟨0, none⟩, ⟨1, ⟨⟨1, 0⟩, [.new ⟨2, 1⟩]⟩⟩, .init⟩ : State HeaderStub)
        (List.replicate 2 .done) = .ok (changed, state') ∧
      peek state'.unstableBlocks = none ∧ state'.utxos.ingestingBlock = none :=
  ⟨ingestingRoot_of_ingestingBlock_eq_none rfl, ingestingStable_of_ingestingBlock_eq_none rfl,
    by decide, ingestStableBlocksIntoUtxoset_drains (ingestingRoot_of_ingestingBlock_eq_none rfl)
      (ingestingStable_of_ingestingBlock_eq_none rfl) 2 (by decide)⟩

/-- **What one call can do.** From a state whose paused ingestion, if any, is of the root, a
call either returns in such a state, or is a call of `ingest_stable_blocks_into_utxoset` that
panics as `ingestStableBlocksIntoUtxoset_cases` says. A call that returns keeps a paused root
stable, unless it inserts a block while an ingestion is paused, and moves the tree as `Moves`
says. -/
theorem step_cases
    (validateHeader : ValidationContext Block → Block → Except InsertBlockError Unit)
    (hroot : IngestingRoot state) (event : Event Block) :
    (∃ state', step validateHeader state event = .ok state' ∧ IngestingRoot state' ∧
      (IngestingStable state →
        (∀ block, event = .insertBlock block → state.utxos.ingestingBlock = none) →
        IngestingStable state') ∧ Moves state state') ∨
    (∃ slices, event = .ingestStableBlocksIntoUtxoset slices ∧
      state.utxos.ingestingBlock.isSome ∧ slices.head? = some .done ∧
      peek state.unstableBlocks = none ∧
      step validateHeader state event =
        .error ⟨"called `Option::unwrap()` on a `None` value"⟩) := by
  cases event with
  | insertBlock block =>
    obtain ⟨r, state', h, hutxos, -, hcase, -⟩ := insertBlock_ok validateHeader state block
    have hroot' := (insertBlock_frame block h).2
    have hmoves : Moves state state' := by
      rcases hcase with ⟨-, he⟩ | rfl
      exacts [.inl ⟨block, _, he, congrArg UtxoSet.nextHeight hutxos⟩, .inr ⟨[], rfl, rfl⟩]
    refine .inl ⟨state', by simp [step, h], fun p hp => ?_, fun _ hidle => ?_, hmoves⟩
    · rw [hroot', ← hroot p (hutxos ▸ hp)]
    · exact ingestingStable_of_ingestingBlock_eq_none (hutxos ▸ hidle block rfl)
  | ingestStableBlocksIntoUtxoset slices =>
    rcases ingestStableBlocksIntoUtxoset_cases hroot slices with
      ⟨state', ⟨changed, h⟩, hr, hs, -, hdesc, -⟩ | ⟨hsome, hhead, hpeek, h⟩
    · exact .inl ⟨state', by simp [step, h], hr, fun hst _ => hs hst, .inr hdesc⟩
    · exact .inr ⟨slices, rfl, hsome, hhead, hpeek, by simp [step, h]⟩

end State

end BitcoinCanister
