import BitcoinCanister.State.StableSide

/-! # Feeding a chain block by block

The test `serialize_deserialize_state` of `state.rs` builds a chain, starts the state from its
first block, and then, for each later block, calls `insert_block(...).unwrap()` and
`ingest_stable_blocks_into_utxoset`. Whatever the stability threshold and the answers of the
time-sliced ingestor, and with a validator that accepts the chain, this loop never panics: every
insert returns `Ok` and no `pop_block` fails. It also loses and doubles no block: the chain fed,
from the stable height on, is exactly the unstable tree, which stays the chain tree of the blocks
not yet ingested (`serializeDeserializeStateLoop_chain`).

The invariant `Fed` is kept by each insert (`Fed.insertBlock`) and by each ingestion
(`Fed.ingest`). An insert pushes the block at the leaf of the chain tree. Whenever the root is
stable that leaf is in the subtree of the stable child, so a paused root stays stable
(`ingestingStable_of_insertBlock`).

When the ingestor ends the first block of every call, the loop also makes all the progress the
stabilization rule allows: the root of a chain is stable once `max k 1` blocks follow it, one
more block follows it after each insert, and one answer ingests it
(`ingestStableBlocksIntoUtxoset_chainTree`). So the loop ends with exactly the last `max k 1`
blocks unstable (`serializeDeserializeStateLoop_ingests`). -/

namespace BitcoinCanister

variable {Block BlockHash : Type} [HasBlockHash Block BlockHash]

/-- The `Debug` text of a validation error: the name of its variant. -/
def InsertBlockError.debug : InsertBlockError → String
  | .prevHeaderNotFound => "PrevHeaderNotFound"
  | .invalidHeader name => name

namespace State

open Blocktree BlockTree UnstableBlocks

/-- `Result::unwrap` on the result of `insert_block`: nothing, or the panic that shows the
error. -/
def unwrapInsert : Except InsertBlockError Unit → Except Panic Unit
  | .ok () => .ok ()
  | .error e => .error ⟨"called `Result::unwrap()` on an `Err` value: " ++ e.debug⟩

variable [DecidableEq BlockHash] [DecidableEq Block]

/-- The loop of the test `serialize_deserialize_state`: for each block after the first,
`insert_block(&mut state, block.clone()).unwrap()` and then
`ingest_stable_blocks_into_utxoset(&mut state)`, whose ingestor answers are given beside the
block. The serialization round trip after the loop is not modelled. -/
def serializeDeserializeStateLoop
    (validateHeader : ValidationContext Block → Block → Except InsertBlockError Unit) :
    State Block → List (Block × List IngestionSlice) → Except Panic (State Block)
  | state, [] => pure state
  | state, (block, slices) :: feed => do
    let (result, state) ← insertBlock validateHeader state block
    unwrapInsert result
    let (_, state) ← ingestStableBlocksIntoUtxoset state slices
    serializeDeserializeStateLoop validateHeader state feed

/-! ## The invariant of the loop -/

/-- What the loop keeps after the blocks `fed` that follow the genesis block `g`. -/
structure Fed (g : Block) (fed : List Block) (state : State Block) : Prop where
  /-- The paused ingestion, if any, is of the root. -/
  ingestingRoot : IngestingRoot state
  /-- The paused ingestion, if any, is of a stable root. -/
  ingestingStable : IngestingStable state
  /-- Every child names its parent's hash, and no two blocks share a hash. -/
  wellLinked : WellLinked state.unstableBlocks.tree
  /-- The blocks fed, from the stable height on, are the unstable tree, as a chain tree. -/
  unstable : ∃ b l, (g :: fed).drop state.stableHeight = b :: l ∧
    state.unstableBlocks.tree = chainTree b l

omit [DecidableEq BlockHash] [DecidableEq Block] in
/-- `State::new` starts the loop with the genesis block alone. -/
theorem fed_new (k : Nat) (g : Block) : Fed g [] (new k g) :=
  ⟨ingestingRoot_new k g, ingestingStable_new k g, wellLinked_new g, g, [], rfl, rfl⟩

variable {validateHeader : ValidationContext Block → Block → Except InsertBlockError Unit}
  {g c : Block} {fed : List Block} {state : State Block}

omit [DecidableEq Block] in
/-- **An insert of the next block of the chain.** It returns `Ok`, pushes the block at the leaf
of the chain tree, and keeps `Fed`, as long as the chain stays hash-linked with distinct hashes,
the validator accepts the block, and the tree stays below `2 ^ 32` blocks. -/
theorem Fed.insertBlock (h : Fed g fed state) (hlinked : HashLinked (g :: fed ++ [c]))
    (hnodup : ((g :: fed ++ [c]).map blockHash).Nodup)
    (hvalid : ∀ ctx, validateHeader ctx c = .ok ()) (hsize : fed.length + 2 ≤ 2 ^ 32 - 1) :
    ∃ state', State.insertBlock validateHeader state c = .ok (.ok (), state') ∧
      Fed g (fed ++ [c]) state' := by
  obtain ⟨hroot, hstable, hwl, b, l, hdrop, htree⟩ := h
  obtain ⟨⟨n, i⟩, ⟨k, t⟩, store⟩ := state
  dsimp only [stableHeight] at htree hdrop hroot hwl
  subst htree
  have hlen : fed.length + 1 - n = l.length + 1 := by simpa using congrArg List.length hdrop
  -- The parent of `c` is the tip of the chain fed so far, the leaf of the tree.
  have hprev : prevBlockhash c = blockHash ((b :: l).getLast (List.cons_ne_nil _ _)) := by
    have hlast := List.getLast_drop (n := n) (l := g :: fed) (by rw [hdrop]; simp)
    simp only [hdrop] at hlast
    rw [hlast]
    exact hlinked.prevBlockhash_getLast (List.cons_ne_nil _ _)
  have htip : HasHashAt (chainTree b l).get? (prevBlockhash c) (List.replicate l.length 0) :=
    ⟨_, get?_chainTree_last b l, by simp [hprev]⟩
  -- No block of the tree has the hash of `c`: its blocks are blocks fed before `c`.
  have hfresh : ∀ q, ¬ HasHashAt (chainTree b l).get? (blockHash c) q := fun q hq => by
    obtain ⟨x, hx, hhash⟩ := hasHashAt_chainTree hq
    rw [List.map_append, List.nodup_append] at hnodup
    exact hnodup.2.2 (List.mem_map_of_mem _ (List.mem_of_mem_drop (hdrop ▸ hx))) (by simp [hhash])
  obtain ⟨r, hr, hfinds⟩ := getChainWithTip_finds (chainTree b l) (prevBlockhash c)
  rcases extend_cases (chainTree b l) c with ⟨hc, -⟩ | ⟨-, p, s, hp, -, he⟩ | ⟨-, hnone, -⟩
  · obtain ⟨q, hq⟩ := (contains_eq_true_iff _ c).mp hc
    exact absurd hq (hfresh q)
  · obtain rfl := hwl.eq_of_hasHashAt hp.1 htip
    rw [modifyAt_chainTree] at he
    cases r with
    | none => exact absurd htip (hfinds _)
    | some chain =>
      refine ⟨_, insertBlock_of_extend hr (hvalid _) he, ?_⟩
      refine ⟨fun p hp => (hroot p hp).trans (by simp), ?_, hwl.of_extend he, b, l ++ [c],
        by rw [stableHeight, ← List.cons_append, List.drop_append_of_le_length (by simp; omega),
          hdrop]; rfl,
        rfl⟩
      refine ingestingStable_of_insertBlock hwl hstable (fun hsome => ?_)
        (by rw [size_chainTree]; simp; omega) (insertBlock_of_extend hr (hvalid _) he)
      -- A paused root is stable, towards its only child, whose subtree holds the tip.
      obtain ⟨p, hp⟩ := Option.isSome_iff_exists.mp hsome
      obtain ⟨c₀, hc₀⟩ := Option.isSome_iff_exists.mp (by simpa [peek] using hstable p hp)
      obtain ⟨b', l', rfl, rfl⟩ := getStableChild_chainTree hc₀
      exact ⟨_, hc₀, _, _, get?_chainTree_last b' l', by simp [hprev, List.getLast_cons]⟩
  · exact absurd htip (hnone _)

/-- **An ingestion keeps the invariant.** Whatever the ingestor's answers, the call returns,
and the root only moves down the chain, one block per block ingested. -/
theorem Fed.ingest (h : Fed g fed state) (slices : List IngestionSlice) :
    ∃ changed state', ingestStableBlocksIntoUtxoset state slices = .ok (changed, state') ∧
      Fed g fed state' := by
  rcases ingestStableBlocksIntoUtxoset_cases h.ingestingRoot slices with
    ⟨state', ⟨changed, hcall⟩, hroot', hstable', -, ⟨p, hp, hh⟩, -⟩ | ⟨hsome, -, hpeek, -⟩
  · obtain ⟨b, l, hdrop, htree⟩ := h.unstable
    have hp' := hp
    rw [htree] at hp'
    obtain ⟨b', l', hd, htree'⟩ := get?_chainTree hp'
    exact ⟨changed, state', hcall, hroot', hstable' h.ingestingStable, h.wellLinked.of_get? hp,
      b', l', by rw [hh, ← List.drop_drop, hdrop, hd], htree'⟩
  · obtain ⟨p, hp⟩ := Option.isSome_iff_exists.mp hsome
    have := h.ingestingStable p hp
    rw [hpeek] at this
    cases this

/-- **One ingestion of a chain that just grew.** From a chain tree with no paused ingestion and
at most `max k 1` blocks after its root, a call whose ingestor ends the first block it is given
ingests the root exactly when `max k 1` blocks follow it, and nothing otherwise. The `u32` depth
of the root's child must not wrap. -/
theorem ingestStableBlocksIntoUtxoset_chainTree {state state' : State Block} {b : Block}
    {l : List Block} {slices : List IngestionSlice} {changed : Bool}
    (hI : state.utxos.ingestingBlock = none) (htree : state.unstableBlocks.tree = chainTree b l)
    (hl : l.length ≤ max state.unstableBlocks.stabilityThreshold 1) (hb : l.length ≤ 2 ^ 32)
    (hslices : slices.head? = some .done)
    (h : ingestStableBlocksIntoUtxoset state slices = .ok (changed, state')) :
    state'.utxos = ⟨state.utxos.nextHeight +
        (l.length + 1 - max state.unstableBlocks.stabilityThreshold 1), none⟩ ∧
      state'.unstableBlocks.stabilityThreshold = state.unstableBlocks.stabilityThreshold := by
  obtain ⟨rest, rfl⟩ : ∃ rest, slices = .done :: rest := by
    cases slices <;> cases hslices; exact ⟨_, rfl⟩
  have hub : state.unstableBlocks = ⟨state.unstableBlocks.stabilityThreshold, chainTree b l⟩ := by
    rw [← htree]
  rw [ingestStableBlocksIntoUtxoset_of_idle hI] at h
  by_cases hs : max state.unstableBlocks.stabilityThreshold 1 ≤ l.length
  · -- The root is stable towards the rest of the chain, which is not: one block is ingested.
    obtain ⟨b', l', rfl⟩ := List.exists_cons_of_ne_nil (by rintro rfl; simp at hs : l ≠ [])
    simp only [List.length_cons] at hs hl hb
    have h₁ : getStableChild state.unstableBlocks = some (chainTree b' l') := by
      rw [hub, getStableChild_chainTree_cons, if_pos (by rw [Nat.mod_eq_of_lt (by omega)]; omega)]
    rw [ingestLoop_of_done h₁, ingestLoop_of_getStableChild_eq_none _
      (getStableChild_chainTree_eq_none (by omega) (by omega))] at h
    cases h
    refine ⟨?_, rfl⟩
    simp only [List.length_cons, UtxoSet.mk.injEq, and_true]
    omega
  · -- The root is not stable: nothing is ingested.
    rw [ingestLoop_of_getStableChild_eq_none _
      (hub ▸ getStableChild_chainTree_eq_none (by omega) hb)] at h
    cases h
    refine ⟨?_, rfl⟩
    rw [show l.length + 1 - max state.unstableBlocks.stabilityThreshold 1 = 0 by omega,
      Nat.add_zero, ← hI]

/-- **A round of the loop when the ingestor ends the first block it is given.** If the stable
height was the number of blocks fed less `max k 1`, with no ingestion paused, then after an
insert of the next block of the chain and an ingestion it is again, one block later. -/
theorem utxos_of_round {k : Nat} {slices : List IngestionSlice} {changed : Bool}
    {state₁ state₂ : State Block} (hsize : fed.length + 2 ≤ 2 ^ 32 - 1)
    (hdone : slices.head? = some .done) (hu : state.utxos = ⟨fed.length + 1 - max k 1, none⟩)
    (hk : state.unstableBlocks.stabilityThreshold = k)
    (hins : State.insertBlock validateHeader state c = .ok (.ok (), state₁))
    (h₁ : Fed g (fed ++ [c]) state₁)
    (hing : ingestStableBlocksIntoUtxoset state₁ slices = .ok (changed, state₂)) :
    state₂.utxos = ⟨(fed ++ [c]).length + 1 - max k 1, none⟩ ∧
      state₂.unstableBlocks.stabilityThreshold = k := by
  obtain ⟨_, _, hins', hu₁, hk₁, -⟩ := insertBlock_ok validateHeader state c
  cases hins.symm.trans hins'
  obtain ⟨b, l, hdrop, htree⟩ := h₁.unstable
  -- The blocks after the root are those fed since the stable height.
  have hl : fed.length + 1 + 1 - state₁.stableHeight = l.length + 1 := by
    simpa using congrArg List.length hdrop
  simp only [stableHeight, hu₁, hu] at hl
  obtain ⟨hu₂, hk₂⟩ := ingestStableBlocksIntoUtxoset_chainTree (by simp [hu₁, hu]) htree
    (by rw [hk₁, hk]; omega) (by omega) hdone hing
  rw [hk₁, hk, hu₁, hu] at hu₂
  refine ⟨by rw [hu₂]; simp only [List.length_append, List.length_singleton, UtxoSet.mk.injEq,
    and_true]; omega, by rw [hk₂, hk₁, hk]⟩

/-! ## The loop -/

/-- The loop keeps `Fed` over the rest of a hash-linked chain with distinct hashes that the
validator accepts, as long as the tree stays below `2 ^ 32` blocks: it never panics. It also
keeps any property `Q` of the blocks fed and the state that each round of it keeps. -/
theorem serializeDeserializeStateLoop_fed (Q : List Block → State Block → Prop) :
    ∀ (feed : List (Block × List IngestionSlice)) (fed : List Block) (state : State Block),
    Fed g fed state → Q fed state →
    (∀ c slices fed state state₁ changed state₂, (c, slices) ∈ feed →
      fed.length + 2 ≤ 2 ^ 32 - 1 → Q fed state →
      State.insertBlock validateHeader state c = .ok (.ok (), state₁) →
      Fed g (fed ++ [c]) state₁ →
      ingestStableBlocksIntoUtxoset state₁ slices = .ok (changed, state₂) →
      Q (fed ++ [c]) state₂) →
    HashLinked (g :: fed ++ feed.map Prod.fst) →
    ((g :: fed ++ feed.map Prod.fst).map blockHash).Nodup →
    (∀ ctx, ∀ x ∈ feed, validateHeader ctx x.1 = .ok ()) →
    fed.length + feed.length + 1 ≤ 2 ^ 32 - 1 →
    ∃ state', serializeDeserializeStateLoop validateHeader state feed = .ok state' ∧
      Fed g (fed ++ feed.map Prod.fst) state' ∧ Q (fed ++ feed.map Prod.fst) state'
  | [], _, state, h, hq, _, _, _, _, _ => ⟨state, rfl, by simpa using h, by simpa using hq⟩
  | (c, slices) :: feed, fed, state, h, hq, hQ, hlinked, hnodup, hvalid, hsize => by
    have hlinked' : HashLinked ((g :: fed ++ [c]) ++ feed.map Prod.fst) := by simpa using hlinked
    have hnodup' : (((g :: fed ++ [c]) ++ feed.map Prod.fst).map blockHash).Nodup := by
      simpa using hnodup
    have hsize' : fed.length + 2 ≤ 2 ^ 32 - 1 := by simp at hsize; omega
    obtain ⟨s₁, hins, h₁⟩ := h.insertBlock hlinked'.of_append
      (by rw [List.map_append] at hnodup'; exact hnodup'.of_append_left)
      (fun ctx => hvalid ctx _ (List.mem_cons_self _ _)) hsize'
    obtain ⟨_, s₂, hing, h₂⟩ := h₁.ingest slices
    obtain ⟨s₃, hrun, h₃, hq₃⟩ := serializeDeserializeStateLoop_fed Q feed (fed ++ [c]) s₂ h₂
      (hQ c slices fed state s₁ _ s₂ (List.mem_cons_self _ _) hsize' hq hins h₁ hing)
      (fun c slices _ _ _ _ _ hx => hQ c slices _ _ _ _ _ (List.mem_cons_of_mem _ hx))
      (by simpa using hlinked) (by simpa using hnodup)
      (fun ctx x hx => hvalid ctx x (List.mem_cons_of_mem _ hx)) (by simp at hsize ⊢; omega)
    exact ⟨s₃, by simp [serializeDeserializeStateLoop, hins, unwrapInsert, hing, hrun],
      by simpa using h₃, by simpa using hq₃⟩

/-- The chain `G`, `A`, `B` of the runs below is hash-linked, with distinct hashes. -/
theorem hashLinked_three : HashLinked ([⟨1, 0⟩, ⟨2, 1⟩, ⟨3, 2⟩] : List HeaderStub) ∧
    (([⟨1, 0⟩, ⟨2, 1⟩, ⟨3, 2⟩] : List HeaderStub).map blockHash).Nodup :=
  ⟨hashLinked_cons_cons.mpr ⟨rfl, hashLinked_cons_cons.mpr ⟨rfl, fun _ hi => by simp at hi⟩⟩,
    by decide⟩

/-- **Feeding a chain block by block never panics and loses no block.** Take any stability
threshold, a genesis block `g` and the blocks after it, each with the ingestor's answers for the
ingestion that follows its insert. If the chain is hash-linked, no two of its blocks share a
hash, it has fewer than `2 ^ 32` blocks, and the validator accepts its blocks, then the loop of
`serialize_deserialize_state` returns: no `unwrap` of `insert_block` and no `pop_block` panics.
At the end the chain, from the stable height on, is exactly the unstable tree, as a chain tree:
the blocks below the stable height were ingested in order, and the others are all unstable. -/
theorem serializeDeserializeStateLoop_chain
    (validateHeader : ValidationContext Block → Block → Except InsertBlockError Unit)
    (k : Nat) (g : Block) (feed : List (Block × List IngestionSlice))
    (hlinked : HashLinked (g :: feed.map Prod.fst))
    (hnodup : ((g :: feed.map Prod.fst).map blockHash).Nodup)
    (hvalid : ∀ ctx, ∀ x ∈ feed, validateHeader ctx x.1 = .ok ())
    (hlen : feed.length < 2 ^ 32 - 1) :
    ∃ state', serializeDeserializeStateLoop validateHeader (new k g) feed = .ok state' ∧
      ∃ b l, (g :: feed.map Prod.fst).drop state'.stableHeight = b :: l ∧
        state'.unstableBlocks.tree = chainTree b l := by
  obtain ⟨state', h, hfed, -⟩ := serializeDeserializeStateLoop_fed (fun _ _ => True) feed []
    (new k g) (fed_new k g) trivial (by intros; trivial) (by simpa using hlinked)
    (by simpa using hnodup) hvalid (by simp; omega)
  exact ⟨state', h, by simpa using hfed.unstable⟩

/-- The run of `run_ok_of_insertsOnStableSide_on_top` as the test's loop: with threshold 1,
`A` on top of `G` and `B` on top of `A`, and an ingestion of `G` that pauses before `B` is
inserted, the loop returns with `A` ingested and `B` unstable. -/
theorem serializeDeserializeStateLoop_chain_three :
    HashLinked ([⟨1, 0⟩, ⟨2, 1⟩, ⟨3, 2⟩] : List HeaderStub) ∧
    (([⟨1, 0⟩, ⟨2, 1⟩, ⟨3, 2⟩] : List HeaderStub).map blockHash).Nodup ∧
    ∃ state', serializeDeserializeStateLoop (fun _ _ => .ok ()) (new 1 (⟨1, 0⟩ : HeaderStub))
        [(⟨2, 1⟩, [.paused 0]), (⟨3, 2⟩, [.done])] = .ok state' ∧
      ∃ b l, ([⟨1, 0⟩, ⟨2, 1⟩, ⟨3, 2⟩] : List HeaderStub).drop state'.stableHeight = b :: l ∧
        state'.unstableBlocks.tree = chainTree b l := by
  obtain ⟨hlinked, hnodup⟩ := hashLinked_three
  exact ⟨hlinked, hnodup, serializeDeserializeStateLoop_chain (fun _ _ => .ok ()) 1 ⟨1, 0⟩
    [(⟨2, 1⟩, [.paused 0]), (⟨3, 2⟩, [.done])] hlinked hnodup (fun _ _ _ => rfl) (by decide)⟩

/-- **With an ingestor that ends the first block it is given, the loop ingests exactly the
blocks with enough confirmations.** Take the loop of `serialize_deserialize_state` over a chain
as in `serializeDeserializeStateLoop_chain`, and let the first answer of every ingestion end its
block. Then the loop returns with no ingestion paused and with the stable height at the number of
blocks of the chain less `max k 1`, and the unstable tree is the chain from there on: its last
`max k 1` blocks, or all of them when the chain is shorter. The `max` is there because the tip is
never stable: a root is stable only towards a child. -/
theorem serializeDeserializeStateLoop_ingests
    (validateHeader : ValidationContext Block → Block → Except InsertBlockError Unit)
    (k : Nat) (g : Block) (feed : List (Block × List IngestionSlice))
    (hlinked : HashLinked (g :: feed.map Prod.fst))
    (hnodup : ((g :: feed.map Prod.fst).map blockHash).Nodup)
    (hvalid : ∀ ctx, ∀ x ∈ feed, validateHeader ctx x.1 = .ok ())
    (hlen : feed.length < 2 ^ 32 - 1) (hdone : ∀ x ∈ feed, x.2.head? = some .done) :
    ∃ state', serializeDeserializeStateLoop validateHeader (new k g) feed = .ok state' ∧
      state'.utxos = ⟨feed.length + 1 - max k 1, none⟩ ∧
      ∃ b l, (g :: feed.map Prod.fst).drop (feed.length + 1 - max k 1) = b :: l ∧
        state'.unstableBlocks.tree = chainTree b l := by
  obtain ⟨state', h, hfed, hutxos, -⟩ := serializeDeserializeStateLoop_fed
    (fun fed state => state.utxos = ⟨fed.length + 1 - max k 1, none⟩ ∧
      state.unstableBlocks.stabilityThreshold = k) feed [] (new k g) (fed_new k g)
    ⟨by simp [new, UtxoSet.new], rfl⟩
    (fun _ _ _ _ _ _ _ hx hsize ⟨hu, hk⟩ hins h₁ hing => utxos_of_round hsize (hdone _ hx) hu hk
      hins h₁ hing)
    (by simpa using hlinked) (by simpa using hnodup) hvalid (by simp; omega)
  refine ⟨state', h, by simpa using hutxos, ?_⟩
  obtain ⟨b, l, hdrop, htree⟩ := hfed.unstable
  exact ⟨b, l, by simpa [stableHeight, hutxos] using hdrop, htree⟩

/-- The chain `G`, `A`, `B` fed with threshold 1 to an ingestor that ends every block: `G` and
`A` are ingested, and `B`, the tip, is the unstable tree. -/
theorem serializeDeserializeStateLoop_ingests_three :
    HashLinked ([⟨1, 0⟩, ⟨2, 1⟩, ⟨3, 2⟩] : List HeaderStub) ∧
    (([⟨1, 0⟩, ⟨2, 1⟩, ⟨3, 2⟩] : List HeaderStub).map blockHash).Nodup ∧
    ∃ state', serializeDeserializeStateLoop (fun _ _ => .ok ()) (new 1 (⟨1, 0⟩ : HeaderStub))
        [(⟨2, 1⟩, [.done]), (⟨3, 2⟩, [.done])] = .ok state' ∧
      state'.utxos = ⟨2 + 1 - max 1 1, none⟩ ∧
      ∃ b l, ([⟨1, 0⟩, ⟨2, 1⟩, ⟨3, 2⟩] : List HeaderStub).drop (2 + 1 - max 1 1) = b :: l ∧
        state'.unstableBlocks.tree = chainTree b l := by
  obtain ⟨hlinked, hnodup⟩ := hashLinked_three
  exact ⟨hlinked, hnodup, serializeDeserializeStateLoop_ingests (fun _ _ => .ok ()) 1 ⟨1, 0⟩
    [(⟨2, 1⟩, [.done]), (⟨3, 2⟩, [.done])] hlinked hnodup (fun _ _ _ => rfl) (by decide)
    (by decide)⟩

end State

end BitcoinCanister
