import BitcoinCanister.State.Runs
import BitcoinCanister.UnstableBlocks.Stability
import BitcoinCanister.Blocktree.Growth

/-! # Runs that fork only on the stable side

`pop_block` panics only when an ingestion resumes after its root stopped being stable
(`run_eq_error`), and only an insert made while the ingestion was paused can end that stability:
a fork beside the stable child, as in `run_panics_of_fork_while_paused`. An insert below the
stable child leaves the root stable (`getStableChild_of_extend`). So a run whose inserts made
while an ingestion is paused all extend the stable child's subtree never panics, whatever the
validator and the ingestor's answers, as long as the tree stays below the `u32` limit of `depth`.

* `Moves.size_le`: a call adds at most one block to the unstable tree;
* `ingestingStable_of_insertBlock`: an insert below the stable child keeps a paused root
  stable;
* `run_ok_of_stableSide`, `run_ok_of_insertsOnStableSide`: such runs never panic. -/

namespace BitcoinCanister

variable {Block BlockHash : Type} [HasBlockHash Block BlockHash]

namespace State

open Blocktree BlockTree UnstableBlocks

variable [DecidableEq BlockHash] [DecidableEq Block]
  {validateHeader : ValidationContext Block → Block → Except InsertBlockError Unit}
  {state state' : State Block}

omit [DecidableEq Block] in
/-- A call adds at most one block to the unstable tree: `extend` adds at most one, and a descent
keeps a subtree. -/
theorem Moves.size_le (hm : Moves state state') :
    state'.unstableBlocks.tree.size ≤ state.unstableBlocks.tree.size + 1 := by
  rcases hm with ⟨_, _, he, -⟩ | ⟨_, hp, -⟩
  exacts [size_of_extend he, Nat.le_succ_of_le (size_le_of_get? hp)]

/-- A call of `insert_block` that returns is an insert. -/
theorem insertBlock_of_step {block : Block}
    (h : step validateHeader state (.insertBlock block) = .ok state') :
    ∃ r, insertBlock validateHeader state block = .ok (r, state') := by
  obtain ⟨⟨r, s⟩, hins, hs⟩ := bind_eq_ok.mp h
  cases hs
  exact ⟨r, hins⟩

omit [DecidableEq Block] in
/-- **An insert below the stable child keeps a paused root stable.** Take a state whose tree is
linked with unique hashes and whose paused ingestion, if any, is of a stable root. Insert a
block whose parent, while an ingestion is paused, is in the subtree of the stable child. If the
tree then has fewer than `2 ^ 32` blocks, the paused root is still stable. -/
theorem ingestingStable_of_insertBlock {block : Block} {r : Except InsertBlockError Unit}
    (hwl : WellLinked state.unstableBlocks.tree) (hstable : IngestingStable state)
    (hside : state.utxos.ingestingBlock.isSome → ∃ c, getStableChild state.unstableBlocks = some c ∧
      ∃ q, HasHashAt c.get? (prevBlockhash block) q)
    (hsize : state'.unstableBlocks.tree.size ≤ 2 ^ 32 - 1)
    (h : insertBlock validateHeader state block = .ok (r, state')) : IngestingStable state' := by
  obtain ⟨r', s, h', hutxos, hk, hcase, -⟩ := insertBlock_ok validateHeader state block
  cases h.symm.trans h'
  intro p hp
  rw [hutxos] at hp
  rcases hcase with ⟨-, he⟩ | rfl
  · obtain ⟨c, hc, hq⟩ := hside (by simp [hp])
    obtain ⟨⟨n, i⟩, ⟨k', t'⟩, store⟩ := state'
    cases hk
    simpa [peek] using getStableChild_of_extend hwl hc hq he hsize
  · exact hstable p hp

/-- While an ingestion is paused, the run inserts only blocks whose parent is in the subtree of
the root's stable child: it makes no fork beside the block the root is stable towards. -/
def InsertsOnStableSide
    (validateHeader : ValidationContext Block → Block → Except InsertBlockError Unit) :
    State Block → List (Event Block) → Prop
  | _, [] => True
  | state, event :: events =>
    (∀ block, event = .insertBlock block → state.utxos.ingestingBlock.isSome →
      ∃ c, getStableChild state.unstableBlocks = some c ∧
        ∃ q, HasHashAt c.get? (prevBlockhash block) q) ∧
      ∀ state', step validateHeader state event = .ok state' →
        InsertsOnStableSide validateHeader state' events

/-- A run that inserts, while an ingestion is paused, only below the stable child never panics,
from a state whose paused ingestion, if any, is of a stable root, whose tree is linked with unique
hashes, and whose tree has so few blocks that, with one more per call, it stays below `2 ^ 32`. -/
theorem run_ok_of_stableSide : ∀ (events : List (Event Block)) (state : State Block),
    IngestingRoot state → IngestingStable state → WellLinked state.unstableBlocks.tree →
    state.unstableBlocks.tree.size + events.length ≤ 2 ^ 32 - 1 →
    InsertsOnStableSide validateHeader state events →
    ∃ state', run validateHeader state events = .ok state'
  | [], state, _, _, _, _, _ => ⟨state, rfl⟩
  | event :: events, state, hroot, hstable, hwl, hsize, ⟨hside, hrest⟩ => by
    rcases step_cases validateHeader hroot event with
      ⟨state', hstep, hroot', hstable', hm⟩ | ⟨slices, rfl, hsome, -, hpeek, -⟩
    · have hsize' : state'.unstableBlocks.tree.size + events.length ≤ 2 ^ 32 - 1 := by
        have := hm.size_le
        simp only [List.length_cons] at hsize
        omega
      have hstable'' : IngestingStable state' := by
        cases event with
        | insertBlock block =>
          obtain ⟨r, h⟩ := insertBlock_of_step hstep
          exact ingestingStable_of_insertBlock hwl hstable (hside block rfl) (by omega) h
        | ingestStableBlocksIntoUtxoset _ => exact hstable' hstable fun _ h => by cases h
      obtain ⟨s, hs⟩ := run_ok_of_stableSide events state' hroot' hstable'' (hm.wellLinked hwl)
        hsize' (hrest state' hstep)
      exact ⟨s, by rw [run, hstep, ok_bind, hs]⟩
    · obtain ⟨p, hp⟩ := Option.isSome_iff_exists.mp hsome
      have hstable := hstable p hp
      rw [hpeek] at hstable
      cases hstable

/-- **Forks on the stable side never make `pop_block` panic.** Whatever the header validator,
the threshold, the genesis block and the ingestor's answers, a run from `State::new` of fewer
than `2 ^ 32 - 1` calls never panics if every block it inserts while an ingestion is paused has
its parent in the subtree of the child the root is stable towards. The panic of
`run_panics_of_fork_while_paused` needs a fork beside the stable child while an ingestion is
paused. -/
theorem run_ok_of_insertsOnStableSide
    (validateHeader : ValidationContext Block → Block → Except InsertBlockError Unit)
    (k : Nat) (genesis : Block) (events : List (Event Block)) (hlen : events.length < 2 ^ 32 - 1)
    (hside : InsertsOnStableSide validateHeader (new k genesis) events) :
    ∃ state', run validateHeader (new k genesis) events = .ok state' :=
  run_ok_of_stableSide events _ (ingestingRoot_new k genesis) (ingestingStable_new k genesis)
    (wellLinked_new genesis) (show 1 + events.length ≤ _ by omega) hside

/-- The failing run of `run_panics_of_fork_while_paused` with the second block `⟨3, 2⟩` put on
top of `A` instead of beside it: the paused root `G` stays stable, and the run returns. -/
theorem run_ok_of_insertsOnStableSide_on_top :
    ([.insertBlock ⟨2, 1⟩, .ingestStableBlocksIntoUtxoset [.paused 0], .insertBlock ⟨3, 2⟩,
        .ingestStableBlocksIntoUtxoset [.done]] : List (Event HeaderStub)).length < 2 ^ 32 - 1 ∧
    InsertsOnStableSide (fun _ _ => .ok ()) (new 1 (⟨1, 0⟩ : HeaderStub))
      [.insertBlock ⟨2, 1⟩, .ingestStableBlocksIntoUtxoset [.paused 0], .insertBlock ⟨3, 2⟩,
        .ingestStableBlocksIntoUtxoset [.done]] ∧
    ∃ state', run (fun _ _ => .ok ()) (new 1 (⟨1, 0⟩ : HeaderStub))
      [.insertBlock ⟨2, 1⟩, .ingestStableBlocksIntoUtxoset [.paused 0], .insertBlock ⟨3, 2⟩,
        .ingestStableBlocksIntoUtxoset [.done]] = .ok state' := by
  have hside : InsertsOnStableSide (fun _ _ => .ok ()) (new 1 (⟨1, 0⟩ : HeaderStub))
      [.insertBlock ⟨2, 1⟩, .ingestStableBlocksIntoUtxoset [.paused 0], .insertBlock ⟨3, 2⟩,
        .ingestStableBlocksIntoUtxoset [.done]] := by
    simp only [InsertsOnStableSide]
    refine ⟨fun _ _ h => (by cases h), fun s₁ h₁ => ?_⟩
    obtain rfl := Except.ok.inj (h₁.symm.trans rfl)
    refine ⟨fun _ h => (by cases h), fun s₂ h₂ => ?_⟩
    obtain rfl := Except.ok.inj (h₂.symm.trans rfl)
    refine ⟨fun _ h _ => ?_, fun s₃ h₃ => ?_⟩
    · cases h
      exact ⟨_, rfl, [], _, rfl, rfl⟩
    obtain rfl := Except.ok.inj (h₃.symm.trans rfl)
    exact ⟨fun _ h => (by cases h), fun _ _ => trivial⟩
  exact ⟨by decide, hside, run_ok_of_insertsOnStableSide _ 1 _ _ (by decide) hside⟩

end State

end BitcoinCanister
