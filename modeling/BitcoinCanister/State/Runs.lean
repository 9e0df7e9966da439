import BitcoinCanister.State.Calls
import BitcoinCanister.Blocktree.Runs

/-! # Runs of the canister state

A run is any list of calls of `insert_block` and `ingest_stable_blocks_into_utxoset`, with any
answers of the time-sliced ingestor, from `State::new` or from any state whose paused ingestion,
if any, is of the root of the unstable blocks. By induction over the calls, from `step_cases`:

* `run_eq_error`: a run can panic only in the `unwrap` of `pop_block`, at a call that resumes a
  paused ingestion, with an answer that ends the block, while the root is no longer stable.
  `insert_block` never panics, and the `assert_eq` of `pop_block` never fails.
* `run_ok_of_insertsWhileIdle`: a run that inserts blocks only while no ingestion is paused
  never panics.
* `run_inv`: every state a run reaches has its paused ingestion, if any, of the root, and keeps
  any property that every call keeps from such a state; `State.Headers` uses it for the header
  store.
* `run_panics_of_fork_while_paused`: a block inserted while an ingestion is paused can make the
  root unstable. With threshold 1, the genesis block `G` becomes stable once it has one child
  `A`. If its ingestion pauses and a second child `C` arrives, `A` and `C` tie, and the
  ingestion that then ends finds `pop` returning `None`. -/

namespace BitcoinCanister

variable {Block BlockHash : Type} [HasBlockHash Block BlockHash]

namespace State

open Blocktree BlockTree UnstableBlocks

variable [DecidableEq BlockHash] [DecidableEq Block]
  {validateHeader : ValidationContext Block → Block → Except InsertBlockError Unit}

/-! ## How a run can panic -/

/-- The run calls `insert_block` only while no ingestion is paused. -/
def InsertsWhileIdle
    (validateHeader : ValidationContext Block → Block → Except InsertBlockError Unit) :
    State Block → List (Event Block) → Prop
  | _, [] => True
  | state, event :: events =>
    (∀ block, event = .insertBlock block → state.utxos.ingestingBlock = none) ∧
      ∀ state', step validateHeader state event = .ok state' →
        InsertsWhileIdle validateHeader state' events

/-- A run that panics does so at a call of `ingest_stable_blocks_into_utxoset` that resumes a
paused ingestion whose root is no longer stable, with an answer that ends the block. -/
theorem run_eq_error_cases : ∀ (events : List (Event Block)) (state : State Block) (e : Panic),
    IngestingRoot state → run validateHeader state events = .error e →
    e = ⟨"called `Option::unwrap()` on a `None` value"⟩ ∧
      ∃ pre slices post state', events = pre ++ .ingestStableBlocksIntoUtxoset slices :: post ∧
        run validateHeader state pre = .ok state' ∧ state'.utxos.ingestingBlock.isSome ∧
        slices.head? = some .done ∧ peek state'.unstableBlocks = none
  | [], _, _, _, h => by cases h
  | event :: events, state, e, hroot, h => by
    rcases step_cases validateHeader hroot event with
      ⟨state', hstep, hroot', -⟩ | ⟨slices, rfl, hsome, hhead, hpeek, hstep⟩
    · rw [run, hstep, ok_bind] at h
      obtain ⟨rfl, pre, slices, post, s, rfl, hpre, hrest⟩ :=
        run_eq_error_cases events state' e hroot' h
      exact ⟨rfl, event :: pre, slices, post, s, rfl, by rw [run, hstep, ok_bind, hpre], hrest⟩
    · rw [run, hstep, error_bind] at h
      cases h
      exact ⟨rfl, [], slices, events, state, rfl, rfl, hsome, hhead, hpeek⟩

/-- A run that inserts blocks only while no ingestion is paused never panics: a paused root
stays stable until its ingestion resumes. -/
theorem run_ok_of_idle : ∀ (events : List (Event Block)) (state : State Block),
    IngestingRoot state → IngestingStable state → InsertsWhileIdle validateHeader state events →
    ∃ state', run validateHeader state events = .ok state'
  | [], state, _, _, _ => ⟨state, rfl⟩
  | event :: events, state, hroot, hstable, ⟨hidle, hrest⟩ => by
    rcases step_cases validateHeader hroot event with
      ⟨state', hstep, hroot', hstable', -⟩ | ⟨slices, rfl, hsome, -, hpeek, -⟩
    · obtain ⟨s, hs⟩ := run_ok_of_idle events state' hroot' (hstable' hstable hidle)
        (hrest state' hstep)
      exact ⟨s, by rw [run, hstep, ok_bind, hs]⟩
    · obtain ⟨p, hp⟩ := Option.isSome_iff_exists.mp hsome
      have hstable := hstable p hp
      rw [hpeek] at hstable
      cases hstable

/-! ## Runs from `State::new` -/

/-- **How a run from `State::new` can panic.** Whatever the header validator, the threshold,
the genesis block, the calls and the ingestor's answers, a run that panics does so in the
`unwrap` of `pop_block`. The panicking call is an `ingest_stable_blocks_into_utxoset` that
resumes a paused ingestion, with an answer that ends the block, while the root is no longer
stable. In particular `insert_block` never panics, and the `assert_eq` of `pop_block` never
fails. -/
theorem run_eq_error
    (validateHeader : ValidationContext Block → Block → Except InsertBlockError Unit)
    (k : Nat) (genesis : Block) (events : List (Event Block)) (e : Panic)
    (h : run validateHeader (new k genesis) events = .error e) :
    e = ⟨"called `Option::unwrap()` on a `None` value"⟩ ∧
      ∃ pre slices post state', events = pre ++ .ingestStableBlocksIntoUtxoset slices :: post ∧
        run validateHeader (new k genesis) pre = .ok state' ∧
        state'.utxos.ingestingBlock.isSome ∧ slices.head? = some .done ∧
        peek state'.unstableBlocks = none :=
  run_eq_error_cases events _ e (ingestingRoot_new k genesis) h

/-- **Inserting only while idle is safe.** A run from `State::new` that calls `insert_block`
only while no ingestion is paused never panics, whatever the validator and the ingestor's
answers. -/
theorem run_ok_of_insertsWhileIdle
    (validateHeader : ValidationContext Block → Block → Except InsertBlockError Unit)
    (k : Nat) (genesis : Block) (events : List (Event Block))
    (hidle : InsertsWhileIdle validateHeader (new k genesis) events) :
    ∃ state', run validateHeader (new k genesis) events = .ok state' :=
  run_ok_of_idle events _ (ingestingRoot_new k genesis) (ingestingStable_new k genesis) hidle

/-- **Run induction.** From a state whose paused ingestion, if any, is of the root, a run that
returns reaches a state where this still holds. A property of states that every call that
returns keeps, from a state whose paused ingestion is of the root, holds there too. -/
theorem run_inv (P : State Block → Prop)
    (hP : ∀ state event state', IngestingRoot state → P state →
      step validateHeader state event = .ok state' → P state') :
    ∀ (events : List (Event Block)) (state state' : State Block), IngestingRoot state → P state →
      run validateHeader state events = .ok state' → IngestingRoot state' ∧ P state'
  | [], _, _, hroot, h, hrun => by cases hrun; exact ⟨hroot, h⟩
  | event :: events, state, state', hroot, h, hrun => by
    rcases step_cases validateHeader hroot event with
      ⟨s, hstep, hroot', -⟩ | ⟨_, -, -, -, -, hstep⟩
    · rw [run, hstep, ok_bind] at hrun
      exact run_inv P hP events s state' hroot' (hP state event s hroot h hstep) hrun
    · rw [run, hstep, error_bind] at hrun
      cases hrun

omit [DecidableEq Block] in
/-- A call that adds a block with `extend`, or makes the tree descend, keeps the tree linked. -/
theorem Moves.wellLinked {state state' : State Block} (hm : Moves state state')
    (h : WellLinked state.unstableBlocks.tree) : WellLinked state'.unstableBlocks.tree := by
  rcases hm with ⟨_, _, he, -⟩ | ⟨_, hp, -⟩
  exacts [h.of_extend he, h.of_get? hp]

end State

/-! ## A fork while an ingestion is paused -/

namespace State

open Blocktree

/-- **A fork block inserted while an ingestion is paused makes `pop_block` panic.** Take
threshold 1, genesis `G` (hash 1), and its children `A` (hash 2) and `C` (hash 3), with any
header validator that accepts `A` and `C` on top of `G`. Insert `A`: `G` is stable. The
ingestion of `G` pauses. Insert `C`: `A` and `C` tie, so `G` is no longer stable. The ingestion
of `G` then ends, `pop` returns `None`, and the `unwrap` of `pop_block` panics. -/
theorem run_panics_of_fork_while_paused
    (validateHeader : ValidationContext HeaderStub → HeaderStub → Except InsertBlockError Unit)
    (hA : validateHeader ⟨⟨⟨1, 0⟩, []⟩⟩ ⟨2, 1⟩ = .ok ())
    (hC : validateHeader ⟨⟨⟨1, 0⟩, []⟩⟩ ⟨3, 1⟩ = .ok ()) :
    run validateHeader (new 1 ⟨1, 0⟩)
      [.insertBlock ⟨2, 1⟩, .ingestStableBlocksIntoUtxoset [.paused 0], .insertBlock ⟨3, 1⟩,
        .ingestStableBlocksIntoUtxoset [.done]] =
      .error ⟨"called `Option::unwrap()` on a `None` value"⟩ := by
  -- `A` becomes the only child of `G`, which is then stable.
  let withA : State HeaderStub := ⟨⟨0, none⟩, ⟨1, ⟨⟨1, 0⟩, [.new ⟨2, 1⟩]⟩⟩, .init⟩
  have h1 : insertBlock validateHeader (new 1 ⟨1, 0⟩) ⟨2, 1⟩ = .ok (.ok (), withA) :=
    insertBlock_of_extend rfl hA rfl
  -- The header of `G` is stored, and its ingestion pauses.
  let paused : State HeaderStub :=
    ⟨⟨0, some ⟨⟨1, 0⟩, 0⟩⟩, withA.unstableBlocks, BlockHeaderStore.init.insertBlock ⟨1, 0⟩ 0⟩
  have h2 : ingestStableBlocksIntoUtxoset withA [.paused 0] = .ok (true, paused) := rfl
  -- `C`, a second child of `G`, ties with `A`, so `G` is no longer stable.
  let withC : State HeaderStub :=
    ⟨paused.utxos, ⟨1, ⟨⟨1, 0⟩, [.new ⟨2, 1⟩, .new ⟨3, 1⟩]⟩⟩, paused.stableBlockHeaders⟩
  have h3 : insertBlock validateHeader paused ⟨3, 1⟩ = .ok (.ok (), withC) :=
    insertBlock_of_extend rfl hC rfl
  -- The ingestion of `G` ends, and `pop` returns `None`.
  have h4 : ingestStableBlocksIntoUtxoset withC [.done] =
      .error ⟨"called `Option::unwrap()` on a `None` value"⟩ := rfl
  simp only [run, step, h1, h2, h3, h4, pure_eq_ok, ok_bind, error_bind]

/-- The failing run with a validator that accepts every header. -/
theorem run_panics_of_fork_while_paused_accepting_all :
    run (fun _ _ => .ok ()) (new 1 (⟨1, 0⟩ : HeaderStub))
      [.insertBlock ⟨2, 1⟩, .ingestStableBlocksIntoUtxoset [.paused 0], .insertBlock ⟨3, 1⟩,
        .ingestStableBlocksIntoUtxoset [.done]] =
      .error ⟨"called `Option::unwrap()` on a `None` value"⟩ :=
  run_panics_of_fork_while_paused _ rfl rfl

/-- `run_eq_error` on the failing run: the panic is at its last call. -/
theorem run_eq_error_at_fork :
    run (fun _ _ => .ok ()) (new 1 (⟨1, 0⟩ : HeaderStub))
      [.insertBlock ⟨2, 1⟩, .ingestStableBlocksIntoUtxoset [.paused 0], .insertBlock ⟨3, 1⟩,
        .ingestStableBlocksIntoUtxoset [.done]] =
      .error ⟨"called `Option::unwrap()` on a `None` value"⟩ ∧
    (⟨"called `Option::unwrap()` on a `None` value"⟩ : Panic) =
      ⟨"called `Option::unwrap()` on a `None` value"⟩ ∧
      ∃ (pre : List (Event HeaderStub)) (slices : List IngestionSlice)
        (post : List (Event HeaderStub)) (state' : State HeaderStub),
        [.insertBlock ⟨2, 1⟩, .ingestStableBlocksIntoUtxoset [.paused 0], .insertBlock ⟨3, 1⟩,
          .ingestStableBlocksIntoUtxoset [.done]] =
          pre ++ Event.ingestStableBlocksIntoUtxoset slices :: post ∧
        run (fun _ _ => .ok ()) (new 1 ⟨1, 0⟩) pre = .ok state' ∧
        state'.utxos.ingestingBlock.isSome ∧ slices.head? = some .done ∧
        UnstableBlocks.peek state'.unstableBlocks = none :=
  ⟨rfl, run_eq_error (fun _ _ => .ok ()) 1 (⟨1, 0⟩ : HeaderStub) _ _ rfl⟩

/-- A run that inserts `A`, then ingests `G` in one slice, inserts only while idle. -/
theorem run_ok_of_insertsWhileIdle_chain :
    InsertsWhileIdle (fun _ _ => .ok ()) (new 1 (⟨1, 0⟩ : HeaderStub))
      [.insertBlock ⟨2, 1⟩, .ingestStableBlocksIntoUtxoset [.done]] ∧
    ∃ state', run (fun _ _ => .ok ()) (new 1 (⟨1, 0⟩ : HeaderStub))
      [.insertBlock ⟨2, 1⟩, .ingestStableBlocksIntoUtxoset [.done]] = .ok state' := by
  have hidle : InsertsWhileIdle (fun _ _ => .ok ()) (new 1 (⟨1, 0⟩ : HeaderStub))
      [.insertBlock ⟨2, 1⟩, .ingestStableBlocksIntoUtxoset [.done]] := by
    simp [InsertsWhileIdle, new, UtxoSet.new]
  exact ⟨hidle, run_ok_of_insertsWhileIdle _ 1 _ _ hidle⟩

end State

end BitcoinCanister
