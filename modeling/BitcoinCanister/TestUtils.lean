import BitcoinCanister.Blocktree.Runs

/-! # The chain builders of `test_utils.rs`

A shallow embedding of the chain builders of `src/canister/src/test_utils.rs`, which the
canister's tests use to make their blocks: `build_chain_with_genesis_block` (behind `build_chain`
and `build_regtest_chain`) and `BlockChainBuilder`, and of the map comparison
`is_stable_btreemap_equal`. The builders call `BlockBuilder`, a wrapper around the block builder
of `ic_btc_test_utils`, which is not among the sources. The block builder is a parameter, and
the chains are hash-linked whenever a block built with `with_prev_header(prev.header())` names
`prev` as its parent (`BuildsOnPrev`). The random address and genesis block are parameters too.

* `buildChainWithGenesisBlock_spec`: the loop builds `num_blocks` blocks from the genesis block,
  each on top of the one before, and the coinbase outputs of the `i`-th new block pay the `t`
  values after `i * t`, so across the chain they pay `1, 2, 3, …` in order.
* `extendAll_buildChainWithGenesisBlock`: `extend` accepts every block of such a chain, inserted
  in order into the tree of its genesis block.
* `BlockChainBuilder.build_spec`: `build` never panics and returns `max num_blocks 1` blocks,
  each on top of the one before, the first being the regtest genesis block or a child of the
  fork point.
* `isStableBtreemapEqual_iff`: the map comparison holds exactly of maps with equal entries. -/

namespace BitcoinCanister

namespace TestUtils

open BlockTree

variable {Block BlockHash Transaction : Type} [HasBlockHash Block BlockHash]
  {withPrevHeader : Block → List Transaction → Block}

/-! ## Chains built block on block -/

/-- A block built with `BlockBuilder::with_prev_header(prev.header())` names `prev` as its parent,
whatever transactions it holds. -/
def BuildsOnPrev (withPrevHeader : Block → List Transaction → Block) : Prop :=
  ∀ prev transactions, prevBlockhash (withPrevHeader prev transactions) = blockHash prev

/-- Each block after the first is built on the block before it, the `i`-th new block with the
transactions `txs i`. -/
def BuiltOnPrev (withPrevHeader : Block → List Transaction → Block)
    (txs : Nat → List Transaction) (blocks : List Block) : Prop :=
  ∀ i (hi : i + 1 < blocks.length), blocks[i + 1] = withPrevHeader blocks[i] (txs i)

/-- A chain of one block is built block on block. -/
theorem builtOnPrev_singleton (txs : Nat → List Transaction) (first : Block) :
    BuiltOnPrev withPrevHeader txs [first] :=
  fun i hi => absurd hi (by simp)

/-- Pushing a block built on the last one keeps a chain built block on block. -/
theorem BuiltOnPrev.push {txs : Nat → List Transaction} {blocks : List Block} {last : Block}
    (h : BuiltOnPrev withPrevHeader txs blocks) (hlast : blocks.getLast? = some last) :
    BuiltOnPrev withPrevHeader txs
      (blocks ++ [withPrevHeader last (txs (blocks.length - 1))]) := by
  intro i hi
  simp only [List.length_append, List.length_singleton] at hi
  rcases Nat.lt_or_ge (i + 1) blocks.length with hlt | hge
  · rw [List.getElem_append_left hlt, List.getElem_append_left (by omega), h i hlt]
  · -- The pushed block, on top of the last old one.
    obtain rfl : i = blocks.length - 1 := by omega
    obtain ⟨_, hl⟩ :=
      List.getElem?_eq_some_iff.mp ((List.getLast?_eq_getElem? blocks).symm.trans hlast)
    simp only [List.getElem_append_left (by omega : blocks.length - 1 < blocks.length), hl]
    rw [List.getElem_append_right (by omega)]
    simp

/-- A chain built block on block by a builder that names the previous block as parent is
hash-linked. -/
theorem BuiltOnPrev.hashLinked {txs : Nat → List Transaction} {blocks : List Block}
    (hb : BuildsOnPrev withPrevHeader) (h : BuiltOnPrev withPrevHeader txs blocks) :
    HashLinked blocks :=
  fun i hi => by rw [h i hi, hb]

/-! ## `build_chain_with_genesis_block` -/

/-- The mutable locals of the loop of `build_chain_with_genesis_block`. -/
structure ChainState (Block : Type) where
  /-- `blocks`, the chain so far. -/
  blocks : List Block
  /-- `prev_block`, the last block of the chain. -/
  prevBlock : Block
  /-- `value`, the output value of the next coinbase transaction. -/
  value : Nat

/-- The inner loop of a round: `n` coinbase transactions paying `value`, `value + 1`, …, in
order, and the value after them. `coinbase v` is
`TransactionBuilder::coinbase().with_output(&address, v).build()`. -/
def coinbaseLoop (coinbase : Nat → Transaction) (n value : Nat) : List Transaction × Nat :=
  (List.range n).foldl
    (fun (transactions, value) _ => (transactions ++ [coinbase value], value + 1)) ([], value)

/-- One round of the outer loop: a block on top of `prev_block` with the round's coinbase
transactions, pushed to the chain. -/
def buildChainRound (coinbase : Nat → Transaction)
    (withPrevHeader : Block → List Transaction → Block) (numTransactionsPerBlock : Nat)
    (state : ChainState Block) : ChainState Block :=
  let (transactions, value) := coinbaseLoop coinbase numTransactionsPerBlock state.value
  let block := withPrevHeader state.prevBlock transactions
  ⟨state.blocks ++ [block], block, value⟩

/-- The outer loop, `for _ in 0..k`, from the chain of the genesis block alone and the value
`1`. -/
def buildChainLoop (coinbase : Nat → Transaction)
    (withPrevHeader : Block → List Transaction → Block) (numTransactionsPerBlock : Nat)
    (genesisBlock : Block) (k : Nat) : ChainState Block :=
  (List.range k).foldl
    (fun state _ => buildChainRound coinbase withPrevHeader numTransactionsPerBlock state)
    ⟨[genesisBlock], genesisBlock, 1⟩

/-- `build_chain_with_genesis_block`: the genesis block and `num_blocks - 1` rounds. The count is
a `u32` and the tests run as a debug build, where `num_blocks - 1` panics on `0`. With `u32`
counts the `u64` value stays below `2 ^ 64`, so its additions do not overflow. -/
def buildChainWithGenesisBlock (coinbase : Nat → Transaction)
    (withPrevHeader : Block → List Transaction → Block) (genesisBlock : Block)
    (numBlocks numTransactionsPerBlock : Nat) : Except Panic (List Block) :=
  if numBlocks = 0 then .error ⟨"attempt to subtract with overflow"⟩
  else .ok (buildChainLoop coinbase withPrevHeader numTransactionsPerBlock genesisBlock
    (numBlocks - 1)).blocks

/-- The coinbase loop pays the `n` values from `value` on, and returns the next value. -/
theorem coinbaseLoop_eq (coinbase : Nat → Transaction) (n value : Nat) :
    coinbaseLoop coinbase n value = ((List.range' value n).map coinbase, value + n) := by
  suffices h : ∀ transactions, (List.range n).foldl
      (fun (transactions, value) _ => (transactions ++ [coinbase value], value + 1))
      (transactions, value) = (transactions ++ (List.range' value n).map coinbase, value + n) from
    h []
  induction n with
  | zero => simp
  | succ n ih =>
    intro transactions
    rw [List.range_succ, List.foldl_append, ih, List.range'_concat]
    simp [Nat.add_assoc]

/-- What the outer loop keeps after `k` rounds: the chain has `k + 1` blocks from the genesis
block, built block on block, the `i`-th new block with the coinbase transactions paying the `t`
values after `i * t`; `prev_block` is its last block, and the next value is `1 + k * t`. -/
structure ChainState.Inv (coinbase : Nat → Transaction)
    (withPrevHeader : Block → List Transaction → Block) (t : Nat) (genesisBlock : Block) (k : Nat)
    (state : ChainState Block) : Prop where
  /-- The chain has `k + 1` blocks. -/
  length : state.blocks.length = k + 1
  /-- It starts at the genesis block. -/
  head : state.blocks.head? = some genesisBlock
  /-- `prev_block` is its last block. -/
  last : state.blocks.getLast? = some state.prevBlock
  /-- The next coinbase value. -/
  value : state.value = 1 + k * t
  /-- Each new block is built on the one before, with its round's coinbase transactions. -/
  builtOnPrev :
    BuiltOnPrev withPrevHeader (fun i => (List.range' (1 + i * t) t).map coinbase) state.blocks

/-- One round keeps the invariant, one round further. -/
theorem ChainState.Inv.round {coinbase : Nat → Transaction} {t : Nat} {genesisBlock : Block}
    {k : Nat} {state : ChainState Block}
    (h : state.Inv coinbase withPrevHeader t genesisBlock k) :
    (buildChainRound coinbase withPrevHeader t state).Inv coinbase withPrevHeader t genesisBlock
      (k + 1) := by
  have hpush := h.builtOnPrev.push h.last
  rw [h.length, Nat.add_sub_cancel] at hpush
  simp only [buildChainRound, coinbaseLoop_eq, h.value]
  exact ⟨by simp [h.length], by rw [List.head?_append, h.head]; rfl, by simp,
    show 1 + k * t + t = 1 + (k + 1) * t by rw [Nat.succ_mul, Nat.add_assoc], hpush⟩

/-- **The outer loop.** After `k` rounds the invariant holds. -/
theorem buildChainLoop_inv (coinbase : Nat → Transaction)
    (withPrevHeader : Block → List Transaction → Block) (t : Nat) (genesisBlock : Block) :
    ∀ k, (buildChainLoop coinbase withPrevHeader t genesisBlock k).Inv coinbase withPrevHeader t
      genesisBlock k
  | 0 => ⟨rfl, rfl, rfl, by simp [buildChainLoop], builtOnPrev_singleton _ genesisBlock⟩
  | k + 1 => by
    have hstep : buildChainLoop coinbase withPrevHeader t genesisBlock (k + 1) =
        buildChainRound coinbase withPrevHeader t
          (buildChainLoop coinbase withPrevHeader t genesisBlock k) := by
      rw [buildChainLoop, List.range_succ, List.foldl_append, List.foldl_cons, List.foldl_nil]
      rfl
    rw [hstep]
    exact (buildChainLoop_inv coinbase withPrevHeader t genesisBlock k).round

/-- **The chains of the tests.** For `num_blocks ≥ 1`, `build_chain_with_genesis_block` returns
`num_blocks` blocks starting at the genesis block, each built on the one before. The `i`-th new
block holds the coinbase transactions paying the `t` values after `i * t`, so across the chain
the coinbase outputs pay `1, 2, 3, …` in order and no two are equal, as the code's comment
intends. -/
theorem buildChainWithGenesisBlock_spec (coinbase : Nat → Transaction)
    (withPrevHeader : Block → List Transaction → Block) (genesisBlock : Block)
    (numBlocks t : Nat) (h : 0 < numBlocks) :
    ∃ blocks, buildChainWithGenesisBlock coinbase withPrevHeader genesisBlock numBlocks t =
        .ok blocks ∧
      blocks.length = numBlocks ∧ blocks.head? = some genesisBlock ∧
      BuiltOnPrev withPrevHeader (fun i => (List.range' (1 + i * t) t).map coinbase) blocks := by
  obtain ⟨hlen, hhead, -, -, hbuilt⟩ :=
    buildChainLoop_inv coinbase withPrevHeader t genesisBlock (numBlocks - 1)
  exact ⟨_, if_neg (by omega), by omega, hhead, hbuilt⟩

/-- A chain of three blocks with two coinbase transactions each, on stub headers that count up. -/
theorem buildChainWithGenesisBlock_spec_three :
    0 < 3 ∧ ∃ blocks, buildChainWithGenesisBlock id
        (fun (prev : HeaderStub) (_ : List Nat) => (⟨prev.hash + 1, prev.hash⟩ : HeaderStub))
        ⟨1, 0⟩ 3 2 = .ok blocks ∧
      blocks.length = 3 ∧ blocks.head? = some ⟨1, 0⟩ ∧
      BuiltOnPrev
        (fun (prev : HeaderStub) (_ : List Nat) => (⟨prev.hash + 1, prev.hash⟩ : HeaderStub))
        (fun i => (List.range' (1 + i * 2) 2).map id) blocks :=
  ⟨by decide, buildChainWithGenesisBlock_spec _ _ _ 3 2 (by decide)⟩

/-- **The tests' chains extend the tree of their genesis block.** With a block builder whose
blocks name the previous block as parent, extending `BlockTree::new(genesis)` with the blocks
that `build_chain_with_genesis_block` builds after the genesis block, in order, returns `Ok` for
every block. -/
theorem extendAll_buildChainWithGenesisBlock [DecidableEq BlockHash]
    (hb : BuildsOnPrev withPrevHeader) (coinbase : Nat → Transaction) (genesisBlock : Block)
    (numBlocks t : Nat) (h : 0 < numBlocks) :
    ∃ blocks, buildChainWithGenesisBlock coinbase withPrevHeader genesisBlock numBlocks t =
        .ok (genesisBlock :: blocks) ∧
      ∃ tree, Blocktree.extendAll (new genesisBlock) blocks =
        .ok (blocks.map fun _ => .ok (), tree) := by
  obtain ⟨chain, hchain, -, hhead, hbuilt⟩ :=
    buildChainWithGenesisBlock_spec coinbase withPrevHeader genesisBlock numBlocks t h
  obtain ⟨blocks, rfl⟩ : ∃ blocks, chain = genesisBlock :: blocks := by
    cases chain <;> cases hhead; exact ⟨_, rfl⟩
  exact ⟨blocks, hchain, Blocktree.extendAll_hashLinked blocks _ genesisBlock ⟨[], _, rfl, rfl⟩
    (hbuilt.hashLinked hb)⟩

/-- The chain of three stub blocks extends the tree of its genesis block. -/
theorem extendAll_buildChainWithGenesisBlock_three :
    BuildsOnPrev
        (fun (prev : HeaderStub) (_ : List Nat) => (⟨prev.hash + 1, prev.hash⟩ : HeaderStub)) ∧
      0 < 3 ∧
      ∃ blocks, buildChainWithGenesisBlock id
          (fun (prev : HeaderStub) (_ : List Nat) => (⟨prev.hash + 1, prev.hash⟩ : HeaderStub))
          ⟨1, 0⟩ 3 2 = .ok (⟨1, 0⟩ :: blocks) ∧
        ∃ tree, Blocktree.extendAll (new (⟨1, 0⟩ : HeaderStub)) blocks =
          .ok (blocks.map fun _ => .ok (), tree) :=
  ⟨fun _ _ => rfl, by decide,
    extendAll_buildChainWithGenesisBlock (fun _ _ => rfl) id ⟨1, 0⟩ 3 2 (by decide)⟩

/-! ## `BlockChainBuilder` -/

/-- `BlockChainBuilder`: how many blocks to build, and the block to fork from, if any. The source
keeps the block's header, which is all the block builder reads of it. -/
structure BlockChainBuilder (Block : Type) where
  /-- `num_blocks`. -/
  numBlocks : Nat
  /-- `prev_block_header`, the block the chain forks from. -/
  prevBlockHeader : Option Block

namespace BlockChainBuilder

/-- `BlockChainBuilder::new(num_blocks)`: a chain from the regtest genesis block. -/
def new (numBlocks : Nat) : BlockChainBuilder Block := ⟨numBlocks, none⟩

/-- `BlockChainBuilder::fork(prev_block, num_blocks)`: a chain on top of `prev_block`. -/
def fork (prevBlock : Block) (numBlocks : Nat) : BlockChainBuilder Block :=
  ⟨numBlocks, some prevBlock⟩

/-- The block that `build` pushes first: the regtest genesis block, or a block without
transactions on top of the fork point. -/
def firstBlock (withPrevHeader : Block → List Transaction → Block) (genesisBlock : Block)
    (builder : BlockChainBuilder Block) : Block :=
  match builder.prevBlockHeader with
  | none => genesisBlock
  | some prevBlockHeader => withPrevHeader prevBlockHeader []

/-- One round of the loop of `build`: a block without transactions on top of `blocks[i - 1]`. -/
def buildRound (withPrevHeader : Block → List Transaction → Block) (blocks : List Block)
    (i : Nat) : Except Panic (List Block) := do
  let prev ← index blocks (i - 1)
  pure (blocks ++ [withPrevHeader prev []])

/-- `BlockChainBuilder::build`, with `genesis_block(Network::Regtest)` as `genesisBlock`. The
loop `for i in 1..num_blocks` is empty when `num_blocks ≤ 1`, so the first block is always
pushed. -/
def build (withPrevHeader : Block → List Transaction → Block) (genesisBlock : Block)
    (builder : BlockChainBuilder Block) : Except Panic (List Block) :=
  (List.range' 1 (builder.numBlocks - 1)).foldlM (buildRound withPrevHeader)
    [builder.firstBlock withPrevHeader genesisBlock]

/-- **The loop of `build`.** After the rounds `1, …, k` the chain has `k + 1` blocks from the
first one, built block on block: each round indexes the last block, so no index is out of
bounds. -/
theorem foldlM_buildRound (first : Block) : ∀ k, ∃ blocks,
    (List.range' 1 k).foldlM (buildRound withPrevHeader) [first] = .ok blocks ∧
      blocks.length = k + 1 ∧ blocks.head? = some first ∧
      BuiltOnPrev withPrevHeader (fun _ => []) blocks
  | 0 => ⟨[first], rfl, rfl, rfl, builtOnPrev_singleton _ first⟩
  | k + 1 => by
    obtain ⟨blocks, h, hlen, hhead, hbuilt⟩ := foldlM_buildRound first k
    have hlast : blocks.getLast? = some (blocks.getD k first) := by
      simp [List.getLast?_eq_getElem?, hlen, List.getD_eq_getElem?_getD,
        List.getElem?_eq_getElem (show k < blocks.length by omega)]
    refine ⟨_, ?_, by simp [hlen], by rw [List.head?_append, hhead]; rfl, hbuilt.push hlast⟩
    rw [List.range'_concat, List.foldlM_append, h, ok_bind]
    simp [buildRound, index_of_lt (show k < blocks.length by omega) first]

/-- **`BlockChainBuilder::build` never panics.** It returns `max num_blocks 1` blocks: the first
is the regtest genesis block, or a block on top of the fork point, and each later block is built
on the one before. -/
theorem build_spec (withPrevHeader : Block → List Transaction → Block) (genesisBlock : Block)
    (builder : BlockChainBuilder Block) :
    ∃ blocks, builder.build withPrevHeader genesisBlock = .ok blocks ∧
      blocks.length = max builder.numBlocks 1 ∧
      blocks.head? = some (builder.firstBlock withPrevHeader genesisBlock) ∧
      BuiltOnPrev withPrevHeader (fun _ => []) blocks := by
  obtain ⟨blocks, h, hlen, hhead, hbuilt⟩ :=
    foldlM_buildRound (builder.firstBlock withPrevHeader genesisBlock) (builder.numBlocks - 1)
  exact ⟨blocks, h, by omega, hhead, hbuilt⟩

example : (new 0 : BlockChainBuilder HeaderStub).build
    (fun (prev : HeaderStub) (_ : List Unit) => ⟨prev.hash + 1, prev.hash⟩) ⟨1, 0⟩ =
      .ok [⟨1, 0⟩] := rfl

end BlockChainBuilder

/-! ## `is_stable_btreemap_equal` -/

section Maps

variable {K V : Type} [DecidableEq K] [DecidableEq V]

/-- The loop of `is_stable_btreemap_equal` over the zipped entries: `false` at the first pair
that differs. -/
def zipLoop : List ((K × V) × (K × V)) → Bool
  | [] => true
  | (x, y) :: rest => if x ≠ y then false else zipLoop rest

/-- `is_stable_btreemap_equal`, over the entries each map iterates, in key order: the lengths,
then the entries pair by pair. -/
def isStableBtreemapEqual (a b : List (K × V)) : Bool :=
  if a.length ≠ b.length then false else zipLoop (a.zip b)

/-- The comparison holds exactly of maps with the same entries. -/
theorem isStableBtreemapEqual_iff : ∀ a b : List (K × V), isStableBtreemapEqual a b = true ↔ a = b
  | [], [] => by simp [isStableBtreemapEqual, zipLoop]
  | [], _ :: _ => by simp [isStableBtreemapEqual]
  | _ :: _, [] => by simp [isStableBtreemapEqual]
  | x :: a, y :: b => by
    have ih := isStableBtreemapEqual_iff a b
    simp only [isStableBtreemapEqual, List.length_cons, List.zip_cons_cons, zipLoop,
      List.cons.injEq] at ih ⊢
    by_cases hxy : x = y
    · by_cases hlen : a.length = b.length
      · simpa [hxy, hlen] using ih
      · have hab : a ≠ b := fun h => hlen (h ▸ rfl)
        simp [hlen, hab]
    · simp [hxy]

end Maps

end TestUtils

end BitcoinCanister
