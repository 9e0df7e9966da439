import BitcoinCanister.Blocktree.Extend

/-! # Unstable blocks

`unstable_blocks.rs` is not among the sources, so this module models it from the spec (§4.2).
`UnstableBlocks` is a block tree with a stability threshold `k`. Its root is stable when one child's
subtree is deeper than every other child's by at least `k`, where a missing second child counts
as depth −1 (`getStableChild`). In that case `peek` returns the root, and `pop` returns it and
promotes that child's subtree to be the new tree. `push` is `extend`.

* `pop_fst`: `pop` returns exactly the block `peek` returns.
* `get?_of_getStableChild`: the stable child is a child of the root.
* `pop_of_getStableChild`: what a successful `pop` leaves.
* `push_of_extend`: `push` runs `extend` on the tree. -/

namespace BitcoinCanister

variable {Block BlockHash : Type} [HasBlockHash Block BlockHash]

/-- Modelled from the spec: the blocks not yet stable, as a tree rooted at the oldest of them,
together with the number of confirmations a block needs to become stable. -/
structure UnstableBlocks (Block : Type) where
  /-- `stability_threshold`, the `k` of the stabilization rule. -/
  stabilityThreshold : Nat
  /-- The tree of unstable blocks. Its root is the next block to ingest. -/
  tree : BlockTree Block

namespace UnstableBlocks

open Blocktree

/-- Modelled from the spec: `UnstableBlocks::new(utxos, stability_threshold, genesis_block,
network)`. The UTXO set and the network are not read by the functions modelled here. -/
def new (stabilityThreshold : Nat) (genesisBlock : Block) : UnstableBlocks Block :=
  ⟨stabilityThreshold, BlockTree.new genesisBlock⟩

/-- Modelled from the spec: the child whose subtree the root is stable towards. The winning
child is the deepest, and the first inserted among equally deep ones. It is returned when its
depth exceeds the second best child's depth by at least the threshold. A missing second child
counts as depth −1. -/
def getStableChild (blocks : UnstableBlocks Block) : Option (BlockTree Block) := do
  let depths := blocks.tree.children.map depth
  let deepest ← depths.max?
  let winner ← depths.findIdx? (· = deepest)
  let secondBest : Int := ((depths.eraseIdx winner).max?.map Int.ofNat).getD (-1)
  if (blocks.stabilityThreshold : Int) ≤ deepest - secondBest then blocks.tree.children[winner]?
  else none

/-- Modelled from the spec: `peek` returns the root when it is stable. -/
def peek (blocks : UnstableBlocks Block) : Option Block :=
  (getStableChild blocks).map fun _ => blocks.tree.root

/-- Modelled from the spec: `pop` returns the root when it is stable and promotes the winning
child's subtree to be the tree, which discards the losing siblings. The spec says only that
`expected_height` is "checked for sanity", without giving the check, so no check is made. -/
def pop (blocks : UnstableBlocks Block) (_expectedHeight : Nat) :
    Option Block × UnstableBlocks Block :=
  match getStableChild blocks with
  | some stableChild => (some blocks.tree.root, { blocks with tree := stableChild })
  | none => (none, blocks)

variable [DecidableEq BlockHash]

/-- Modelled from the spec: `push` adds the block with `extend`. The UTXO set argument is
not read by the functions modelled here. -/
def push (blocks : UnstableBlocks Block) (block : Block) :
    Except Panic (Except (BlockDoesNotExtendTree Block) Unit × UnstableBlocks Block) := do
  let (result, tree) ← extend blocks.tree block
  pure (result, { blocks with tree })

/-! ## `peek`, `pop` and `push` -/

variable {blocks : UnstableBlocks Block}

@[simp] theorem stabilityThreshold_new (k : Nat) (g : Block) :
    (new k g).stabilityThreshold = k := rfl

@[simp] theorem tree_new (k : Nat) (g : Block) : (new k g).tree = BlockTree.new g := rfl

/-- `peek` sees nothing exactly when the root has no stable child. -/
theorem peek_eq_none_iff : peek blocks = none ↔ getStableChild blocks = none := by
  simp [peek]

/-- With a stable child, `peek` returns the root. -/
theorem peek_of_getStableChild {child : BlockTree Block} (hs : getStableChild blocks = some child) :
    peek blocks = some blocks.tree.root := by
  simp [peek, hs]

/-- `pop` returns exactly the block `peek` returns. -/
theorem pop_fst (h : Nat) : (pop blocks h).1 = peek blocks := by
  unfold pop peek
  cases getStableChild blocks <;> rfl

/-- The stable child is a child of the root. -/
theorem get?_of_getStableChild {child : BlockTree Block}
    (hs : getStableChild blocks = some child) : ∃ i, blocks.tree.get? [i] = some child := by
  simp only [getStableChild, Option.bind_eq_bind, Option.bind_eq_some] at hs
  obtain ⟨_, -, i, -, hs⟩ := hs
  split_ifs at hs
  exact ⟨i, by simp [BlockTree.get?, hs]⟩

/-- A `pop` of a root that is not stable changes nothing. -/
theorem pop_of_getStableChild_eq_none (h : Nat) (hs : getStableChild blocks = none) :
    pop blocks h = (none, blocks) := by
  simp [pop, hs]

/-- A `pop` of a stable root returns it and keeps the winning child's subtree. -/
theorem pop_of_getStableChild {child : BlockTree Block} (h : Nat)
    (hs : getStableChild blocks = some child) :
    pop blocks h = (some blocks.tree.root, { blocks with tree := child }) := by
  simp [pop, hs]

/-- `push` runs `extend` on the tree and keeps the threshold. -/
theorem push_of_extend {block : Block} {r : Except (BlockDoesNotExtendTree Block) Unit}
    {tree : BlockTree Block} (he : extend blocks.tree block = .ok (r, tree)) :
    push blocks block = .ok (r, { blocks with tree }) := by
  simp [push, he]

end UnstableBlocks

end BitcoinCanister
