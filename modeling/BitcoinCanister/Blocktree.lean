import Mathlib.Data.List.Basic
import Mathlib.Algebra.Group.Nat.Basic

/-! # The block tree of `blocktree.rs`

A shallow embedding of `src/src/blocktree.rs`. A `BlockTree` is a root block and an ordered
list of child trees; `BlockChain` is a non-empty chain given as its first block and the
successors. The recursive depth-first searches of the source (`contains`, `find_mut`,
`get_chain_with_tip_reverse`) and the recursive folds (`blockchains`, `depth`) are written as
`mutual` pairs: one function on a tree, one on the list of its children, the second being the
source's `for child in children` loop with its early return or its accumulator.

Rust code that can panic returns `Except Panic`. A mutable borrow `&mut BlockTree` handed out by
`find_mut` is the borrowed subtree together with the function that writes a new value for it
back into the whole tree.

The crate reads exactly two things of a `bitcoin::Block`: `block_hash()`, the digest of its
header, and `header.prev_blockhash`. Blocks are therefore any type with these two functions
(`HasBlockHash`), and every result below holds for every hash function. -/

namespace BitcoinCanister

/-! ## Panics -/

/-- A Rust panic, with its message. -/
structure Panic where
  /-- The panic message. -/
  message : String
  deriving DecidableEq, Repr

/-- `Option::unwrap`: the value, or the panic of unwrapping `None`. -/
def unwrap {α : Type} : Option α → Except Panic α
  | some a => .ok a
  | none => .error ⟨"called `Option::unwrap()` on a `None` value"⟩

/-- `Result::expect`: the value, or a panic with the given message. -/
def expect {ε α : Type} (msg : String) : Except ε α → Except Panic α
  | .ok a => .ok a
  | .error _ => .error ⟨msg⟩

/-- `assert_eq!`: nothing, or the panic of a failed assertion. -/
def assertEq {α : Type} [DecidableEq α] (left right : α) : Except Panic Unit :=
  if left = right then .ok () else .error ⟨"assertion `left == right` failed"⟩

@[simp] theorem pure_eq_ok {ε α : Type} (a : α) : (pure a : Except ε α) = .ok a := rfl

@[simp] theorem ok_bind {ε α β : Type} (a : α) (f : α → Except ε β) :
    (Except.ok a >>= f) = f a := rfl

@[simp] theorem error_bind {ε α β : Type} (e : ε) (f : α → Except ε β) :
    (Except.error e >>= f) = .error e := rfl

/-- A bind returns exactly when both of its computations return. -/
theorem bind_eq_ok {ε α β : Type} {x : Except ε α} {f : α → Except ε β} {b : β} :
    x >>= f = .ok b ↔ ∃ a, x = .ok a ∧ f a = .ok b := by
  cases x <;> simp

/-- A bind panics exactly when its first computation panics, or when the first returns and the
second panics. -/
theorem bind_eq_error {ε α β : Type} {x : Except ε α} {f : α → Except ε β} {e : ε} :
    x >>= f = .error e ↔ x = .error e ∨ ∃ a, x = .ok a ∧ f a = .error e := by
  cases x <;> simp

@[simp] theorem unwrap_some {α : Type} (a : α) : unwrap (some a) = .ok a := rfl

@[simp] theorem assertEq_self {α : Type} [DecidableEq α] (a : α) : assertEq a a = .ok () := by
  simp [assertEq]

/-- Indexing a vector, `v[i]`: the element, or the panic of an index out of bounds. -/
def index {α : Type} (v : List α) (i : Nat) : Except Panic α :=
  match v[i]? with
  | some a => .ok a
  | none => .error ⟨"index out of bounds: the len is " ++ toString v.length ++
      " but the index is " ++ toString i⟩

/-- Indexing within bounds returns the element. -/
theorem index_of_lt {α : Type} {v : List α} {i : Nat} (h : i < v.length) (d : α) :
    index v i = .ok (v.getD i d) := by
  simp [index, List.getElem?_eq_getElem h, List.getD_eq_getElem?_getD]

/-- Indexing past the end panics with the length and the index. -/
theorem index_eq_error {α : Type} {v : List α} {i : Nat} (h : v.length ≤ i) :
    index v i = .error ⟨"index out of bounds: the len is " ++ toString v.length ++
      " but the index is " ++ toString i⟩ := by
  simp [index, List.getElem?_eq_none h]

/-! ## Blocks -/

/-- What the block tree reads of a block: the hash of its header, `block_hash()`, and the hash
its header names as its parent, `header.prev_blockhash`. -/
class HasBlockHash (Block : Type) (BlockHash : outParam Type) where
  /-- `Block::block_hash`. -/
  blockHash : Block → BlockHash
  /-- `block.header.prev_blockhash`. -/
  prevBlockhash : Block → BlockHash

export HasBlockHash (blockHash prevBlockhash)

/-- A block reduced to its two hashes, to run the model on concrete chains. -/
structure HeaderStub where
  /-- The block's own hash. -/
  hash : Nat
  /-- The hash of its parent. -/
  prev : Nat
  deriving DecidableEq, Repr

instance : HasBlockHash HeaderStub Nat := ⟨HeaderStub.hash, HeaderStub.prev⟩

variable {Block BlockHash : Type} [HasBlockHash Block BlockHash] [DecidableEq BlockHash]

/-! ## `BlockChain` -/

/-- A non-empty chain of blocks: the first block (the lowest) and its successors. -/
structure BlockChain (Block : Type) where
  /-- The first block of the chain, at the lowest height. -/
  first : Block
  /-- The blocks after `first`. -/
  successors : List Block
  deriving DecidableEq, Repr

namespace BlockChain

/-- `BlockChain::new`: a chain of one block. -/
def new (first : Block) : BlockChain Block := ⟨first, []⟩

/-- `BlockChain::push`: append a block to the successors. -/
def push (chain : BlockChain Block) (block : Block) : BlockChain Block :=
  ⟨chain.first, chain.successors ++ [block]⟩

/-- `BlockChain::len`. -/
def len (chain : BlockChain Block) : Nat := chain.successors.length + 1

/-- `BlockChain::into_chain`: the whole chain, first block first. -/
def intoChain (chain : BlockChain Block) : List Block := chain.first :: chain.successors

@[simp] theorem intoChain_mk (first : Block) (successors : List Block) :
    (BlockChain.mk first successors).intoChain = first :: successors := rfl

@[simp] theorem length_intoChain (chain : BlockChain Block) :
    chain.intoChain.length = chain.len := rfl

end BlockChain

/-! ## `BlockTree` -/

/-- A tree of connected blocks: a root block and its child trees, in insertion order. -/
structure BlockTree (Block : Type) where
  /-- The block at the root. -/
  root : Block
  /-- The subtrees of the root's children. -/
  children : List (BlockTree Block)

namespace BlockTree

/-- `BlockTree::new`: a tree of one block. -/
def new (root : Block) : BlockTree Block := ⟨root, []⟩

@[simp] theorem root_new (root : Block) : (new root).root = root := rfl

@[simp] theorem children_new (root : Block) : (new root).children = [] := rfl

end BlockTree

/-- The error of `extend` on a block that is not a successor of any block of the tree; it hands
the block back. -/
structure BlockDoesNotExtendTree (Block : Type) where
  /-- The block that was refused. -/
  block : Block

namespace Blocktree

open BlockTree

/-! ## Depth-first searches -/

mutual
/-- `contains`: whether some node's root has the hash of `block`. -/
def contains : BlockTree Block → Block → Bool
  | ⟨root, children⟩, block =>
    if blockHash root = blockHash block then true else containsLoop children block
/-- The loop of `contains` over the children: `true` at the first child that contains it. -/
def containsLoop : List (BlockTree Block) → Block → Bool
  | [], _ => false
  | child :: rest, block => if contains child block then true else containsLoop rest block
end

mutual
/-- `find_mut`: the first subtree in depth-first order whose root has hash `blockhash`, borrowed
mutably: the subtree, and the whole tree with a new value written in its place. -/
def findMut : BlockTree Block → BlockHash →
    Option (BlockTree Block × (BlockTree Block → BlockTree Block))
  | ⟨root, children⟩, blockhash =>
    if blockHash root = blockhash then some (⟨root, children⟩, id)
    else (findMutLoop children blockhash).map fun (sub, put) => (sub, fun s => ⟨root, put s⟩)
/-- The `iter_mut` loop of `find_mut`: the first child that finds it, the write-back rebuilding
the list of children. -/
def findMutLoop : List (BlockTree Block) → BlockHash →
    Option (BlockTree Block × (BlockTree Block → List (BlockTree Block)))
  | [], _ => none
  | child :: rest, blockhash =>
    match findMut child blockhash with
    | some (sub, put) => some (sub, fun s => put s :: rest)
    | none => (findMutLoop rest blockhash).map fun (sub, put) => (sub, fun s => child :: put s)
end

mutual
/-- `get_chain_with_tip_reverse`: the chain from the node with hash `tip` up to the root, found
depth-first, tip first. -/
def getChainWithTipReverse : BlockTree Block → BlockHash → Option (List Block)
  | ⟨root, children⟩, tip =>
    if blockHash root = tip then some [root] else getChainWithTipReverseLoop root children tip
/-- The loop of `get_chain_with_tip_reverse`: the first child with a chain, the parent's root
pushed at its end. -/
def getChainWithTipReverseLoop (root : Block) : List (BlockTree Block) → BlockHash →
    Option (List Block)
  | [], _ => none
  | child :: rest, tip =>
    match getChainWithTipReverse child tip with
    | some chain => some (chain ++ [root])
    | none => getChainWithTipReverseLoop root rest tip
end

/-- `get_chain_with_tip`: the chain from the root to the node with hash `tip`; the reversed chain
is popped for its first block, which panics on an empty chain. -/
def getChainWithTip (blockTree : BlockTree Block) (tip : BlockHash) :
    Except Panic (Option (BlockChain Block)) :=
  match getChainWithTipReverse blockTree tip with
  | none => pure none
  | some chain => do
    let first ← unwrap chain.getLast?
    pure (some ⟨first, chain.dropLast.reverse⟩)

/-! ## Extending the tree -/

/-- `extend`: add `block` to the tree. A block already present is a no-op; a successor of a
block of the tree becomes the last child of the first node with its parent's hash; any other
block is refused and handed back. Returns the result and the tree after the call. -/
def extend (blockTree : BlockTree Block) (block : Block) :
    Except Panic (Except (BlockDoesNotExtendTree Block) Unit × BlockTree Block) :=
  if contains blockTree block then pure (.ok (), blockTree)
  else
    match findMut blockTree (prevBlockhash block) with
    | some (blockSubtree, put) => do
      assertEq (blockHash blockSubtree.root) (prevBlockhash block)
      pure (.ok (),
        put { blockSubtree with children := blockSubtree.children ++ [BlockTree.new block] })
    | none => pure (.error ⟨block⟩, blockTree)

/-! ## Chains and depth -/

mutual
/-- `blockchains`: every chain from the root to a leaf. -/
def blockchains : BlockTree Block → List (BlockChain Block)
  | ⟨root, []⟩ => [⟨root, []⟩]
  | ⟨root, child :: rest⟩ => blockchainsLoop root (child :: rest) []
/-- The loop of `blockchains`: `tips` extended, child by child, with the child's chains under
`root`. -/
def blockchainsLoop (root : Block) : List (BlockTree Block) → List (BlockChain Block) →
    List (BlockChain Block)
  | [], tips => tips
  | child :: rest, tips =>
    blockchainsLoop root rest (tips ++ (blockchains child).map fun bc => ⟨root, bc.intoChain⟩)
end

mutual
/-- `depth`: the number of edges on the longest path from the root, in `u32` (the addition
`1 + depth(child)` wraps modulo `2 ^ 32`, as in a release build). -/
def depth : BlockTree Block → Nat
  | ⟨_, []⟩ => 0
  | ⟨_, child :: rest⟩ => depthLoop (child :: rest) 0
/-- The loop of `depth`: the running maximum `max_child_depth`. -/
def depthLoop : List (BlockTree Block) → Nat → Nat
  | [], maxChildDepth => maxChildDepth
  | child :: rest, maxChildDepth =>
    depthLoop rest (max ((1 + depth child) % 2 ^ 32) maxChildDepth)
end

end Blocktree

end BitcoinCanister
