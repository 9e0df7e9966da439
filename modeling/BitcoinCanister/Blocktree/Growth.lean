import BitcoinCanister.Blocktree.Chains
import BitcoinCanister.Blocktree.Extend

/-! # How `extend` grows a tree

`extend` pushes at most one leaf (`extend_cases`), so it adds at most one block and keeps every
position of the tree. Below the `u32` limit of `depth`, the push deepens the tree only along the
new leaf, and `blockchains` gains a chain only when the leaf is pushed below a node that already
has children. The stability of a paused root (`UnstableBlocks.Stability`) rests on these facts.

* `length_lt_size`: a position is shorter than the number of blocks;
* `size_of_extend`: `extend` adds at most one block;
* `depth_modifyAt_pushChild`: after a push the depth is the larger of the old depth and the new
  leaf's, below the `u32` limit;
* `length_blockchains_modifyAt_pushChild`: a push adds a chain exactly at a fork;
* `extend_forks`: the same for `extend`, read through `find_mut` and `get_chain_with_tip`, which
  is the law the test `tree_multiple_forks` samples. -/

namespace BitcoinCanister

variable {Block BlockHash : Type} [HasBlockHash Block BlockHash]

namespace Blocktree

open BlockTree

/-! ## Sizes -/

/-- The subtree at a position has no more blocks than the tree. -/
theorem size_le_of_get? : ∀ {t s : BlockTree Block} {p : List Nat},
    t.get? p = some s → s.size ≤ t.size
  | _, _, [], h => by cases h; exact le_rfl
  | t, _, i :: _, h => by
    obtain ⟨c, hc, hs⟩ := Option.bind_eq_some.mp h
    exact (size_le_of_get? hs).trans (size_lt_of_get?_singleton (t := t) (i := i)
      (by simp [get?, hc])).le

/-- A position is shorter than the number of blocks: the nodes along it are distinct. -/
theorem length_lt_size : ∀ {t : BlockTree Block} {p : List Nat},
    (t.get? p).isSome → p.length < t.size
  | t, [], _ => size_pos t
  | t, i :: p, h => by
    obtain ⟨s, hs⟩ := Option.isSome_iff_exists.mp h
    obtain ⟨c, hc, hs⟩ := Option.bind_eq_some.mp hs
    have h₁ : p.length < c.size := length_lt_size (by simp [hs])
    have h₂ := size_lt_of_get?_singleton (t := t) (i := i) (c := c) (by simp [get?, hc])
    simp only [List.length_cons]; omega

/-- The blocks of a forest are the sum of the blocks of its trees. -/
theorem sizeIn_eq_sum : ∀ cs : List (BlockTree Block), sizeIn cs = (cs.map size).sum
  | [] => rfl
  | c :: cs => by simp [sizeIn, sizeIn_eq_sum cs]

/-- Growing one tree of a forest by `n` in a measure `g` grows the forest's total by `n`. -/
theorem sum_map_modify {g : BlockTree Block → Nat} {f : BlockTree Block → BlockTree Block}
    {n : Nat} : ∀ {cs : List (BlockTree Block)} {i : Nat} {c : BlockTree Block}, cs[i]? = some c →
      g (f c) = g c + n → ((cs.modify f i).map g).sum = (cs.map g).sum + n
  | c' :: _, 0, _, hc, hf => by
    obtain rfl : c' = _ := by simpa using hc
    simp only [List.modify_zero_cons, List.map_cons, List.sum_cons, hf]; omega
  | _ :: cs, i + 1, _, hc, hf => by
    have : ((cs.modify f i).map g).sum = (cs.map g).sum + n := sum_map_modify (by simpa using hc) hf
    simp only [List.modify_succ_cons, List.map_cons, List.sum_cons, this]; omega

/-- Pushing a leaf adds one block. -/
theorem size_modifyAt_pushChild (b : Block) : ∀ {t s : BlockTree Block} {p : List Nat},
    t.get? p = some s → (t.modifyAt p (pushChild (new b))).size = t.size + 1
  | ⟨_, cs⟩, _, [], _ => by simp [pushChild, size, sizeIn_eq_sum, BlockTree.new, sizeIn]
  | ⟨_, _⟩, _, _ :: p, h => by
    obtain ⟨_, hc, hs⟩ := Option.bind_eq_some.mp h
    simp only [modifyAt, size, sizeIn_eq_sum,
      sum_map_modify (f := (·.modifyAt p (pushChild (new b)))) hc (size_modifyAt_pushChild b hs)]

/-! ## Depths -/

/-- The positions after a push are the old ones and the new leaf. -/
theorem isSome_get?_modifyAt_pushChild_iff {t s : BlockTree Block} {p : List Nat}
    (hs : t.get? p = some s) (b : Block) (q : List Nat) :
    ((t.modifyAt p (pushChild (new b))).get? q).isSome ↔
      (t.get? q).isSome ∨ q = p ++ [s.children.length] := by
  have h := congrArg Option.isSome (nodeAt_modifyAt_pushChild hs b q)
  simp only [nodeAt, Option.isSome_map'] at h
  rw [h]
  split_ifs with h₁ h₂
  · simp [h₁, hs]
  · simp [h₂]
  · simp [nodeAt, h₂]

/-- Below the `u32` limit, a tree that has every position of another is at least as deep. -/
theorem depth_le_of_positions {t t' : BlockTree Block}
    (hsub : ∀ p, (t.get? p).isSome → (t'.get? p).isSome)
    (hb : ∀ p, (t'.get? p).isSome → p.length < 2 ^ 32 - 1) : depth t ≤ depth t' := by
  obtain ⟨-, p, hp, hlen⟩ := depth_isLongest t fun p hp => hb p (hsub p hp)
  exact hlen ▸ (depth_isLongest t' hb).1 p (hsub p hp)

/-- **A push deepens a tree only along the new leaf.** As long as the tree then has fewer than
`2 ^ 32` blocks, so that no `u32` addition of `depth` wraps, its depth is the larger of the old
depth and the new leaf's. -/
theorem depth_modifyAt_pushChild {t s : BlockTree Block} {p : List Nat}
    (hs : t.get? p = some s) (b : Block)
    (hsize : (t.modifyAt p (pushChild (new b))).size ≤ 2 ^ 32 - 1) :
    depth (t.modifyAt p (pushChild (new b))) = max (depth t) (p.length + 1) := by
  have hpos := isSome_get?_modifyAt_pushChild_iff hs b
  have hsub q (hq : (t.get? q).isSome) := (hpos q).mpr (.inl hq)
  have hb : ∀ q, ((t.modifyAt p (pushChild (new b))).get? q).isSome → q.length < 2 ^ 32 - 1 :=
    fun _ hq => lt_of_lt_of_le (length_lt_size hq) hsize
  obtain ⟨hle, q, hq, hlen⟩ := depth_isLongest _ hb
  have hleaf := hle _ ((hpos _).mpr (.inr rfl))
  refine le_antisymm ?_ (max_le (depth_le_of_positions hsub hb) (by simpa using hleaf))
  rw [← hlen]
  rcases (hpos q).mp hq with hq | rfl
  · exact le_max_of_le_left ((depth_isLongest t fun q hq => hb q (hsub q hq)).1 q hq)
  · simp

/-- Pushing a leaf never makes a tree of fewer than `2 ^ 32` blocks shallower. -/
theorem depth_le_depth_modifyAt_pushChild {t s : BlockTree Block} {p : List Nat}
    (hs : t.get? p = some s) (b : Block)
    (hsize : (t.modifyAt p (pushChild (new b))).size ≤ 2 ^ 32 - 1) :
    depth t ≤ depth (t.modifyAt p (pushChild (new b))) :=
  depth_modifyAt_pushChild hs b hsize ▸ le_max_left _ _

/-! ## Forks -/

/-- The loop of `blockchains` adds the chains of each child to the chains it was given. -/
theorem length_blockchainsLoop (root : Block) : ∀ (cs : List (BlockTree Block))
    (tips : List (BlockChain Block)), (blockchainsLoop root cs tips).length =
      tips.length + (cs.map fun c => (blockchains c).length).sum
  | [], _ => by simp [blockchainsLoop]
  | c :: cs, tips => by
    rw [blockchainsLoop, length_blockchainsLoop root cs]
    simp [Nat.add_assoc]

/-- A node with children has as many chains as its children together. -/
theorem length_blockchains_of_ne_nil (root : Block) {cs : List (BlockTree Block)}
    (hcs : cs ≠ []) :
    (blockchains ⟨root, cs⟩).length = (cs.map fun c => (blockchains c).length).sum := by
  obtain ⟨c, cs, rfl⟩ := List.exists_cons_of_ne_nil hcs
  simp [blockchains, length_blockchainsLoop]

/-- **Pushing a leaf adds a chain exactly at a fork.** Below a leaf the new block lengthens that
leaf's chain; below a node that has children it starts one more chain. -/
theorem length_blockchains_modifyAt_pushChild (b : Block) :
    ∀ {t s : BlockTree Block} {p : List Nat}, t.get? p = some s →
      (blockchains (t.modifyAt p (pushChild (new b)))).length =
        (blockchains t).length + if s.children.isEmpty then 0 else 1
  | ⟨_, []⟩, _, [], h => by cases h; rfl
  | ⟨_, c :: cs⟩, _, [], h => by
    cases h
    rw [modifyAt_nil, pushChild, length_blockchains_of_ne_nil _ (by simp),
      length_blockchains_of_ne_nil _ (List.cons_ne_nil _ _)]
    simp [blockchains, BlockTree.new, Nat.add_assoc]
  | ⟨_, cs⟩, _, _ :: p, h => by
    obtain ⟨c, hc, hs⟩ := Option.bind_eq_some.mp h
    have hne : cs ≠ [] := by rintro rfl; simp at hc
    rw [modifyAt, length_blockchains_of_ne_nil _ (by simpa using hne),
      length_blockchains_of_ne_nil _ hne, sum_map_modify (g := fun c => (blockchains c).length)
        (f := (·.modifyAt p (pushChild (new b)))) hc (length_blockchains_modifyAt_pushChild b hs)]

/-! ## Chains as trees -/

/-- The tree of a chain: each block is the only child of the block before it. -/
def chainTree (first : Block) : List Block → BlockTree Block
  | [] => new first
  | next :: rest => ⟨first, [chainTree next rest]⟩

@[simp] theorem root_chainTree (first : Block) (rest : List Block) :
    (chainTree first rest).root = first := by
  cases rest <;> rfl

/-- A chain tree has one block per block of the chain. -/
theorem size_chainTree : ∀ (first : Block) (rest : List Block),
    (chainTree first rest).size = rest.length + 1
  | _, [] => rfl
  | _, next :: rest => by simp [chainTree, size, sizeIn, size_chainTree next rest]

/-- A chain tree is as deep as its chain has blocks after the first, in `u32`. -/
theorem depth_chainTree : ∀ (first : Block) (rest : List Block),
    depth (chainTree first rest) = rest.length % 2 ^ 32
  | _, [] => rfl
  | _, next :: rest => by
    simp [chainTree, depth, depthLoop, depth_chainTree next rest, Nat.add_comm]

/-- The subtrees of a chain tree are the chain trees of the chain's suffixes, the one at a
position of length `n` being that of the chain without its first `n` blocks. -/
theorem get?_chainTree : ∀ {first : Block} {rest : List Block} {p : List Nat}
    {s : BlockTree Block}, (chainTree first rest).get? p = some s →
    ∃ b l, (first :: rest).drop p.length = b :: l ∧ s = chainTree b l
  | first, rest, [], _, h => by cases h; exact ⟨first, rest, rfl, rfl⟩
  | _, [], _ :: _, _, h => by simp [chainTree, BlockTree.new, get?] at h
  | _, next :: rest, 0 :: p, _, h =>
    @get?_chainTree next rest p _ (by simpa [chainTree, get?] using h)
  | _, _ :: _, (_ + 1) :: _, _, h => by simp [chainTree, get?] at h

/-- Every block of a chain tree is a block of its chain. -/
theorem hasHashAt_chainTree {first : Block} {rest : List Block} {h : BlockHash} {q : List Nat}
    (hq : HasHashAt (chainTree first rest).get? h q) : ∃ x ∈ first :: rest, blockHash x = h := by
  obtain ⟨s, hs, hhash⟩ := hq
  obtain ⟨b, l, hd, rfl⟩ := get?_chainTree hs
  exact ⟨b, List.mem_of_mem_drop (hd ▸ List.mem_cons_self _ _), by simpa using hhash⟩

/-- The last block of the chain is the leaf at the end of the chain tree. -/
theorem get?_chainTree_last : ∀ (first : Block) (rest : List Block),
    (chainTree first rest).get? (List.replicate rest.length 0) =
      some (new ((first :: rest).getLast (List.cons_ne_nil _ _)))
  | _, [] => rfl
  | _, next :: rest => by
    simpa [chainTree, get?, List.replicate_succ, List.getLast_cons] using
      get?_chainTree_last next rest

/-- Pushing a block at the leaf of a chain tree gives the tree of the chain extended by it. -/
theorem modifyAt_chainTree (b : Block) : ∀ (first : Block) (rest : List Block),
    (chainTree first rest).modifyAt (List.replicate rest.length 0) (pushChild (new b)) =
      chainTree first (rest ++ [b])
  | _, [] => rfl
  | _, next :: rest => by
    simp [chainTree, modifyAt, List.replicate_succ, modifyAt_chainTree b next rest]

/-! ## `extend` -/

variable [DecidableEq BlockHash]

/-- `extend` adds at most one block. -/
theorem size_of_extend {t t' : BlockTree Block} {b : Block}
    {r : Except (BlockDoesNotExtendTree Block) Unit} (he : extend t b = .ok (r, t')) :
    t'.size ≤ t.size + 1 := by
  rcases extend_cases t b with ⟨-, he'⟩ | ⟨-, p, s, -, hs, he'⟩ | ⟨-, -, he'⟩ <;>
    cases he.symm.trans he'
  exacts [Nat.le_succ _, (size_modifyAt_pushChild b hs).le, Nat.le_succ _]

/-- **A block forks the tree exactly when its parent has children.** Take a tree and a block
not in it, whose parent `find_mut` borrows as the subtree `s` and `get_chain_with_tip` reaches by
the chain `c`. Then `extend` adds the block, and one block to the tree. `blockchains` keeps its
number of chains when the parent was a tip, and gains one when the parent already had children.
If the tree then has fewer than `2 ^ 32` blocks, its depth becomes the larger of the old depth
and the new block's, which is `c.len`. -/
theorem extend_forks {t s : BlockTree Block} {put : BlockTree Block → BlockTree Block}
    {b : Block} {c : BlockChain Block} (hnew : contains t b = false)
    (hfind : findMut t (prevBlockhash b) = some (s, put))
    (hc : getChainWithTip t (prevBlockhash b) = .ok (some c)) :
    ∃ t', extend t b = .ok (.ok (), t') ∧ t'.size = t.size + 1 ∧
      (blockchains t').length = (blockchains t).length + (if s.children.isEmpty then 0 else 1) ∧
      (t'.size ≤ 2 ^ 32 - 1 → depth t' = max (depth t) c.len) := by
  have hf := findMut_finds t (prevBlockhash b)
  rw [hfind] at hf
  obtain ⟨p, hp, hs, -⟩ := hf
  obtain ⟨r, hr, hchain⟩ := getChainWithTip_finds t (prevBlockhash b)
  cases hc.symm.trans hr
  obtain ⟨p', hp', hpath⟩ := hchain
  obtain rfl := hp'.unique hp
  rcases extend_cases t b with ⟨hc', -⟩ | ⟨-, p'', s', hp'', hs', he⟩ | ⟨-, hnone, -⟩
  · simp [hnew] at hc'
  · obtain rfl := hp''.unique hp'
    cases hs.symm.trans hs'
    refine ⟨_, he, size_modifyAt_pushChild b hs', length_blockchains_modifyAt_pushChild b hs',
      fun hsize => ?_⟩
    rw [depth_modifyAt_pushChild hs' b hsize, ← BlockChain.length_intoChain,
      length_of_path?_eq_some hpath]
  · exact absurd hp.1 (hnone _)

/-- The second fork off the genesis block, as in the test `tree_multiple_forks`: a block whose
parent, the root, already has a child starts a second chain and leaves the depth at `1`. -/
theorem extend_forks_second_child :
    contains (⟨⟨1, 0⟩, [new ⟨2, 1⟩]⟩ : BlockTree HeaderStub) ⟨3, 1⟩ = false ∧
    findMut (⟨⟨1, 0⟩, [new ⟨2, 1⟩]⟩ : BlockTree HeaderStub) 1 =
      some (⟨⟨1, 0⟩, [new ⟨2, 1⟩]⟩, id) ∧
    getChainWithTip (⟨⟨1, 0⟩, [new ⟨2, 1⟩]⟩ : BlockTree HeaderStub) 1 = .ok (some ⟨⟨1, 0⟩, []⟩) ∧
    ∃ t', extend (⟨⟨1, 0⟩, [new ⟨2, 1⟩]⟩ : BlockTree HeaderStub) ⟨3, 1⟩ = .ok (.ok (), t') ∧
      t'.size = 2 + 1 ∧ (blockchains t').length = 1 + 1 ∧
      (t'.size ≤ 2 ^ 32 - 1 → depth t' = max 1 1) := by
  refine ⟨rfl, rfl, rfl, ?_⟩
  exact extend_forks (t := (⟨⟨1, 0⟩, [new ⟨2, 1⟩]⟩ : BlockTree HeaderStub)) (b := ⟨3, 1⟩)
    rfl rfl rfl

end Blocktree

end BitcoinCanister
