import BitcoinCanister.Blocktree.Extend

/-! # Runs of `extend`

A run starts from `BlockTree::new(g)` and calls `extend` with blocks `b₁ … bₙ` in turn,
whatever each call returns (`extendAll`). Along every run the tree keeps the invariant `Inv`:
every child names its parent's hash, no two nodes share a hash, the hashes in the tree are the
known ones, and the children of every node are the blocks added so far that name it as parent,
in the order they were added (`inserted`). One call keeps it (`Inv.extend`), so a whole run
does (`extendAll_inv`). Its first two parts, `WellLinked`, need no history: one call keeps them
(`WellLinked.of_extend`) and every subtree inherits them (`WellLinked.of_get?`), which is what the
canister's runs use when the tree moves to a stable child. From `Inv`:

* `extendAll_hashLinked`: a hash-linked chain whose first parent is in the tree is accepted
  block by block;
* `extendAll_wellFormed`: the tree after any run is linked, has unique hashes, holds the
  genesis hash and those of the accepted blocks, and orders children by insertion;
* `extendAll_chains`: every chain returned by `get_chain_with_tip` or `blockchains` on such a
  tree starts at genesis, is hash-linked, and ends at the tip sought or at a leaf. -/

namespace BitcoinCanister

variable {Block BlockHash : Type} [HasBlockHash Block BlockHash] [DecidableEq BlockHash]

namespace Blocktree

open BlockTree

/-! ## Runs and the blocks they add -/

/-- Call `extend` with each block in turn, whatever each call returns: the results of the
calls and the final tree. -/
def extendAll (blockTree : BlockTree Block) : List Block →
    Except Panic (List (Except (BlockDoesNotExtendTree Block) Unit) × BlockTree Block)
  | [] => pure ([], blockTree)
  | block :: blocks => do
    let (result, blockTree) ← extend blockTree block
    let (results, blockTree) ← extendAll blockTree blocks
    pure (result :: results, blockTree)

/-- The blocks that calls with the given results added, in call order: a call that returned
`Ok` adds its block unless its hash is already known. -/
def inserted (known : List BlockHash) :
    List (Block × Except (BlockDoesNotExtendTree Block) Unit) → List Block
  | [] => []
  | (b, result) :: rest =>
    if result.toBool ∧ blockHash b ∉ known then b :: inserted (known ++ [blockHash b]) rest
    else inserted known rest

/-- A result of `extend` reads as `true` exactly when the block was accepted. -/
theorem toBool_eq_true_iff (r : Except (BlockDoesNotExtendTree Block) Unit) :
    r.toBool = true ↔ r = .ok () := by
  cases r <;> simp [Except.toBool]

/-- The hashes known after the calls: those known before and those of the calls that
returned `Ok`. -/
theorem mem_known_inserted (known : List BlockHash)
    (calls : List (Block × Except (BlockDoesNotExtendTree Block) Unit)) (h : BlockHash) :
    h ∈ known ++ (inserted known calls).map blockHash ↔
      h ∈ known ∨ ∃ b, (b, .ok ()) ∈ calls ∧ blockHash b = h := by
  induction calls generalizing known with
  | nil => simp [inserted]
  | cons call calls ih =>
    obtain ⟨b, r⟩ := call
    by_cases hadd : r.toBool ∧ blockHash b ∉ known
    · rw [inserted, if_pos hadd, List.map_cons, ← List.singleton_append, ← List.append_assoc, ih]
      obtain ⟨hr, -⟩ := hadd
      rw [toBool_eq_true_iff] at hr
      subst hr
      simp only [List.mem_append, List.mem_singleton, List.mem_cons, Prod.mk.injEq, and_true,
        or_and_right, exists_or, exists_eq_left, List.not_mem_nil, or_false, or_assoc,
        eq_comm (a := h)]
    · rw [inserted, if_neg hadd, ih]
      rw [toBool_eq_true_iff] at hadd
      simp only [List.mem_cons, Prod.mk.injEq, or_and_right, exists_or, and_assoc,
        exists_eq_left]
      -- A call that added nothing either failed, or had a known hash.
      have hknown : Except.ok () = r ∧ blockHash b = h → h ∈ known := fun ⟨hr, hb⟩ =>
        hb ▸ not_not.mp fun hk => hadd ⟨hr.symm, hk⟩
      rw [← or_assoc, or_iff_left_of_imp hknown]

/-! ## The invariant of a run -/

/-- A tree in which every child names its parent's hash and no two nodes share a hash. -/
structure WellLinked (t : BlockTree Block) : Prop where
  /-- Every child names its parent's hash. -/
  linked : ∀ q x xs, t.nodeAt q = some (x, xs) → ∀ y ∈ xs, prevBlockhash y = blockHash x
  /-- No two nodes share a hash. -/
  unique : ∀ p q x xs y ys, t.nodeAt p = some (x, xs) → t.nodeAt q = some (y, ys) →
    blockHash x = blockHash y → p = q

/-- The invariant of the tree along a run: `known` lists its hashes, and `ins` the blocks added
so far, in call order. -/
structure Inv (t : BlockTree Block) (known : List BlockHash) (ins : List Block)
    extends WellLinked t : Prop where
  /-- The hashes in the tree are the known ones. -/
  hashes : ∀ h, (∃ q, HasHashAt t.get? h q) ↔ h ∈ known
  /-- The children of a node are the added blocks naming it as parent, in the order added. -/
  children : ∀ q x xs, t.nodeAt q = some (x, xs) →
    xs = ins.filter fun y => prevBlockhash y = blockHash x
  /-- Every added block names a known hash as parent. -/
  parents : ∀ y ∈ ins, prevBlockhash y ∈ known

omit [DecidableEq BlockHash] in
/-- The nodes of the subtree at `p` are the nodes of the tree below `p`. -/
theorem nodeAt_of_get? {t s : BlockTree Block} {p : List Nat} (hs : t.get? p = some s)
    (q : List Nat) : s.nodeAt q = t.nodeAt (p ++ q) := by
  simp [nodeAt, get?_append, hs]

omit [DecidableEq BlockHash] in
/-- In a linked tree, at most one position has a given hash. -/
theorem WellLinked.eq_of_hasHashAt {t : BlockTree Block} {h : BlockHash} {p q : List Nat}
    (hwl : WellLinked t) (hp : HasHashAt t.get? h p) (hq : HasHashAt t.get? h q) : p = q := by
  obtain ⟨x, xs, hx, hxh⟩ := hasHashAt_iff_nodeAt.mp hp
  obtain ⟨y, ys, hy, hyh⟩ := hasHashAt_iff_nodeAt.mp hq
  exact hwl.unique _ _ _ _ _ _ hx hy (hxh.trans hyh.symm)

omit [DecidableEq BlockHash] in
/-- Every subtree of a linked tree is linked. -/
theorem WellLinked.of_get? {t s : BlockTree Block} {p : List Nat} (hwl : WellLinked t)
    (hs : t.get? p = some s) : WellLinked s where
  linked q x xs h := hwl.linked (p ++ q) x xs (nodeAt_of_get? hs q ▸ h)
  unique q₁ q₂ _ _ _ _ h₁ h₂ hxy := List.append_cancel_left
    (hwl.unique _ _ _ _ _ _ (nodeAt_of_get? hs q₁ ▸ h₁) (nodeAt_of_get? hs q₂ ▸ h₂) hxy)

omit [DecidableEq BlockHash] in
/-- In a linked tree, every child names the root as its parent. -/
theorem WellLinked.prevBlockhash_child {t c : BlockTree Block} {i : Nat} (hwl : WellLinked t)
    (hc : t.get? [i] = some c) : prevBlockhash c.root = blockHash t.root := by
  simp only [get?, Option.bind_eq_some, Option.some.injEq] at hc
  obtain ⟨c', hc', rfl⟩ := hc
  exact hwl.linked [] _ _ (nodeAt_of_get?_eq_some rfl) _
    (List.mem_map_of_mem _ (List.getElem?_mem hc'))

omit [DecidableEq BlockHash] in
/-- The tree of one block is linked. -/
theorem wellLinked_new (g : Block) : WellLinked (new g) where
  linked q x xs h := by obtain ⟨-, -, rfl⟩ := nodeAt_new_eq_some.mp h; simp
  unique p q x xs y ys hp hq _ :=
    (nodeAt_new_eq_some.mp hp).1.trans (nodeAt_new_eq_some.mp hq).1.symm

/-- The tree of one block satisfies the invariant. -/
theorem inv_new (g : Block) : Inv (new g) [blockHash g] [] where
  toWellLinked := wellLinked_new g
  hashes h := by
    simp only [hasHashAt_iff_nodeAt, nodeAt_new_eq_some, List.mem_singleton]
    constructor
    · rintro ⟨q, x, xs, ⟨-, rfl, -⟩, rfl⟩; rfl
    · rintro rfl; exact ⟨[], g, [], ⟨rfl, rfl, rfl⟩, rfl⟩
  children q x xs h := by obtain ⟨-, -, rfl⟩ := nodeAt_new_eq_some.mp h; rfl
  parents := by simp

section Push

variable {t : BlockTree Block} {p : List Nat} {s : BlockTree Block} {b : Block}

/-- The nodes after pushing `b` under the node at `p`: the new leaf, the node at `p` with `b`
appended, or an old node unchanged. -/
theorem nodeAt_pushChild_cases (hs : t.get? p = some s) {q : List Nat} {x : Block}
    {xs : List Block} (h : (t.modifyAt p (pushChild (new b))).nodeAt q = some (x, xs)) :
    (q = p ++ [s.children.length] ∧ x = b ∧ xs = []) ∨
      (q = p ∧ x = s.root ∧ xs = s.children.map root ++ [b]) ∨
      (q ≠ p ∧ t.nodeAt q = some (x, xs)) := by
  rw [nodeAt_modifyAt_pushChild hs] at h
  split_ifs at h with h1 h2
  · cases h; exact .inr (.inl ⟨h1, rfl, rfl⟩)
  · cases h; exact .inl ⟨h2, rfl, rfl⟩
  · exact .inr (.inr ⟨h1, h⟩)

/-- Every old node keeps its block after a push. -/
theorem nodeAt_pushChild_of_nodeAt (hs : t.get? p = some s) {q : List Nat} {x : Block}
    {xs : List Block} (h : t.nodeAt q = some (x, xs)) :
    ∃ xs', (t.modifyAt p (pushChild (new b))).nodeAt q = some (x, xs') := by
  rw [nodeAt_modifyAt_pushChild hs]
  split_ifs with h1 h2
  · subst h1; rw [nodeAt_of_get?_eq_some hs] at h; cases h; exact ⟨_, rfl⟩
  · subst h2
    simp [nodeAt, get?_append, hs, get?, List.getElem?_eq_none] at h
  · exact ⟨xs, h⟩

/-- Every node after a push is the new leaf or an old node with the same block. -/
theorem nodeAt_pushChild_old_or_new (hs : t.get? p = some s) {q : List Nat} {x : Block}
    {xs : List Block} (h : (t.modifyAt p (pushChild (new b))).nodeAt q = some (x, xs)) :
    (q = p ++ [s.children.length] ∧ x = b) ∨ ∃ xs', t.nodeAt q = some (x, xs') := by
  rcases nodeAt_pushChild_cases hs h with ⟨hq, hx, -⟩ | ⟨rfl, rfl, -⟩ | ⟨-, g⟩
  exacts [.inl ⟨hq, hx⟩, .inr ⟨_, nodeAt_of_get?_eq_some hs⟩, .inr ⟨xs, g⟩]

omit [DecidableEq BlockHash] in
/-- Pushing a block whose hash is not in the tree, under a node with its parent's hash, keeps
the tree linked. -/
theorem WellLinked.push (hwl : WellLinked t) (hs : t.get? p = some s)
    (hparent : blockHash s.root = prevBlockhash b)
    (hfresh : ∀ q, ¬ HasHashAt t.get? (blockHash b) q) :
    WellLinked (t.modifyAt p (pushChild (new b))) := by
  have hold : ∀ q x xs, t.nodeAt q = some (x, xs) → blockHash x ≠ blockHash b :=
    fun q x xs h hx => hfresh q (hasHashAt_iff_nodeAt.mpr ⟨x, xs, h, hx⟩)
  constructor
  · intro q x xs h y hy
    rcases nodeAt_pushChild_cases hs h with ⟨-, -, rfl⟩ | ⟨-, rfl, rfl⟩ | ⟨-, h⟩
    · simp at hy
    · rcases List.mem_append.mp hy with hy | hy
      · exact hwl.linked p _ _ (nodeAt_of_get?_eq_some hs) y hy
      · rw [List.mem_singleton.mp hy, hparent]
    · exact hwl.linked q x xs h y hy
  · intro q₁ q₂ x xs y ys h₁ h₂ hxy
    rcases nodeAt_pushChild_old_or_new hs h₁ with ⟨rfl, rfl⟩ | ⟨_, g₁⟩ <;>
      rcases nodeAt_pushChild_old_or_new hs h₂ with ⟨rfl, rfl⟩ | ⟨_, g₂⟩
    · rfl
    · exact absurd hxy.symm (hold _ _ _ g₂)
    · exact absurd hxy (hold _ _ _ g₁)
    · exact hwl.unique _ _ _ _ _ _ g₁ g₂ hxy

/-- Pushing a block whose hash is new under the first node with its parent's hash keeps the
invariant, with the block added. -/
theorem Inv.push {known : List BlockHash} {ins : List Block} (hinv : Inv t known ins)
    (hs : t.get? p = some s) (hparent : blockHash s.root = prevBlockhash b)
    (hnew : blockHash b ∉ known) :
    Inv (t.modifyAt p (pushChild (new b))) (known ++ [blockHash b]) (ins ++ [b]) := by
  have hsnode := nodeAt_of_get?_eq_some hs
  have hsknown : prevBlockhash b ∈ known :=
    hparent ▸ (hinv.hashes _).mp ⟨p, s, hs, rfl⟩
  refine ⟨hinv.toWellLinked.push hs hparent fun q hq => hnew ((hinv.hashes _).mp ⟨q, hq⟩),
    fun h => ?_, fun q x xs h => ?_, fun y hy => ?_⟩
  · simp only [hasHashAt_iff_nodeAt, List.mem_append, List.mem_singleton]
    constructor
    · rintro ⟨q, x, xs, hq, rfl⟩
      rcases nodeAt_pushChild_old_or_new hs hq with ⟨-, rfl⟩ | ⟨xs', g⟩
      · exact .inr rfl
      · exact .inl ((hinv.hashes _).mp ⟨q, hasHashAt_iff_nodeAt.mpr ⟨x, xs', g, rfl⟩⟩)
    · rintro (hmem | rfl)
      · obtain ⟨q, hq⟩ := (hinv.hashes _).mpr hmem
        obtain ⟨x, xs, hnode, rfl⟩ := hasHashAt_iff_nodeAt.mp hq
        obtain ⟨xs', hq'⟩ := nodeAt_pushChild_of_nodeAt (b := b) hs hnode
        exact ⟨q, x, xs', hq', rfl⟩
      · refine ⟨p ++ [s.children.length], b, [], ?_, rfl⟩
        rw [nodeAt_modifyAt_pushChild hs, if_neg (by simp), if_pos rfl]
  · rw [List.filter_append]
    rcases nodeAt_pushChild_cases hs h with ⟨-, rfl, rfl⟩ | ⟨-, rfl, rfl⟩ | ⟨hq, g⟩
    · have hb : prevBlockhash x ≠ blockHash x := fun hx => hnew (hx ▸ hsknown)
      have hins : ins.filter (fun y => prevBlockhash y = blockHash x) = [] :=
        List.filter_eq_nil_iff.mpr fun y hy hyx => hnew (of_decide_eq_true hyx ▸ hinv.parents y hy)
      simp [hins, hb]
    · rw [← hinv.children p _ _ hsnode]
      simp [hparent]
    · have hb : prevBlockhash b ≠ blockHash x := fun hx =>
        hq (hinv.unique _ _ _ _ _ _ g hsnode (hx.symm.trans hparent.symm))
      simp [← hinv.children q x xs g, hb]
  · rcases List.mem_append.mp hy with hy | hy
    · exact List.mem_append_left _ (hinv.parents y hy)
    · exact List.mem_append_left _ (List.mem_singleton.mp hy ▸ hsknown)

end Push

/-- One call of `extend` keeps a tree linked. -/
theorem WellLinked.of_extend {t t' : BlockTree Block} {b : Block}
    {r : Except (BlockDoesNotExtendTree Block) Unit} (hwl : WellLinked t)
    (he : extend t b = .ok (r, t')) : WellLinked t' := by
  rcases extend_cases t b with ⟨-, he'⟩ | ⟨hfalse, p, s, hp, hs, he'⟩ | ⟨-, -, he'⟩ <;>
    rw [he'] at he <;> cases he
  · exact hwl
  · obtain ⟨s', hs', hparent⟩ := hp.1
    cases hs.symm.trans hs'
    refine hwl.push hs hparent fun q hq => ?_
    rw [(contains_eq_true_iff t b).mpr ⟨q, hq⟩] at hfalse
    cases hfalse
  · exact hwl

/-- One call of `extend` keeps the invariant; the block is added when the call returned `Ok`
and its hash was not known. -/
theorem Inv.extend {t t' : BlockTree Block} {b : Block} {known : List BlockHash}
    {ins : List Block} {r : Except (BlockDoesNotExtendTree Block) Unit}
    (hinv : Inv t known ins) (he : extend t b = .ok (r, t')) :
    Inv t' (if r.toBool ∧ blockHash b ∉ known then known ++ [blockHash b] else known)
      (if r.toBool ∧ blockHash b ∉ known then ins ++ [b] else ins) := by
  have hc := contains_eq_true_iff t b
  rcases extend_cases t b with ⟨htrue, he'⟩ | ⟨hfalse, p, s, hp, hs, he'⟩ | ⟨-, -, he'⟩ <;>
    rw [he'] at he <;> cases he
  · have hknown : blockHash b ∈ known := (hinv.hashes _).mp (hc.mp htrue)
    simpa [hknown] using hinv
  · have hnew : blockHash b ∉ known := fun h => by
      rw [hc.mpr ((hinv.hashes _).mpr h)] at hfalse; cases hfalse
    obtain ⟨s', hs', hparent⟩ := hp.1
    cases hs.symm.trans hs'
    simpa [hnew, Except.toBool] using hinv.push hs hparent hnew
  · simpa [Except.toBool] using hinv

/-- **A run keeps the invariant.** From any tree with the invariant, calling `extend` with each
block in turn never panics, keeps the root, and keeps the invariant, with the blocks the calls
added. -/
theorem extendAll_inv : ∀ (bs : List Block) (t : BlockTree Block) (known : List BlockHash)
    (ins : List Block), Inv t known ins →
    ∃ rs t', extendAll t bs = .ok (rs, t') ∧ rs.length = bs.length ∧ t'.root = t.root ∧
      Inv t' (known ++ (inserted known (bs.zip rs)).map blockHash)
        (ins ++ inserted known (bs.zip rs))
  | [], t, known, ins, hinv => ⟨[], t, rfl, rfl, rfl, by simpa [inserted] using hinv⟩
  | b :: bs, t, known, ins, hinv => by
    obtain ⟨r, t₁, he⟩ := extend_ok t b
    obtain ⟨rs, t', hrun, hlen, hroot, hinv'⟩ := extendAll_inv bs t₁ _ _ (hinv.extend he)
    refine ⟨r :: rs, t', by simp [extendAll, he, hrun],
      by simp [hlen], hroot.trans (root_of_extend he), ?_⟩
    by_cases hadd : r.toBool ∧ blockHash b ∉ known
    · simpa [inserted, hadd] using hinv'
    · simpa [inserted, hadd] using hinv'

/-- **A hash-linked chain extends the tree block by block.** If the tree holds the hash that the
first block of a hash-linked chain names as parent, extending the tree with the chain in order
returns `Ok` for every block. -/
theorem extendAll_hashLinked : ∀ (bs : List Block) (t : BlockTree Block) (prev : Block),
    (∃ q, HasHashAt t.get? (blockHash prev) q) → HashLinked (prev :: bs) →
    ∃ t', extendAll t bs = .ok (bs.map fun _ => .ok (), t')
  | [], t, _, _, _ => ⟨t, rfl⟩
  | b :: bs, t, prev, hprev, hlinked => by
    obtain ⟨hb, hrest⟩ := hashLinked_cons_cons.mp hlinked
    obtain ⟨t₁, he, hb₁⟩ := extend_of_parent (hb ▸ hprev)
    obtain ⟨t', hall⟩ := extendAll_hashLinked bs t₁ b hb₁ hrest
    exact ⟨t', by simp [extendAll, he, hall]⟩

/-! ## What every run guarantees -/

/-- **The block tree invariant.** For every genesis block `g` and blocks `b₁ … bₙ`, calling
`extend` with each in turn from `BlockTree::new(g)`, whatever each call returns, never panics
and leaves a tree in which (a) every child names its parent's hash, (b) no two nodes share a
hash, (c) the hashes are `g`'s and those of the blocks whose call returned `Ok`, and (d) the
children of every node are the blocks the calls added under it, in the order of the calls
that added them. -/
theorem extendAll_wellFormed (g : Block) (bs : List Block) :
    ∃ rs t, extendAll (new g) bs = .ok (rs, t) ∧ rs.length = bs.length ∧
      (∀ q x xs, t.nodeAt q = some (x, xs) → ∀ y ∈ xs, prevBlockhash y = blockHash x) ∧
      (∀ p q x xs y ys, t.nodeAt p = some (x, xs) → t.nodeAt q = some (y, ys) →
        blockHash x = blockHash y → p = q) ∧
      (∀ h, (∃ q x xs, t.nodeAt q = some (x, xs) ∧ blockHash x = h) ↔
        h = blockHash g ∨ ∃ b, (b, .ok ()) ∈ bs.zip rs ∧ blockHash b = h) ∧
      (∀ q x xs, t.nodeAt q = some (x, xs) →
        xs = (inserted [blockHash g] (bs.zip rs)).filter fun y =>
          prevBlockhash y = blockHash x) := by
  obtain ⟨rs, t, hrun, hlen, -, hinv⟩ := extendAll_inv bs _ _ _ (inv_new g)
  refine ⟨rs, t, hrun, hlen, hinv.linked, hinv.unique, fun h => ?_, by simpa using hinv.children⟩
  simp only [← hasHashAt_iff_nodeAt, hinv.hashes, mem_known_inserted, List.mem_singleton]

/-- **Chains of a reachable tree.** On every tree reached from `BlockTree::new(g)` by calls of
`extend`, `get_chain_with_tip` returns a chain for every hash in the tree, which starts at `g`,
ends with the block of that hash and is hash-linked; and every chain of `blockchains` starts at
`g`, ends at a leaf and is hash-linked. -/
theorem extendAll_chains (g : Block) (bs : List Block) :
    ∃ rs t, extendAll (new g) bs = .ok (rs, t) ∧
    (∀ h, (∃ q, HasHashAt t.get? h q) → ∃ c, getChainWithTip t h = .ok (some c) ∧
      c.intoChain.head? = some g ∧ c.intoChain.getLast?.map blockHash = some h ∧
      HashLinked c.intoChain) ∧
    (∀ bc ∈ blockchains t, bc.intoChain.head? = some g ∧
      (∃ q s, t.get? q = some s ∧ s.children = [] ∧ bc.intoChain.getLast? = some s.root) ∧
      HashLinked bc.intoChain) := by
  obtain ⟨rs, t, hrun, -, hroot, hinv⟩ := extendAll_inv bs (new g) _ _ (inv_new g)
  refine ⟨rs, t, hrun, fun h ⟨q, hq⟩ => ?_, fun bc hbc => ?_⟩
  · obtain ⟨r, hr, hfinds⟩ := getChainWithTip_finds t h
    cases r with
    | none => exact absurd hq (hfinds q)
    | some c =>
      obtain ⟨p, hp, hpath⟩ := hfinds
      obtain ⟨s, hs, hhash⟩ := hp.1
      refine ⟨c, hr, by rw [head?_of_path?_eq_some hpath, hroot]; rfl, ?_,
        hashLinked_of_path? hinv.linked hpath⟩
      rw [getLast?_of_path?_eq_some hpath hs, Option.map_some', hhash]
  · obtain ⟨p, ⟨s, hs, hleaf⟩, hpath⟩ :=
      (mem_map_intoChain_blockchains t _).mp (List.mem_map_of_mem _ hbc)
    exact ⟨by rw [head?_of_path?_eq_some hpath, hroot]; rfl,
      ⟨p, s, hs, hleaf, getLast?_of_path?_eq_some hpath hs⟩, hashLinked_of_path? hinv.linked hpath⟩

end Blocktree

end BitcoinCanister
