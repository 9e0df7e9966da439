import BitcoinCanister.UnstableBlocks
import BitcoinCanister.Blocktree.Growth
import BitcoinCanister.Blocktree.Runs

/-! # When the root stays stable

The stabilization rule picks the deepest child, the first of equally deep ones, and makes the
root stable towards it when every other child is shallower by at least the threshold `k`
(`getStableChild`). Read through the index of the winning child
(`getStableChild_eq_some_iff`), the rule only compares depths, so a winner that gets deeper while
its siblings stay as they are is still the winner (`getStableChild_modify`).

A block added below the stable child does exactly that: `extend` pushes it into the winner's
subtree and nowhere else, because in a linked tree the parent's hash names one node. Below the
`u32` limit of `depth` the push never makes the winner shallower, so the root stays stable
(`getStableChild_of_extend`). A block added anywhere else can end the root's stability, which is
the fork of `run_panics_of_fork_while_paused`. -/

namespace BitcoinCanister

variable {Block BlockHash : Type} [HasBlockHash Block BlockHash]

namespace UnstableBlocks

open Blocktree BlockTree

/-! ## The stabilization rule by index -/

/-- The margin test of the rule: the winner is at least `k` deeper than the second best child,
which counts as depth −1 when there is none. -/
theorem le_sub_secondBest_iff {k deepest w : Nat} {ds : List Nat} :
    (k : Int) ≤ deepest - ((ds.eraseIdx w).max?.map Int.ofNat).getD (-1) ↔
      k ≤ deepest + 1 ∧ ∀ j d, ds[j]? = some d → j ≠ w → d + k ≤ deepest := by
  cases hm : (ds.eraseIdx w).max? with
  | none =>
    rw [List.max?_eq_none_iff] at hm
    refine ⟨fun h => ⟨by simp at h; omega, fun j d hd hj => ?_⟩, fun ⟨h, _⟩ => by simp; omega⟩
    have : d ∈ ds.eraseIdx w := List.mem_eraseIdx_iff_getElem?.mpr ⟨j, hj, hd⟩
    simp [hm] at this
  | some m =>
    obtain ⟨hmem, hle⟩ := List.max?_eq_some_iff'.mp hm
    obtain ⟨j, hj, hjm⟩ := List.mem_eraseIdx_iff_getElem?.mp hmem
    simp only [Option.map_some', Option.getD_some, Int.ofNat_eq_coe]
    refine ⟨fun h => ⟨by omega, fun j' d hd hj' => ?_⟩, fun ⟨_, h⟩ => ?_⟩
    · have := hle d (List.mem_eraseIdx_iff_getElem?.mpr ⟨j', hj', hd⟩)
      omega
    · have := h j m hjm hj
      omega

/-- **The stabilization rule, by the winning child's index.** The root is stable towards `c`
exactly when `c` is the child at some index `i`, every earlier child is shallower than `c`,
every other child is shallower by at least the threshold, and `c` is at least the threshold less
one deep (a missing second child counts as depth −1). -/
theorem getStableChild_eq_some_iff {k : Nat} {t : BlockTree Block} {c : BlockTree Block} :
    getStableChild ⟨k, t⟩ = some c ↔ ∃ i : Nat, t.children[i]? = some c ∧ k ≤ depth c + 1 ∧
      ∀ (j : Nat) c₂, t.children[j]? = some c₂ → j ≠ i → depth c₂ + k ≤ depth c ∧
        (j < i → depth c₂ < depth c) := by
  simp only [getStableChild, Option.bind_eq_bind, Option.bind_eq_some]
  constructor
  · rintro ⟨deepest, hmax, winner, hwin, h⟩
    split_ifs at h with hk
    obtain ⟨-, hle⟩ := List.max?_eq_some_iff'.mp hmax
    obtain ⟨hlt, hwd, hbefore⟩ := List.findIdx?_eq_some_iff_getElem.mp hwin
    simp only [List.getElem_map, decide_eq_true_eq] at hwd hbefore
    obtain ⟨hw, rfl⟩ := List.getElem?_eq_some_iff.mp h
    obtain ⟨hk1, hmargin⟩ := le_sub_secondBest_iff.mp hk
    subst hwd
    refine ⟨winner, List.getElem?_eq_getElem hw, hk1, fun j c₂ hc₂ hj =>
      ⟨hmargin j _ (by simp [hc₂]) hj, fun hji => ?_⟩⟩
    obtain ⟨hj', rfl⟩ := List.getElem?_eq_some_iff.mp hc₂
    exact lt_of_le_of_ne (hle _ (List.mem_map_of_mem _ (List.getElem_mem hj'))) (hbefore j hji)
  · rintro ⟨i, hi, hk, hrest⟩
    obtain ⟨hi', rfl⟩ := List.getElem?_eq_some_iff.mp hi
    refine ⟨depth t.children[i], List.max?_eq_some_iff'.mpr
      ⟨List.mem_map_of_mem _ (List.getElem_mem hi'), fun b hb => ?_⟩,
      i, List.findIdx?_eq_some_iff_getElem.mpr ⟨by simpa using hi', by simp, fun j hji => ?_⟩, ?_⟩
    · obtain ⟨c₂, hc₂, rfl⟩ := List.mem_map.mp hb
      obtain ⟨j, hj⟩ := List.mem_iff_getElem?.mp hc₂
      by_cases hji : j = i
      · subst hji
        obtain rfl : t.children[j] = c₂ :=
          Option.some.inj ((List.getElem?_eq_getElem hi').symm.trans hj)
        exact le_rfl
      · have := (hrest j c₂ hj hji).1
        omega
    · simp only [List.getElem_map, decide_eq_true_eq]
      exact ((hrest j _ (List.getElem?_eq_getElem _) (by omega)).2 hji).ne
    · rw [if_pos (le_sub_secondBest_iff.mpr ⟨hk, fun j d hd hj => ?_⟩)]
      · exact List.getElem?_eq_getElem hi'
      rw [List.getElem?_map] at hd
      obtain ⟨c₂, hc₂, rfl⟩ := Option.map_eq_some'.mp hd
      exact (hrest j c₂ hc₂ hj).1

/-- **A deeper winner stays the winner.** If the root is stable towards a child, then that child
is at some index `i`, and replacing it there by a tree at least as deep, whatever the root
block, keeps the root stable towards the new tree. -/
theorem getStableChild_modify {k : Nat} {t c : BlockTree Block}
    (h : getStableChild ⟨k, t⟩ = some c) :
    ∃ i : Nat, t.children[i]? = some c ∧ ∀ (root : Block) (f : BlockTree Block → BlockTree Block),
      depth c ≤ depth (f c) → getStableChild ⟨k, ⟨root, t.children.modify f i⟩⟩ = some (f c) := by
  obtain ⟨i, hi, hk, hrest⟩ := getStableChild_eq_some_iff.mp h
  refine ⟨i, hi, fun root f hf => getStableChild_eq_some_iff.mpr
    ⟨i, by simp [List.getElem?_modify, hi], by omega, fun j c₂ hc₂ hj => ?_⟩⟩
  simp only [List.getElem?_modify, if_neg (Ne.symm hj), Option.map_eq_map, Option.map_id'] at hc₂
  have := hrest j c₂ hc₂ hj
  exact ⟨by omega, fun hji => by have := this.2 hji; omega⟩

/-- A root with one child is stable towards it when the child is at least the threshold less one
deep: the missing second child counts as depth −1. -/
theorem getStableChild_singleton (k : Nat) (root : Block) (c : BlockTree Block) :
    getStableChild ⟨k, ⟨root, [c]⟩⟩ = if k ≤ depth c + 1 then some c else none := by
  simp [getStableChild]
  norm_cast

/-- The root of a chain tree with blocks after it is stable when they are at least the
threshold many, counted in `u32`. -/
theorem getStableChild_chainTree_cons (k : Nat) (first next : Block) (rest : List Block) :
    getStableChild ⟨k, chainTree first (next :: rest)⟩ =
      if k ≤ rest.length % 2 ^ 32 + 1 then some (chainTree next rest) else none := by
  rw [chainTree, getStableChild_singleton, depth_chainTree]

/-- The root of a chain tree is not stable while fewer than `max k 1` blocks follow it, as long
as the depth of its child does not wrap. -/
theorem getStableChild_chainTree_eq_none {k : Nat} {first : Block} {rest : List Block}
    (hl : rest.length < max k 1) (hb : rest.length ≤ 2 ^ 32) :
    getStableChild ⟨k, chainTree first rest⟩ = none := by
  rcases rest with _ | ⟨next, rest⟩
  · rfl
  · simp only [List.length_cons] at hl hb
    rw [getStableChild_chainTree_cons, if_neg (by rw [Nat.mod_eq_of_lt (by omega)]; omega)]

/-- The root of a chain tree can only be stable towards its one child, the chain tree of the
rest of the chain. -/
theorem getStableChild_chainTree {k : Nat} {first : Block} {rest : List Block}
    {c : BlockTree Block} (h : getStableChild ⟨k, chainTree first rest⟩ = some c) :
    ∃ b l, rest = b :: l ∧ c = chainTree b l := by
  obtain ⟨_, hi⟩ := get?_of_getStableChild h
  obtain ⟨b, l, hd, rfl⟩ := get?_chainTree hi
  exact ⟨b, l, by simpa using hd, rfl⟩

/-! ## Extending below the stable child -/

variable [DecidableEq BlockHash]

/-- **Extending below the stable child keeps the root stable.** Take unstable blocks whose tree
is linked with unique hashes and whose root is stable towards `c`. If `extend` adds a block
whose parent is in `c`'s subtree, and the tree then has fewer than `2 ^ 32` blocks, the root is
still stable. -/
theorem getStableChild_of_extend {blocks : UnstableBlocks Block} {c t' : BlockTree Block}
    {b : Block} {r : Except (BlockDoesNotExtendTree Block) Unit}
    (hwl : WellLinked blocks.tree) (hs : getStableChild blocks = some c)
    (hparent : ∃ q, HasHashAt c.get? (prevBlockhash b) q)
    (he : extend blocks.tree b = .ok (r, t')) (hsize : t'.size ≤ 2 ^ 32 - 1) :
    (getStableChild { blocks with tree := t' }).isSome := by
  obtain ⟨k, ⟨root, cs⟩⟩ := blocks
  obtain ⟨i, hi, hmod⟩ := getStableChild_modify hs
  rcases extend_cases ⟨root, cs⟩ b with ⟨-, he'⟩ | ⟨-, p, s, hp, -, he'⟩ | ⟨-, -, he'⟩ <;>
    cases he.symm.trans he'
  · simp [hs]
  · -- The parent's hash names one node, and that node is in the stable child.
    obtain ⟨q, s', hs', hhash⟩ := hparent
    have hq : HasHashAt (BlockTree.get? ⟨root, cs⟩) (prevBlockhash b) (i :: q) :=
      ⟨s', by simp [get?, hi, hs'], hhash⟩
    obtain rfl := hwl.eq_of_hasHashAt hp.1 hq
    have hchild : (c.modifyAt q (pushChild (BlockTree.new b))).size ≤ 2 ^ 32 - 1 :=
      (size_le_of_get? (p := [i]) (by simp [get?, modifyAt, List.getElem?_modify, hi])).trans hsize
    simp [hmod root (·.modifyAt q (pushChild (BlockTree.new b)))
      (depth_le_depth_modifyAt_pushChild hs' b hchild), modifyAt]
  · simp [hs]

end UnstableBlocks

end BitcoinCanister
