import BitcoinCanister.Blocktree.Search
import Mathlib.Data.Set.Card

/-! # Chains and depth of a block tree

`blockchains` lists a chain for each leaf, and `depth` measures the longest chain. In the
position view:

* `blockchains_eq_leaf_paths`: the chains of `blockchains` are the chains to the leaf
  positions, in lexicographic order, that is in preorder of the leaves.
* `getChainWithTip_eq_first_path`: `get_chain_with_tip` is the chain to the first position with
  the tip's hash, a prefix of one of the chains of `blockchains`.
* `depth_eq_longest`: without wrap-around, `depth` is the length of the longest position, one less
  than the longest chain of `blockchains`.

The leaf positions of a forest `c :: cs` are those of `c` under index `0` followed by those of
`cs` one index later (`consPositions`); the proofs follow the tree/loop recursion of the source. -/

namespace BitcoinCanister

variable {Block BlockHash : Type} [HasBlockHash Block BlockHash]

namespace BlockTree

/-- The node at position `p` of a lookup is a leaf. -/
def IsLeaf (lookup : List Nat → Option (BlockTree Block)) (p : List Nat) : Prop :=
  ∃ s, lookup p = some s ∧ s.children = []

/-- Every tree has a leaf. -/
theorem exists_isLeaf : ∀ t : BlockTree Block, ∃ p, IsLeaf t.get? p
  | ⟨_, []⟩ => ⟨[], _, rfl, rfl⟩
  | ⟨_, c :: _⟩ => by
    obtain ⟨p, s, hs, hl⟩ := exists_isLeaf c
    exact ⟨0 :: p, s, by simpa [get?] using hs, hl⟩

/-- The subtree at `p ++ q` is the subtree at `q` of the subtree at `p`. -/
theorem get?_append (t : BlockTree Block) (p q : List Nat) :
    t.get? (p ++ q) = (t.get? p).bind (·.get? q) := by
  induction p generalizing t with
  | nil => rfl
  | cons i p ih =>
    simp only [List.cons_append, get?]
    cases t.children[i]? <;> simp [ih]

/-- Below the node at any position there is a leaf. -/
theorem exists_isLeaf_append {t s : BlockTree Block} {p : List Nat} (hs : t.get? p = some s) :
    ∃ r, IsLeaf t.get? (p ++ r) := by
  obtain ⟨r, s', hs', hleaf⟩ := exists_isLeaf s
  exact ⟨r, s', by simp [get?_append, hs, hs'], hleaf⟩

/-- The longest position of a lookup has length `d`. -/
def IsLongest (lookup : List Nat → Option (BlockTree Block)) (d : Nat) : Prop :=
  (∀ p, (lookup p).isSome → p.length ≤ d) ∧ ∃ p, (lookup p).isSome ∧ p.length = d

/-! ## Leaf positions of a forest -/

/-- Positions of the forest `c :: cs` from positions `Lc` of `c` and `Lcs` of `cs`. -/
def consPositions (Lc Lcs : List (List Nat)) : List (List Nat) :=
  Lc.map (0 :: ·) ++ Lcs.map (List.modifyHead (· + 1))

/-- Shifting a position one child to the right, inverted. -/
theorem modifyHead_succ_eq_cons_iff {r q : List Nat} {i : Nat} :
    r.modifyHead (· + 1) = i :: q ↔ ∃ j, r = j :: q ∧ i = j + 1 := by
  cases r with
  | nil => simp
  | cons j r =>
    constructor
    · rintro ⟨⟩; exact ⟨j, rfl, rfl⟩
    · rintro ⟨_, ⟨⟩, rfl⟩; rfl

variable {c : BlockTree Block} {cs : List (BlockTree Block)} {Lc Lcs : List (List Nat)}

/-- The leaves of a forest `c :: cs` are those of `c` under `0` and those of `cs` shifted right. -/
theorem mem_consPositions (hc : ∀ q, q ∈ Lc ↔ IsLeaf c.get? q)
    (hcs : ∀ q, q ∈ Lcs ↔ IsLeaf (getIn? cs) q) (p : List Nat) :
    p ∈ consPositions Lc Lcs ↔ IsLeaf (getIn? (c :: cs)) p := by
  rcases p with _ | ⟨_ | i, q⟩
  · simp [consPositions, IsLeaf, List.modifyHead_eq_nil_iff, hcs]
  · simp [consPositions, IsLeaf, modifyHead_succ_eq_cons_iff, hc]
  · simp [consPositions, IsLeaf, modifyHead_succ_eq_cons_iff, hcs]

/-- The leaves of `c` come before those of the shifted forest `cs`, so the joined list stays
sorted. -/
theorem pairwise_consPositions (hc : Lc.Pairwise (· < ·)) (hcs : Lcs.Pairwise (· < ·))
    (hne : ∀ q ∈ Lcs, q ≠ []) : (consPositions Lc Lcs).Pairwise (· < ·) := by
  rw [consPositions, List.pairwise_append, List.pairwise_map, List.pairwise_map]
  refine ⟨hc.imp fun h => Position.cons_lt_cons_iff.mpr (.inr ⟨rfl, h⟩),
    hcs.imp_of_mem fun {a b} ha hb hab => ?_, ?_⟩
  · obtain ⟨i, a, rfl⟩ := List.exists_cons_of_ne_nil (hne _ ha)
    obtain ⟨j, b, rfl⟩ := List.exists_cons_of_ne_nil (hne _ hb)
    simpa [Position.cons_lt_cons_iff] using hab
  · simp only [List.mem_map]
    rintro _ ⟨a, -, rfl⟩ _ ⟨b, hb, rfl⟩
    obtain ⟨j, b, rfl⟩ := List.exists_cons_of_ne_nil (hne _ hb)
    exact Position.zero_cons_lt_succ_cons j a b

/-- The chains to the joined leaves are those to the leaves of `c`, then those of `cs`. -/
theorem filterMap_consPositions (f : List Block → List Block) :
    (consPositions Lc Lcs).filterMap (fun p => (pathIn? (c :: cs) p).map f) =
      Lc.filterMap (fun q => (c.path? q).map f) ++
        Lcs.filterMap (fun p => (pathIn? cs p).map f) := by
  rw [consPositions, List.filterMap_append, List.filterMap_map, List.filterMap_map]
  congr 2
  · funext q; simp
  · funext p; rcases p with _ | ⟨i, q⟩ <;> simp

end BlockTree

namespace Blocktree

open BlockTree

/-! ## `blockchains` -/

/-- The accumulator of the loop of `blockchains` is a prefix of its result. -/
theorem blockchainsLoop_eq_append (root : Block) (cs : List (BlockTree Block))
    (tips : List (BlockChain Block)) :
    blockchainsLoop root cs tips = tips ++ blockchainsLoop root cs [] := by
  induction cs generalizing tips with
  | nil => simp [blockchainsLoop]
  | cons c cs ih => rw [blockchainsLoop, blockchainsLoop, ih, ih (_ ++ _)]; simp

mutual
/-- The chains of `blockchains` are the chains to the leaf positions, in lexicographic order. -/
theorem blockchains_leaves : ∀ t : BlockTree Block, ∃ L : List (List Nat),
    L.Pairwise (· < ·) ∧ (∀ p, p ∈ L ↔ IsLeaf t.get? p) ∧
      (blockchains t).map BlockChain.intoChain = L.filterMap t.path?
  | ⟨root, []⟩ => ⟨[[]], by simp, fun p => by rcases p with _ | ⟨i, q⟩ <;> simp [IsLeaf, get?],
      by simp [blockchains]⟩
  | ⟨root, c :: cs⟩ => by
    obtain ⟨L, hsorted, hmem, heq⟩ := blockchainsLoop_leaves root (c :: cs)
    have hne : ∀ p ∈ L, p ≠ [] := fun p hp h => by
      obtain ⟨s, hs, -⟩ := (hmem p).mp hp
      simp [h] at hs
    refine ⟨L, hsorted, fun p => ?_, ?_⟩
    · rcases p with _ | ⟨i, q⟩
      · simpa [IsLeaf] using hne [] 
      · exact hmem _
    · rw [blockchains, heq]
      exact List.filterMap_congr fun p hp => by
        obtain ⟨i, q, rfl⟩ := List.exists_cons_of_ne_nil (hne p hp)
        rw [path?_cons]
/-- The loop of `blockchains` over a forest returns the chains to its leaf positions, in
lexicographic order. -/
theorem blockchainsLoop_leaves (root : Block) : ∀ cs : List (BlockTree Block),
    ∃ L : List (List Nat), L.Pairwise (· < ·) ∧ (∀ p, p ∈ L ↔ IsLeaf (getIn? cs) p) ∧
      (blockchainsLoop root cs []).map BlockChain.intoChain =
        L.filterMap fun p => (pathIn? cs p).map (root :: ·)
  | [] => ⟨[], by simp, by simp [IsLeaf], by simp [blockchainsLoop]⟩
  | c :: cs => by
    obtain ⟨Lc, hc, hmc, hec⟩ := blockchains_leaves c
    obtain ⟨Lcs, hcs, hmcs, hecs⟩ := blockchainsLoop_leaves root cs
    refine ⟨consPositions Lc Lcs, pairwise_consPositions hc hcs fun q hq h => ?_,
      mem_consPositions hmc hmcs, ?_⟩
    · obtain ⟨s, hs, -⟩ := (hmcs q).mp hq
      simp [h] at hs
    · rw [blockchainsLoop, blockchainsLoop_eq_append, List.nil_append, List.map_append, hecs,
        filterMap_consPositions]
      congr 1
      rw [← List.map_filterMap, ← hec, List.map_map, List.map_map]
      rfl
end

/-- A chain is one of `blockchains` exactly when it is the chain to a leaf. -/
theorem mem_map_intoChain_blockchains (t : BlockTree Block) (c : List Block) :
    c ∈ (blockchains t).map BlockChain.intoChain ↔ ∃ p, IsLeaf t.get? p ∧ t.path? p = some c := by
  obtain ⟨L, -, hmem, heq⟩ := blockchains_leaves t
  simp only [heq, List.mem_filterMap, hmem]

/-- **`blockchains` enumerates the root-to-leaf chains in preorder of the leaves.** There is a
list of the leaf positions in lexicographic order whose chains are exactly `blockchains t`; so
`blockchains t` is never empty, has one chain per leaf, and each chain starts at the root. -/
theorem blockchains_eq_leaf_paths (t : BlockTree Block) :
    (∃ L : List (List Nat), L.Pairwise (· < ·) ∧ (∀ p, p ∈ L ↔ IsLeaf t.get? p) ∧
      (blockchains t).map BlockChain.intoChain = L.filterMap t.path?) ∧
    blockchains t ≠ [] ∧ (blockchains t).length = {p | IsLeaf t.get? p}.ncard ∧
    ∀ bc ∈ blockchains t, bc.first = t.root := by
  obtain ⟨L, hsorted, hmem, heq⟩ := blockchains_leaves t
  have hlen : (blockchains t).length = L.length := by
    rw [← List.length_map _ BlockChain.intoChain, heq, List.length_filterMap_eq_countP,
      List.countP_eq_length]
    intro p hp
    obtain ⟨s, hs, -⟩ := (hmem p).mp hp
    simpa [path?_isSome_iff] using congrArg Option.isSome hs
  have hset : {p | IsLeaf t.get? p} = ↑L.toFinset := by ext p; simp [hmem]
  refine ⟨⟨L, hsorted, hmem, heq⟩, fun h => ?_, ?_, fun bc hbc => ?_⟩
  · obtain ⟨p, hp⟩ := exists_isLeaf t
    rw [h, List.length_nil, eq_comm, List.length_eq_zero] at hlen
    exact (List.not_mem_nil p) (hlen ▸ (hmem p).mpr hp)
  · rw [hlen, hset, Set.ncard_coe_Finset, List.toFinset_card_of_nodup hsorted.nodup]
  · obtain ⟨p, -, hp⟩ := (mem_map_intoChain_blockchains t _).mp (List.mem_map_of_mem _ hbc)
    simpa [BlockChain.intoChain] using head?_of_path?_eq_some hp

/-- Every node lies on the chain of some leaf: the chain to a position is a prefix of one of
`blockchains`, and is one of them when the position is a leaf. -/
theorem exists_blockchains_prefix {t s : BlockTree Block} {p : List Nat} {c : List Block}
    (hs : t.get? p = some s) (hc : t.path? p = some c) :
    ∃ bc ∈ blockchains t, c <+: bc.intoChain ∧ (IsLeaf t.get? p → c = bc.intoChain) := by
  obtain ⟨r, s', hs', hleaf⟩ := exists_isLeaf s
  obtain ⟨d, hd⟩ := Option.isSome_iff_exists.mp ((path?_isSome_iff s r).mpr (by simp [hs']))
  have hleaf' : IsLeaf t.get? (p ++ r) := ⟨s', by simp [get?_append, hs, hs'], hleaf⟩
  obtain ⟨bc, hbc, hbceq⟩ := List.mem_map.mp ((mem_map_intoChain_blockchains t _).mpr
    ⟨_, hleaf', path?_append hs hc hd⟩)
  refine ⟨bc, hbc, hbceq ▸ List.prefix_append _ _, fun ⟨s'', hs'', hnil⟩ => ?_⟩
  cases hs.symm.trans hs''
  rcases r with _ | ⟨i, r⟩
  · cases hd; simp [hbceq]
  · simp [get?, hnil] at hs'

/-! ## `depth` -/

mutual
/-- Without wrap-around, `depth` is the length of the longest position. -/
theorem depth_isLongest : ∀ t : BlockTree Block,
    (∀ p, (t.get? p).isSome → p.length < 2 ^ 32 - 1) → IsLongest t.get? (depth t)
  | ⟨_, []⟩, _ => ⟨fun p hp => by rcases p with _ | ⟨i, q⟩ <;> simp_all [get?, depth], [], rfl,
      by simp [depth]⟩
  | ⟨_, c :: cs⟩, hb => by
    obtain ⟨hle, -, hach⟩ := depthLoop_spec (c :: cs) 0 fun p hp => by
      rcases p with _ | ⟨i, q⟩
      · simp at hp
      · have := hb (i :: q) hp; omega
    refine ⟨fun p hp => ?_, ?_⟩
    · rcases p with _ | ⟨i, q⟩
      · simp
      · exact hle _ hp
    · rcases hach with h0 | ⟨_ | ⟨i, q⟩, hp, hlen⟩
      · have := hle [0] (by simp [getIn?])
        simp [h0] at this
      · simp at hp
      · exact ⟨i :: q, hp, hlen⟩
/-- The loop of `depth` over a forest whose positions fit in `u32` never wraps: it returns the
larger of its start value and the length of the longest position. -/
theorem depthLoop_spec : ∀ (cs : List (BlockTree Block)) (m : Nat),
    (∀ p, (getIn? cs p).isSome → p.length < 2 ^ 32) →
    (∀ p, (getIn? cs p).isSome → p.length ≤ depthLoop cs m) ∧ m ≤ depthLoop cs m ∧
      (depthLoop cs m = m ∨ ∃ p, (getIn? cs p).isSome ∧ p.length = depthLoop cs m)
  | [], m, _ => ⟨by simp, le_rfl, .inl rfl⟩
  | c :: cs, m, hb => by
    have hbc : ∀ q, (c.get? q).isSome → q.length < 2 ^ 32 - 1 := fun q hq => by
      have := hb (0 :: q) (by simpa using hq); simp at this; omega
    obtain ⟨hcle, q, hq, hqlen⟩ := depth_isLongest c hbc
    have hwrap : (1 + depth c) % 2 ^ 32 = 1 + depth c :=
      Nat.mod_eq_of_lt (by have := hbc q hq; omega)
    obtain ⟨hle, hge, hach⟩ := depthLoop_spec cs (max (1 + depth c) m) fun p hp => by
      rcases p with _ | ⟨i, r⟩
      · simp at hp
      · simpa using hb ((i + 1) :: r) (by simpa using hp)
    rw [depthLoop, hwrap]
    refine ⟨fun p hp => ?_, le_trans (le_max_right _ _) hge, ?_⟩
    · rcases p with _ | ⟨_ | i, r⟩
      · simp at hp
      · have := hcle r (by simpa using hp)
        have := le_trans (le_max_left _ _) hge
        simp only [List.length_cons]; omega
      · simpa using hle (i :: r) (by simpa using hp)
    · rcases hach with h | ⟨_ | ⟨i, r⟩, hp, hlen⟩
      · rcases le_total m (1 + depth c) with hm | hm
        · refine .inr ⟨0 :: q, by simpa using hq, ?_⟩
          rw [h, max_eq_left hm, List.length_cons, hqlen, Nat.add_comm]
        · exact .inl (h.trans (max_eq_right hm))
      · simp at hp
      · exact .inr ⟨(i + 1) :: r, by simpa using hp, by simpa using hlen⟩
end

/-- **`depth` is the longest root-to-leaf edge count.** For a tree whose root-to-leaf paths have
fewer than `2 ^ 32 - 1` edges, the `u32` additions of `depth` never wrap, `depth t` is the
number of edges of the longest root-to-leaf path, and `depth t + 1` is the length of the longest
chain of `blockchains t`. -/
theorem depth_eq_longest (t : BlockTree Block)
    (hbound : ∀ p, IsLeaf t.get? p → p.length < 2 ^ 32 - 1) :
    ((∀ p, IsLeaf t.get? p → p.length ≤ depth t) ∧ ∃ p, IsLeaf t.get? p ∧ p.length = depth t) ∧
    ((∀ bc ∈ blockchains t, bc.len ≤ depth t + 1) ∧
      ∃ bc ∈ blockchains t, bc.len = depth t + 1) := by
  have hvalid : ∀ p, (t.get? p).isSome → p.length < 2 ^ 32 - 1 := fun p hp => by
    obtain ⟨s, hs⟩ := Option.isSome_iff_exists.mp hp
    obtain ⟨r, hr⟩ := exists_isLeaf_append hs
    have := hbound _ hr
    simp only [List.length_append] at this; omega
  obtain ⟨hle, p, hp, hlen⟩ := depth_isLongest t hvalid
  obtain ⟨s, hs⟩ := Option.isSome_iff_exists.mp hp
  have hleaf : IsLeaf t.get? p := by
    refine ⟨s, hs, List.eq_nil_iff_forall_not_mem.mpr fun c hc => ?_⟩
    obtain ⟨i, hi⟩ := List.getElem?_of_mem hc
    have := hle (p ++ [i]) (by simp [get?_append, hs, get?, hi])
    simp [hlen] at this
  have hleafle : ∀ q, IsLeaf t.get? q → q.length ≤ depth t := fun q ⟨s, hs, _⟩ =>
    hle q (by simp [hs])
  refine ⟨⟨hleafle, p, hleaf, hlen⟩, fun bc hbc => ?_, ?_⟩
  · obtain ⟨q, hq, hpath⟩ := (mem_map_intoChain_blockchains t _).mp (List.mem_map_of_mem _ hbc)
    rw [← BlockChain.length_intoChain, length_of_path?_eq_some hpath]
    exact Nat.succ_le_succ (hleafle q hq)
  · obtain ⟨c, hc⟩ := Option.isSome_iff_exists.mp ((path?_isSome_iff t p).mpr hp)
    obtain ⟨bc, hbc, rfl⟩ :=
      List.mem_map.mp ((mem_map_intoChain_blockchains t c).mpr ⟨p, hleaf, hc⟩)
    exact ⟨bc, hbc, by rw [← BlockChain.length_intoChain, length_of_path?_eq_some hc, hlen]⟩

/-- The tree of a genesis block `0` with one child `1`: its one leaf is at depth `1`. -/
theorem depth_eq_longest_genesis_child :
    (∀ p, IsLeaf (BlockTree.get? ⟨(⟨0, 0⟩ : HeaderStub), [new ⟨1, 0⟩]⟩) p →
      p.length < 2 ^ 32 - 1) ∧
    ((∀ p, IsLeaf (BlockTree.get? ⟨(⟨0, 0⟩ : HeaderStub), [new ⟨1, 0⟩]⟩) p →
        p.length ≤ depth ⟨(⟨0, 0⟩ : HeaderStub), [new ⟨1, 0⟩]⟩) ∧
      ∃ p, IsLeaf (BlockTree.get? ⟨(⟨0, 0⟩ : HeaderStub), [new ⟨1, 0⟩]⟩) p ∧
        p.length = depth ⟨(⟨0, 0⟩ : HeaderStub), [new ⟨1, 0⟩]⟩) ∧
    ((∀ bc ∈ blockchains ⟨(⟨0, 0⟩ : HeaderStub), [new ⟨1, 0⟩]⟩,
        bc.len ≤ depth ⟨(⟨0, 0⟩ : HeaderStub), [new ⟨1, 0⟩]⟩ + 1) ∧
      ∃ bc ∈ blockchains ⟨(⟨0, 0⟩ : HeaderStub), [new ⟨1, 0⟩]⟩,
        bc.len = depth ⟨(⟨0, 0⟩ : HeaderStub), [new ⟨1, 0⟩]⟩ + 1) := by
  have hbound : ∀ p, IsLeaf (BlockTree.get? ⟨(⟨0, 0⟩ : HeaderStub), [new ⟨1, 0⟩]⟩) p →
      p.length < 2 ^ 32 - 1 := by
    rintro (_ | ⟨_ | i, _ | ⟨j, q⟩⟩) ⟨s, hs, hleaf⟩ <;> simp_all [get?]
  exact ⟨hbound, depth_eq_longest _ hbound⟩

variable [DecidableEq BlockHash]

/-- **`get_chain_with_tip` is the chain to the first node with the tip's hash.** It is `none`
exactly when no node has hash `tip`; otherwise it never panics, its chain runs from the root to
the first node in preorder with hash `tip`, has one block more than that node's depth, and is a
prefix of one of `blockchains t`, equal to it when the node is a leaf. -/
theorem getChainWithTip_eq_first_path (t : BlockTree Block) (tip : BlockHash) :
    (getChainWithTip t tip = .ok none ↔ ∀ p, ¬ HasHashAt t.get? tip p) ∧
    ((∃ p, HasHashAt t.get? tip p) → ∃ p c, IsFirst t.get? tip p ∧
      getChainWithTip t tip = .ok (some c) ∧ t.path? p = some c.intoChain ∧
      c.len = p.length + 1 ∧ ∃ bc ∈ blockchains t, c.intoChain <+: bc.intoChain ∧
        (IsLeaf t.get? p → c.intoChain = bc.intoChain)) := by
  obtain ⟨r, hr, hfinds⟩ := getChainWithTip_finds t tip
  rw [hr]
  cases r with
  | none => exact ⟨iff_of_true rfl hfinds, fun ⟨p, hp⟩ => absurd hp (hfinds p)⟩
  | some c =>
    obtain ⟨p, hp, hpath⟩ := hfinds
    refine ⟨iff_of_false (by simp) fun h => h p hp.1, fun _ => ⟨p, c, hp, rfl, hpath, ?_⟩⟩
    obtain ⟨s, hs, -⟩ := hp.1
    refine ⟨by rw [← BlockChain.length_intoChain, length_of_path?_eq_some hpath], ?_⟩
    exact exists_blockchains_prefix hs hpath

end Blocktree

end BitcoinCanister
