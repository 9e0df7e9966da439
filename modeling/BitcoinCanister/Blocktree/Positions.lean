import BitcoinCanister.Blocktree
import Mathlib.Data.List.Lex

/-! # Positions in a block tree

A node of a block tree is named by its position: the child indices that lead to it from the
root. Positions are the abstract view in which `blocktree.rs` is specified: the subtree and the
chain of blocks at a position (`get?`, `path?`), the tree with the subtree at a position
rewritten (`modifyAt`), and the order in which a depth-first search visits nodes. That order,
preorder following the children's order, is the lexicographic order on positions: a node comes
before its descendants, and an earlier child's subtree before a later one's. So "the first node
in preorder with hash `h`" is the least position with hash `h` (`IsFirst`).

The loops of the source walk a list of children; such a forest has positions too, whose first
index picks the tree (`getIn?`, `pathIn?`, `modifyIn`). -/

namespace BitcoinCanister

variable {Block BlockHash : Type} [HasBlockHash Block BlockHash]

/-! ## Lexicographic order on positions -/

namespace Position

/-- Positions compare lexicographically: first by the child index, then by the rest. -/
theorem cons_lt_cons_iff {i j : Nat} {p q : List Nat} :
    i :: p < j :: q ↔ i < j ∨ i = j ∧ p < q := by
  constructor
  · intro h
    cases h with
    | cons h => exact .inr ⟨rfl, h⟩
    | rel h => exact .inl h
  · rintro (h | ⟨rfl, h⟩)
    exacts [List.Lex.rel h, List.Lex.cons h]

/-- Positions with the same first index compare by the rest. -/
theorem cons_le_cons_iff {i : Nat} {p q : List Nat} : i :: p ≤ i :: q ↔ p ≤ q := by
  simp only [← not_lt, cons_lt_cons_iff, lt_irrefl, true_and, false_or]

/-- Shifting two positions one child to the right keeps their order. -/
theorem succ_cons_le_succ_cons_iff {i j : Nat} {p q : List Nat} :
    (i + 1) :: p ≤ (j + 1) :: q ↔ i :: p ≤ j :: q := by
  simp only [← not_lt, cons_lt_cons_iff, Nat.add_right_cancel_iff, Nat.add_lt_add_iff_right]

/-- A position under the first child comes before any position under a later child. -/
theorem zero_cons_lt_succ_cons (i : Nat) (p q : List Nat) : 0 :: p < (i + 1) :: q :=
  List.Lex.rel (Nat.succ_pos i)

end Position

namespace BlockTree

/-! ## Subtrees and chains at a position -/

/-- The subtree at a position, `none` if the position leaves the tree. -/
def get? (t : BlockTree Block) : List Nat → Option (BlockTree Block)
  | [] => some t
  | i :: p => t.children[i]?.bind (·.get? p)

/-- The subtree at a position of a forest, whose first index picks the tree. -/
def getIn? (cs : List (BlockTree Block)) : List Nat → Option (BlockTree Block)
  | [] => none
  | i :: p => cs[i]?.bind (·.get? p)

/-- The blocks from the root to the node at a position, root first. -/
def path? (t : BlockTree Block) : List Nat → Option (List Block)
  | [] => some [t.root]
  | i :: p => t.children[i]?.bind fun c => (c.path? p).map (t.root :: ·)

/-- The blocks from the root of the picked tree to the node at a position of a forest. -/
def pathIn? (cs : List (BlockTree Block)) : List Nat → Option (List Block)
  | [] => none
  | i :: p => cs[i]?.bind (·.path? p)

@[simp] theorem get?_nil (t : BlockTree Block) : t.get? [] = some t := rfl

/-- Below the root, a position is looked up in the forest of children. -/
theorem get?_cons (t : BlockTree Block) (i : Nat) (p : List Nat) :
    t.get? (i :: p) = getIn? t.children (i :: p) := rfl

@[simp] theorem getIn?_nil (cs : List (BlockTree Block)) : getIn? cs [] = none := rfl

@[simp] theorem getIn?_nil_forest (p : List Nat) :
    getIn? ([] : List (BlockTree Block)) p = none := by
  cases p <;> rfl

@[simp] theorem getIn?_cons_zero (c : BlockTree Block) (cs : List (BlockTree Block))
    (p : List Nat) : getIn? (c :: cs) (0 :: p) = c.get? p := by
  simp [getIn?]

@[simp] theorem getIn?_cons_succ (c : BlockTree Block) (cs : List (BlockTree Block)) (i : Nat)
    (p : List Nat) : getIn? (c :: cs) ((i + 1) :: p) = getIn? cs (i :: p) := by
  simp [getIn?]

mutual
/-- The number of blocks of a tree. -/
def size : BlockTree Block → Nat
  | ⟨_, children⟩ => sizeIn children + 1
/-- The number of blocks of a forest. -/
def sizeIn : List (BlockTree Block) → Nat
  | [] => 0
  | c :: cs => size c + sizeIn cs
end

/-- A tree has at least its root. -/
theorem size_pos (t : BlockTree Block) : 0 < t.size := by
  cases t; simp [size]

/-- A child has no more blocks than its forest. -/
theorem size_le_sizeIn : ∀ {cs : List (BlockTree Block)} {i : Nat} {c : BlockTree Block},
    cs[i]? = some c → c.size ≤ sizeIn cs
  | c' :: cs, 0, c, h => by
    obtain rfl : c' = c := by simpa using h
    simp [sizeIn]
  | c' :: cs, i + 1, c, h => by
    have : c.size ≤ sizeIn cs := size_le_sizeIn (i := i) (by simpa using h)
    simp only [sizeIn]; omega

/-- A child has fewer blocks than its parent. -/
theorem size_lt_of_get?_singleton {t c : BlockTree Block} {i : Nat} (h : t.get? [i] = some c) :
    c.size < t.size := by
  obtain ⟨root, children⟩ := t
  have : c.size ≤ sizeIn children := size_le_sizeIn (i := i) (by simpa [get?] using h)
  simp only [size]; omega

@[simp] theorem path?_nil (t : BlockTree Block) : t.path? [] = some [t.root] := rfl

/-- Below the root, the path is the root followed by the path in the forest of children. -/
theorem path?_cons (t : BlockTree Block) (i : Nat) (p : List Nat) :
    t.path? (i :: p) = (pathIn? t.children (i :: p)).map (t.root :: ·) := by
  simp only [path?, pathIn?]
  cases t.children[i]? <;> simp

@[simp] theorem pathIn?_nil (cs : List (BlockTree Block)) : pathIn? cs [] = none := rfl

@[simp] theorem pathIn?_cons_zero (c : BlockTree Block) (cs : List (BlockTree Block))
    (p : List Nat) : pathIn? (c :: cs) (0 :: p) = c.path? p := by
  simp [pathIn?]

@[simp] theorem pathIn?_cons_succ (c : BlockTree Block) (cs : List (BlockTree Block)) (i : Nat)
    (p : List Nat) : pathIn? (c :: cs) ((i + 1) :: p) = pathIn? cs (i :: p) := by
  simp [pathIn?]

/-- The path to a position below the root, through the child it passes. -/
theorem path?_cons_eq_some {t : BlockTree Block} {i : Nat} {p : List Nat} {c : List Block} :
    t.path? (i :: p) = some c ↔
      ∃ ch d, t.children[i]? = some ch ∧ ch.path? p = some d ∧ c = t.root :: d := by
  simp only [path?, Option.bind_eq_some, Option.map_eq_some']
  exact ⟨fun ⟨ch, hch, d, hd, hc⟩ => ⟨ch, d, hch, hd, hc.symm⟩,
    fun ⟨ch, d, hch, hd, hc⟩ => ⟨ch, hch, d, hd, hc.symm⟩⟩

/-- The chain to a position has one block more than the position has indices. -/
theorem length_of_path?_eq_some {t : BlockTree Block} {p : List Nat} {c : List Block}
    (hc : t.path? p = some c) : c.length = p.length + 1 := by
  induction p generalizing t c with
  | nil => cases hc; rfl
  | cons i p ih =>
    obtain ⟨ch, d, -, hd, rfl⟩ := path?_cons_eq_some.mp hc
    simp [ih hd]

/-- The chain to a position starts at the root. -/
theorem head?_of_path?_eq_some {t : BlockTree Block} {p : List Nat} {c : List Block}
    (hc : t.path? p = some c) : c.head? = some t.root := by
  cases p with
  | nil => cases hc; rfl
  | cons i p =>
    obtain ⟨ch, d, -, -, rfl⟩ := path?_cons_eq_some.mp hc
    rfl

/-- The chain to a position ends at the root of the node there. -/
theorem getLast?_of_path?_eq_some {t s : BlockTree Block} {p : List Nat} {c : List Block}
    (hc : t.path? p = some c) (hs : t.get? p = some s) : c.getLast? = some s.root := by
  induction p generalizing t c with
  | nil => cases hc; cases hs; rfl
  | cons i p ih =>
    obtain ⟨ch, d, hch, hd, rfl⟩ := path?_cons_eq_some.mp hc
    have hd' : d ≠ [] := by
      rw [← List.length_pos, length_of_path?_eq_some hd]; omega
    rw [List.getLast?_cons, ih hd (by simpa [get?, hch] using hs)]
    obtain ⟨x, xs, rfl⟩ := List.exists_cons_of_ne_nil hd'
    simp

/-- There is a chain exactly at the positions inside the tree. -/
theorem path?_isSome_iff (t : BlockTree Block) (p : List Nat) :
    (t.path? p).isSome ↔ (t.get? p).isSome := by
  induction p generalizing t with
  | nil => rfl
  | cons i p ih =>
    simp only [path?, get?]
    cases t.children[i]? with
    | none => rfl
    | some ch => simpa using ih ch

/-- The chain to a deeper position continues the chain to a shallower one. -/
theorem path?_append {t s : BlockTree Block} {p r : List Nat} {c d : List Block}
    (hs : t.get? p = some s) (hc : t.path? p = some c) (hd : s.path? r = some d) :
    t.path? (p ++ r) = some (c ++ d.tail) := by
  induction p generalizing t c with
  | nil =>
    cases hs; cases hc
    obtain ⟨x, xs, hx⟩ := List.exists_cons_of_ne_nil
      (List.ne_nil_of_length_pos (by rw [length_of_path?_eq_some hd]; omega))
    have hx' := head?_of_path?_eq_some hd
    subst hx
    obtain rfl : x = s.root := by simpa using hx'
    simpa using hd
  | cons i p ih =>
    obtain ⟨ch, e, hch, he, rfl⟩ := path?_cons_eq_some.mp hc
    simp [path?, hch, ih (by simpa [get?, hch] using hs) he]

/-! ## Rewriting the subtree at a position -/

/-- The tree with the subtree at a position replaced by its image under `f`; a position that
leaves the tree leaves it unchanged. -/
def modifyAt (t : BlockTree Block) : List Nat → (BlockTree Block → BlockTree Block) →
    BlockTree Block
  | [], f => f t
  | i :: p, f => ⟨t.root, t.children.modify (·.modifyAt p f) i⟩

/-- The forest with the subtree at a position replaced by its image under `f`. -/
def modifyIn (cs : List (BlockTree Block)) : List Nat → (BlockTree Block → BlockTree Block) →
    List (BlockTree Block)
  | [], _ => cs
  | i :: p, f => cs.modify (·.modifyAt p f) i

@[simp] theorem modifyAt_nil (t : BlockTree Block) (f : BlockTree Block → BlockTree Block) :
    t.modifyAt [] f = f t := rfl

/-- Below the root, `modifyAt` rewrites the forest of children. -/
theorem modifyAt_cons (t : BlockTree Block) (i : Nat) (p : List Nat)
    (f : BlockTree Block → BlockTree Block) :
    t.modifyAt (i :: p) f = ⟨t.root, modifyIn t.children (i :: p) f⟩ := rfl

@[simp] theorem modifyIn_cons_zero (c : BlockTree Block) (cs : List (BlockTree Block))
    (p : List Nat) (f : BlockTree Block → BlockTree Block) :
    modifyIn (c :: cs) (0 :: p) f = c.modifyAt p f :: cs := rfl

@[simp] theorem modifyIn_cons_succ (c : BlockTree Block) (cs : List (BlockTree Block)) (i : Nat)
    (p : List Nat) (f : BlockTree Block → BlockTree Block) :
    modifyIn (c :: cs) ((i + 1) :: p) f = c :: modifyIn cs (i :: p) f := rfl

/-- Rewriting below the root, or by a map that keeps roots, keeps the root. -/
theorem root_modifyAt {f : BlockTree Block → BlockTree Block} (hf : ∀ n, (f n).root = n.root)
    (t : BlockTree Block) (p : List Nat) : (t.modifyAt p f).root = t.root := by
  cases p <;> simp [modifyAt, hf]

/-- Only the subtree at the position is read by the rewrite. -/
theorem modifyAt_congr {t s : BlockTree Block} {p : List Nat} (hs : t.get? p = some s)
    (f : BlockTree Block → BlockTree Block) :
    t.modifyAt p (fun _ => f s) = t.modifyAt p f := by
  induction p generalizing t with
  | nil => cases hs; rfl
  | cons i p ih =>
    obtain ⟨c, hc, hcs⟩ := Option.bind_eq_some.mp hs
    simp only [modifyAt, BlockTree.mk.injEq, true_and]
    apply List.ext_getElem?
    intro j
    simp only [List.getElem?_modify]
    by_cases hij : i = j
    · subst hij; simp [hc, ih hcs]
    · simp [hij]

/-- `children.push(child)`: `child` added as the last child. -/
def pushChild (child t : BlockTree Block) : BlockTree Block := ⟨t.root, t.children ++ [child]⟩

@[simp] theorem root_pushChild (child t : BlockTree Block) : (pushChild child t).root = t.root :=
  rfl

/-- A node as the invariants see it: its block and its children's blocks, in order. -/
def node (t : BlockTree Block) : Block × List Block := (t.root, t.children.map root)

/-- The node at a position. -/
def nodeAt (t : BlockTree Block) (p : List Nat) : Option (Block × List Block) :=
  (t.get? p).map node

/-- The node at a position is the root of the subtree there and its children's roots. -/
theorem nodeAt_of_get?_eq_some {t s : BlockTree Block} {p : List Nat} (hs : t.get? p = some s) :
    t.nodeAt p = some (s.root, s.children.map root) := by
  simp [nodeAt, hs, node]

/-- Modifying a child in a way that keeps its root keeps the roots of the forest. -/
theorem map_root_modify {f : BlockTree Block → BlockTree Block} (hf : ∀ n, (f n).root = n.root)
    (cs : List (BlockTree Block)) (i : Nat) : (cs.modify f i).map root = cs.map root := by
  apply List.ext_getElem?
  intro j
  simp only [List.getElem?_map, List.getElem?_modify]
  cases cs[j]? <;> split <;> simp [hf]

/-- **Adding a leaf.** Pushing a new leaf `b` under the node at `p` changes exactly two nodes:
the one at `p`, which gains `b` as its last child, and the new one, just after `p`'s old
children. -/
theorem nodeAt_modifyAt_pushChild {t s : BlockTree Block} {p : List Nat}
    (hs : t.get? p = some s) (b : Block) (q : List Nat) :
    (t.modifyAt p (pushChild (new b))).nodeAt q =
      if q = p then some (s.root, s.children.map root ++ [b])
      else if q = p ++ [s.children.length] then some (b, []) else t.nodeAt q := by
  induction p generalizing t q with
  | nil =>
    cases hs
    rcases q with _ | ⟨i, r⟩
    · simp [nodeAt, node, pushChild]
    rcases lt_trichotomy i s.children.length with hi | rfl | hi
    · simp [nodeAt, get?, pushChild, List.getElem?_append_left hi, hi.ne]
    · rcases r with _ | ⟨j, r⟩ <;> simp [nodeAt, node, get?, pushChild]
    · have hi' : (s.children ++ [new b]).length ≤ i := by simp; omega
      simp [nodeAt, get?, pushChild, List.getElem?_eq_none hi', List.getElem?_eq_none hi.le,
        hi.ne']
  | cons j p ih =>
    obtain ⟨ch, hch, hs⟩ := Option.bind_eq_some.mp hs
    have hroot : ∀ n : BlockTree Block, (n.modifyAt p (pushChild (new b))).root = n.root :=
      fun n => root_modifyAt (root_pushChild _) n p
    rcases q with _ | ⟨i, r⟩
    · simp [nodeAt, node, modifyAt, map_root_modify hroot]
    by_cases hij : j = i
    · subst hij
      have := ih hs r
      simp only [nodeAt, get?] at this
      simp [nodeAt, get?, modifyAt, List.getElem?_modify, hch, this]
    · simp [nodeAt, get?, modifyAt, List.getElem?_modify, hij, Ne.symm hij]

/-! ## The first node with a hash -/

/-- The node at position `p` of a lookup (a tree's `get?` or a forest's `getIn?`) has a root of
hash `h`. -/
def HasHashAt (lookup : List Nat → Option (BlockTree Block)) (h : BlockHash) (p : List Nat) :
    Prop :=
  ∃ s, lookup p = some s ∧ blockHash s.root = h

/-- `p` is the first position in preorder, the least in the lexicographic order, whose node
has a root of hash `h`. -/
def IsFirst (lookup : List Nat → Option (BlockTree Block)) (h : BlockHash) (p : List Nat) :
    Prop :=
  HasHashAt lookup h p ∧ ∀ q, HasHashAt lookup h q → p ≤ q

variable {t c : BlockTree Block} {cs : List (BlockTree Block)} {h : BlockHash}
  {lookup : List Nat → Option (BlockTree Block)}

/-- There is at most one first position with a hash. -/
theorem IsFirst.unique {p q : List Nat} (hp : IsFirst lookup h p) (hq : IsFirst lookup h q) :
    p = q :=
  le_antisymm (hp.2 q hq.1) (hq.2 p hp.1)

/-- A root of hash `h` is the first node with hash `h`. -/
theorem isFirst_nil (hr : blockHash t.root = h) : IsFirst t.get? h [] :=
  ⟨⟨t, rfl, hr⟩, fun _ _ => List.nil_le⟩

/-- When the root does not have the hash, the nodes with it are those of the children. -/
theorem hasHashAt_get?_iff (hr : blockHash t.root ≠ h) (q : List Nat) :
    HasHashAt t.get? h q ↔ HasHashAt (getIn? t.children) h q := by
  cases q with
  | nil => simp [HasHashAt, hr]
  | cons i q => rfl

/-- Below a root of another hash, the first node of the tree is the first node of the forest of
its children. -/
theorem isFirst_get?_iff (hr : blockHash t.root ≠ h) (p : List Nat) :
    IsFirst t.get? h p ↔ IsFirst (getIn? t.children) h p := by
  simp only [IsFirst, hasHashAt_get?_iff hr]

/-- Some node has the hash iff the root has it or some node of the children has it. -/
theorem exists_hasHashAt_get?_iff :
    (∃ q, HasHashAt t.get? h q) ↔
      blockHash t.root = h ∨ ∃ q, HasHashAt (getIn? t.children) h q := by
  by_cases hr : blockHash t.root = h
  · exact ⟨fun _ => .inl hr, fun _ => ⟨[], isFirst_nil hr |>.1⟩⟩
  · simp only [hasHashAt_get?_iff hr, hr, false_or]

/-- The nodes of a forest under index `0` are those of its first tree. -/
theorem hasHashAt_getIn?_cons_zero (p : List Nat) :
    HasHashAt (getIn? (c :: cs)) h (0 :: p) ↔ HasHashAt c.get? h p := by
  simp [HasHashAt]

/-- The nodes of a forest under a later index are those of the rest of the forest. -/
theorem hasHashAt_getIn?_cons_succ (i : Nat) (p : List Nat) :
    HasHashAt (getIn? (c :: cs)) h ((i + 1) :: p) ↔ HasHashAt (getIn? cs) h (i :: p) := by
  simp [HasHashAt]

/-- Some node of a forest `c :: cs` has the hash iff some node of `c` or of `cs` has it. -/
theorem exists_hasHashAt_getIn?_cons :
    (∃ q, HasHashAt (getIn? (c :: cs)) h q) ↔
      (∃ q, HasHashAt c.get? h q) ∨ ∃ q, HasHashAt (getIn? cs) h q := by
  constructor
  · rintro ⟨_ | ⟨_ | i, q⟩, hq⟩
    · simp [HasHashAt] at hq
    · exact .inl ⟨q, (hasHashAt_getIn?_cons_zero q).mp hq⟩
    · exact .inr ⟨i :: q, (hasHashAt_getIn?_cons_succ i q).mp hq⟩
  · rintro (⟨q, hq⟩ | ⟨_ | ⟨i, q⟩, hq⟩)
    · exact ⟨0 :: q, (hasHashAt_getIn?_cons_zero q).mpr hq⟩
    · simp [HasHashAt] at hq
    · exact ⟨(i + 1) :: q, (hasHashAt_getIn?_cons_succ i q).mpr hq⟩

/-- The first node of the first tree of a forest is the first node of the forest. -/
theorem isFirst_getIn?_cons_zero {p : List Nat} (hp : IsFirst c.get? h p) :
    IsFirst (getIn? (c :: cs)) h (0 :: p) := by
  refine ⟨(hasHashAt_getIn?_cons_zero p).mpr hp.1, ?_⟩
  rintro (_ | ⟨_ | j, q⟩) hq
  · simp [HasHashAt] at hq
  · exact Position.cons_le_cons_iff.mpr (hp.2 q ((hasHashAt_getIn?_cons_zero q).mp hq))
  · exact (Position.zero_cons_lt_succ_cons j p q).le

/-- When the first tree has no node of hash `h`, the forest's first node is in the rest. -/
theorem isFirst_getIn?_cons_succ (hc : ∀ q, ¬ HasHashAt c.get? h q) {i : Nat} {p : List Nat}
    (hp : IsFirst (getIn? cs) h (i :: p)) : IsFirst (getIn? (c :: cs)) h ((i + 1) :: p) := by
  refine ⟨(hasHashAt_getIn?_cons_succ i p).mpr hp.1, ?_⟩
  rintro (_ | ⟨_ | j, q⟩) hq
  · simp [HasHashAt] at hq
  · exact absurd ((hasHashAt_getIn?_cons_zero q).mp hq) (hc q)
  · exact Position.succ_cons_le_succ_cons_iff.mpr
      (hp.2 (j :: q) ((hasHashAt_getIn?_cons_succ j q).mp hq))

/-! ## Nodes and hashes -/

/-- A node has the hash exactly when its block, as `nodeAt` sees it, has it. -/
theorem hasHashAt_iff_nodeAt {q : List Nat} :
    HasHashAt t.get? h q ↔ ∃ x xs, t.nodeAt q = some (x, xs) ∧ blockHash x = h := by
  simp only [HasHashAt, nodeAt, node, Option.map_eq_some', Prod.mk.injEq]
  constructor
  · rintro ⟨s, hs, rfl⟩; exact ⟨_, _, ⟨s, hs, rfl, rfl⟩, rfl⟩
  · rintro ⟨_, _, ⟨s, hs, rfl, -⟩, rfl⟩; exact ⟨s, hs, rfl⟩

/-- The tree of one block has one node, at the root. -/
theorem nodeAt_new_eq_some {g x : Block} {q : List Nat} {xs : List Block} :
    (new g).nodeAt q = some (x, xs) ↔ q = [] ∧ x = g ∧ xs = [] := by
  rcases q with _ | ⟨i, q⟩ <;> simp [nodeAt, node, get?, eq_comm]

/-- Each block of the chain names the previous one's hash. -/
def HashLinked (chain : List Block) : Prop :=
  ∀ i (hi : i + 1 < chain.length), prevBlockhash chain[i + 1] = blockHash chain[i]

/-- A chain of two or more blocks is linked iff its second block names the first as parent and
the rest is linked. -/
theorem hashLinked_cons_cons {a b : Block} {l : List Block} :
    HashLinked (a :: b :: l) ↔ prevBlockhash b = blockHash a ∧ HashLinked (b :: l) := by
  constructor
  · intro h
    exact ⟨h 0 (by simp), fun i hi => h (i + 1) (by simp at hi ⊢; omega)⟩
  · rintro ⟨h0, h⟩ (_ | i) hi
    · exact h0
    · exact h i (by simp at hi ⊢; omega)

/-- A block that names the last block of a hash-linked chain extends it. -/
theorem HashLinked.snoc {l : List Block} {a b : Block} (hl : HashLinked (l ++ [a]))
    (hb : prevBlockhash b = blockHash a) : HashLinked (l ++ [a, b]) := by
  induction l with
  | nil => exact hashLinked_cons_cons.mpr ⟨hb, fun i hi => by simp at hi⟩
  | cons x l ih =>
    cases l <;>
    · obtain ⟨hx, hl⟩ := hashLinked_cons_cons.mp hl
      exact hashLinked_cons_cons.mpr ⟨hx, ih hl⟩

/-- A prefix of a hash-linked chain is hash-linked. -/
theorem HashLinked.of_append {l₁ l₂ : List Block} (h : HashLinked (l₁ ++ l₂)) : HashLinked l₁ :=
  fun i hi => by
    have := h i (by simp; omega)
    rwa [List.getElem_append_left (by omega), List.getElem_append_left (by omega)] at this

/-- The block after the last block of a hash-linked chain names it as parent. -/
theorem HashLinked.prevBlockhash_getLast {l : List Block} {c : Block} (h : HashLinked (l ++ [c]))
    (hl : l ≠ []) : prevBlockhash c = blockHash (l.getLast hl) := by
  have hpos : 0 < l.length := List.length_pos.mpr hl
  have := h (l.length - 1) (by simp; omega)
  rw [List.getElem_append_right (by omega), List.getElem_append_left (by omega)] at this
  rw [List.getLast_eq_getElem]
  simpa [show l.length - 1 + 1 - l.length = 0 by omega] using this

/-- In a linked tree, the chain to any position is hash-linked. -/
theorem hashLinked_of_path?
    (hlinked : ∀ q x xs, t.nodeAt q = some (x, xs) → ∀ y ∈ xs, prevBlockhash y = blockHash x)
    {p : List Nat} {c : List Block} (hc : t.path? p = some c) : HashLinked c := by
  induction p generalizing t c with
  | nil => cases hc; intro i hi; simp at hi
  | cons i p ih =>
    obtain ⟨ch, d, hch, hd, rfl⟩ := path?_cons_eq_some.mp hc
    have hnode : ∀ q, ch.nodeAt q = t.nodeAt (i :: q) := fun q => by simp [nodeAt, get?, hch]
    have hd' := ih (fun q x xs h => hlinked (i :: q) x xs (hnode q ▸ h)) hd
    obtain ⟨e, es, rfl⟩ := List.exists_cons_of_ne_nil
      (List.ne_nil_of_length_pos (by rw [length_of_path?_eq_some hd]; omega))
    obtain rfl : e = ch.root := by simpa using head?_of_path?_eq_some hd
    refine hashLinked_cons_cons.mpr
      ⟨hlinked [] t.root (t.children.map root) (nodeAt_of_get?_eq_some rfl) _ ?_, hd'⟩
    exact List.mem_map_of_mem _ (List.getElem?_mem hch)

end BlockTree

end BitcoinCanister
