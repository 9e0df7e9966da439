import BitcoinCanister.Blocktree.Positions

/-! # The depth-first searches of `blocktree.rs`

`contains`, `find_mut` and `get_chain_with_tip_reverse` are three separate recursive searches.
Each is specified here by what the first node in preorder with the hash sought determines
(`Finds`): `none` exactly when no node has the hash, and otherwise a value read off the first
position with it.

* `contains_eq_true_iff`: `contains` holds iff some node has the block's hash.
* `findMut_finds`: `find_mut` borrows the subtree at the first position, and writing through the
  borrow is `modifyAt` there.
* `getChainWithTipReverse_finds`: the reversed chain from the root to the first position.

Each proof is a `mutual` induction following the tree/loop recursion of the search, with one
step lemma per branch of the source (root found, loop, child found, next child). -/

namespace BitcoinCanister

variable {Block BlockHash : Type} [HasBlockHash Block BlockHash]

namespace BlockTree

/-! ## What a search returns -/

/-- A search for hash `h` over a lookup returned `r`: `none` exactly when no node has hash `h`,
and otherwise a value related by `R` to the first position with hash `h`. -/
def Finds {α : Type} (lookup : List Nat → Option (BlockTree Block)) (h : BlockHash)
    (R : List Nat → α → Prop) : Option α → Prop
  | none => ∀ q, ¬ HasHashAt lookup h q
  | some a => ∃ p, IsFirst lookup h p ∧ R p a

variable {t c : BlockTree Block} {cs : List (BlockTree Block)} {h : BlockHash}
  {lookup : List Nat → Option (BlockTree Block)} {α β : Type}

/-- A search that finds with a property `R` finds with any weaker property. -/
theorem Finds.mono {R R' : List Nat → α → Prop} {r : Option α} (hr : Finds lookup h R r)
    (hR : ∀ p a, R p a → R' p a) : Finds lookup h R' r := by
  cases r with
  | none => exact hr
  | some a => obtain ⟨p, hp, hRa⟩ := hr; exact ⟨p, hp, hR p a hRa⟩

/-- Mapping the result of a search carries its property along the map. -/
theorem Finds.map {R : List Nat → α → Prop} {R' : List Nat → β → Prop} {f : α → β}
    {r : Option α} (hr : Finds lookup h R r) (hf : ∀ p a, R p a → R' p (f a)) :
    Finds lookup h R' (r.map f) := by
  cases r with
  | none => exact hr
  | some a => obtain ⟨p, hp, hR⟩ := hr; exact ⟨p, hp, hf p a hR⟩

/-- A search finds something exactly when some node has the hash. -/
theorem Finds.isSome_iff {R : List Nat → α → Prop} {r : Option α} (hr : Finds lookup h R r) :
    r.isSome ↔ ∃ q, HasHashAt lookup h q := by
  cases r with
  | none => simpa using hr
  | some a => obtain ⟨p, hp, -⟩ := hr; exact ⟨fun _ => ⟨p, hp.1⟩, fun _ => rfl⟩

/-- Branch "the root has the hash". -/
theorem finds_root {R : List Nat → α → Prop} {a : α} (hr : blockHash t.root = h)
    (ha : R [] a) : Finds t.get? h R (some a) :=
  ⟨[], isFirst_nil hr, ha⟩

/-- Branch "search the children": below a root of another hash, the tree's search is the
forest's. -/
theorem finds_children {R : List Nat → α → Prop} {r : Option α} (hr : blockHash t.root ≠ h)
    (hf : Finds (getIn? t.children) h R r) : Finds t.get? h R r := by
  cases r with
  | none => exact fun q => (hasHashAt_get?_iff hr q).not.mpr (hf q)
  | some a => obtain ⟨p, hp, hR⟩ := hf; exact ⟨p, (isFirst_get?_iff hr p).mpr hp, hR⟩

/-- Branch "no child left". -/
theorem finds_getIn?_nil {R : List Nat → α → Prop} :
    Finds (getIn? ([] : List (BlockTree Block))) h R none := by
  simp [Finds, HasHashAt]

/-- Branch "the first child finds it". -/
theorem finds_getIn?_cons_some {R : List Nat → α → Prop} {R' : List Nat → β → Prop} {a : α}
    {f : α → β} (hc : Finds c.get? h R (some a)) (hf : ∀ p a, R p a → R' (0 :: p) (f a)) :
    Finds (getIn? (c :: cs)) h R' (some (f a)) := by
  obtain ⟨p, hp, hR⟩ := hc
  exact ⟨0 :: p, isFirst_getIn?_cons_zero hp, hf p a hR⟩

/-- Branch "the first child has no node with the hash: go on with the rest". -/
theorem finds_getIn?_cons_none {R : List Nat → α → Prop} {R' R'' : List Nat → β → Prop}
    {r : Option β} (hc : Finds c.get? h R none) (hr : Finds (getIn? cs) h R'' r)
    (hf : ∀ i p a, R'' (i :: p) a → R' ((i + 1) :: p) a) : Finds (getIn? (c :: cs)) h R' r := by
  cases r with
  | none =>
    intro q hq
    rcases exists_hasHashAt_getIn?_cons.mp ⟨q, hq⟩ with ⟨q', hq'⟩ | ⟨q', hq'⟩
    exacts [hc q' hq', hr q' hq']
  | some a =>
    obtain ⟨_ | ⟨i, p⟩, hp, hR⟩ := hr
    · simp [IsFirst, HasHashAt] at hp
    exact ⟨(i + 1) :: p, isFirst_getIn?_cons_succ hc hp, hf i p a hR⟩

end BlockTree

variable [DecidableEq BlockHash]

namespace Blocktree

open BlockTree

/-! ## The three searches -/

mutual
/-- `contains` holds iff some node has the block's hash. -/
theorem contains_eq_true_iff : ∀ (t : BlockTree Block) (b : Block),
    contains t b = true ↔ ∃ q, HasHashAt t.get? (blockHash b) q
  | ⟨root, children⟩, b => by
    rw [exists_hasHashAt_get?_iff, ← containsLoop_eq_true_iff children b]
    by_cases hr : blockHash root = blockHash b <;> simp [contains, hr]
/-- The loop of `contains` over a forest holds iff some node of the forest has the hash. -/
theorem containsLoop_eq_true_iff : ∀ (cs : List (BlockTree Block)) (b : Block),
    containsLoop cs b = true ↔ ∃ q, HasHashAt (getIn? cs) (blockHash b) q
  | [], b => by simp [containsLoop, HasHashAt]
  | c :: cs, b => by
    rw [exists_hasHashAt_getIn?_cons, ← contains_eq_true_iff c b,
      ← containsLoop_eq_true_iff cs b]
    by_cases hc : contains c b <;> simp [containsLoop, hc]
end

mutual
/-- `find_mut` borrows the subtree at the first position with the hash; writing `s` through the
borrow puts `s` at that position. -/
theorem findMut_finds : ∀ (t : BlockTree Block) (blockhash : BlockHash),
    Finds t.get? blockhash
      (fun p x => t.get? p = some x.1 ∧ ∀ s, x.2 s = t.modifyAt p fun _ => s)
      (findMut t blockhash)
  | ⟨root, children⟩, blockhash => by
    rw [findMut]
    split
    · exact finds_root ‹_› ⟨rfl, fun _ => rfl⟩
    · refine finds_children ‹_› ((findMutLoop_finds children blockhash).map ?_)
      rintro (_ | ⟨i, p⟩) x ⟨hsub, hput⟩
      · simp at hsub
      · exact ⟨hsub, fun s => congrArg (BlockTree.mk root) (hput s)⟩
/-- The loop of `find_mut` over a forest borrows the subtree at the first position with the hash. -/
theorem findMutLoop_finds : ∀ (cs : List (BlockTree Block)) (blockhash : BlockHash),
    Finds (getIn? cs) blockhash
      (fun p x => getIn? cs p = some x.1 ∧ ∀ s, x.2 s = modifyIn cs p fun _ => s)
      (findMutLoop cs blockhash)
  | [], _ => finds_getIn?_nil
  | c :: cs, blockhash => by
    have hc := findMut_finds c blockhash
    rw [findMutLoop]
    split
    · rename_i sub put heq
      rw [heq] at hc
      refine finds_getIn?_cons_some (f := fun x => (x.1, fun s => x.2 s :: cs)) hc ?_
      rintro p x ⟨hx, hput⟩
      exact ⟨by simpa using hx, fun s => by simp [hput]⟩
    · rename_i heq
      rw [heq] at hc
      have hcs : Finds (getIn? cs) blockhash
          (fun p x => getIn? cs p = some x.1 ∧ ∀ s, x.2 s = c :: modifyIn cs p fun _ => s)
          ((findMutLoop cs blockhash).map fun x => (x.1, fun s => c :: x.2 s)) := by
        refine (findMutLoop_finds cs blockhash).map ?_
        rintro p x ⟨hx, hput⟩
        exact ⟨hx, fun s => by simp [hput]⟩
      exact finds_getIn?_cons_none hc hcs fun i p x ⟨hx, hput⟩ =>
        ⟨by simpa using hx, fun s => by simp [hput]⟩
end

mutual
/-- `get_chain_with_tip_reverse` returns the chain from the root to the first position with
hash `tip`, reversed. -/
theorem getChainWithTipReverse_finds : ∀ (t : BlockTree Block) (tip : BlockHash),
    Finds t.get? tip (fun p chain => t.path? p = some chain.reverse)
      (getChainWithTipReverse t tip)
  | ⟨root, children⟩, tip => by
    rw [getChainWithTipReverse]
    split
    · exact finds_root ‹_› rfl
    · refine finds_children ‹_› ((getChainWithTipReverseLoop_finds root children tip).mono ?_)
      rintro (_ | ⟨i, p⟩) chain hchain
      · simp at hchain
      · simpa [path?_cons] using hchain
/-- The loop of `get_chain_with_tip_reverse` over a forest returns the reversed chain to the
first position with the hash. -/
theorem getChainWithTipReverseLoop_finds (root : Block) : ∀ (cs : List (BlockTree Block))
    (tip : BlockHash), Finds (getIn? cs) tip
      (fun p chain => (pathIn? cs p).map (root :: ·) = some chain.reverse)
      (getChainWithTipReverseLoop root cs tip)
  | [], _ => finds_getIn?_nil
  | c :: cs, tip => by
    have hc := getChainWithTipReverse_finds c tip
    rw [getChainWithTipReverseLoop]
    split
    · rename_i chain heq
      rw [heq] at hc
      exact finds_getIn?_cons_some (f := (· ++ [root])) hc fun p chain hp => by simp [hp]
    · rename_i heq
      rw [heq] at hc
      exact finds_getIn?_cons_none hc (getChainWithTipReverseLoop_finds root cs tip)
        fun i p chain hp => by simpa using hp
end

/-- `get_chain_with_tip` never panics: it is `none` exactly when no node has hash `tip`, and
otherwise the chain from the root to the first node with hash `tip`, root first. -/
theorem getChainWithTip_finds (t : BlockTree Block) (tip : BlockHash) :
    ∃ r, getChainWithTip t tip = .ok r ∧
      Finds t.get? tip (fun p chain => t.path? p = some chain.intoChain) r := by
  have hrev := getChainWithTipReverse_finds t tip
  unfold getChainWithTip
  split
  · rename_i heq
    rw [heq] at hrev
    exact ⟨none, rfl, hrev⟩
  · rename_i chain heq
    rw [heq] at hrev
    obtain ⟨p, hp, hpath⟩ := hrev
    have hne : chain ≠ [] := fun h => by simpa [h] using length_of_path?_eq_some hpath
    obtain ⟨x, hx⟩ : ∃ x, chain.getLast? = some x := ⟨_, List.getLast?_eq_getLast chain hne⟩
    refine ⟨some ⟨x, chain.dropLast.reverse⟩, by simp [hx], p, hp, ?_⟩
    show t.path? p = some (x :: chain.dropLast.reverse)
    rw [hpath, ← List.dropLast_append_getLast? x hx]
    simp

end Blocktree

end BitcoinCanister
