import BitcoinCanister.Blocktree.Chains

/-! # `extend`

One call of `extend` does one of three things (`extend_cases`): nothing, when a node already
has the block's hash; push the block as the last child of the first node in preorder with its
parent's hash; or refuse the block and hand it back. Every later fact about `extend` is read off
this lemma:

* `extend_spec`: the three cases as the frame statement on nodes;
* `extend_of_parent`: a block whose parent is in the tree is accepted and is then in the tree;
* `extend_extend`: a second call with the same block changes nothing and returns the same kind
  of result;
* `searches_agree`: `find_mut`, `get_chain_with_tip` and `contains` agree, so the `assert_eq` of
  `extend` never fails and `extend` succeeds on every block whose parent chain is found. -/

namespace BitcoinCanister

variable {Block BlockHash : Type} [HasBlockHash Block BlockHash]

variable [DecidableEq BlockHash]

namespace Blocktree

open BlockTree

variable {t : BlockTree Block} {b : Block}

/-- **What one call of `extend` does.** A block already present leaves the tree as it is; a
block whose parent is present becomes the last child of the first node with the parent's hash;
any other block is refused and handed back. No case panics. -/
theorem extend_cases (t : BlockTree Block) (b : Block) :
    (contains t b = true ∧ extend t b = .ok (.ok (), t)) ∨
    (contains t b = false ∧ ∃ p s, IsFirst t.get? (prevBlockhash b) p ∧ t.get? p = some s ∧
      extend t b = .ok (.ok (), t.modifyAt p (pushChild (new b)))) ∨
    (contains t b = false ∧ (∀ q, ¬ HasHashAt t.get? (prevBlockhash b) q) ∧
      extend t b = .ok (.error ⟨b⟩, t)) := by
  unfold extend
  cases hc : contains t b
  · have hf := findMut_finds t (prevBlockhash b)
    rw [if_neg Bool.false_ne_true]
    split
    · rename_i sub put heq
      rw [heq] at hf
      obtain ⟨p, hp, hsub, hput⟩ := hf
      dsimp only at hsub hput
      obtain ⟨s, hs, hhash⟩ := hp.1
      cases hsub.symm.trans hs
      refine .inr (.inl ⟨rfl, p, sub, hp, hsub, ?_⟩)
      rw [hhash, assertEq_self, hput, ← modifyAt_congr hsub (pushChild (new b))]
      rfl
    · rename_i heq
      rw [heq] at hf
      exact .inr (.inr ⟨rfl, hf, rfl⟩)
  · exact .inl ⟨rfl, rfl⟩

/-- `extend` never panics. -/
theorem extend_ok (t : BlockTree Block) (b : Block) : ∃ r t', extend t b = .ok (r, t') := by
  rcases extend_cases t b with ⟨-, he⟩ | ⟨-, _, _, -, -, he⟩ | ⟨-, -, he⟩ <;> exact ⟨_, _, he⟩

/-- `extend` keeps the root. -/
theorem root_of_extend {r : Except (BlockDoesNotExtendTree Block) Unit} {t' : BlockTree Block}
    (he : extend t b = .ok (r, t')) : t'.root = t.root := by
  rcases extend_cases t b with ⟨-, he'⟩ | ⟨-, p, _, -, -, he'⟩ | ⟨-, -, he'⟩ <;>
    rw [he'] at he <;> cases he
  exacts [rfl, root_modifyAt (root_pushChild _) t p, rfl]

/-- After a successful push the block is in the tree. -/
theorem contains_modifyAt_pushChild {p : List Nat} {s : BlockTree Block}
    (hs : t.get? p = some s) : contains (t.modifyAt p (pushChild (new b))) b = true := by
  have h := nodeAt_modifyAt_pushChild hs b (p ++ [s.children.length])
  rw [if_neg (by simp), if_pos rfl] at h
  exact (contains_eq_true_iff _ b).mpr ⟨_, hasHashAt_iff_nodeAt.mpr ⟨_, _, h, rfl⟩⟩

/-- A block whose parent is in the tree is accepted, and the tree then holds its hash. -/
theorem extend_of_parent (hparent : ∃ q, HasHashAt t.get? (prevBlockhash b) q) :
    ∃ t', extend t b = .ok (.ok (), t') ∧ ∃ q, HasHashAt t'.get? (blockHash b) q := by
  rcases extend_cases t b with ⟨htrue, he⟩ | ⟨-, p, s, -, hs, he⟩ | ⟨-, hnone, -⟩
  · exact ⟨t, he, (contains_eq_true_iff t b).mp htrue⟩
  · exact ⟨_, he, (contains_eq_true_iff _ b).mp (contains_modifyAt_pushChild hs)⟩
  · obtain ⟨q, hq⟩ := hparent
    exact absurd hq (hnone q)

/-- **`extend` in the position view.** If some node has the block's hash, `extend` succeeds and
leaves the tree unchanged. Otherwise, if some node has the parent's hash, `extend` succeeds and
the result differs from the tree only at the first such node in preorder, which gains the
block as its last child, and at the new leaf: every other node keeps its block and its
children in order. Otherwise `extend` returns the error carrying the block and leaves the tree
unchanged. -/
theorem extend_spec (t : BlockTree Block) (b : Block) :
    ((∃ q, HasHashAt t.get? (blockHash b) q) → extend t b = .ok (.ok (), t)) ∧
    ((∀ q, ¬ HasHashAt t.get? (blockHash b) q) → (∃ q, HasHashAt t.get? (prevBlockhash b) q) →
      ∃ p s, IsFirst t.get? (prevBlockhash b) p ∧ t.get? p = some s ∧
        extend t b = .ok (.ok (), t.modifyAt p (pushChild (new b))) ∧
        ∀ q, (t.modifyAt p (pushChild (new b))).nodeAt q =
          if q = p then some (s.root, s.children.map root ++ [b])
          else if q = p ++ [s.children.length] then some (b, []) else t.nodeAt q) ∧
    ((∀ q, ¬ HasHashAt t.get? (blockHash b) q) → (∀ q, ¬ HasHashAt t.get? (prevBlockhash b) q) →
      extend t b = .ok (.error ⟨b⟩, t)) := by
  have hc := contains_eq_true_iff t b
  rcases extend_cases t b with ⟨htrue, he⟩ | ⟨hfalse, p, s, hp, hs, he⟩ | ⟨hfalse, hnone, he⟩
  · obtain ⟨q, hq⟩ := hc.mp htrue
    exact ⟨fun _ => he, fun habs => absurd hq (habs q), fun habs => absurd hq (habs q)⟩
  · refine ⟨fun h => absurd (hc.mpr h) (by simp [hfalse]),
      fun _ _ => ⟨p, s, hp, hs, he, nodeAt_modifyAt_pushChild hs b⟩,
      fun _ h => absurd hp.1 (h p)⟩
  · exact ⟨fun h => absurd (hc.mpr h) (by simp [hfalse]), fun _ ⟨q, hq⟩ => absurd hq (hnone q),
      fun _ _ => he⟩

/-- **`extend` is idempotent.** A second call with the same block leaves the tree of the first
call unchanged and returns the same kind of result. -/
theorem extend_extend (t : BlockTree Block) (b : Block) :
    ∃ r t', extend t b = .ok (r, t') ∧
      ∃ r', extend t' b = .ok (r', t') ∧ r.toBool = r'.toBool := by
  rcases extend_cases t b with ⟨-, he⟩ | ⟨-, p, s, -, hs, he⟩ | ⟨-, -, he⟩
  · exact ⟨_, _, he, _, he, rfl⟩
  · have hc := contains_modifyAt_pushChild (b := b) hs
    rcases extend_cases (t.modifyAt p (pushChild (new b))) b with ⟨-, he'⟩ | ⟨hc', -⟩ | ⟨hc', -⟩
    · exact ⟨_, _, he, _, he', rfl⟩
    all_goals simp [hc] at hc'
  · exact ⟨_, _, he, _, he, rfl⟩

/-- **The three searches agree.** `find_mut` finds a node exactly when `get_chain_with_tip`
returns a chain, exactly when `contains` holds of any block with the hash; when they succeed,
the subtree borrowed by `find_mut` is the first node in preorder with the hash, its root is the
last block of the chain, and its hash is the one sought. So `extend` never panics, and it
succeeds on every block whose parent's chain `get_chain_with_tip` finds. -/
theorem searches_agree (t : BlockTree Block) (h : BlockHash) :
    ((findMut t h).isSome ↔ ∃ c, getChainWithTip t h = .ok (some c)) ∧
    (∀ b, blockHash b = h → ((∃ c, getChainWithTip t h = .ok (some c)) ↔ contains t b = true)) ∧
    (∀ sub put c, findMut t h = some (sub, put) → getChainWithTip t h = .ok (some c) →
      c.intoChain.getLast? = some sub.root ∧ blockHash sub.root = h ∧
        ∃ p, IsFirst t.get? h p ∧ t.get? p = some sub) ∧
    (∀ b, ∃ r t', extend t b = .ok (r, t')) ∧
    (∀ b, (∃ c, getChainWithTip t (prevBlockhash b) = .ok (some c)) →
      ∃ t', extend t b = .ok (.ok (), t')) := by
  have hf := findMut_finds t h
  obtain ⟨r, hr, hg⟩ := getChainWithTip_finds t h
  have hchain : (∃ c, getChainWithTip t h = .ok (some c)) ↔ ∃ q, HasHashAt t.get? h q := by
    rw [hr, ← hg.isSome_iff]
    cases r <;> simp
  refine ⟨by rw [hchain, hf.isSome_iff], fun b hb => by rw [hchain, contains_eq_true_iff, hb],
    fun sub put c hsub hc => ?_, fun b => ?_, fun b ⟨c, hc⟩ => ?_⟩
  · rw [hsub] at hf
    cases hr.symm.trans hc
    obtain ⟨p, hp, hget, -⟩ := hf
    obtain ⟨p', hp', hpath⟩ := hg
    cases hp.unique hp'
    obtain ⟨s, hs, hhash⟩ := hp.1
    cases hget.symm.trans hs
    exact ⟨getLast?_of_path?_eq_some hpath hget, hhash, p, hp, hget⟩
  · exact extend_ok t b
  · obtain ⟨r', hr', hg'⟩ := getChainWithTip_finds t (prevBlockhash b)
    cases hr'.symm.trans hc
    obtain ⟨p, hp, -⟩ := hg'
    obtain ⟨t', he, -⟩ := extend_of_parent ⟨p, hp.1⟩
    exact ⟨t', he⟩

end Blocktree

end BitcoinCanister
