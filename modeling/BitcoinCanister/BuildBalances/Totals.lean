import BitcoinCanister.BuildBalances
import Mathlib.Algebra.Order.Ring.Nat

/-! # What `build_balances.rs` computes

The balance of an address is the sum, over the lines of the dump whose field 5 parses to it, of
the amounts of field 3 (`total`). The two loops of `main` are proved one at a time, by induction
over the lines and over the shuffled balances, and `buildBalances_eq_totals` puts them together.

* `foldlM_processLine_lookup`: the aggregation loop sums the amounts of every address.
* `foldlM_writeBalance_lookup`: inserting pairs with distinct keys gives a map holding exactly
  them.
* `buildBalances_eq_totals`: the stable map holds, for each address with a nonzero line, the sum
  of the amounts of its lines, whatever the shuffle. -/

namespace BitcoinCanister

namespace BuildBalances

variable {Address : Type} [DecidableEq Address]

/-! ## `u64` arithmetic -/

/-- Addition of `u64` wraps modulo `2 ^ 64`. -/
theorem toNat_add (a b : UInt64) : (a + b).toNat = (a.toNat + b.toNat) % 2 ^ 64 := by
  simp [UInt64.add_def, UInt64.toNat, BitVec.toNat_add]

/-- A `u64` is less than `2 ^ 64`. -/
theorem toNat_lt (a : UInt64) : a.toNat < 2 ^ 64 := a.toNat_lt_size

/-- A `u64` is zero exactly when its value is. -/
theorem toNat_eq_zero {a : UInt64} : a.toNat = 0 ↔ a = 0 :=
  ⟨fun h => UInt64.toNat.inj (by simpa using h), fun h => by simp [h]⟩

/-! ## What the script computes -/

section Totals

variable {addressFromStr : String → Option Address}

/-- The amount of a line, `0` when its amount field is not a number. -/
def lineAmount (line : String) : Nat :=
  match parseU64 ((fields line).getD 3 "") with
  | .ok amount => amount.toNat
  | .error _ => 0

/-- The address of a line, when its address field parses. -/
def lineAddress (addressFromStr : String → Option Address) (line : String) : Option Address :=
  addressFromStr ((fields line).getD 5 "")

/-- The sum of the amounts of the lines whose address field parses to `address`. -/
def total (addressFromStr : String → Option Address) (lines : List String) (address : Address) :
    Nat :=
  ((lines.filter fun line => lineAddress addressFromStr line = some address).map lineAmount).sum

/-- The total of an address over a line and more lines. -/
theorem total_cons (line : String) (lines : List String) (address : Address) :
    total addressFromStr (line :: lines) address =
      (if lineAddress addressFromStr line = some address then lineAmount line else 0) +
        total addressFromStr lines address := by
  unfold total
  split <;> simp [List.filter_cons, *]

/-- An address with no line of nonzero amount has total `0`. -/
theorem total_eq_zero {lines : List String} {a : Address}
    (h : ¬ ∃ line ∈ lines, lineAddress addressFromStr line = some a ∧ lineAmount line ≠ 0) :
    total addressFromStr lines a = 0 := by
  induction lines with
  | nil => rfl
  | cons line lines ih =>
    rw [List.exists_mem_cons_iff, not_or] at h
    rw [total_cons, ih h.2]
    split_ifs with ha
    · exact not_not.mp fun hne => h.1 ⟨ha, hne⟩
    · rfl

/-- The amounts of one address sum to at most the amounts of all lines. -/
theorem total_le (lines : List String) (address : Address) :
    total addressFromStr lines address ≤ (lines.map lineAmount).sum := by
  induction lines with
  | nil => rfl
  | cons line lines ih =>
    rw [total_cons, List.map_cons, List.sum_cons]
    split_ifs <;> omega

end Totals

/-! ## The two loops -/

variable {addressFromStr : String → Option Address}

/-- Adding an amount to an address changes only that address's balance, by a wrapping sum. -/
theorem lookup_addAmount (balances : AList fun _ : Address => UInt64) (address a : Address)
    (amount : UInt64) :
    ((addAmount balances address amount).lookup a).map UInt64.toNat =
      if address = a then
        some ((((balances.lookup a).map UInt64.toNat).getD 0 + amount.toNat) % 2 ^ 64)
      else (balances.lookup a).map UInt64.toNat := by
  unfold addAmount
  split_ifs with ha
  · subst ha
    cases h : balances.lookup address with
    | none => have := toNat_lt amount; simp [AList.lookup_insert, h]; omega
    | some curr => simp [AList.lookup_insert, h, toNat_add]
  · cases balances.lookup address <;> simp [AList.lookup_insert_ne (Ne.symm ha)]

/-- **One line.** A line with at least six fields and a number in field 3 adds its amount to
the balance of the address of field 5, if that field parses and the amount is not zero. -/
theorem processLine_lookup (addressFromStr : String → Option Address)
    (balances : AList fun _ : Address => UInt64) {line : String}
    (h6 : 6 ≤ (fields line).length) (hamount : (parseU64 ((fields line).getD 3 "")).isOk) :
    ∃ balances', processLine addressFromStr balances line = .ok balances' ∧
      ∀ a, (balances'.lookup a).map UInt64.toNat =
        if lineAddress addressFromStr line = some a ∧ lineAmount line ≠ 0 then
          some ((((balances.lookup a).map UInt64.toNat).getD 0 + lineAmount line) % 2 ^ 64)
        else (balances.lookup a).map UInt64.toNat := by
  obtain ⟨amount, hparse⟩ : ∃ amount, parseU64 ((fields line).getD 3 "") = .ok amount := by
    cases h : parseU64 ((fields line).getD 3 "") with
    | error e => rw [h] at hamount; exact absurd hamount (by simp [Except.isOk, Except.toBool])
    | ok amount => exact ⟨amount, rfl⟩
  have hline : lineAmount line = amount.toNat := by unfold lineAmount; rw [hparse]
  simp only [processLine, index_of_lt (by omega : 3 < (fields line).length) "",
    index_of_lt (by omega : 5 < (fields line).length) "", hparse, ok_bind, unwrapResult, hline,
    show addressFromStr ((fields line).getD 5 "") = lineAddress addressFromStr line from rfl]
  cases haddr : lineAddress addressFromStr line with
  | none => exact ⟨balances, rfl, fun a => by simp⟩
  | some address =>
    by_cases hzero : amount = 0
    · exact ⟨balances, by simp [hzero], fun a => by simp [hzero]⟩
    · refine ⟨_, by simp [hzero]; rfl, fun a => ?_⟩
      rw [lookup_addAmount]
      simp [toNat_eq_zero, hzero]

/-- **The aggregation loop.** Over lines with at least six fields and a number in field 3,
the loop adds to each address the amounts of its lines, when some of them is not zero. Without
overflow, the balance after the loop is the balance before it plus the total of the lines. -/
theorem foldlM_processLine_lookup : ∀ (lines : List String)
    (balances : AList fun _ : Address => UInt64),
    (∀ line ∈ lines, 6 ≤ (fields line).length ∧ (parseU64 ((fields line).getD 3 "")).isOk) →
    (∀ a, ((balances.lookup a).map UInt64.toNat).getD 0 + total addressFromStr lines a < 2 ^ 64) →
    ∃ balances', lines.foldlM (processLine addressFromStr) balances = .ok balances' ∧
      ∀ a, (balances'.lookup a).map UInt64.toNat =
        if ∃ line ∈ lines, lineAddress addressFromStr line = some a ∧ lineAmount line ≠ 0 then
          some (((balances.lookup a).map UInt64.toNat).getD 0 + total addressFromStr lines a)
        else (balances.lookup a).map UInt64.toNat
  | [], balances, _, _ => ⟨balances, rfl, fun a => by simp⟩
  | line :: lines, balances, hfields, hbound => by
    obtain ⟨h6, hamount⟩ := hfields line (List.mem_cons_self _ _)
    obtain ⟨balances₁, hline, hlookup₁⟩ := processLine_lookup addressFromStr balances h6 hamount
    have hbound₁ : ∀ a, ((balances₁.lookup a).map UInt64.toNat).getD 0 +
        total addressFromStr lines a < 2 ^ 64 := by
      intro a
      have := hbound a
      rw [total_cons] at this
      rw [hlookup₁ a]
      split_ifs with h
      · simp only [h.1, if_true, Option.getD_some] at this ⊢
        omega
      · omega
    obtain ⟨balances', hrest, hlookup'⟩ := foldlM_processLine_lookup lines balances₁
      (fun l hl => hfields l (List.mem_cons_of_mem _ hl)) hbound₁
    refine ⟨balances', by rw [List.foldlM_cons, hline, ok_bind, hrest], fun a => ?_⟩
    have := hbound a
    rw [total_cons] at this
    rw [hlookup' a, hlookup₁ a, total_cons]
    by_cases h : lineAddress addressFromStr line = some a ∧ lineAmount line ≠ 0
    · have hex : ∃ l ∈ line :: lines, lineAddress addressFromStr l = some a ∧ lineAmount l ≠ 0 :=
        ⟨line, List.mem_cons_self _ _, h⟩
      rw [if_pos h, if_pos hex, if_pos h.1, Option.getD_some,
        Nat.mod_eq_of_lt (by rw [if_pos h.1] at this; omega)]
      split_ifs with hrest
      · rw [Nat.add_assoc]
      · rw [total_eq_zero hrest, Nat.add_zero]
    · have hzero :
          (if lineAddress addressFromStr line = some a then lineAmount line else 0) = 0 := by
        split_ifs with ha
        · exact not_not.mp fun hne => h ⟨ha, hne⟩
        · rfl
      rw [if_neg h, hzero, Nat.zero_add]
      simp only [List.exists_mem_cons_iff, h, false_or]

/-- **The writing loop.** Inserting pairs with distinct keys of at most 90 bytes never panics,
and gives a map that holds the pairs, and the old entries of the other keys. -/
theorem foldlM_writeBalance_lookup [Storable Address] : ∀ (balances : List (Address × UInt64))
    (stableBalances : StableBTreeMap Address UInt64),
    stableBalances.maxKeySize = 90 → stableBalances.maxValueSize = 8 →
    (balances.map Prod.fst).Nodup → (∀ p ∈ balances, (Storable.toBytes p.1).size ≤ 90) →
    ∃ stableBalances', balances.foldlM writeBalance stableBalances = .ok stableBalances' ∧
      ∀ a v, stableBalances'.entries.lookup a = some v ↔
        (a, v) ∈ balances ∨ (a ∉ balances.map Prod.fst ∧ stableBalances.entries.lookup a = some v)
  | [], stableBalances, _, _, _, _ => ⟨stableBalances, rfl, fun a v => by simp⟩
  | (address, amount) :: balances, stableBalances, hk, hv, hnodup, hsize => by
    have hins := StableBTreeMap.insert_of_size stableBalances address amount
      (hk ▸ hsize _ (List.mem_cons_self _ _)) (by rw [hv, size_toBytes_uint64])
    obtain ⟨hnew, hnodup'⟩ := List.nodup_cons.mp hnodup
    obtain ⟨stableBalances', hrest, hlookup⟩ := foldlM_writeBalance_lookup balances
      { stableBalances with entries := stableBalances.entries.insert address amount } hk hv hnodup'
      (fun p hp => hsize p (List.mem_cons_of_mem _ hp))
    refine ⟨stableBalances', ?_, fun a v => ?_⟩
    · rw [List.foldlM_cons]
      simp [writeBalance, hins, unwrapResult, hrest]
    rw [hlookup]
    by_cases ha : a = address
    · subst ha
      have hmem : (a, v) ∉ balances := fun h => hnew (by simpa using List.mem_map_of_mem Prod.fst h)
      simp [hmem, hnew, AList.lookup_insert, eq_comm]
    · simp [ha, AList.lookup_insert_ne ha]

/-! ## The balances -/

/-- **The balances script.** Take lines that each have at least six comma-separated fields
with a `u64` in field 3, and such that the amounts of the lines of each address sum to less
than `2 ^ 64`. Take any address parser whose addresses are stored in at most 90 bytes, and any
permutation as the shuffle. Then `build_balances` does not panic. The stable map it writes holds
one entry for each address that field 5 of some line with a nonzero amount parses to, and that
entry is the sum of field 3 over all lines whose field 5 parses to the address. It holds no
other entry. -/
theorem buildBalances_eq_totals [Storable Address] (addressFromStr : String → Option Address)
    (hkey : ∀ s address, addressFromStr s = some address → (Storable.toBytes address).size ≤ 90)
    (shuffle : List (Address × UInt64) → List (Address × UInt64))
    (hshuffle : ∀ l, List.Perm (shuffle l) l)
    (lines : List String)
    (hfields : ∀ line ∈ lines,
      6 ≤ (fields line).length ∧ (parseU64 ((fields line).getD 3 "")).isOk)
    (htotal : ∀ address, total addressFromStr lines address < 2 ^ 64) :
    ∃ stableBalances, buildBalances addressFromStr shuffle lines = .ok stableBalances ∧
      ∀ address, (stableBalances.entries.lookup address).map UInt64.toNat =
        if ∃ line ∈ lines, lineAddress addressFromStr line = some address ∧ lineAmount line ≠ 0
        then some (total addressFromStr lines address) else none := by
  obtain ⟨balances, hagg, hlookup⟩ :=
    foldlM_processLine_lookup lines ∅ hfields (by simpa using htotal)
  let entries := balances.entries.map fun entry => (entry.1, entry.2)
  have hmem : ∀ a v, (a, v) ∈ entries ↔ balances.lookup a = some v := fun a v => by
    simp [entries, ← AList.mem_lookup_iff]
  have hnodup : (entries.map Prod.fst).Nodup := by
    simpa [entries, List.map_map] using balances.nodupKeys
  have hsize : ∀ p ∈ shuffle entries, (Storable.toBytes p.1).size ≤ 90 := by
    rintro ⟨a, v⟩ hp
    have hsome := hlookup a
    rw [(hmem a v).mp ((hshuffle entries).mem_iff.mp hp)] at hsome
    split_ifs at hsome with h
    · obtain ⟨line, -, haddr, -⟩ := h
      exact hkey _ a haddr
    · simp at hsome
  obtain ⟨stableBalances, hwrite, hstable⟩ := foldlM_writeBalance_lookup (shuffle entries)
    (StableBTreeMap.init 90 8) rfl rfl ((hshuffle entries).map Prod.fst |>.nodup_iff.mpr hnodup)
    hsize
  refine ⟨stableBalances, by simp [buildBalances, aggregate, hagg, writeStable, hwrite],
    fun a => ?_⟩
  have hsame : stableBalances.entries.lookup a = balances.lookup a := Option.ext fun v => by
    rw [Option.mem_def, hstable, (hshuffle entries).mem_iff, hmem]
    simp [StableBTreeMap.init]
  simpa [hsame] using hlookup a

/-- `buildBalances_eq_totals` on a small dump: two lines of `a1`, a zero line of `a2`, and a line
whose address does not parse. -/
theorem buildBalances_eq_totals_small_dump :
    ∃ stableBalances, buildBalances (fun s => if s = "a1" ∨ s = "a2" then some s else none) id
        ["t,0,x,5,y,a1", "t,1,x,7,y,a1", "t,2,x,0,y,a2", "t,3,x,4,y,zz"] = .ok stableBalances ∧
      ∀ address, (stableBalances.entries.lookup address).map UInt64.toNat =
        if ∃ line ∈ ["t,0,x,5,y,a1", "t,1,x,7,y,a1", "t,2,x,0,y,a2", "t,3,x,4,y,zz"],
            lineAddress (fun s => if s = "a1" ∨ s = "a2" then some s else none) line =
              some address ∧ lineAmount line ≠ 0
        then some (total (fun s => if s = "a1" ∨ s = "a2" then some s else none)
          ["t,0,x,5,y,a1", "t,1,x,7,y,a1", "t,2,x,0,y,a2", "t,3,x,4,y,zz"] address)
        else none :=
  buildBalances_eq_totals _
    (fun s address h => by
      split at h
      · cases h
        rcases ‹s = "a1" ∨ s = "a2"› with rfl | rfl <;> decide
      · cases h)
    id List.Perm.refl _ (by decide)
    (fun address => lt_of_le_of_lt (total_le _ address) (by decide))

end BuildBalances

end BitcoinCanister
