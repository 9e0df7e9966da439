import BitcoinCanister.BuildBalances

/-! # Where `build_balances.rs` panics

Each loop of `main` panics at its first element whose step panics: the loop over the lines at
its first malformed line, and the writing loop at its first address whose key is too large for
the stable map. Whether a step panics does not depend on what the earlier steps did, which
`foldlM_eq_error_iff` turns into the first-failure form of both loops.

* `aggregate_eq_error`, `writeStable_eq_error`: the first-failure form of each loop;
* `buildBalances_eq_error`: the script panics exactly at the first malformed line
  (`linePanic`), with the message Rust prints for it, or, when every line is well formed, at
  the first address in the shuffled order that is too large a key for the stable map. -/

namespace BitcoinCanister

namespace BuildBalances

variable {Address : Type} [DecidableEq Address]

variable {addressFromStr : String → Option Address}

/-- A loop panics exactly at its first element whose step panics, when whether a step panics
depends only on the element, as long as the loop's state keeps an invariant `I`. -/
theorem foldlM_eq_error_iff {α β ε : Type} {f : β → α → Except ε β} (fail : α → Option ε)
    (I : β → Prop) (hf : ∀ b a e, I b → (f b a = .error e ↔ fail a = some e))
    (hI : ∀ b a b', I b → f b a = .ok b' → I b') :
    ∀ (l : List α) (b : β) (e : ε), I b → (l.foldlM f b = .error e ↔
      ∃ pre a post, l = pre ++ a :: post ∧ (∀ x ∈ pre, fail x = none) ∧ fail a = some e)
  | [], _, e, _ => by simp
  | a :: l, b, e, hb => by
    rw [List.foldlM_cons]
    cases ha : fail a with
    | some e' =>
      -- The first step panics, and no later step is reached.
      rw [(hf b a e' hb).mpr ha, error_bind]
      constructor
      · rintro ⟨⟩; exact ⟨[], a, l, rfl, by simp, ha⟩
      · rintro ⟨_ | ⟨x, pre⟩, a', post, heq, hpre, hfail⟩
        · cases heq; rw [ha] at hfail; cases hfail; rfl
        · cases heq; cases (hpre a (List.mem_cons_self _ _)).symm.trans ha
    | none =>
      obtain ⟨b', h⟩ : ∃ b', f b a = .ok b' := by
        cases h : f b a with
        | error e' => cases ((hf b a e' hb).mp h).symm.trans ha
        | ok b' => exact ⟨b', rfl⟩
      rw [h, ok_bind, foldlM_eq_error_iff fail I hf hI l b' e (hI b a b' hb h)]
      constructor
      · rintro ⟨pre, x, post, rfl, hpre, hfail⟩
        exact ⟨a :: pre, x, post, rfl, List.forall_mem_cons.mpr ⟨ha, hpre⟩, hfail⟩
      · rintro ⟨_ | ⟨x, pre⟩, a', post, heq, hpre, hfail⟩
        · cases heq; rw [ha] at hfail; cases hfail
        · cases heq
          exact ⟨pre, a', post, rfl, fun y hy => hpre y (List.mem_cons_of_mem _ hy), hfail⟩

/-- The panic of a line of the dump, if it has one, with the message Rust prints. The loop body
reads field 3, parses it, then reads field 5, so a line panics at the first of: fewer than four
fields, a field 3 that is not a `u64`, fewer than six fields. -/
def linePanic (line : String) : Option Panic :=
  let parts := fields line
  if parts.length ≤ 3 then
    some ⟨"index out of bounds: the len is " ++ toString parts.length ++ " but the index is 3"⟩
  else
    match parseU64 (parts.getD 3 "") with
    | .error err => some ⟨"called `Result::unwrap()` on an `Err` value: " ++ Debug.fmt err⟩
    | .ok _ =>
      if parts.length ≤ 5 then
        some ⟨"index out of bounds: the len is " ++ toString parts.length ++ " but the index is 5"⟩
      else none

/-- The lines without a panic are those that `buildBalances_eq_totals` takes: six fields or
more, and a `u64` in field 3. -/
theorem linePanic_eq_none_iff (line : String) :
    linePanic line = none ↔
      6 ≤ (fields line).length ∧ (parseU64 ((fields line).getD 3 "")).isOk := by
  unfold linePanic
  by_cases h3 : (fields line).length ≤ 3
  · simp only [if_pos h3, reduceCtorEq, false_iff]
    omega
  · rw [if_neg h3]
    cases parseU64 ((fields line).getD 3 "") with
    | error => simp [Except.isOk, Except.toBool]
    | ok => simp only [Except.isOk, Except.toBool]; split_ifs <;> simp <;> omega

/-- One round of the loop panics exactly when its line has a panic, with that panic, whatever
the balances and the address parser. -/
theorem processLine_eq_error (balances : AList fun _ : Address => UInt64) (line : String)
    (e : Panic) :
    processLine addressFromStr balances line = .error e ↔ linePanic line = some e := by
  dsimp only [processLine, linePanic]
  by_cases h3 : (fields line).length ≤ 3
  · rw [index_eq_error h3, if_pos h3]
    simp only [error_bind, Except.error.injEq, Option.some.injEq, String.append_assoc]
    rfl
  · rw [index_of_lt (by omega) "", if_neg h3, ok_bind]
    cases parseU64 ((fields line).getD 3 "") with
    | error err => simp [unwrapResult]
    | ok amount =>
      by_cases h5 : (fields line).length ≤ 5
      · rw [unwrapResult, ok_bind, index_eq_error h5, if_pos h5]
        simp only [error_bind, Except.error.injEq, Option.some.injEq, String.append_assoc]
        rfl
      · simp only [unwrapResult, ok_bind, index_of_lt (by omega : 5 < (fields line).length) "",
          if_neg h5]
        split <;> [split; skip] <;> simp

example : linePanic "t,0,x,abc,y,a1" = some ⟨"called `Result::unwrap()` on an `Err` value: " ++
    "ParseIntError \x7b kind: InvalidDigit \x7d"⟩ := by decide

example : linePanic "t,0,x,5" =
    some ⟨"index out of bounds: the len is 4 but the index is 5"⟩ := by decide

/-- The loop over the lines of the dump panics exactly when some line has fewer than four
fields, a field 3 that is not a `u64`, or fewer than six fields, with the panic of the first
such line, whatever the address parser. -/
theorem aggregate_eq_error (addressFromStr : String → Option Address) (lines : List String)
    (e : Panic) :
    aggregate addressFromStr lines = .error e ↔
      ∃ pre line post, lines = pre ++ line :: post ∧ (∀ l ∈ pre, linePanic l = none) ∧
        linePanic line = some e :=
  foldlM_eq_error_iff linePanic (fun _ => True) (fun b line e _ => processLine_eq_error b line e)
    (fun _ _ _ _ _ => trivial) lines ∅ e trivial

/-- The panic of writing a balance into a stable map whose keys take at most `maxKeySize` bytes:
the `unwrap` of `KeyTooLarge` when the address takes more. A `u64` value takes 8 bytes, which
the map of `main` allows. -/
def writePanic [Storable Address] (maxKeySize : Nat) (address : Address) : Option Panic :=
  let given := (Storable.toBytes address).size
  if maxKeySize < given then
    some ⟨"called `Result::unwrap()` on an `Err` value: " ++
      Debug.fmt (InsertError.keyTooLarge given maxKeySize)⟩
  else none

/-- One round of the writing loop into a map with values of at most 8 bytes panics exactly when
the address is too large for the map's keys. -/
theorem writeBalance_eq_error [Storable Address] (stableBalances : StableBTreeMap Address UInt64)
    (hv : stableBalances.maxValueSize = 8) (balance : Address × UInt64) (e : Panic) :
    writeBalance stableBalances balance = .error e ↔
      writePanic stableBalances.maxKeySize balance.1 = some e := by
  obtain ⟨address, amount⟩ := balance
  simp only [writeBalance, StableBTreeMap.insert, writePanic, hv, size_toBytes_uint64,
    lt_irrefl, if_false]
  split_ifs <;> simp [unwrapResult]

/-- A round of the writing loop that returns keeps the map's bounds. -/
theorem writeBalance_bounds [Storable Address] {stableBalances stableBalances' :
    StableBTreeMap Address UInt64} {balance : Address × UInt64}
    (h : writeBalance stableBalances balance = .ok stableBalances') :
    stableBalances'.maxKeySize = stableBalances.maxKeySize ∧
      stableBalances'.maxValueSize = stableBalances.maxValueSize := by
  obtain ⟨address, amount⟩ := balance
  simp only [writeBalance, StableBTreeMap.insert] at h
  split_ifs at h <;> cases h
  exact ⟨rfl, rfl⟩

/-- The writing loop panics exactly at its first address that takes more than 90 bytes as a key,
with the `KeyTooLarge` panic of that address: it starts from a map with keys of at most 90 bytes
and values of at most 8, and keeps these bounds. -/
theorem writeStable_eq_error [Storable Address] (balances : List (Address × UInt64)) (e : Panic) :
    writeStable balances = .error e ↔ ∃ pre balance post,
      balances = pre ++ balance :: post ∧ (∀ b ∈ pre, writePanic 90 b.1 = none) ∧
        writePanic 90 balance.1 = some e :=
  foldlM_eq_error_iff (fun balance : Address × UInt64 => writePanic 90 balance.1)
    (fun m => m.maxKeySize = 90 ∧ m.maxValueSize = 8)
    (fun m balance e ⟨hk, hv⟩ => hk ▸ writeBalance_eq_error m hv balance e)
    (fun _ _ _ ⟨hk, hv⟩ h =>
      ⟨(writeBalance_bounds h).1.trans hk, (writeBalance_bounds h).2.trans hv⟩)
    balances _ e ⟨rfl, rfl⟩

/-- **Where `build_balances` panics.** Whatever the address parser and the shuffle, the script
panics exactly when a line is malformed (`linePanic`), with the panic of the first malformed
line. A line whose address does not parse is skipped only when its fields are well formed.
Otherwise it panics exactly when an address of the aggregated balances takes more than 90 bytes
as a key, with the `KeyTooLarge` panic of the first such address in the shuffled order. -/
theorem buildBalances_eq_error [Storable Address] (addressFromStr : String → Option Address)
    (shuffle : List (Address × UInt64) → List (Address × UInt64)) (lines : List String)
    (e : Panic) :
    buildBalances addressFromStr shuffle lines = .error e ↔
      (∃ pre line post, lines = pre ++ line :: post ∧ (∀ l ∈ pre, linePanic l = none) ∧
        linePanic line = some e) ∨
      ∃ balances, aggregate addressFromStr lines = .ok balances ∧
        ∃ pre balance post,
          shuffle (balances.entries.map fun entry => (entry.1, entry.2)) =
            pre ++ balance :: post ∧
          (∀ b ∈ pre, writePanic 90 b.1 = none) ∧ writePanic 90 balance.1 = some e := by
  rw [buildBalances, bind_eq_error, aggregate_eq_error]
  simp only [writeStable_eq_error]

end BuildBalances

end BitcoinCanister
