import BitcoinCanister.Blocktree
import Mathlib.Data.List.AList

/-! # The balances script `build_balances.rs`

A shallow embedding of `main` of `src/bootstrap/state-builder/src/build_balances.rs`, from the
lines of the UTXO dump to the stable map it writes. Each line is split at commas. Field 3 is
parsed as a `u64` amount and field 5 as an address. A nonzero amount is added to the address's
balance in a `BTreeMap`. The balances are then shuffled and inserted into a `StableBTreeMap`.

The library calls are modelled by what they do: `str::split`, `u64::from_str`, indexing and
`unwrap` with their panics, and the stable map's key and value size checks. The address parser
of the `bitcoin` crate and the shuffle are parameters: every theorem holds for every parser and
every permutation. Reading the file, the progress messages and writing the memory out are not
modelled.

What the script computes is proved in `BuildBalances.Totals`, and where it panics in
`BuildBalances.Panics`. -/

namespace BitcoinCanister

namespace BuildBalances

/-! ## Library calls -/

/-- Rust's `Debug` formatting, for the errors that a panic message shows. -/
class Debug (α : Type) where
  /-- The text `{:?}` prints. -/
  fmt : α → String

/-- `Result::unwrap`: the value, or a panic that shows the error. -/
def unwrapResult {ε α : Type} [Debug ε] : Except ε α → Except Panic α
  | .ok a => .ok a
  | .error e => .error ⟨"called `Result::unwrap()` on an `Err` value: " ++ Debug.fmt e⟩

/-- `str::split(sep)`: the pieces between the separators, with an empty piece before a leading
and after a trailing separator. -/
def split (sep : Char) : List Char → List (List Char)
  | [] => [[]]
  | c :: cs =>
    let pieces := split sep cs
    if c = sep then [] :: pieces else (c :: pieces.headD []) :: pieces.tail

/-- `core::num::IntErrorKind`, the reasons `u64::from_str` gives. -/
inductive IntErrorKind
  | empty
  | invalidDigit
  | posOverflow

/-- `core::num::ParseIntError`. -/
structure ParseIntError where
  /-- Why the text is not a number. -/
  kind : IntErrorKind

instance : Debug ParseIntError where
  fmt e := "ParseIntError \x7b kind: " ++
    (match e.kind with
      | .empty => "Empty"
      | .invalidDigit => "InvalidDigit"
      | .posOverflow => "PosOverflow") ++ " \x7d"

/-- The digit loop of `u64::from_str_radix` in base 10, from the value of the digits read so
far. A character that is not a digit is `InvalidDigit`, and a value of `2 ^ 64` or more is
`PosOverflow`. -/
def parseDigits : List Char → Nat → Except ParseIntError UInt64
  | [], result => .ok (UInt64.ofNat result)
  | c :: cs, result =>
    if c.isDigit then
      if result * 10 + (c.toNat - '0'.toNat) < 2 ^ 64 then
        parseDigits cs (result * 10 + (c.toNat - '0'.toNat))
      else .error ⟨.posOverflow⟩
    else .error ⟨.invalidDigit⟩

/-- `<u64 as FromStr>::from_str`: decimal digits after an optional `+`. An empty text is
`Empty`, and a lone sign is `InvalidDigit`. -/
def parseU64 (src : String) : Except ParseIntError UInt64 :=
  match src.toList with
  | [] => .error ⟨.empty⟩
  | ['+'] | ['-'] => .error ⟨.invalidDigit⟩
  | '+' :: digits => parseDigits digits 0
  | digits => parseDigits digits 0

/-- `ic_stable_structures::Storable`: the bytes a stable structure stores for a value. -/
class Storable (α : Type) where
  /-- `to_bytes`. -/
  toBytes : α → ByteArray

/-- A `u64` is stored as its 8 big-endian bytes. -/
instance : Storable UInt64 where
  toBytes v := ⟨((List.range 8).reverse.map fun i => (v >>> (8 * i).toUInt64).toUInt8).toArray⟩

/-- A `u64` is stored in 8 bytes. -/
theorem size_toBytes_uint64 (v : UInt64) : (Storable.toBytes v).size = 8 := rfl

/-- Text is stored as its UTF-8 bytes. -/
instance : Storable String := ⟨String.toUTF8⟩

/-- `ic_stable_structures::btreemap::InsertError`. -/
inductive InsertError
  | keyTooLarge (given max : Nat)
  | valueTooLarge (given max : Nat)

instance : Debug InsertError where
  fmt
    | .keyTooLarge given max =>
      "KeyTooLarge \x7b given: " ++ toString given ++ ", max: " ++ toString max ++ " \x7d"
    | .valueTooLarge given max =>
      "ValueTooLarge \x7b given: " ++ toString given ++ ", max: " ++ toString max ++ " \x7d"

/-- `StableBTreeMap`: a map with bounds on the size of the stored keys and values. The memory it
lives in is not modelled. -/
structure StableBTreeMap (K V : Type) [DecidableEq K] where
  /-- The largest key size, in bytes. -/
  maxKeySize : Nat
  /-- The largest value size, in bytes. -/
  maxValueSize : Nat
  /-- The entries, one per key. -/
  entries : AList fun _ : K => V

namespace StableBTreeMap

variable {K V : Type} [DecidableEq K]

/-- `StableBTreeMap::init(memory, max_key_size, max_value_size)` on fresh memory. -/
def init (maxKeySize maxValueSize : Nat) : StableBTreeMap K V := ⟨maxKeySize, maxValueSize, ∅⟩

/-- `StableBTreeMap::insert`: the previous value of the key, or the error of a key or a value
that is too large. -/
def insert [Storable K] [Storable V] (map : StableBTreeMap K V) (key : K) (value : V) :
    Except InsertError (Option V × StableBTreeMap K V) :=
  let keyBytes := Storable.toBytes key
  let valueBytes := Storable.toBytes value
  if map.maxKeySize < keyBytes.size then .error (.keyTooLarge keyBytes.size map.maxKeySize)
  else if map.maxValueSize < valueBytes.size then
    .error (.valueTooLarge valueBytes.size map.maxValueSize)
  else .ok (map.entries.lookup key, { map with entries := map.entries.insert key value })

/-- An insert whose key and value fit the map's bounds returns the old value and adds the entry. -/
theorem insert_of_size [Storable K] [Storable V] (map : StableBTreeMap K V) (key : K) (value : V)
    (hk : (Storable.toBytes key).size ≤ map.maxKeySize)
    (hv : (Storable.toBytes value).size ≤ map.maxValueSize) :
    map.insert key value =
      .ok (map.entries.lookup key, { map with entries := map.entries.insert key value }) := by
  simp [insert, Nat.not_lt.mpr hk, Nat.not_lt.mpr hv]

end StableBTreeMap

/-! ## `main` -/

variable {Address : Type} [DecidableEq Address]

/-- The fields of a line, `line.split(',').collect()`. -/
def fields (line : String) : List String := (split ',' line.toList).map String.mk

/-- `balances.entry(address).and_modify(|curr| *curr += amount).or_insert(amount)`. The script
is run as a release build, where `+=` on `u64` wraps. -/
def addAmount (balances : AList fun _ : Address => UInt64) (address : Address)
    (amount : UInt64) : AList fun _ : Address => UInt64 :=
  match balances.lookup address with
  | some curr => balances.insert address (curr + amount)
  | none => balances.insert address amount

/-- One round of the loop over the lines of the dump. `addressFromStr` is `Address::from_str`
of the `bitcoin` crate followed by the conversion into the canister's address type. -/
def processLine (addressFromStr : String → Option Address)
    (balances : AList fun _ : Address => UInt64) (line : String) :
    Except Panic (AList fun _ : Address => UInt64) := do
  let parts := fields line
  let amount ← unwrapResult (parseU64 (← index parts 3))
  let addressStr ← index parts 5
  match addressFromStr addressStr with
  | some address =>
    -- Update the balance of the address.
    if amount ≠ 0 then pure (addAmount balances address amount) else pure balances
  | none => pure balances

/-- The loop over the lines of the dump, from an empty `BTreeMap`. -/
def aggregate (addressFromStr : String → Option Address) (lines : List String) :
    Except Panic (AList fun _ : Address => UInt64) :=
  lines.foldlM (processLine addressFromStr) ∅

/-- One round of the loop that writes the shuffled balances into the stable map. -/
def writeBalance [Storable Address] (stableBalances : StableBTreeMap Address UInt64) :
    Address × UInt64 → Except Panic (StableBTreeMap Address UInt64)
  | (address, amount) => do
    let (_, stableBalances) ← unwrapResult (stableBalances.insert address amount)
    pure stableBalances

/-- The loop that writes the shuffled balances into a stable map with keys of at most 90 bytes
and values of at most 8. -/
def writeStable [Storable Address] (balances : List (Address × UInt64)) :
    Except Panic (StableBTreeMap Address UInt64) :=
  balances.foldlM writeBalance (StableBTreeMap.init 90 8)

/-- `main`, from the lines of the dump to the stable map. `shuffle` is the shuffle of the
balances, which the script draws from a seeded generator. The `BTreeMap` hands its entries to
the shuffle in key order; here they come in the order of the association list, which the
shuffle's arbitrary permutation absorbs. -/
def buildBalances [Storable Address] (addressFromStr : String → Option Address)
    (shuffle : List (Address × UInt64) → List (Address × UInt64)) (lines : List String) :
    Except Panic (StableBTreeMap Address UInt64) := do
  let balances ← aggregate addressFromStr lines
  writeStable (shuffle (balances.entries.map fun entry => (entry.1, entry.2)))

end BuildBalances

end BitcoinCanister
