import FoundryCore.Library.Map
import FoundryCore.Library.Radix
import FoundryCore.Library.Unordered
import Mathlib.Data.List.Perm.Basic
import Mathlib.Data.List.TakeDrop

/-!
# JSON documents

Documents as a serializer writes them and a derived deserializer reads them: the entries of an
object stand in the order of the text, and a key may stand there twice. A format of a type is a
pair of functions that agree on the values the format keeps.
-/

open Std

namespace FoundryCore.Library

/-- A number as it is written, whatever its size. -/
structure Numeral where
  negative : Bool
  whole : Nat
  fraction : List (Fin 10)
  exponent : Option Int
deriving DecidableEq, Repr

inductive Json
  | null
  | bool (value : Bool)
  | number (numeral : Numeral)
  | string (text : String)
  | array (items : List Json)
  | object (entries : List (String × Json))

namespace Json

/-- The entries of an object under one of the names. -/
def named (names : List String) (entries : List (String × Json)) : List (String × Json) :=
  entries.filter fun entry => entry.1 ∈ names

/-- What a map keeps of the entries: the last one under a key. -/
def last? (entries : List (String × Json)) (key : String) : Option Json :=
  entries.reverse.lookup key

/-- A field is found at most once. -/
def readField : List (String × Json) → Option (Option Json)
  | [] => some none
  | [(_, value)] => some (some value)
  | _ => none

@[simp] theorem readField_singleton (entry : String × Json) :
    readField [entry] = some (some entry.2) := rfl

/-- The fields that a derived deserializer finds, each under its name or an alias of it. An object
may leave fields out and have others, but none twice; an array has all of them in turn. -/
def readStruct (fields : List (List String)) : Json → Option (List (Option Json))
  | .object entries => fields.mapM fun names => readField (named names entries)
  | .array items => if items.length = fields.length then some (items.map some) else none
  | _ => none

/-- As `readStruct`, where an array may leave out the last fields. -/
def readStructFrom (required : Nat) (fields : List (List String)) :
    Json → Option (List (Option Json))
  | .object entries => readStruct fields (.object entries)
  | .array items =>
    if required ≤ items.length ∧ items.length ≤ fields.length then
      some (items.map some ++ List.replicate (fields.length - items.length) none)
    else none
  | _ => none

theorem readStructFrom_object {required : Nat} {fields : List (List String)}
    {entries : List (String × Json)} {values : List (Option Json)}
    (each : List.Forall₂ (fun names value => readField (named names entries) = some value) fields
      values) : readStructFrom required fields (.object entries) = some values :=
  mapM_eq_some_iff.mpr each

/-- An optional field, which may be missing or null. -/
def readOption {α : Type} (read : Json → Option α) : Option Json → Option (Option α)
  | none | some .null => some none
  | some value => (read value).map some

@[simp] theorem readOption_none {α : Type} (read : Json → Option α) :
    readOption read none = some none := rfl

theorem readOption_of_ne_null {α : Type} {read : Json → Option α} {json : Json}
    (value : json ≠ .null) : readOption read (some json) = (read json).map some := by
  cases json <;> first | rfl | exact absurd rfl value

theorem readOption_eq_some_some {α : Type} {read : Json → Option α} {field : Option Json} {x : α} :
    readOption read field = some (some x) ↔
      ∃ json, field = some json ∧ json ≠ .null ∧ read json = some x := by
  cases field with
  | none => simp
  | some json =>
    by_cases null : json = .null
    · simp [null, readOption]
    · simp [readOption_of_ne_null null, null]

theorem named_append (names : List String) (entries entries' : List (String × Json)) :
    named names (entries ++ entries') = named names entries ++ named names entries' :=
  List.filter_append ..

theorem last?_append (entries entries' : List (String × Json)) (key : String) :
    last? (entries ++ entries') key = (last? entries' key).or (last? entries key) := by
  rw [last?, List.reverse_append, List.lookup_append, last?, last?]

theorem last?_eq_none {entries : List (String × Json)} {key : String} :
    last? entries key = none ↔ key ∉ entries.map Prod.fst := by
  simp only [last?, List.lookup_eq_none_iff, List.mem_reverse, bne_iff_ne, List.mem_map, not_exists,
    not_and]
  exact forall₂_congr fun entry _ => ne_comm

/-- Dropping the entries of other keys. -/
theorem last?_filter (kept : String → Bool) (entries : List (String × Json)) {key : String}
    (keeps : kept key = true) :
    last? (entries.filter fun entry => kept entry.1) key = last? entries key := by
  simp only [last?, ← List.filter_reverse]
  induction entries.reverse with
  | nil => rfl
  | cons entry rest ih =>
    obtain ⟨name, value⟩ := entry
    rcases eq_or_ne key name with rfl | other
    · rw [List.filter_cons, if_pos keeps, List.lookup_cons_self, List.lookup_cons_self]
    · have skipped : (key == name) = false := beq_false_of_ne other
      rw [List.filter_cons]
      split <;> simp only [List.lookup_cons, skipped, ih]

theorem named_eq_nil {names : List String} {entries : List (String × Json)} :
    named names entries = [] ↔ ∀ entry ∈ entries, entry.1 ∉ names := by
  simp [named, List.filter_eq_nil_iff]

end Json

/-- In which order the entries of a hash map are met, by the keys that lead to it. -/
structure Iteration where
  arrange : List String → List (String × Json) → List (String × Json)
  perm : ∀ path entries, (arrange path entries).Perm entries

/-- The entries as they are sorted. -/
def Iteration.sorted : Iteration := ⟨fun _ entries => entries, fun _ _ => .refl _⟩

/-- A format of a type, and the values that it keeps. -/
structure Codec (α : Type) where
  encode : Iteration → List String → α → Json
  decode : Json → Option α
  Fits : α → Prop
  decode_encode : ∀ iteration path a, Fits a → decode (encode iteration path a) = some a

/-- A format of the keys of a map. -/
structure KeyText (κ : Type) where
  text : κ → String
  read : String → Option κ
  read_text : ∀ k, read (text k) = some k

/-- Strings as keys. -/
def stringKey : KeyText String := ⟨id, some, fun _ => rfl⟩

/-- The text of documents. An object that fits into its limits is read back from its text, and from
no beginning of it. -/
structure JsonText where
  write : Json → List (BitVec 8)
  read : List (BitVec 8) → Option Json
  Fits : List (String × Json) → Prop
  read_write : ∀ entries, Fits entries → read (write (.object entries)) = some (.object entries)
  read_take : ∀ entries n, Fits entries → n < (write (.object entries)).length →
    read ((write (.object entries)).take n) = none
  read_nil : read [] = none
  read_parenthesis : ∀ rest, read (0x28 :: rest) = none

/-- A text format of a single document. -/
def JsonText.ofDocument (entries : List (String × Json)) (text : List (BitVec 8))
    (brace : text.head? = some 0x7B) : JsonText where
  write _ := text
  read raw := if raw = text then some (.object entries) else none
  Fits entries' := entries' = entries
  read_write entries' fits := by rw [if_pos rfl, fits]
  read_take entries' n _ less := if_neg fun same => less.not_ge ((List.take_eq_self_iff _).mp same)
  read_nil := if_neg fun same => by simp [← same] at brace
  read_parenthesis rest := if_neg fun same => by simp [← same] at brace

theorem JsonText.read_ofDocument (entries : List (String × Json)) (text : List (BitVec 8))
    (brace : text.head? = some 0x7B) :
    (ofDocument entries text brace).read text = some (.object entries) := if_pos rfl

theorem JsonText.fits_ofDocument (entries : List (String × Json)) (text : List (BitVec 8))
    (brace : text.head? = some 0x7B) : (ofDocument entries text brace).Fits entries := rfl

/-! ## Maps -/

namespace Codec

variable {κ β : Type} (key : KeyText κ) (value : Codec β)

def writeEntry (iteration : Iteration) (path : List String) (entry : κ × β) : String × Json :=
  let text := key.text entry.1
  (text, value.encode iteration (path ++ [text]) entry.2)

def readEntry (entry : String × Json) : Option (κ × β) :=
  match key.read entry.1, value.decode entry.2 with
  | some k, some v => some (k, v)
  | _, _ => none

theorem readEntry_writeEntry (iteration : Iteration) (path : List String) {entry : κ × β}
    (fits : value.Fits entry.2) :
    readEntry key value (writeEntry key value iteration path entry) = some entry := by
  simp only [readEntry, writeEntry, key.read_text, value.decode_encode _ _ _ fits]

/-- Entries that are written and met in another order are all read. -/
theorem mapM_readEntry {iteration : Iteration} {path : List String} {l : List (κ × β)}
    {written : List (String × Json)}
    (perm : written.Perm (l.map (writeEntry key value iteration path)))
    (fits : ∀ entry ∈ l, value.Fits entry.2) :
    ∃ read, written.mapM (readEntry key value) = some read ∧ read.Perm l := by
  have back : ∀ entry ∈ l, (readEntry key value ∘ writeEntry key value iteration path) entry =
      some entry :=
    fun entry mem => readEntry_writeEntry key value iteration path (fits entry mem)
  have all : ∀ entry ∈ written, (readEntry key value entry).isSome = true := by
    intro written inside
    obtain ⟨entry, mem, rfl⟩ := List.mem_map.mp (perm.mem_iff.mp inside)
    exact Option.isSome_of_eq_some (back entry mem)
  refine ⟨written.filterMap (readEntry key value), by rw [mapM_eq_ite, if_pos all], ?_⟩
  have same := perm.filterMap (readEntry key value)
  rwa [List.filterMap_map, List.filterMap_congr back, List.filterMap_some] at same

variable [Ord κ] [TransOrd κ] [LawfulEqOrd κ]

/-- A map does not depend on the order in which its entries are listed. -/
theorem ofList_eq_of_perm_toList {l : List (κ × β)} {m : ExtTreeMap κ β} (perm : l.Perm m.toList) :
    ExtTreeMap.ofList l = m := by
  classical
  have distinct : (l.map Prod.fst).Nodup := by
    rw [(perm.map Prod.fst).nodup_iff, List.Nodup, List.pairwise_map]
    refine ExtTreeMap.distinct_keys_toList.imp fun apart same => apart ?_
    rw [same]
    exact ReflCmp.compare_self
  apply ExtTreeMap.ext_getElem?
  intro k
  apply Option.ext
  intro v
  rw [getElem?_ofList_eq_some distinct, perm.mem_iff, ExtTreeMap.mem_toList_iff_getElem?_eq_some]

def encodeMap (iteration : Iteration) (path : List String) (m : ExtTreeMap κ β) : Json :=
  .object (iteration.arrange path (m.toList.map (writeEntry key value iteration path)))

/-- Of equal keys the last one counts. -/
def decodeMap : Json → Option (ExtTreeMap κ β)
  | .object entries => (entries.mapM (readEntry key value)).map fun read => ExtTreeMap.ofList read
  | _ => none

/-- A map as an object. -/
def map : Codec (ExtTreeMap κ β) where
  encode := encodeMap key value
  decode := decodeMap key value
  Fits m := ∀ k v, m[k]? = some v → value.Fits v
  decode_encode iteration path m fits := by
    obtain ⟨read, eq, perm⟩ := mapM_readEntry key value
      (iteration.perm path (m.toList.map (writeEntry key value iteration path))) fun entry mem =>
        fits entry.1 entry.2 (ExtTreeMap.mem_toList_iff_getElem?_eq_some.mp mem)
    simp only [decodeMap, encodeMap, eq, Option.map_some, ofList_eq_of_perm_toList perm]

end Codec

/-! ## Numbers and bytes in texts -/

/-- A number with the prefix of hexadecimal digits, at least as many as given. -/
def hexText (width n : Nat) : String :=
  .ofList ('0' :: 'x' :: (Nat.toDigits 16 n).leftpad width '0')

def readHex (text : String) : Option Nat :=
  match text.toList with
  | '0' :: 'x' :: digits => readNumber 16 digits
  | _ => none

@[simp] theorem readHex_hexText (width n : Nat) : readHex (hexText width n) = some n := by
  simp only [readHex, hexText, String.toList_ofList]
  rw [readNumber_leftpad (by decide), readNumber_toDigits (by decide) (by decide)]

def hexKey (w width : Nat) : KeyText (BitVec w) where
  text k := hexText width k.toNat
  read text := (readHex text).map (BitVec.ofNat w)
  read_text k := by simp

def hexCodec (w width : Nat) : Codec (BitVec w) where
  encode _ _ x := .string (hexText width x.toNat)
  decode
    | .string text => (readHex text).map (BitVec.ofNat w)
    | _ => none
  Fits _ := True
  decode_encode _ _ x _ := by simp

def naturalJson (n : Nat) : Json := .number ⟨false, n, [], none⟩

def readNatural : Json → Option Nat
  | .number ⟨false, n, [], none⟩ => some n
  | _ => none

@[simp] theorem readNatural_naturalJson (n : Nat) : readNatural (naturalJson n) = some n := rfl

def asciiBytes (text : String) : List (BitVec 8) := text.toList.map fun c => .ofNat 8 c.toNat

end FoundryCore.Library
