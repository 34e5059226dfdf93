import FoundryCore.Bytecode.Order

/-!
# Stripping placeholders

To compare bytecode that is not linked, its placeholders are to be read as zero bytes. The regular
expression for them leaves out one underscore on either side, so what comes out is no hex string.
-/

open Std

namespace FoundryCore.Linking

/-! ## Replacing by a regular expression -/

/-- How many bytes `.` matches at the beginning of a text: one character that is no newline. -/
def anyLength : Bytes → Option Nat
  | [] => none
  | b :: _ =>
    if b = 10 then none else if b < 0x80 then some 1 else if b < 0xE0 then some 2
    else if b < 0xF0 then some 3 else some 4

/-- What follows as many characters as are given. -/
def afterAny : Nat → Bytes → Option Bytes
  | 0, text => some text
  | n + 1, text => (anyLength text).bind fun length => afterAny n (text.drop length)

/-- What follows `_\\$.{34}\\$_`. -/
def afterPlaceholder : Bytes → Option Bytes
  | 95 :: 36 :: text =>
    match afterAny 34 text with
    | some (36 :: 95 :: rest) => some rest
    | _ => none
  | _ => none

/-- Replaces all matches; as many bytes as are given first belong to the match before. -/
def replaceFrom : Nat → Bytes → Bytes
  | _, [] => []
  | matched + 1, _ :: text => replaceFrom matched text
  | 0, b :: text =>
    match afterPlaceholder (b :: text) with
    | some rest => List.replicate 80 48 ++ replaceFrom (text.length - rest.length) text
    | none => b :: replaceFrom 0 text

variable (crates : Crates)

/-- Replaces all placeholders with zeros and decodes what is left. -/
def replacePlaceholdersAndDecode (text : Bytes) : Option Bytes :=
  crates.decodeHex (replaceFrom 0 text)

/-- Strips all placeholders from the bytecode if it is unlinked. -/
def BytecodeObject.stripBytecodePlaceholders : BytecodeObject → Option Bytes
  | .bytecode bytes => some bytes
  | .unlinked text => replacePlaceholdersAndDecode crates text

/-! ## Objects with placeholders -/

/-- A byte in hex, or the placeholder of a library. -/
inductive Piece
  | byte (high low : UInt8) (digits : isHexDigit high ∧ isHexDigit low)
  | placeholder (hash : Bytes) (length : hash.length = 34) (digits : ∀ b ∈ hash, isHexDigit b)

namespace Piece

def text : Piece → Bytes
  | byte high low _ => [high, low]
  | placeholder hash _ _ => [95, 95, 36] ++ hash ++ [36, 95, 95]

/-- The byte, or the place of an address. -/
def bytes : Piece → Bytes
  | byte high low _ => [(hexValue high).getD 0 * 16 + (hexValue low).getD 0]
  | placeholder _ _ _ => List.replicate 20 0

def isPlaceholder : Piece → Bool
  | byte _ _ _ => false
  | placeholder _ _ _ => true

end Piece

/-- The hex string is decoded with twenty zero bytes for each placeholder, and every other byte at
its place. -/
def Strips (pieces : List Piece) : Prop :=
  ∃ bytes, (BytecodeObject.unlinked (pieces.flatMap Piece.text)).stripBytecodePlaceholders crates =
      some bytes ∧
    bytes = pieces.flatMap Piece.bytes ∧ 2 * bytes.length = (pieces.flatMap Piece.text).length

/-- What the crate documents of decoding. -/
structure Crates.DecodesDigits : Prop where
  digits : ∀ text, (∀ b ∈ text, isHexDigit b) → crates.decodeHex text = decodeDigits text
  other : ∀ text, (∃ b ∈ text, isHexDigit b = false ∧ b ≠ 120) → crates.decodeHex text = none

variable {crates} {pieces : List Piece}

theorem Piece.length_text (piece : Piece) : 2 * piece.bytes.length = piece.text.length := by
  cases piece with
  | byte => rfl
  | placeholder hash length => simp [text, bytes, length]

theorem length_flatMap_text : 2 * (pieces.flatMap Piece.bytes).length =
    (pieces.flatMap Piece.text).length := by
  induction pieces with
  | nil => rfl
  | cons piece pieces ih =>
    have := piece.length_text
    simp only [List.flatMap_cons, List.length_append]
    omega

/-- Hex digits are left as they are. -/
theorem replaceFrom_append {before : Bytes} (plain : ∀ b ∈ before, b ≠ 95) (text : Bytes) :
    replaceFrom 0 (before ++ text) = before ++ replaceFrom 0 text := by
  induction before with
  | nil => rfl
  | cons b before ih =>
    have first : afterPlaceholder (b :: (before ++ text)) = none := by
      have other := plain b (.head _)
      unfold afterPlaceholder
      split
      next text' eq => exact absurd (List.cons.inj eq).1 other
      next => rfl
    rw [List.cons_append, replaceFrom, first, ih fun c mem => plain c (.tail _ mem)]
    rfl

theorem Piece.digits_of_byte {piece : Piece} (byte : piece.isPlaceholder = false) :
    ∀ b ∈ piece.text, isHexDigit b := by
  cases piece with
  | byte high low digits => simpa [text] using digits
  | placeholder => cases byte

theorem digits_of_bytes (bytes : ∀ piece ∈ pieces, piece.isPlaceholder = false) :
    ∀ b ∈ pieces.flatMap Piece.text, isHexDigit b := by
  intro b mem
  obtain ⟨piece, inside, mem⟩ := List.mem_flatMap.mp mem
  exact piece.digits_of_byte (bytes piece inside) b mem

theorem underscore_of_isHexDigit {b : UInt8} (digit : isHexDigit b) : b ≠ 95 := by
  rintro rfl
  exact absurd digit (by decide)

theorem decodeDigits_text (bytes : ∀ piece ∈ pieces, piece.isPlaceholder = false) :
    decodeDigits (pieces.flatMap Piece.text) = some (pieces.flatMap Piece.bytes) := by
  induction pieces with
  | nil => rfl
  | cons piece pieces ih =>
    have rest := ih fun piece mem => bytes piece (.tail _ mem)
    cases piece with
    | placeholder => cases bytes _ (.head _)
    | byte high low digits =>
      obtain ⟨h, eq⟩ := Option.isSome_iff_exists.mp (hexValue_isSome high digits.1)
      obtain ⟨l, eq'⟩ := Option.isSome_iff_exists.mp (hexValue_isSome low digits.2)
      simp [Piece.text, Piece.bytes, decodeDigits, eq, eq', rest]

/-- The first underscore of the first placeholder is left. -/
theorem underscore_mem_replaceFrom (someEq : ∃ piece ∈ pieces, piece.isPlaceholder = true) :
    95 ∈ replaceFrom 0 (pieces.flatMap Piece.text) := by
  induction pieces with
  | nil => simp at someEq
  | cons piece pieces ih =>
    rw [List.flatMap_cons]
    cases piece with
    | byte high low digits =>
      have plain : ∀ b ∈ (Piece.byte high low digits).text, b ≠ 95 := fun b mem =>
        underscore_of_isHexDigit (Piece.digits_of_byte rfl b mem)
      rw [replaceFrom_append plain]
      refine List.mem_append_right _ (ih ?_)
      simpa [Piece.isPlaceholder] using someEq
    | placeholder hash length digits => exact .head _

/-- An object is stripped if and only if it has no placeholder. -/
theorem strips_iff (decodes : crates.DecodesDigits) :
    Strips crates pieces ↔ ∀ piece ∈ pieces, piece.isPlaceholder = false := by
  constructor
  · rintro ⟨bytes, stripped, -⟩
    by_contra someEq
    have underscore : 95 ∈ replaceFrom 0 (pieces.flatMap Piece.text) :=
      underscore_mem_replaceFrom (by simpa using someEq)
    have fails := decodes.other _ ⟨95, underscore, by decide⟩
    simp [BytecodeObject.stripBytecodePlaceholders, replacePlaceholdersAndDecode, fails] at stripped
  · intro bytes
    have digits := digits_of_bytes bytes
    have kept : replaceFrom 0 (pieces.flatMap Piece.text) = pieces.flatMap Piece.text := by
      simpa [replaceFrom] using replaceFrom_append
        (fun b mem => underscore_of_isHexDigit (digits b mem)) []
    refine ⟨_, ?_, rfl, length_flatMap_text⟩
    simp only [BytecodeObject.stripBytecodePlaceholders, replacePlaceholdersAndDecode, kept,
      decodes.digits _ digits, decodeDigits_text bytes]

/-! ## One placeholder -/

theorem hexValue_eq_none {b : UInt8} (other : isHexDigit b = false) : hexValue b = none := by
  simp only [isHexDigit, Bool.or_eq_false_iff, Bool.and_eq_false_iff, decide_eq_false_iff_not]
    at other
  unfold hexValue
  split_ifs <;> grind

theorem decodeDigits_eq_none (text : Bytes) (other : ∃ b ∈ text, isHexDigit b = false) :
    decodeDigits text = none := by
  induction text using decodeDigits.induct with
  | case1 => simp at other
  | case2 b => rfl
  | case3 b c rest ih =>
    simp only [List.mem_cons, exists_eq_or_imp] at other
    rcases other with other | other | other
    · simp [decodeDigits, hexValue_eq_none other]
    · simp [decodeDigits, hexValue_eq_none other]
    · simp [decodeDigits, ih other]

theorem decodesDigits_oneLibrary : oneLibrary.DecodesDigits where
  digits _ _ := rfl
  other text := fun ⟨b, mem, other, _⟩ => decodeDigits_eq_none text ⟨b, mem, other⟩

/-- A byte before a placeholder. -/
def onePlaceholder : List Piece :=
  [.byte 54 48 (by decide), .placeholder (List.replicate 34 97) (by decide) (by simp; decide)]

/-- The bytes `60fF5b00`. -/
def fourBytes : List Piece :=
  [.byte 54 48 (by decide), .byte 102 70 (by decide), .byte 53 98 (by decide),
    .byte 48 48 (by decide)]

theorem strips_iff_fourBytes : Strips oneLibrary fourBytes :=
  (strips_iff decodesDigits_oneLibrary).mpr (by decide)

/-- With a placeholder in it, the object is not decoded at all. -/
theorem not_strips_onePlaceholder : oneLibrary.DecodesDigits ∧
    (BytecodeObject.unlinked (onePlaceholder.flatMap Piece.text)).stripBytecodePlaceholders
      oneLibrary = none ∧
    ¬Strips oneLibrary onePlaceholder := by
  have fails : (BytecodeObject.unlinked
      (onePlaceholder.flatMap Piece.text)).stripBytecodePlaceholders oneLibrary = none := by
    decide +kernel
  exact ⟨decodesDigits_oneLibrary, fails, fun ⟨_, stripped, _⟩ => by simp [fails] at stripped⟩

end FoundryCore.Linking
