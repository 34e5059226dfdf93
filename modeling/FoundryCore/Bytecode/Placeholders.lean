import FoundryCore.Bytecode.Order

/-!
# Linking a library by its name

The old placeholder of a library is made of characters, and is found and written over by bytes. So
a library can be linked if the part of its name that goes into the placeholder is ASCII.
-/

open Std

namespace FoundryCore.Linking

open Library (OccursAt Overwritten Apart)

variable {crates : Crates} {code : Bytes} {name : String} {address : Address}

/-! ## Names -/

/-- The part of the name that goes into the old placeholder is ASCII. -/
def AsciiPrefix (name : String) : Prop := ∀ c ∈ name.toList.take 36, c.val ≤ 127

theorem le_length_utf8 (text : List Char) : text.length ≤ (utf8 text).length := by
  induction text with
  | nil => simp
  | cons c text ih =>
    have := c.utf8Size_pos
    simp only [utf8, List.flatMap_cons, List.length_append, String.length_utf8EncodeChar,
      List.length_cons] at ih ⊢
    omega

theorem length_utf8_iff {text : List Char} :
    (utf8 text).length = text.length ↔ ∀ c ∈ text, c.val ≤ 127 := by
  refine ⟨fun length => ?_, length_utf8⟩
  induction text with
  | nil => simp
  | cons c text ih =>
    have rest := le_length_utf8 text
    have := c.utf8Size_pos
    simp only [utf8, List.flatMap_cons, List.length_append, String.length_utf8EncodeChar,
      List.length_cons] at ih rest length
    refine List.forall_mem_cons.mpr ⟨Char.utf8Size_eq_one_iff.mp (by omega), ih (by omega)⟩

theorem length_fullyQualifiedNeedle_iff :
    (fullyQualifiedNeedle name).length = 40 ↔ AsciiPrefix name := by
  have padded : (libraryFullyQualifiedPlaceholder name).length = 36 := by
    rw [libraryFullyQualifiedPlaceholder, List.length_take, List.length_append,
      List.length_replicate]
    omega
  have ends : (utf8 ['_', '_']).length = 2 := by decide
  have length : (fullyQualifiedNeedle name).length =
      (utf8 (libraryFullyQualifiedPlaceholder name)).length + 4 := by
    rw [fullyQualifiedNeedle, needle, List.length_append, List.length_append, ends]
    omega
  have ascii : (utf8 (libraryFullyQualifiedPlaceholder name)).length = 36 ↔
      ∀ c ∈ libraryFullyQualifiedPlaceholder name, c.val ≤ 127 := by
    rw [← length_utf8_iff, padded]
  have four : (fullyQualifiedNeedle name).length = 40 ↔
      (utf8 (libraryFullyQualifiedPlaceholder name)).length = 36 := by omega
  rw [four, ascii, AsciiPrefix, libraryFullyQualifiedPlaceholder, List.take_append,
    List.forall_mem_append]
  refine and_iff_left fun c mem => ?_
  rw [List.eq_of_mem_replicate (List.mem_of_mem_take mem)]
  decide

/-! ## Linking -/

/-- Linking ends, writes the address over all placeholders of the library and leaves everything
else. -/
def LinksExactly (crates : Crates) (code : Bytes) (name : String) (address : Address) : Prop :=
  ∃ code', link crates code name address = some code' ∧
    Overwritten (fun i new => MarksName crates code name i ∧ new = crates.formatHex address.1)
      code code'

/-- No two placeholders of the library share a place. -/
def PlacesApart (crates : Crates) (code : Bytes) (name : String) : Prop :=
  ∀ i j, MarksName crates code name i → MarksName crates code name j → i = j ∨ Apart 40 i j

/-- A library is linked only if its name has an ASCII prefix, and then it is. -/
theorem linksExactly_iff (documented : crates.Documented) (code : Bytes) (name : String)
    (address : Address) :
    (LinksExactly crates code name address → AsciiPrefix name) ∧
      (PlacesApart crates code name → AsciiPrefix name →
        LinksExactly crates code name address) := by
  constructor
  · rintro ⟨code', linked, -⟩
    rw [← length_fullyQualifiedNeedle_iff]
    by_contra long
    have hash : (hashNeedle crates name).length = 40 :=
      length_needle (length_libraryHashPlaceholder documented name)
    simp [link, hash, long] at linked
  · exact fun apart ascii =>
      link_overwritten documented (length_fullyQualifiedNeedle_iff.mpr ascii) apart address

theorem linksExactly_iff_oneCode :
    LinksExactly oneLibrary oneCode "lib2.sol:L" ones ∧ AsciiPrefix "lib2.sol:L" := by
  have ascii : AsciiPrefix "lib2.sol:L" := by
    intro c mem
    have small : ("lib2.sol:L".toList.take 36).all (·.toNat ≤ 127) := by simp
    exact UInt32.le_iff_toNat_le.mpr (by simpa using List.all_eq_true.mp small c mem)
  have apart : PlacesApart oneLibrary oneCode "lib2.sol:L" := fun i j mark mark' =>
    .inl ((marks_oneCode.mp mark).trans (marks_oneCode.mp mark').symm)
  have exactly := linksExactly_iff documented_oneLibrary oneCode "lib2.sol:L" ones
  exact ⟨exactly.2 apart ascii, ascii⟩

/-- The placeholder is one byte too long if there is a letter of two bytes in the path. -/
theorem not_linksExactly_accent : oneLibrary.Documented ∧
    link oneLibrary oneCode "é.sol:L" ones = none ∧
    ¬LinksExactly oneLibrary oneCode "é.sol:L" ones := by
  have panics : link oneLibrary oneCode "é.sol:L" ones = none := by decide +kernel
  exact ⟨documented_oneLibrary, panics, fun ⟨code', linked, _⟩ => by simp [panics] at linked⟩

end FoundryCore.Linking
