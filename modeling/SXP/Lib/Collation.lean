import Mathlib.Data.List.DropRight

/-!
# Texts in a database

A database need not tell two texts apart that differ.  One that fills the shorter of two texts with
blanks does not see the blanks at the end (`padded`).
-/

namespace SXP.Lib

/-- What a database takes for the same text. -/
structure Collation where
  eq : String → String → Bool
  equivalence : Equivalence fun s t => eq s t = true

namespace Collation

variable (C : Collation)

/-- The condition `field = value` of a query: null is equal to nothing. -/
def holds (field value : Option String) : Bool :=
  match field, value with
  | some s, some t => C.eq s t
  | _, _ => false

/-- The rows with this value, in the order of the database. -/
def select {α : Type} (table : List α) (field : α → Option String) (value : Option String) :
    List α :=
  table.filter fun a => C.holds (field a) value

variable {C}

theorem holds_none {field : Option String} : C.holds field none = false := by
  cases field <;> rfl

theorem eq_self (s : String) : C.eq s s = true := C.equivalence.refl s

theorem holds_self (s : String) : C.holds (some s) (some s) = true := eq_self s

theorem isSome_of_holds {field value : Option String} (h : C.holds field value = true) :
    value.isSome = true := by
  cases value with
  | none => exact absurd (holds_none.symm.trans h) Bool.false_ne_true
  | some s => rfl

theorem holds_value {field value : Option String} (h : C.holds field value = true) :
    C.holds value value = true := by
  obtain ⟨s, rfl⟩ := Option.isSome_iff_exists.mp (isSome_of_holds h)
  exact holds_self s

theorem mem_select {α : Type} {table : List α} {field : α → Option String} {value : Option String}
    {a : α} : a ∈ C.select table field value ↔ a ∈ table ∧ C.holds (field a) value = true :=
  List.mem_filter

theorem mem_select_of_eq {α : Type} {table : List α} {field : α → Option String} {s : String}
    {a : α} (h : a ∈ table) (heq : field a = some s) : a ∈ C.select table field (some s) := by
  rw [mem_select, heq]
  exact ⟨h, holds_self s⟩

/-- The blanks at the end are not compared. -/
def padded : Collation where
  eq s t := s.toList.rdropWhile (· == ' ') == t.toList.rdropWhile (· == ' ')
  equivalence := by
    simp only [beq_iff_eq]
    exact ⟨fun _ => rfl, fun h => h.symm, fun h h' => h.trans h'⟩

example : padded.eq "ann" "ann " = true ∧ padded.eq "ann" " ann" = false := by decide +kernel

end Collation

end SXP.Lib
