import SXP.Lib.Act

/-!
# Iterators over a list

A `ListIterator` stands between two elements of its list.  `next` moves over an
element and throws behind the last one; `remove` takes out the element that was
moved over, and throws when there is none or when it was taken out before.
-/

namespace SXP.Lib

def noSuchElement : JavaException := .runtime "NoSuchElementException"

def illegalState : JavaException := .runtime "IllegalStateException"

/-- The elements before and after the cursor; `returned` says that the last element
before it is one that `remove` may take. -/
structure ListIterator (α : Type) where
  before : List α
  after : List α
  returned : Bool

namespace ListIterator

variable {α : Type}

def ofList (l : List α) : ListIterator α := ⟨[], l, false⟩

def toList (it : ListIterator α) : List α := it.before ++ it.after

def hasNext (it : ListIterator α) : Bool := !it.after.isEmpty

def next : Act (ListIterator α) α := do
  match (← get).after with
  | [] => throw noSuchElement
  | x :: rest =>
      modify fun it => ⟨it.before ++ [x], rest, true⟩
      return x

def remove : Act (ListIterator α) Unit := do
  if (← get).returned then
    modify fun it => { it with before := it.before.dropLast, returned := false }
  else throw illegalState

theorem exec_next (x : α) (before after : List α) (returned : Bool) :
    next.exec ⟨before, x :: after, returned⟩ = (.ok x, ⟨before ++ [x], after, true⟩) := rfl

theorem exec_next_nil (before : List α) (returned : Bool) :
    next.exec ⟨before, [], returned⟩ = (.error noSuchElement, ⟨before, [], returned⟩) := rfl

theorem exec_remove (before after : List α) :
    remove.exec ⟨before, after, true⟩ = (.ok (), ⟨before.dropLast, after, false⟩) := rfl

end ListIterator

end SXP.Lib
