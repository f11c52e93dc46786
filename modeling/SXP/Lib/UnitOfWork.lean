import Mathlib.Data.List.AList
import SXP.Lib.EntityManager

/-!
# Units of work

A manager of persistent objects that keeps its clones in a list.
-/

namespace SXP.Lib

structure UnitOfWork (ι ν : Type*) where
  rows : ι → Option ν
  clones : AList fun _ : ι => Clone ν
  active : Bool
  rollbackOnly : Bool

namespace UnitOfWork

variable {ι ν : Type*} [DecidableEq ι]

def open_ (rows : ι → Option ν) : UnitOfWork ι ν := ⟨rows, ∅, false, false⟩

def clone? (u : UnitOfWork ι ν) (i : ι) : Option (Clone ν) := u.clones.lookup i

def snapshot (u : UnitOfWork ι ν) : Snapshot ι ν := ⟨u.rows, u.clone?, u.active, u.rollbackOnly⟩

def watchlist (u : UnitOfWork ι ν) : List (ι × ν) :=
  u.clones.entries.map fun e => (e.1, e.2.value)

def changesInWatchlist [DecidableEq ν] (u : UnitOfWork ι ν) : List (ι × ν) :=
  (u.clones.entries.filter fun e => e.2.row ≠ some e.2.value).map fun e => (e.1, e.2.value)

def setClone (u : UnitOfWork ι ν) (i : ι) (c : Clone ν) : UnitOfWork ι ν :=
  { u with clones := u.clones.insert i c }

def find (u : UnitOfWork ι ν) (i : ι) : UnitOfWork ι ν :=
  match u.clone? i, u.rows i with
  | none, some v => u.setClone i (.fresh v)
  | _, _ => u

def persist (u : UnitOfWork ι ν) (i : ι) (v : ν) : UnitOfWork ι ν :=
  match u.clone? i with
  | none => u.setClone i ⟨none, v, false⟩
  | some c => u.setClone i { c with removed := false }

def remove (u : UnitOfWork ι ν) (i : ι) : UnitOfWork ι ν :=
  match u.clone? i with
  | none => u
  | some c =>
      if c.row.isNone then { u with clones := u.clones.erase i }
      else u.setClone i { c with removed := true }

def edit (u : UnitOfWork ι ν) (i : ι) (f : ν → ν) : UnitOfWork ι ν :=
  match u.clone? i with
  | none => u
  | some c => u.setClone i (c.edit f)

def begin_ (u : UnitOfWork ι ν) : UnitOfWork ι ν := { u with active := true, rollbackOnly := false }

def setRollbackOnly (u : UnitOfWork ι ν) : UnitOfWork ι ν := { u with rollbackOnly := u.active }

def clear (u : UnitOfWork ι ν) : UnitOfWork ι ν := { u with clones := ∅ }

def rollback (u : UnitOfWork ι ν) : UnitOfWork ι ν :=
  { u with clones := ∅, active := false, rollbackOnly := false }

/-- The clones after a commit, without those that were removed. -/
def refreshed (l : AList fun _ : ι => Clone ν) : AList fun _ : ι => Clone ν where
  entries := (l.entries.filter fun e => !e.2.removed).map fun e => ⟨e.1, .fresh e.2.value⟩
  nodupKeys := by
    rw [List.NodupKeys, List.keys, List.map_map]
    exact List.Nodup.sublist (List.filter_sublist.map Sigma.fst) l.nodupKeys

def commit (u : UnitOfWork ι ν) : UnitOfWork ι ν where
  rows := u.snapshot.view
  clones := refreshed u.clones
  active := false
  rollbackOnly := false

/-! ### The laws -/

section

variable {u : UnitOfWork ι ν} {i : ι} {v : ν}

theorem clone?_empty (rows : ι → Option ν) (active rollbackOnly : Bool) :
    clone? ⟨rows, ∅, active, rollbackOnly⟩ = fun _ => none :=
  funext fun i => AList.lookup_empty i

theorem snapshot_setClone (u : UnitOfWork ι ν) (i : ι) (c : Clone ν) :
    (u.setClone i c).snapshot = u.snapshot.put i (some c) := by
  have hclones : (u.setClone i c).clone? = Function.update u.clone? i (some c) := by
    funext j
    by_cases hj : j = i
    · subst hj
      rw [Function.update_self]
      exact AList.lookup_insert _
    · rw [Function.update_of_ne hj]
      exact AList.lookup_insert_ne hj
  rw [snapshot, hclones]
  rfl

theorem snapshot_erase (u : UnitOfWork ι ν) (i : ι) :
    ({ u with clones := u.clones.erase i } : UnitOfWork ι ν).snapshot = u.snapshot.put i none := by
  have hclones : ({ u with clones := u.clones.erase i } : UnitOfWork ι ν).clone? =
      Function.update u.clone? i none := by
    funext j
    by_cases hj : j = i
    · subst hj
      rw [Function.update_self]
      exact AList.lookup_erase _ _
    · rw [Function.update_of_ne hj]
      exact AList.lookup_erase_ne hj
  rw [snapshot, hclones]
  rfl

theorem mem_entries {c : Clone ν} : ⟨i, c⟩ ∈ u.clones.entries ↔ u.clone? i = some c :=
  AList.mem_lookup_iff.symm

theorem mem_watchlist : (i, v) ∈ u.watchlist ↔ ∃ c, u.clone? i = some c ∧ c.value = v := by
  rw [watchlist, List.mem_map]
  constructor
  · rintro ⟨⟨i, c⟩, hmem, ⟨⟩⟩
    exact ⟨c, mem_entries.mp hmem, rfl⟩
  · rintro ⟨c, hc, rfl⟩
    exact ⟨⟨i, c⟩, mem_entries.mpr hc, rfl⟩

theorem mem_changesInWatchlist [DecidableEq ν] : (i, v) ∈ u.changesInWatchlist ↔
    ∃ c, u.clone? i = some c ∧ c.value = v ∧ c.row ≠ some c.value := by
  rw [changesInWatchlist, List.mem_map]
  constructor
  · rintro ⟨⟨i, c⟩, hmem, ⟨⟩⟩
    obtain ⟨hmem, hchanged⟩ := List.mem_filter.mp hmem
    exact ⟨c, mem_entries.mp hmem, rfl, of_decide_eq_true hchanged⟩
  · rintro ⟨c, hc, rfl, hchanged⟩
    exact ⟨⟨i, c⟩, List.mem_filter.mpr ⟨mem_entries.mpr hc, decide_eq_true hchanged⟩, rfl⟩

end

instance [DecidableEq ν] : EntityManager (UnitOfWork ι ν) ι ν where
  snapshot := snapshot
  watchlist := watchlist
  changesInWatchlist := changesInWatchlist
  open_ := open_
  find := find
  persist := persist
  remove := remove
  edit := edit
  begin_ := begin_
  setRollbackOnly := setRollbackOnly
  clear := clear
  rollback := rollback
  commit := commit
  mem_watchlist := mem_watchlist
  mem_changesInWatchlist := mem_changesInWatchlist
  snapshot_open rows := by rw [open_, snapshot, clone?_empty]
  find_managed {u i c} h := by
    have hc : u.clone? i = some c := h
    rw [find, hc]
  find_row {u i v} h hrow := by
    have hc : u.clone? i = none := h
    have hv : u.rows i = some v := hrow
    rw [find, hc, hv]
    exact snapshot_setClone u i _
  find_none {u i} h hrow := by
    have hc : u.clone? i = none := h
    have hv : u.rows i = none := hrow
    rw [find, hc, hv]
  persist_new {u i v} h := by
    have hc : u.clone? i = none := h
    rw [persist, hc]
    exact snapshot_setClone u i _
  persist_managed {u i v c} h := by
    have hc : u.clone? i = some c := h
    rw [persist, hc]
    exact snapshot_setClone u i _
  remove_unmanaged {u i} h := by
    have hc : u.clone? i = none := h
    rw [remove, hc]
  remove_new {u i c} h hrow := by
    have hc : u.clone? i = some c := h
    rw [remove, hc]
    dsimp only
    rw [hrow, if_pos Option.isNone_none]
    exact snapshot_erase u i
  remove_managed {u i c} h hrow := by
    have hc : u.clone? i = some c := h
    rw [remove, hc]
    dsimp only
    rw [if_neg (mt Option.isNone_iff_eq_none.mp hrow)]
    exact snapshot_setClone u i _
  edit_unmanaged {u i f} h := by
    have hc : u.clone? i = none := h
    rw [edit, hc]
  edit_managed {u i f c} h := by
    have hc : u.clone? i = some c := h
    rw [edit, hc]
    exact snapshot_setClone u i _
  snapshot_begin _ := rfl
  snapshot_setRollbackOnly _ := rfl
  snapshot_clear u := by
    rw [clear, snapshot, clone?_empty]
    rfl
  snapshot_rollback {u} _ := by
    rw [rollback, snapshot, clone?_empty]
    rfl
  commit_rows _ _ := rfl
  commit_active _ _ := rfl

end UnitOfWork

end SXP.Lib
