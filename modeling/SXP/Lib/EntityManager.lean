import Mathlib.Logic.Function.Basic
import Mathlib.Tactic.Cases

/-!
# Managers of persistent objects

A manager of persistent objects holds clones of rows.  The clones are edited in place, and a
commit stores them.  Between a `begin` and its `commit` or `rollback` the transaction is active;
it may be marked, and then it can only be rolled back.  A rollback detaches every clone, and so
does `clear`, which leaves the transaction as it is.

A `Snapshot` is all that can be seen of a manager, and `view` is what its rows would be after a
commit.  An `EntityManager` is any manager whose operations have these effects: the laws say what
each of them does to the snapshot, and nothing about how it is done.
-/

namespace SXP.Lib

/-- A clone: the row that it was read from, `none` for a new object, and what it holds now. -/
structure Clone (ν : Type*) where
  row : Option ν
  value : ν
  removed : Bool

namespace Clone

variable {ν : Type*}

def view (c : Clone ν) : Option ν := if c.removed then none else some c.value

def edit (f : ν → ν) (c : Clone ν) : Clone ν := { c with value := f c.value }

def fresh (v : ν) : Clone ν := ⟨some v, v, false⟩

def Clean (c : Clone ν) : Prop := c.view = c.row

def Of (c : Clone ν) (o : Option ν) : Prop :=
  match c.row with
  | some v => o = some v
  | none => c.removed = false

@[simp] theorem clean_fresh (v : ν) : (fresh v).Clean := rfl

end Clone

/-- The rows of the database, the clones, and the transaction. -/
structure Snapshot (ι ν : Type*) where
  rows : ι → Option ν
  clone? : ι → Option (Clone ν)
  active : Bool
  rollbackOnly : Bool

namespace Snapshot

variable {ι ν : Type*}

def contains (s : Snapshot ι ν) (i : ι) : Bool := (s.clone? i).any fun c => !c.removed

def view (s : Snapshot ι ν) (i : ι) : Option ν :=
  match s.clone? i with
  | some c => c.view
  | none => s.rows i

def put [DecidableEq ι] (s : Snapshot ι ν) (i : ι) (c : Option (Clone ν)) : Snapshot ι ν :=
  { s with clone? := Function.update s.clone? i c }

def detached (s : Snapshot ι ν) : Snapshot ι ν := { s with clone? := fun _ => none }

end Snapshot

/-- A manager of objects with the values `ν` under the names `ι`. -/
class EntityManager (σ : Type*) (ι ν : outParam (Type*)) [DecidableEq ι] where
  snapshot : σ → Snapshot ι ν
  /-- The objects, with their values. -/
  watchlist : σ → List (ι × ν)
  /-- The objects whose fields differ from those of their rows. -/
  changesInWatchlist : σ → List (ι × ν)
  open_ : (ι → Option ν) → σ
  find : σ → ι → σ
  persist : σ → ι → ν → σ
  remove : σ → ι → σ
  edit : σ → ι → (ν → ν) → σ
  begin_ : σ → σ
  setRollbackOnly : σ → σ
  clear : σ → σ
  rollback : σ → σ
  commit : σ → σ
  mem_watchlist : ∀ {u i v}, (i, v) ∈ watchlist u ↔
    ∃ c, (snapshot u).clone? i = some c ∧ c.value = v
  mem_changesInWatchlist : ∀ {u i v}, (i, v) ∈ changesInWatchlist u ↔
    ∃ c, (snapshot u).clone? i = some c ∧ c.value = v ∧ c.row ≠ some c.value
  snapshot_open : ∀ rows, snapshot (open_ rows) = ⟨rows, fun _ => none, false, false⟩
  find_managed : ∀ {u i c}, (snapshot u).clone? i = some c → snapshot (find u i) = snapshot u
  find_row : ∀ {u i v}, (snapshot u).clone? i = none → (snapshot u).rows i = some v →
    snapshot (find u i) = (snapshot u).put i (some (.fresh v))
  find_none : ∀ {u i}, (snapshot u).clone? i = none → (snapshot u).rows i = none →
    snapshot (find u i) = snapshot u
  /-- An object that is not managed becomes a new one; a removed one stays. -/
  persist_new : ∀ {u i v}, (snapshot u).clone? i = none →
    snapshot (persist u i v) = (snapshot u).put i (some ⟨none, v, false⟩)
  persist_managed : ∀ {u i v c}, (snapshot u).clone? i = some c →
    snapshot (persist u i v) = (snapshot u).put i (some { c with removed := false })
  remove_unmanaged : ∀ {u i}, (snapshot u).clone? i = none → snapshot (remove u i) = snapshot u
  /-- A new object is forgotten; others are deleted by the commit. -/
  remove_new : ∀ {u i c}, (snapshot u).clone? i = some c → c.row = none →
    snapshot (remove u i) = (snapshot u).put i none
  remove_managed : ∀ {u i c}, (snapshot u).clone? i = some c → c.row ≠ none →
    snapshot (remove u i) = (snapshot u).put i (some { c with removed := true })
  /-- The fields of an object are set.  Of one that is not managed, nothing is noticed. -/
  edit_unmanaged : ∀ {u i f}, (snapshot u).clone? i = none → snapshot (edit u i f) = snapshot u
  edit_managed : ∀ {u i f c}, (snapshot u).clone? i = some c →
    snapshot (edit u i f) = (snapshot u).put i (some (c.edit f))
  snapshot_begin : ∀ {u}, (snapshot u).active = false → snapshot (begin_ u) =
    { snapshot u with active := true, rollbackOnly := false }
  snapshot_setRollbackOnly : ∀ u, snapshot (setRollbackOnly u) =
    { snapshot u with rollbackOnly := (snapshot u).active }
  snapshot_clear : ∀ u, snapshot (clear u) = (snapshot u).detached
  snapshot_rollback : ∀ {u}, (snapshot u).active = true → snapshot (rollback u) =
    { (snapshot u).detached with active := false, rollbackOnly := false }
  commit_rows : ∀ {u}, (snapshot u).active = true → (snapshot u).rollbackOnly = false →
    (snapshot (commit u)).rows = (snapshot u).view
  commit_active : ∀ {u}, (snapshot u).active = true → (snapshot u).rollbackOnly = false →
    (snapshot (commit u)).active = false

namespace Snapshot

variable {ι ν : Type*} {s s' : Snapshot ι ν} {i : ι}

/-! ### What an operation leaves alone -/

/-- A commit would write the object. -/
def Dirty (s : Snapshot ι ν) (i : ι) : Prop := ∃ c, s.clone? i = some c ∧ ¬ c.Clean

/-- Only one clone may differ. -/
structure Local (s s' : Snapshot ι ν) (i : ι) : Prop where
  rows : s'.rows = s.rows
  active : s'.active = s.active
  rollbackOnly : s'.rollbackOnly = s.rollbackOnly
  others : ∀ j, j ≠ i → s'.clone? j = s.clone? j

/-- A commit would write no more than before. -/
structure Quiet (s s' : Snapshot ι ν) : Prop where
  rows : s'.rows = s.rows
  active : s'.active = s.active
  rollbackOnly : s'.rollbackOnly = s.rollbackOnly
  dirty : ∀ i, s'.Dirty i → s.Dirty i

theorem Local.refl (s : Snapshot ι ν) (i : ι) : Local s s i := ⟨rfl, rfl, rfl, fun _ _ => rfl⟩

theorem Local.dirty (h : Local s s' i) {j : ι} (hj : j ≠ i) : s'.Dirty j ↔ s.Dirty j := by
  rw [Dirty, Dirty, h.others j hj]

theorem Local.quiet [DecidableEq ι] (h : Local s s' i) (hi : s'.Dirty i → s.Dirty i) :
    Quiet s s' where
  rows := h.rows
  active := h.active
  rollbackOnly := h.rollbackOnly
  dirty j hj := by
    by_cases hji : j = i
    · exact hji ▸ hi (hji ▸ hj)
    · exact (h.dirty hji).mp hj

theorem Quiet.refl (s : Snapshot ι ν) : Quiet s s := ⟨rfl, rfl, rfl, fun _ h => h⟩

theorem not_dirty_of_none (h : s.clone? i = none) : ¬ s.Dirty i := by
  rintro ⟨c, hc, -⟩
  exact Option.some_ne_none c (hc.symm.trans h)

theorem contains_iff : s.contains i = true ↔ ∃ c, s.clone? i = some c ∧ c.removed = false := by
  rw [contains]
  cases s.clone? i with
  | none => simp
  | some c => simp

/-- The rows are as they were read, and only what has one is to be deleted. -/
def Synced (s : Snapshot ι ν) : Prop := ∀ i c, s.clone? i = some c → c.Of (s.rows i)

theorem synced_of_none (h : s.clone? = fun _ => none) : s.Synced :=
  fun i c hc => absurd (hc.symm.trans (congrFun h i)) (Option.some_ne_none c)

/-- **A commit writes the objects that are dirty**, and no others. -/
theorem Synced.view (h : s.Synced) (hi : ¬ s.Dirty i) : s.view i = s.rows i := by
  rw [Snapshot.view]
  cases hc : s.clone? i with
  | none => rfl
  | some c =>
    have hclean : c.Clean := not_not.mp fun hclean => hi ⟨c, hc, hclean⟩
    have hof := h i c hc
    change c.view = s.rows i
    rw [show c.view = c.row from hclean]
    unfold Clone.Of at hof
    split at hof
    · next v hrow => rw [hrow, hof]
    · next hrow =>
      -- a new object has a value
      have hview : c.view = some c.value := by rw [Clone.view, hof]; rfl
      exact absurd (hview.symm.trans (hclean.trans hrow)) (by simp)

section

variable [DecidableEq ι] {o : Option (Clone ν)}

@[simp] theorem clone?_put : (s.put i o).clone? i = o := Function.update_self _ _ _

theorem put_local (s : Snapshot ι ν) (i : ι) (o : Option (Clone ν)) : Local s (s.put i o) i :=
  ⟨rfl, rfl, rfl, fun _ hj => Function.update_of_ne hj _ _⟩

theorem dirty_put {c : Clone ν} : (s.put i (some c)).Dirty i ↔ ¬ c.Clean := by
  simp [Dirty]

theorem Synced.put (h : s.Synced) (ho : ∀ c, o = some c → c.Of (s.rows i)) :
    (s.put i o).Synced := by
  intro j c hc
  by_cases hji : j = i
  · subst hji
    exact ho c (clone?_put.symm.trans hc)
  · exact h j c (((put_local s i o).others j hji).symm.trans hc)

end

end Snapshot

namespace EntityManager

variable {σ ι ν : Type*} [DecidableEq ι] [EntityManager σ ι ν] {u : σ} {i : ι}

/-! ### Operations on one clone -/

theorem find_local (u : σ) (i : ι) : (snapshot u).Local (snapshot (find u i)) i := by
  cases hc : (snapshot u).clone? i with
  | some c => exact find_managed hc ▸ .refl _ i
  | none =>
    cases hrow : (snapshot u).rows i with
    | some v => exact find_row hc hrow ▸ Snapshot.put_local _ i _
    | none => exact find_none hc hrow ▸ .refl _ i

theorem persist_local (u : σ) (i : ι) (v : ν) :
    (snapshot u).Local (snapshot (persist u i v)) i := by
  cases hc : (snapshot u).clone? i with
  | some c => exact persist_managed hc ▸ Snapshot.put_local _ i _
  | none => exact persist_new hc ▸ Snapshot.put_local _ i _

theorem remove_local (u : σ) (i : ι) : (snapshot u).Local (snapshot (remove u i)) i := by
  cases hc : (snapshot u).clone? i with
  | none => exact remove_unmanaged hc ▸ .refl _ i
  | some c =>
    by_cases hrow : c.row = none
    · exact remove_new hc hrow ▸ Snapshot.put_local _ i _
    · exact remove_managed hc hrow ▸ Snapshot.put_local _ i _

theorem edit_local (u : σ) (i : ι) (f : ν → ν) :
    (snapshot u).Local (snapshot (edit u i f)) i := by
  cases hc : (snapshot u).clone? i with
  | none => exact edit_unmanaged hc ▸ .refl _ i
  | some c => exact edit_managed hc ▸ Snapshot.put_local _ i _

theorem find_quiet (u : σ) (i : ι) : (snapshot u).Quiet (snapshot (find u i)) := by
  refine (find_local u i).quiet fun hdirty => ?_
  cases hc : (snapshot u).clone? i with
  | some c => exact find_managed hc ▸ hdirty
  | none =>
    cases hrow : (snapshot u).rows i with
    | none => exact find_none hc hrow ▸ hdirty
    | some v =>
      -- the clone is the row
      rw [find_row hc hrow, Snapshot.dirty_put] at hdirty
      exact absurd (Clone.clean_fresh v) hdirty

theorem persist_quiet (v : ν) (h : (snapshot u).contains i = true) :
    (snapshot u).Quiet (snapshot (persist u i v)) := by
  obtain ⟨c, hc, hremoved⟩ := Snapshot.contains_iff.mp h
  refine (persist_local u i v).quiet fun hdirty => ⟨c, hc, ?_⟩
  have hsame : { c with removed := false } = c := by rw [← hremoved]
  rwa [persist_managed hc, Snapshot.dirty_put, hsame] at hdirty

theorem remove_quiet (h : (snapshot u).contains i = false) :
    (snapshot u).Quiet (snapshot (remove u i)) := by
  refine (remove_local u i).quiet fun hdirty => ?_
  cases hc : (snapshot u).clone? i with
  | none => exact remove_unmanaged hc ▸ hdirty
  | some c =>
    -- it was removed before
    have hremoved : c.removed = true := by simpa [Snapshot.contains, hc] using h
    have hsame : { c with removed := true } = c := by rw [← hremoved]
    by_cases hrow : c.row = none
    · rw [remove_new hc hrow] at hdirty
      exact absurd hdirty (Snapshot.not_dirty_of_none Snapshot.clone?_put)
    · rw [remove_managed hc hrow, Snapshot.dirty_put, hsame] at hdirty
      exact ⟨c, hc, hdirty⟩

/-! ### Clones of rows -/

theorem synced_open (rows : ι → Option ν) : (snapshot (open_ rows : σ)).Synced := by
  rw [snapshot_open]
  exact Snapshot.synced_of_none rfl

theorem synced_find (h : (snapshot u).Synced) (i : ι) : (snapshot (find u i)).Synced := by
  cases hc : (snapshot u).clone? i with
  | some c => rwa [find_managed hc]
  | none =>
    cases hrow : (snapshot u).rows i with
    | none => rwa [find_none hc hrow]
    | some v =>
      rw [find_row hc hrow]
      refine h.put fun c hc => ?_
      rw [← Option.some.inj hc]
      exact hrow

theorem synced_persist (h : (snapshot u).Synced) (i : ι) (v : ν) :
    (snapshot (persist u i v)).Synced := by
  cases hc : (snapshot u).clone? i with
  | none =>
    rw [persist_new hc]
    refine h.put fun c hc => ?_
    rw [← Option.some.inj hc]
    exact rfl
  | some c =>
    rw [persist_managed hc]
    refine h.put fun c' hc' => ?_
    rw [← Option.some.inj hc']
    have hof := h i c hc
    unfold Clone.Of at hof ⊢
    dsimp only
    split at hof
    · exact hof
    · rfl

theorem synced_remove (h : (snapshot u).Synced) (i : ι) : (snapshot (remove u i)).Synced := by
  cases hc : (snapshot u).clone? i with
  | none => rwa [remove_unmanaged hc]
  | some c =>
    by_cases hrow : c.row = none
    · rw [remove_new hc hrow]
      exact h.put fun c' hc' => absurd hc'.symm (Option.some_ne_none c')
    · rw [remove_managed hc hrow]
      refine h.put fun c' hc' => ?_
      rw [← Option.some.inj hc']
      have hof := h i c hc
      unfold Clone.Of at hof ⊢
      dsimp only
      split at hof
      · exact hof
      · next hnone => exact absurd hnone hrow

theorem synced_edit (h : (snapshot u).Synced) (i : ι) (f : ν → ν) :
    (snapshot (edit u i f)).Synced := by
  cases hc : (snapshot u).clone? i with
  | none => rwa [edit_unmanaged hc]
  | some c =>
    rw [edit_managed hc]
    refine h.put fun c' hc' => ?_
    rw [← Option.some.inj hc']
    exact h i c hc

theorem watchlist_of_none (h : (snapshot u).clone? = fun _ => none) : watchlist u = [] := by
  refine List.eq_nil_iff_forall_not_mem.mpr fun e he => ?_
  obtain ⟨c, hc, -⟩ := mem_watchlist.mp he
  exact Option.some_ne_none c (hc.symm.trans (congrFun h e.1))

theorem changesInWatchlist_of_none (h : (snapshot u).clone? = fun _ => none) :
    changesInWatchlist u = [] := by
  refine List.eq_nil_iff_forall_not_mem.mpr fun e he => ?_
  obtain ⟨c, hc, -⟩ := mem_changesInWatchlist.mp he
  exact Option.some_ne_none c (hc.symm.trans (congrFun h e.1))

end EntityManager

end SXP.Lib
