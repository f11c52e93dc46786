import SXP.Lib.Machine
import SXP.Lib.UnitOfWork

/-!
# The manager of entities

`begin`, `end` and the calls between them on one `AbstractSyncManager`.  `end` has three ways to
fail: an invalid entity leaves the transaction open with its changes, a transaction that is
marked is answered with true and left open without them, and a commit that throws rolls back.

`end_truthful` follows the changes through a run: where no `end` meets one of the first two, its
answer tells what became of them.  The persistence provider may be any `EntityManager`.
-/

namespace SXP.Model

open SXP.Lib

open EntityManager (snapshot)

/-- A call of the manager or a change of a field, with the exceptions of the provider. -/
inductive Call (ι ν : Type*) where
  | begin_
  | findOneById (i : ι)
  | persist (i : ι) (v : ν) (throws : Bool)
  | remove (i : ι) (throws : Bool)
  | edit (i : ι) (f : ν → ν)
  | queryThrows
  | end_ (commitThrows : Bool)

namespace AbstractSyncManager

variable {σ ι ν : Type*} [DecidableEq ι] [EntityManager σ ι ν]

/-- A transaction cannot begin in another one. -/
def begin_ (u : σ) : Bool × σ :=
  if (snapshot u).active then (false, u) else (true, EntityManager.begin_ u)

def persist (u : σ) (i : ι) (v : ν) (throws : Bool) : Bool × σ :=
  if throws then (false, EntityManager.setRollbackOnly u) else (true, EntityManager.persist u i v)

def remove (u : σ) (i : ι) (throws : Bool) : Bool × σ :=
  if throws then (false, EntityManager.setRollbackOnly u) else (true, EntityManager.remove u i)

variable (valid : ν → Bool)

def check (u : σ) : Bool := (EntityManager.watchlist u).all fun e => valid e.2

def end_ (u : σ) (commitThrows : Bool) : Bool × σ :=
  if !check valid u then (false, u)
  -- `getRollbackOnly` throws
  else if !(snapshot u).active then (false, u)
  else if (snapshot u).rollbackOnly then (true, EntityManager.clear u)
  else if commitThrows then (false, EntityManager.rollback u)
  else (true, EntityManager.clear (EntityManager.commit u))

def machine : Machine σ (Call ι ν) Bool where
  step u
    | .begin_ => begin_ u
    | .findOneById i => (true, EntityManager.find u i)
    | .persist i v throws => persist u i v throws
    | .remove i throws => remove u i throws
    | .edit i f => (true, EntityManager.edit u i f)
    | .queryThrows => (false, EntityManager.setRollbackOnly u)
    | .end_ commitThrows => end_ valid u commitThrows

/-! ### How it ends -/

/-- What becomes of the changes. -/
inductive Ending where
  | refused
  | dropped
  | undone
  | committed
deriving DecidableEq, Repr

def ending (u : σ) (commitThrows : Bool) : Ending :=
  if !check valid u || !(snapshot u).active then .refused
  else if (snapshot u).rollbackOnly then .dropped
  else if commitThrows then .undone
  else .committed

def Ending.result (u : σ) : Ending → Bool × σ
  | refused => (false, u)
  | dropped => (true, EntityManager.clear u)
  | undone => (false, EntityManager.rollback u)
  | committed => (true, EntityManager.clear (EntityManager.commit u))

theorem end_eq (u : σ) (commitThrows : Bool) :
    end_ valid u commitThrows = (ending valid u commitThrows).result u := by
  unfold end_ ending
  cases check valid u <;> cases (snapshot u).active <;> cases (snapshot u).rollbackOnly <;>
    cases commitThrows <;> rfl

section

variable {valid} {u : σ} {commitThrows : Bool}

theorem ending_eq_refused : ending valid u commitThrows = .refused ↔
    ¬ (check valid u = true ∧ (snapshot u).active = true) := by
  unfold ending
  cases check valid u <;> cases (snapshot u).active <;> cases (snapshot u).rollbackOnly <;>
    cases commitThrows <;> simp

theorem ending_eq_dropped : ending valid u commitThrows = .dropped ↔
    check valid u = true ∧ (snapshot u).active = true ∧ (snapshot u).rollbackOnly = true := by
  unfold ending
  cases check valid u <;> cases (snapshot u).active <;> cases (snapshot u).rollbackOnly <;>
    cases commitThrows <;> simp

theorem ending_eq_undone : ending valid u commitThrows = .undone ↔ check valid u = true ∧
    (snapshot u).active = true ∧ (snapshot u).rollbackOnly = false ∧ commitThrows = true := by
  unfold ending
  cases check valid u <;> cases (snapshot u).active <;> cases (snapshot u).rollbackOnly <;>
    cases commitThrows <;> simp

theorem ending_eq_committed : ending valid u commitThrows = .committed ↔ check valid u = true ∧
    (snapshot u).active = true ∧ (snapshot u).rollbackOnly = false ∧ commitThrows = false := by
  unfold ending
  cases check valid u <;> cases (snapshot u).active <;> cases (snapshot u).rollbackOnly <;>
    cases commitThrows <;> simp

theorem snapshot_dropped : snapshot (Ending.dropped.result u).2 = (snapshot u).detached :=
  EntityManager.snapshot_clear u

theorem snapshot_undone (h : ending valid u commitThrows = .undone) :
    snapshot (Ending.undone.result u).2 =
      { (snapshot u).detached with active := false, rollbackOnly := false } :=
  EntityManager.snapshot_rollback (ending_eq_undone.mp h).2.1

/-- A commit writes what the manager holds, and is followed by a `clear`. -/
theorem snapshot_committed (h : ending valid u commitThrows = .committed) :
    (snapshot (Ending.committed.result u).2).rows = (snapshot u).view ∧
      (snapshot (Ending.committed.result u).2).active = false ∧
      (snapshot (Ending.committed.result u).2).clone? = fun _ => none := by
  obtain ⟨-, hactive, hmarked, -⟩ := ending_eq_committed.mp h
  have hclear := EntityManager.snapshot_clear (EntityManager.commit u)
  have hsnapshot : snapshot (Ending.committed.result u).2 = _ := hclear
  rw [hsnapshot]
  exact ⟨EntityManager.commit_rows hactive hmarked, EntityManager.commit_active hactive hmarked, rfl⟩

variable (valid u commitThrows) in
theorem end_rows : (snapshot (end_ valid u commitThrows).2).rows =
    if ending valid u commitThrows = .committed then (snapshot u).view else (snapshot u).rows := by
  rw [end_eq]
  cases hending : ending valid u commitThrows with
  | refused => rfl
  | dropped =>
    rw [snapshot_dropped]
    rfl
  | undone =>
    rw [snapshot_undone hending]
    rfl
  | committed => exact (snapshot_committed hending).1

variable (valid commitThrows) in
/-- **Where nothing has failed**, the rows are written when the answer is true, and at no other
time. -/
theorem end_of_unmarked (h : (snapshot u).rollbackOnly = false) :
    ((end_ valid u commitThrows).1 = true ∧ commitThrows = false ∧
      (snapshot (end_ valid u commitThrows).2).rows = (snapshot u).view) ∨
    ((end_ valid u commitThrows).1 = false ∧
      (snapshot (end_ valid u commitThrows).2).rows = (snapshot u).rows) := by
  rw [end_rows, end_eq]
  cases hending : ending valid u commitThrows with
  | refused => exact Or.inr ⟨rfl, rfl⟩
  | undone => exact Or.inr ⟨rfl, rfl⟩
  | dropped =>
    have hmarked := (ending_eq_dropped.mp hending).2.2
    exact absurd (h.symm.trans hmarked) Bool.false_ne_true
  | committed => exact Or.inl ⟨rfl, (ending_eq_committed.mp hending).2.2.2, rfl⟩

theorem snapshot_ended (h : ending valid u commitThrows ≠ .refused) :
    (snapshot (end_ valid u commitThrows).2).clone? = fun _ => none := by
  rw [end_eq]
  cases hending : ending valid u commitThrows with
  | refused => exact absurd hending h
  | dropped => exact congrArg Snapshot.clone? (snapshot_dropped (u := u))
  | undone => exact congrArg Snapshot.clone? (snapshot_undone hending)
  | committed => exact (snapshot_committed hending).2.2

end

/-! ### The journal of changes -/

/-- The changes one by one, each with its number: those since the last `begin`, those that the
manager holds, and those that a commit has stored. -/
structure Journal (ι : Type*) where
  next : ℕ
  since : List (ℕ × ι)
  pending : List (ℕ × ι)
  stored : List (ℕ × ι)

def Journal.add (j : Journal ι) (i : ι) : Journal ι where
  next := j.next + 1
  since := (j.next, i) :: j.since
  pending := (j.next, i) :: j.pending
  stored := j.stored

def Journal.close (j : Journal ι) : Ending → Journal ι
  | .refused => j
  | .dropped | .undone => { j with pending := [] }
  | .committed => { j with pending := [], stored := j.pending ++ j.stored }

def record (u : σ) (c : Call ι ν) (j : Journal ι) : Journal ι :=
  match c with
  | .begin_ => if (snapshot u).active then j else { j with since := [] }
  | .persist i _ throws => if throws || (snapshot u).contains i then j else j.add i
  | .remove i throws => if throws || !(snapshot u).contains i then j else j.add i
  | .edit i _ => if ((snapshot u).clone? i).isSome then j.add i else j
  | .end_ commitThrows => j.close (ending valid u commitThrows)
  | .findOneById _ | .queryThrows => j

def journaled : Machine (σ × Journal ι) (Call ι ν) Bool :=
  (machine valid).traced (record valid)

variable {valid}

def start (rows : ι → Option ν) : σ × Journal ι := (EntityManager.open_ rows, ⟨0, [], [], []⟩)

/-- **`end` tells the truth** about the changes since `begin`: all of them are in the database,
or none of them will be and another transaction can begin. -/
structure Tells (valid : ν → Bool) (t : σ × Journal ι) (commitThrows : Bool) : Prop where
  done : (journaled valid).out t (.end_ commitThrows) = true → ∀ c ∈ t.2.since,
    c ∈ ((journaled valid).next t (.end_ commitThrows)).2.stored ∧
    (snapshot ((journaled valid).next t (.end_ commitThrows)).1).rows c.2 = (snapshot t.1).view c.2
  undone : (journaled valid).out t (.end_ commitThrows) = false → ∀ later, ∀ c ∈ t.2.since,
    c ∈ ((journaled valid).run t (.end_ commitThrows :: later)).2.stored → c ∈ t.2.stored
  reopens : (journaled valid).out t (.end_ commitThrows) = false → ∀ later, .begin_ ∉ later →
    (journaled valid).out ((journaled valid).run t (.end_ commitThrows :: later)) .begin_ = true

/-- In a transaction every entity is valid, and nothing was changed in one that is marked; outside
of one, none of the changes is held any more. -/
def Sound (valid : ν → Bool) (t : σ × Journal ι) : Prop :=
  if (snapshot t.1).active then
    check valid t.1 = true ∧ ((snapshot t.1).rollbackOnly = true → t.2.since = [])
  else ∀ c ∈ t.2.since, c ∉ t.2.pending

instance (valid : ν → Bool) (t : σ × Journal ι) : Decidable (Sound valid t) :=
  inferInstanceAs (Decidable (ite _ _ _))

def AtEnd (P : σ × Journal ι → Bool → Prop) (t : σ × Journal ι) : Call ι ν → Prop
  | .end_ commitThrows => P t commitThrows
  | _ => True

instance (P : σ × Journal ι → Bool → Prop) [∀ t b, Decidable (P t b)]
    (t : σ × Journal ι) : (c : Call ι ν) → Decidable (AtEnd P t c)
  | .end_ commitThrows => inferInstanceAs (Decidable (P t commitThrows))
  | .begin_ | .findOneById _ | .persist _ _ _ | .remove _ _ | .edit _ _ | .queryThrows =>
      isTrue trivial

/-! ### What a call does -/

section

variable {t : σ × Journal ι} {c : Call ι ν}

/-- A call changes nothing that a commit would write, or is a new change, or marks or begins a
transaction, or ends one. -/
inductive Moves (valid : ν → Bool) (t : σ × Journal ι) : Call ι ν → σ × Journal ι → Prop where
  | quiet {c : Call ι ν} {u : σ} : (snapshot t.1).Quiet (snapshot u) → Moves valid t c (u, t.2)
  | change {c : Call ι ν} {u : σ} {i : ι} : (snapshot t.1).Local (snapshot u) i →
      Moves valid t c (u, t.2.add i)
  | marked {c : Call ι ν} : Moves valid t c (EntityManager.setRollbackOnly t.1, t.2)
  | begun : (snapshot t.1).active = false →
      Moves valid t .begin_ (EntityManager.begin_ t.1, { t.2 with since := [] })
  | ended {commitThrows : Bool} : Moves valid t (.end_ commitThrows)
      (((ending valid t.1 commitThrows).result t.1).2, t.2.close (ending valid t.1 commitThrows))

theorem moves (valid : ν → Bool) (t : σ × Journal ι) (c : Call ι ν) :
    Moves valid t c ((journaled valid).next t c) := by
  obtain ⟨u, j⟩ := t
  cases c with
  | begin_ =>
    change Moves valid _ _ ((begin_ u).2, if (snapshot u).active then j else { j with since := [] })
    unfold begin_
    cases hactive : (snapshot u).active with
    | true => exact .quiet (.refl _)
    | false => exact .begun hactive
  | findOneById i => exact .quiet (EntityManager.find_quiet u i)
  | persist i v throws =>
    change Moves valid _ _ ((persist u i v throws).2,
      if throws || (snapshot u).contains i then j else j.add i)
    unfold persist
    cases throws with
    | true => exact .marked
    | false =>
      cases hcontains : (snapshot u).contains i with
      | true => exact .quiet (EntityManager.persist_quiet v hcontains)
      | false => exact .change (EntityManager.persist_local u i v)
  | remove i throws =>
    change Moves valid _ _ ((remove u i throws).2,
      if throws || !(snapshot u).contains i then j else j.add i)
    unfold remove
    cases throws with
    | true => exact .marked
    | false =>
      cases hcontains : (snapshot u).contains i with
      | true => exact .change (EntityManager.remove_local u i)
      | false => exact .quiet (EntityManager.remove_quiet hcontains)
  | edit i f =>
    change Moves valid _ _ (EntityManager.edit u i f,
      if ((snapshot u).clone? i).isSome then j.add i else j)
    cases hclone : (snapshot u).clone? i with
    | none =>
      refine .quiet ?_
      rw [EntityManager.edit_unmanaged hclone]
      exact .refl _
    | some c => exact .change (EntityManager.edit_local u i f)
  | queryThrows => exact .marked
  | end_ commitThrows =>
    change Moves valid _ _ ((end_ valid u commitThrows).2, j.close (ending valid u commitThrows))
    rw [end_eq]
    exact .ended

/-! ### What the journal says -/

/-- The changes are numbered, those since `begin` are held, and what a commit would write is one
of them. -/
structure Kept (t : σ × Journal ι) : Prop where
  numbered : ∀ c, c ∈ t.2.since ∨ c ∈ t.2.pending → c.1 < t.2.next
  held : (snapshot t.1).active = true → (snapshot t.1).rollbackOnly = false →
    ∀ c ∈ t.2.since, c ∈ t.2.pending
  dirty : ∀ i, (snapshot t.1).Dirty i → ∃ n, (n, i) ∈ t.2.pending

theorem kept_start (rows : ι → Option ν) : Kept (start rows : σ × Journal ι) := by
  have hopen : snapshot (start rows : σ × Journal ι).1 = _ := EntityManager.snapshot_open rows
  refine ⟨fun c hc => by simp [start] at hc, fun h => ?_, fun i hi => ?_⟩
  · rw [hopen] at h
    exact absurd h Bool.false_ne_true
  · rw [hopen] at hi
    exact absurd hi (Snapshot.not_dirty_of_none rfl)

theorem Kept.add (h : Kept t) {u : σ} {i : ι} (hu : (snapshot t.1).Local (snapshot u) i) :
    Kept (u, t.2.add i) where
  numbered c hc := by
    rcases hc with hc | hc
    all_goals
      rcases List.mem_cons.mp hc with rfl | hc
      · exact Nat.lt_succ_self _
    · exact Nat.lt_succ_of_lt (h.numbered c (Or.inl hc))
    · exact Nat.lt_succ_of_lt (h.numbered c (Or.inr hc))
  held hactive hmarked c hc := by
    rcases List.mem_cons.mp hc with rfl | hc
    · exact List.mem_cons_self
    · exact List.mem_cons_of_mem _ (h.held (hu.active ▸ hactive) (hu.rollbackOnly ▸ hmarked) c hc)
  dirty j hj := by
    by_cases hji : j = i
    · subst hji
      exact ⟨t.2.next, List.mem_cons_self⟩
    · obtain ⟨n, hn⟩ := h.dirty j ((hu.dirty hji).mp hj)
      exact ⟨n, List.mem_cons_of_mem _ hn⟩

/-- Without clones there is nothing to hold and nothing to write. -/
theorem Kept.emptied (h : Kept t) {u : σ} {j : Journal ι}
    (hclones : (snapshot u).clone? = fun _ => none)
    (hmarked : (snapshot u).active = true → (snapshot u).rollbackOnly = true)
    (hnext : j.next = t.2.next) (hsince : j.since = t.2.since) (hpending : j.pending = []) :
    Kept (u, j) where
  numbered c hc := by
    simp only [hsince, hpending, List.not_mem_nil, or_false] at hc
    exact hnext ▸ h.numbered c (Or.inl hc)
  held hactive hm := absurd ((hmarked hactive).symm.trans hm) (by simp)
  dirty i hi := absurd hi (Snapshot.not_dirty_of_none (congrFun hclones i))

theorem Kept.step (h : Kept t) (c : Call ι ν) : Kept ((journaled valid).next t c) := by
  have hmoves := moves valid t c
  generalize (journaled valid).next t c = t' at hmoves ⊢
  cases hmoves with
  | quiet hu =>
    refine ⟨h.numbered, fun hactive hmarked => ?_, fun i hi => h.dirty i (hu.dirty i hi)⟩
    exact h.held (hu.active ▸ hactive) (hu.rollbackOnly ▸ hmarked)
  | change hu => exact h.add hu
  | marked =>
    have hmark := EntityManager.snapshot_setRollbackOnly t.1
    refine ⟨h.numbered, fun hactive hmarked => ?_, fun i hi => h.dirty i ?_⟩
    · rw [hmark] at hactive hmarked
      exact absurd (hactive.symm.trans hmarked) (by simp)
    · rw [hmark] at hi
      exact hi
  | begun hinactive =>
    refine ⟨fun c hc => ?_, fun _ _ c hc => absurd hc List.not_mem_nil, fun i hi => h.dirty i ?_⟩
    · simp only [List.not_mem_nil, false_or] at hc
      exact h.numbered c (Or.inr hc)
    · rw [EntityManager.snapshot_begin hinactive] at hi
      exact hi
  | @ended commitThrows =>
    cases hending : ending valid t.1 commitThrows with
    | refused => exact h
    | dropped =>
      obtain ⟨-, -, hmarked⟩ := ending_eq_dropped.mp hending
      have hdropped := snapshot_dropped (u := t.1)
      exact h.emptied (hdropped ▸ rfl) (fun _ => hdropped ▸ hmarked) rfl rfl rfl
    | undone =>
      have hundone := snapshot_undone hending
      exact h.emptied (hundone ▸ rfl) (fun hactive => absurd (hundone ▸ hactive) (by simp))
        rfl rfl rfl
    | committed =>
      obtain ⟨-, hinactive, hclones⟩ := snapshot_committed hending
      exact h.emptied hclones (fun hactive => absurd (hinactive.symm.trans hactive) (by simp))
        rfl rfl rfl

theorem kept_run (valid : ν → Bool) (rows : ι → Option ν) (calls : List (Call ι ν)) :
    Kept ((journaled valid).run (start rows : σ × Journal ι) calls) :=
  (journaled valid).invariant (kept_start rows) (fun _ c h => h.step c) calls

/-! ### After a failure -/

/-- A change that is not held any more is not stored by a later call. -/
def Gone (stored : List (ℕ × ι)) (c : ℕ × ι) (t : σ × Journal ι) : Prop :=
  c.1 < t.2.next ∧ c ∉ t.2.pending ∧ (c ∈ t.2.stored → c ∈ stored)

theorem Gone.step {stored : List (ℕ × ι)} {x : ℕ × ι} (h : Gone stored x t) (c : Call ι ν) :
    Gone stored x ((journaled valid).next t c) := by
  obtain ⟨hnumber, hpending, hstored⟩ := h
  have hmoves := moves valid t c
  generalize (journaled valid).next t c = t' at hmoves ⊢
  cases hmoves with
  | quiet _ => exact ⟨hnumber, hpending, hstored⟩
  | change _ =>
    -- a new change has a new number
    refine ⟨Nat.lt_succ_of_lt hnumber, fun hx => ?_, hstored⟩
    rcases List.mem_cons.mp hx with rfl | hx
    · exact Nat.lt_irrefl _ hnumber
    · exact hpending hx
  | marked => exact ⟨hnumber, hpending, hstored⟩
  | begun _ => exact ⟨hnumber, hpending, hstored⟩
  | @ended commitThrows =>
    cases ending valid t.1 commitThrows with
    | refused => exact ⟨hnumber, hpending, hstored⟩
    | dropped => exact ⟨hnumber, List.not_mem_nil, hstored⟩
    | undone => exact ⟨hnumber, List.not_mem_nil, hstored⟩
    | committed =>
      refine ⟨hnumber, List.not_mem_nil, fun hx => ?_⟩
      rcases List.mem_append.mp hx with hx | hx
      · exact absurd hx hpending
      · exact hstored hx

theorem Gone.run {stored : List (ℕ × ι)} {x : ℕ × ι} (h : Gone stored x t)
    (calls : List (Call ι ν)) : Gone stored x ((journaled valid).run t calls) :=
  (journaled valid).invariant h (fun _ c h => h.step c) calls

theorem inactive_step (h : (snapshot t.1).active = false) (hc : c ≠ .begin_) :
    (snapshot ((journaled valid).next t c).1).active = false := by
  have hmoves := moves valid t c
  generalize (journaled valid).next t c = t' at hmoves ⊢
  cases hmoves with
  | quiet hu => exact hu.active.trans h
  | change hu => exact hu.active.trans h
  | marked =>
    rw [EntityManager.snapshot_setRollbackOnly]
    exact h
  | begun _ => exact absurd rfl hc
  | @ended commitThrows =>
    cases hending : ending valid t.1 commitThrows with
    | refused => exact h
    | dropped =>
      rw [snapshot_dropped]
      exact h
    | undone => rw [snapshot_undone hending]
    | committed => exact (snapshot_committed hending).2.1

theorem inactive_run (h : (snapshot t.1).active = false) {calls : List (Call ι ν)}
    (hcalls : .begin_ ∉ calls) :
    (snapshot ((journaled valid).run t calls).1).active = false := by
  induction calls generalizing t with
  | nil => exact h
  | cons c calls ih =>
    obtain ⟨hc, hcalls⟩ := List.ne_and_not_mem_of_not_mem_cons hcalls
    exact ih (inactive_step h hc.symm) hcalls

theorem begins (h : (snapshot t.1).active = false) : (journaled valid).out t .begin_ = true := by
  change (begin_ t.1).1 = true
  rw [begin_, h]
  rfl

theorem Tells.of_failure {commitThrows : Bool} (hfalse : (journaled valid).out t
      (.end_ commitThrows) = false)
    (hgone : ∀ c ∈ t.2.since, Gone t.2.stored c ((journaled valid).next t (.end_ commitThrows)))
    (hinactive : (snapshot ((journaled valid).next t (.end_ commitThrows)).1).active = false) :
    Tells valid t commitThrows where
  done h := absurd (hfalse.symm.trans h) (by simp)
  undone _ later c hc := ((hgone c hc).run later).2.2
  reopens _ _ hlater := begins (inactive_run hinactive hlater)

theorem Tells.of_success {commitThrows : Bool} (htrue : (journaled valid).out t
      (.end_ commitThrows) = true)
    (hdone : ∀ c ∈ t.2.since, c ∈ ((journaled valid).next t (.end_ commitThrows)).2.stored ∧
      (snapshot ((journaled valid).next t (.end_ commitThrows)).1).rows c.2 =
        (snapshot t.1).view c.2) :
    Tells valid t commitThrows where
  done _ := hdone
  undone h := absurd (htrue.symm.trans h) (by simp)
  reopens h := absurd (htrue.symm.trans h) (by simp)

theorem end_step (valid : ν → Bool) (t : σ × Journal ι) (commitThrows : Bool) :
    (journaled valid).step t (.end_ commitThrows) =
      (((ending valid t.1 commitThrows).result t.1).1,
        ((ending valid t.1 commitThrows).result t.1).2,
        t.2.close (ending valid t.1 commitThrows)) := by
  rw [← end_eq]
  rfl

theorem tells_of_sound (h : Kept t) (hsound : Sound valid t) (commitThrows : Bool) :
    Tells valid t commitThrows := by
  have hstep := end_step valid t commitThrows
  have hout : (journaled valid).out t (.end_ commitThrows) = _ := congrArg Prod.fst hstep
  have hnext : (journaled valid).next t (.end_ commitThrows) = _ := congrArg Prod.snd hstep
  have hnumber : ∀ c ∈ t.2.since, c.1 < t.2.next := fun c hc => h.numbered c (Or.inl hc)
  unfold Sound at hsound
  cases hending : ending valid t.1 commitThrows with
  | refused =>
    -- there is no transaction, and so nothing is held
    rw [hending] at hout hnext
    have hinactive : (snapshot t.1).active = false := by
      refine Bool.eq_false_iff.mpr fun hactive => ?_
      rw [if_pos hactive] at hsound
      exact ending_eq_refused.mp hending ⟨hsound.1, hactive⟩
    rw [hinactive, if_neg Bool.false_ne_true] at hsound
    refine .of_failure hout (fun c hc => ?_) (hnext ▸ hinactive)
    rw [hnext]
    exact ⟨hnumber c hc, hsound c hc, id⟩
  | dropped =>
    -- nothing was changed
    rw [hending] at hout hnext
    obtain ⟨-, hactive, hmarked⟩ := ending_eq_dropped.mp hending
    rw [if_pos hactive] at hsound
    refine .of_success hout fun c hc => ?_
    rw [hsound.2 hmarked] at hc
    exact absurd hc List.not_mem_nil
  | undone =>
    rw [hending] at hout hnext
    refine .of_failure hout (fun c hc => ?_) ?_
    · rw [hnext]
      exact ⟨hnumber c hc, List.not_mem_nil, id⟩
    · rw [hnext, snapshot_undone hending]
  | committed =>
    rw [hending] at hout hnext
    obtain ⟨-, hactive, hmarked, -⟩ := ending_eq_committed.mp hending
    refine .of_success hout fun c hc => ?_
    rw [hnext]
    exact ⟨List.mem_append_left _ (h.held hactive hmarked c hc),
      congrFun (snapshot_committed hending).1 c.2⟩

/-! ### Runs -/

theorem synced_step (h : (snapshot t.1).Synced) (c : Call ι ν) :
    (snapshot ((journaled valid).next t c).1).Synced := by
  have hmarked : (snapshot (EntityManager.setRollbackOnly t.1)).Synced := by
    rw [EntityManager.snapshot_setRollbackOnly]
    exact h
  cases c with
  | begin_ =>
    change (snapshot (begin_ t.1).2).Synced
    unfold begin_
    cases hactive : (snapshot t.1).active with
    | true => exact h
    | false =>
      rw [if_neg Bool.false_ne_true, EntityManager.snapshot_begin hactive]
      exact h
  | findOneById i => exact EntityManager.synced_find h i
  | persist i v throws =>
    cases throws with
    | true => exact hmarked
    | false => exact EntityManager.synced_persist h i v
  | remove i throws =>
    cases throws with
    | true => exact hmarked
    | false => exact EntityManager.synced_remove h i
  | edit i f => exact EntityManager.synced_edit h i f
  | queryThrows => exact hmarked
  | end_ commitThrows =>
    change (snapshot (end_ valid t.1 commitThrows).2).Synced
    by_cases hrefused : ending valid t.1 commitThrows = .refused
    · rw [end_eq, hrefused]
      exact h
    · exact Snapshot.synced_of_none (snapshot_ended hrefused)

theorem written_step (hkept : Kept t) (hsynced : (snapshot t.1).Synced) {i : ι}
    (h : (snapshot ((journaled valid).next t c).1).rows i ≠ (snapshot t.1).rows i) :
    ∃ n, (n, i) ∈ ((journaled valid).next t c).2.stored := by
  have hmoves := moves valid t c
  generalize (journaled valid).next t c = t' at hmoves h ⊢
  cases hmoves with
  | quiet hu => exact absurd (congrFun hu.rows i) h
  | change hu => exact absurd (congrFun hu.rows i) h
  | marked =>
    rw [EntityManager.snapshot_setRollbackOnly] at h
    exact absurd rfl h
  | begun hinactive =>
    rw [EntityManager.snapshot_begin hinactive] at h
    exact absurd rfl h
  | @ended commitThrows =>
    have hrows := end_rows valid t.1 commitThrows
    rw [end_eq] at hrows
    by_cases hcommitted : ending valid t.1 commitThrows = .committed
    · rw [if_pos hcommitted] at hrows
      rw [hrows] at h
      have hdirty : (snapshot t.1).Dirty i := by_contra fun hclean => h (hsynced.view hclean)
      obtain ⟨n, hn⟩ := hkept.dirty i hdirty
      rw [hcommitted]
      exact ⟨n, List.mem_append_left _ hn⟩
    · rw [if_neg hcommitted] at hrows
      exact absurd (congrFun hrows i) h

/-- **Nothing else is stored**: a row that is written belongs to a change in the journal. -/
theorem written_stored (valid : ν → Bool) (rows : ι → Option ν) (calls : List (Call ι ν))
    (c : Call ι ν) (i : ι)
    (h : (snapshot ((journaled valid).run (start rows : σ × Journal ι) (calls ++ [c])).1).rows i ≠
      (snapshot ((journaled valid).run (start rows : σ × Journal ι) calls).1).rows i) :
    ∃ n, (n, i) ∈ ((journaled valid).run (start rows : σ × Journal ι) (calls ++ [c])).2.stored := by
  have hsynced : (snapshot ((journaled valid).run (start rows : σ × Journal ι) calls).1).Synced :=
    (journaled valid).invariant (I := fun t : σ × Journal ι => (snapshot t.1).Synced)
      (EntityManager.synced_open rows) (fun _ c h => synced_step h c) calls
  rw [Machine.run_concat] at h ⊢
  exact written_step (kept_run valid rows calls) hsynced h

/-- **`end` tells the truth in a run** in which every `end` of a transaction finds the entities
valid and, if it is marked, nothing changed, and no other `end` finds changes that are held. -/
theorem end_truthful (valid : ν → Bool) (rows : ι → Option ν) (calls : List (Call ι ν))
    (h : (journaled valid).Along (fun _ => AtEnd fun t _ => Sound valid t)
      (start rows : σ × Journal ι) calls) :
    (journaled valid).Along (fun _ => AtEnd (Tells valid)) (start rows : σ × Journal ι) calls := by
  intro pre c post heq
  have hc := h pre c post heq
  cases c with
  | end_ commitThrows => exact tells_of_sound (kept_run valid rows pre) hc commitThrows
  | _ => trivial

def sampleManager : UnitOfWork ℕ Bool × Journal ℕ := start fun _ => none

/-- A commit and a commit that throws. -/
theorem end_truthful_sample : (journaled id).Along (fun _ => AtEnd (Tells id)) sampleManager
    [.begin_, .persist 0 true false, .end_ false, .begin_, .findOneById 0,
      .edit 0 (fun _ => true), .end_ true] :=
  end_truthful id _ _ (by decide)

/-- An invalid entity leaves the transaction open; one that is marked is answered with true. -/
theorem end_untruthful :
    ¬ (journaled id).Along (fun _ => AtEnd (Tells id)) sampleManager
      [.begin_, .persist 0 false false, .end_ false] ∧
    ¬ (journaled id).Along (fun _ => AtEnd (Tells id)) sampleManager
      [.begin_, .persist 0 true false, .queryThrows, .end_ false] := by
  constructor
  · intro h
    have htells : Tells id _ false := h [.begin_, .persist 0 false false] (.end_ false) [] rfl
    exact absurd (htells.reopens rfl [] List.not_mem_nil) (by decide)
  · intro h
    have htells : Tells id _ false :=
      h [.begin_, .persist 0 true false, .queryThrows] (.end_ false) [] rfl
    exact absurd (htells.done rfl (0, 0) List.mem_cons_self).1 (by decide)

end

end AbstractSyncManager

end SXP.Model
