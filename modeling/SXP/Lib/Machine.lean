import Mathlib.Data.List.Induction
import Mathlib.Tactic.Cases

/-!
# Machines that answer

A machine takes one input after the other, answers each and moves on.  The
order of the inputs is the order in which an environment chose them, so a
statement about all lists of inputs is one about all interleavings.

Facts about runs come in three forms here: what every step keeps
(`invariant`), what every step keeps as long as the steps are allowed
(`invariant_along`), and what relates the state to the inputs taken so far
(`invariant_history`).
-/

namespace SXP.Lib

/-- A deterministic machine with states `σ`, inputs `ι` and answers `ο`. -/
structure Machine (σ ι ο : Type*) where
  step : σ → ι → ο × σ

namespace Machine

variable {σ ι ο : Type*} (M : Machine σ ι ο)

def out (s : σ) (i : ι) : ο := (M.step s i).1

def next (s : σ) (i : ι) : σ := (M.step s i).2

def run (s : σ) (is : List ι) : σ := is.foldl M.next s

@[simp] theorem run_nil (s : σ) : M.run s [] = s := rfl

@[simp] theorem run_cons (s : σ) (i : ι) (is : List ι) :
    M.run s (i :: is) = M.run (M.next s i) is := rfl

theorem run_append (s : σ) (is js : List ι) : M.run s (is ++ js) = M.run (M.run s is) js :=
  List.foldl_append

@[simp] theorem run_concat (s : σ) (is : List ι) (i : ι) :
    M.run s (is ++ [i]) = M.next (M.run s is) i := by
  rw [run_append, run_cons, run_nil]

/-- Every input is allowed in the state in which it is taken; what is allowed may
depend on the inputs before it. -/
def Along (allowed : List ι → σ → ι → Prop) (s : σ) (is : List ι) : Prop :=
  ∀ pre i post, is = pre ++ i :: post → allowed pre (M.run s pre) i

theorem along_nil (allowed : List ι → σ → ι → Prop) (s : σ) : M.Along allowed s [] := by
  intro pre i post h
  exact absurd h.symm (List.append_ne_nil_of_right_ne_nil _ (List.cons_ne_nil _ _))

theorem along_concat {allowed : List ι → σ → ι → Prop} {s : σ} {is : List ι} {i : ι} :
    M.Along allowed s (is ++ [i]) ↔ M.Along allowed s is ∧ allowed is (M.run s is) i := by
  constructor
  · intro h
    refine ⟨?_, h is i [] rfl⟩
    intro pre j post heq
    exact h pre j (post ++ [i]) (by rw [heq, List.append_assoc, List.cons_append])
  · rintro ⟨h, hi⟩ pre j post heq
    rcases List.eq_nil_or_concat post with rfl | ⟨post', k, rfl⟩
    · obtain ⟨rfl, hj⟩ := List.append_inj' heq rfl
      obtain rfl := List.singleton_inj.mp hj
      exact hi
    · have heq' : is ++ [i] = (pre ++ j :: post') ++ [k] := by
        rw [heq, List.concat_eq_append, List.append_assoc, List.cons_append]
      exact h pre j post' (List.append_inj' heq' rfl).1

theorem along_singleton {allowed : List ι → σ → ι → Prop} {s : σ} {i : ι} :
    M.Along allowed s [i] ↔ allowed [] s i := by
  have h : M.Along allowed s ([] ++ [i]) ↔ _ := M.along_concat
  rw [List.nil_append] at h
  rw [h]
  exact ⟨fun h => h.2, fun h => ⟨M.along_nil allowed s, h⟩⟩

theorem Along.of_prefix {M : Machine σ ι ο} {allowed : List ι → σ → ι → Prop} {s : σ}
    {is js : List ι} (h : M.Along allowed s js) (hp : is <+: js) : M.Along allowed s is := by
  obtain ⟨rest, rfl⟩ := hp
  intro pre i post heq
  exact h pre i (post ++ rest) (by rw [heq, List.append_assoc, List.cons_append])

theorem Along.and {M : Machine σ ι ο} {allowed allowed' : List ι → σ → ι → Prop} {s : σ}
    {is : List ι} (h : M.Along allowed s is) (h' : M.Along allowed' s is) :
    M.Along (fun pre t i => allowed pre t i ∧ allowed' pre t i) s is :=
  fun pre i post heq => ⟨h pre i post heq, h' pre i post heq⟩

/-- Some input of the run occurs in a state in which it counts. -/
def Happens (occurs : σ → ι → Prop) (s : σ) (is : List ι) : Prop :=
  ∃ pre i post, is = pre ++ i :: post ∧ occurs (M.run s pre) i

theorem not_happens_nil (occurs : σ → ι → Prop) (s : σ) : ¬ M.Happens occurs s [] := by
  rintro ⟨pre, i, post, h, -⟩
  exact absurd h.symm (List.append_ne_nil_of_right_ne_nil _ (List.cons_ne_nil _ _))

theorem happens_concat {occurs : σ → ι → Prop} {s : σ} {is : List ι} {i : ι} :
    M.Happens occurs s (is ++ [i]) ↔ M.Happens occurs s is ∨ occurs (M.run s is) i := by
  have h : M.Along (fun _ t j => ¬ occurs t j) s (is ++ [i]) ↔ _ := M.along_concat
  unfold Along at h
  unfold Happens
  rw [← not_iff_not, not_or]
  push Not
  exact h

theorem happens_cons {occurs : σ → ι → Prop} {s : σ} {i : ι} {is : List ι} :
    M.Happens occurs s (i :: is) ↔ occurs s i ∨ M.Happens occurs (M.next s i) is := by
  constructor
  · rintro ⟨pre, j, post, heq, h⟩
    cases pre with
    | nil =>
      obtain ⟨rfl, -⟩ := List.cons.inj heq
      exact Or.inl h
    | cons k pre =>
      obtain ⟨rfl, rfl⟩ := List.cons.inj heq
      exact Or.inr ⟨pre, j, post, rfl, h⟩
  · rintro (h | ⟨pre, j, post, rfl, h⟩)
    · exact ⟨[], i, is, rfl, h⟩
    · exact ⟨i :: pre, j, post, rfl, h⟩

theorem happens_append {occurs : σ → ι → Prop} {s : σ} {is js : List ι} :
    M.Happens occurs s (is ++ js) ↔ M.Happens occurs s is ∨ M.Happens occurs (M.run s is) js := by
  induction is generalizing s with
  | nil =>
    rw [List.nil_append, run_nil]
    exact (or_iff_right (M.not_happens_nil occurs s)).symm
  | cons i is ih => rw [List.cons_append, happens_cons, happens_cons, ih, run_cons, or_assoc]

instance decidableHappens (occurs : σ → ι → Prop) [∀ s i, Decidable (occurs s i)] (s : σ) :
    (is : List ι) → Decidable (M.Happens occurs s is)
  | [] => isFalse (M.not_happens_nil occurs s)
  | i :: is =>
      have := decidableHappens occurs (M.next s i) is
      decidable_of_iff _ M.happens_cons.symm

/-- Allowed all along, or something that is not allowed happens. -/
theorem along_iff_not_happens {allowed : σ → ι → Prop} {s : σ} {is : List ι} :
    M.Along (fun _ => allowed) s is ↔ ¬ M.Happens (fun t i => ¬ allowed t i) s is := by
  unfold Along Happens
  push Not
  rfl

instance decidableAlong (allowed : σ → ι → Prop) [∀ s i, Decidable (allowed s i)] (s : σ)
    (is : List ι) : Decidable (M.Along (fun _ => allowed) s is) :=
  have := M.decidableHappens (fun t i => ¬ allowed t i) s is
  decidable_of_iff _ M.along_iff_not_happens.symm

/-- **Induction over a run**: a relation between the inputs so far and the state
holds at the end when it holds at the start and every allowed step keeps it. -/
theorem invariant_history {allowed : List ι → σ → ι → Prop} {I : List ι → σ → Prop} {s : σ}
    (h0 : I [] s)
    (hstep : ∀ pre i, I pre (M.run s pre) → allowed pre (M.run s pre) i →
      I (pre ++ [i]) (M.next (M.run s pre) i)) :
    ∀ is, M.Along allowed s is → I is (M.run s is) := by
  intro is
  induction is using List.reverseRecOn with
  | nil => exact fun _ => h0
  | append_singleton is i ih =>
    intro h
    rw [M.along_concat] at h
    rw [run_concat]
    exact hstep is i (ih h.1) h.2

theorem invariant_inputs {I : List ι → σ → Prop} {s : σ} (h0 : I [] s)
    (hstep : ∀ pre i, I pre (M.run s pre) → I (pre ++ [i]) (M.next (M.run s pre) i)) (is : List ι) :
    I is (M.run s is) :=
  have hall : M.Along (fun _ _ _ => True) s is := fun _ _ _ _ => trivial
  M.invariant_history h0 (fun pre i h _ => hstep pre i h) is hall

/-- What every allowed step keeps holds at the end of a run of allowed steps. -/
theorem invariant_along {allowed : List ι → σ → ι → Prop} {I : σ → Prop} {s : σ} (h0 : I s)
    (hstep : ∀ pre t i, I t → allowed pre t i → I (M.next t i)) :
    ∀ is, M.Along allowed s is → I (M.run s is) :=
  M.invariant_history (I := fun _ t => I t) h0 fun pre i => hstep pre (M.run s pre) i

/-- What every step keeps holds at the end of every run. -/
theorem invariant {I : σ → Prop} {s : σ} (h0 : I s) (hstep : ∀ t i, I t → I (M.next t i)) :
    ∀ is, I (M.run s is) := by
  intro is
  induction is generalizing s with
  | nil => exact h0
  | cons i is ih => exact ih (hstep s i h0)

/-- **What holds in every state of a run**, and of every step: as long as the steps are the right
ones.  `J` is kept in any case. -/
theorem invariant_iff {I J : σ → Prop} {Q C : σ → ι → Prop} {s : σ} (h0 : I s) (hj0 : J s)
    (hj : ∀ t i, J t → J (M.next t i))
    (hstep : ∀ t i, J t → I t → (I (M.next t i) ∧ Q t i ↔ C t i)) (is : List ι) :
    (∀ pre, pre <+: is → I (M.run s pre)) ∧ M.Along (fun _ => Q) s is ↔
      M.Along (fun _ => C) s is := by
  induction is using List.reverseRecOn with
  | nil =>
    refine iff_of_true ⟨fun pre hpre => ?_, M.along_nil _ s⟩ (M.along_nil _ s)
    rw [List.prefix_nil.mp hpre]
    exact h0
  | append_singleton is i ih =>
    have hj' := M.invariant hj0 hj is
    rw [along_concat, along_concat]
    constructor
    · rintro ⟨hall, hq, hi⟩
      have hpre : ∀ pre, pre <+: is → I (M.run s pre) := fun pre hpre =>
        hall pre (hpre.trans (List.prefix_append is [i]))
      have hnext := hall _ List.prefix_rfl
      rw [run_concat] at hnext
      exact ⟨ih.mp ⟨hpre, hq⟩, (hstep _ i hj' (hpre is List.prefix_rfl)).mp ⟨hnext, hi⟩⟩
    · rintro ⟨hc, hi⟩
      obtain ⟨hall, hq⟩ := ih.mpr hc
      obtain ⟨hnext, hi'⟩ := (hstep _ i hj' (hall is List.prefix_rfl)).mpr hi
      refine ⟨fun pre hpre => ?_, hq, hi'⟩
      rcases List.prefix_concat_iff.mp hpre with rfl | hpre
      · rw [run_concat]
        exact hnext
      · exact hall pre hpre

/-! ### Simulation -/

section

variable {τ ο' : Type*} (M' : Machine τ ι ο') {R : σ → τ → Prop}

/-- One machine follows the other when every step does. -/
theorem run_simulation {s : σ} {t : τ} (h0 : R s t)
    (hstep : ∀ s t i, R s t → R (M.next s i) (M'.next t i)) (is : List ι) :
    R (M.run s is) (M'.run t is) := by
  induction is generalizing s t with
  | nil => exact h0
  | cons i is ih => exact ih (hstep s t i h0)

theorem happens_simulation {s : σ} {t : τ} (h0 : R s t)
    (hstep : ∀ s t i, R s t → R (M.next s i) (M'.next t i)) {occurs : σ → ι → Prop}
    {occurs' : τ → ι → Prop} (h : ∀ s t i, R s t → (occurs s i ↔ occurs' t i)) (is : List ι) :
    M.Happens occurs s is ↔ M'.Happens occurs' t is := by
  unfold Happens
  refine exists₃_congr fun pre i post => and_congr_right fun _ => ?_
  exact h _ _ i (M.run_simulation M' h0 hstep pre)

theorem along_simulation {s : σ} {t : τ} (h0 : R s t)
    (hstep : ∀ s t i, R s t → R (M.next s i) (M'.next t i)) {allowed : σ → ι → Prop}
    {allowed' : τ → ι → Prop} (h : ∀ s t i, R s t → (allowed s i ↔ allowed' t i)) (is : List ι) :
    M.Along (fun _ => allowed) s is ↔ M'.Along (fun _ => allowed') t is := by
  unfold Along
  refine forall₄_congr fun pre i post _ => ?_
  exact h _ _ i (M.run_simulation M' h0 hstep pre)

end

/-! ### History variables -/

/-- A machine that also writes down what it does. -/
def traced {τ : Type*} (record : σ → ι → τ → τ) : Machine (σ × τ) ι ο where
  step s i := (M.out s.1 i, M.next s.1 i, record s.1 i s.2)

section

variable {τ : Type*} (record : σ → ι → τ → τ)

@[simp] theorem traced_next (s : σ × τ) (i : ι) :
    (M.traced record).next s i = (M.next s.1 i, record s.1 i s.2) := rfl

@[simp] theorem traced_run_fst (s : σ × τ) (is : List ι) :
    ((M.traced record).run s is).1 = M.run s.1 is := by
  induction is generalizing s with
  | nil => rfl
  | cons i is ih =>
    rw [run_cons, run_cons, ih, traced_next]

end

/-! ### Part of a machine -/

section

variable {κ τ ο' : Type*} (M' : Machine τ κ ο') {π : σ → τ} {f : ι → Option κ}

/-- A part of the state that moves by itself: it makes the run of the inputs that are its
own. -/
theorem run_part (h : ∀ s i, π (M.next s i) = (f i).elim (π s) (M'.next (π s))) (s : σ)
    (is : List ι) : π (M.run s is) = M'.run (π s) (is.filterMap f) := by
  induction is generalizing s with
  | nil => rfl
  | cons i is ih =>
    rw [run_cons, ih, h, List.filterMap_cons]
    cases f i with
    | none => rfl
    | some k => rfl

theorem happens_part (h : ∀ s i, π (M.next s i) = (f i).elim (π s) (M'.next (π s)))
    {occurs : σ → ι → Prop} {occurs' : τ → κ → Prop}
    (ho : ∀ s i, occurs s i ↔ ∃ k, f i = some k ∧ occurs' (π s) k) (s : σ) (is : List ι) :
    M.Happens occurs s is ↔ M'.Happens occurs' (π s) (is.filterMap f) := by
  induction is generalizing s with
  | nil => exact iff_of_false (M.not_happens_nil _ _) (M'.not_happens_nil _ _)
  | cons i is ih =>
    rw [happens_cons, ih, h, ho, List.filterMap_cons]
    cases f i with
    | none => simp
    | some k => simp [happens_cons]

end

/-! ### Inputs that leave no trace -/

section

variable {κ τ ο' : Type*}

/-- What the inputs of a run are for another machine.  Whether an input is one for it may
depend on the state. -/
def image (f : σ → ι → Option κ) : σ → List ι → List κ
  | _, [] => []
  | s, i :: is => (f s i).toList ++ image f (M.next s i) is

theorem image_append (f : σ → ι → Option κ) (s : σ) (is js : List ι) :
    M.image f s (is ++ js) = M.image f s is ++ M.image f (M.run s is) js := by
  induction is generalizing s with
  | nil => rfl
  | cons i is ih => rw [List.cons_append, image, ih, image, List.append_assoc, run_cons]

variable (M' : Machine τ κ ο') {f : σ → ι → Option κ} {R : σ → τ → Prop}

/-- One machine follows the other when it follows each input that leaves a trace, and is
where it was after each one that leaves none. -/
theorem run_image {is : List ι}
    (hstep : ∀ i ∈ is, ∀ s t, R s t → R (M.next s i) ((f s i).elim t (M'.next t))) {s : σ} {t : τ}
    (h0 : R s t) : R (M.run s is) (M'.run t (M.image f s is)) := by
  induction is generalizing s t with
  | nil => exact h0
  | cons i is ih =>
    have hnext := hstep i List.mem_cons_self s t h0
    have hrun := ih (fun k hk => hstep k (List.mem_cons_of_mem i hk)) hnext
    rw [run_cons, image]
    cases hf : f s i with
    | none =>
      rw [hf] at hrun
      exact hrun
    | some k =>
      rw [hf] at hrun
      exact hrun

theorem happens_image {is : List ι}
    (hstep : ∀ i ∈ is, ∀ s t, R s t → R (M.next s i) ((f s i).elim t (M'.next t)))
    {occurs : σ → ι → Prop} {occurs' : τ → κ → Prop}
    (h : ∀ i ∈ is, ∀ s t, R s t → (occurs s i ↔ ∃ k, f s i = some k ∧ occurs' t k)) {s : σ} {t : τ}
    (h0 : R s t) : M.Happens occurs s is ↔ M'.Happens occurs' t (M.image f s is) := by
  induction is generalizing s t with
  | nil => exact iff_of_false (M.not_happens_nil _ _) (M'.not_happens_nil _ _)
  | cons i is ih =>
    have hnext := hstep i List.mem_cons_self s t h0
    have hrest := ih (fun k hk => hstep k (List.mem_cons_of_mem i hk))
      (fun k hk => h k (List.mem_cons_of_mem i hk)) hnext
    rw [happens_cons, hrest, h i List.mem_cons_self s t h0, image]
    cases hf : f s i with
    | none => simp
    | some k => simp [happens_cons]

/-- Some inputs can be left out when the relation does not see them. -/
theorem run_filter {R : σ → σ → Prop} {p : ι → Prop} [DecidablePred p]
    (hskip : ∀ s t i, R s t → ¬ p i → R (M.next s i) t)
    (hstep : ∀ s t i, R s t → p i → R (M.next s i) (M.next t i)) {s t : σ} (h0 : R s t)
    (is : List ι) : R (M.run s is) (M.run t (is.filter p)) := by
  induction is generalizing s t with
  | nil => exact h0
  | cons i is ih =>
    rw [List.filter_cons]
    by_cases hi : p i
    · rw [if_pos (decide_eq_true hi)]
      exact ih (hstep s t i h0 hi)
    · rw [if_neg (by simpa using hi)]
      exact ih (hskip s t i h0 hi)

end

end Machine

end SXP.Lib
