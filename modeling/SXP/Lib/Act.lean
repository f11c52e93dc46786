import SXP.Lib.Java

/-!
# Methods with fields

A method reads and writes the fields of its object, and may throw.  What it has
written by then stays written, so `exec` gives an outcome and the fields in any
case.  `after_bind` is the rule for what holds of the fields after a sequence of
two calls; the rules for loops follow from it by induction on the list.
-/

namespace SXP.Lib

/-- A method on an object with the fields `σ`. -/
abbrev Act (σ α : Type) : Type := ExceptT JavaException (StateM σ) α

namespace Act

variable {σ α β : Type}

def exec (x : Act σ α) (s : σ) : Java α × σ := x.run.run s

def lift (x : Java α) : Act σ α := liftExcept x

def within {τ : Type} (part : σ → τ) (put : τ → σ → σ) (x : Act τ α) : Act σ α :=
  fun s => ((exec x (part s)).1, put (exec x (part s)).2 s)

-- the parentheses keep these from being used by unfolding: checking a rewritten call would
-- mean to evaluate it

@[simp] theorem exec_pure (a : α) (s : σ) : exec (pure a) s = (.ok a, s) := (rfl)

@[simp] theorem exec_modify (f : σ → σ) (s : σ) :
    exec (modify f : Act σ Unit) s = (.ok (), f s) := (rfl)

@[simp] theorem exec_lift (x : Java α) (s : σ) : exec (lift x) s = (x, s) := by
  cases x <;> rfl

@[simp] theorem exec_within {τ : Type} (part : σ → τ) (put : τ → σ → σ) (x : Act τ α) (s : σ) :
    exec (within part put x) s = ((exec x (part s)).1, put (exec x (part s)).2 s) := (rfl)

theorem exec_bind (x : Act σ α) (f : α → Act σ β) (s : σ) : exec (x >>= f) s =
    match exec x s with
    | (.ok a, s') => exec (f a) s'
    | (.error e, s') => (.error e, s') := by
  have h : exec (x >>= f) s
      = StateT.run (m := Id) (ExceptT.bindCont f (exec x s).1) (exec x s).2 := rfl
  rw [h]
  rcases exec x s with ⟨e | a, s'⟩
  · rfl
  · rfl

@[simp] theorem exec_get_bind (f : σ → Act σ β) (s : σ) : exec (get >>= f) s = exec (f s) s := (rfl)

@[simp] theorem exec_modify_bind (g : σ → σ) (f : Unit → Act σ β) (s : σ) :
    exec (modify g >>= f) s = exec (f ()) (g s) := (rfl)

@[simp] theorem exec_ok_bind (a : α) (f : α → Act σ β) (s : σ) :
    exec (lift (.ok a) >>= f) s = exec (f a) s := (rfl)

@[simp] theorem exec_error_bind (e : JavaException) (f : α → Act σ β) (s : σ) :
    exec (lift (.error e) >>= f) s = (.error e, s) := (rfl)

theorem exec_bind_ok {x : Act σ α} {f : α → Act σ β} {s s' : σ} {a : α}
    (h : exec x s = (.ok a, s')) : exec (x >>= f) s = exec (f a) s' := by
  rw [exec_bind, h]

theorem exec_bind_eq_ok {x : Act σ α} {f : α → Act σ β} {s s'' : σ} {b : β} :
    exec (x >>= f) s = (.ok b, s'') ↔
      ∃ a s', exec x s = (.ok a, s') ∧ exec (f a) s' = (.ok b, s'') := by
  rw [exec_bind]
  rcases exec x s with ⟨e | a, s'⟩
  · simp
  · constructor
    · exact fun h => ⟨a, s', rfl, h⟩
    · rintro ⟨a', t, heq, h⟩
      obtain ⟨ha, rfl⟩ := Prod.mk.inj heq
      rwa [Except.ok.inj ha]

/-- A sequence ends where the first call throws, or where the second one ends. -/
theorem after_bind {x : Act σ α} {f : α → Act σ β} {s : σ} {Q : σ → Prop}
    (herror : ∀ e, (exec x s).1 = .error e → Q (exec x s).2)
    (hok : ∀ a, (exec x s).1 = .ok a → Q (exec (f a) (exec x s).2).2) :
    Q (exec (x >>= f) s).2 := by
  rw [exec_bind]
  rcases h : exec x s with ⟨e | a, s'⟩
  · rw [h] at herror
    exact herror e rfl
  · rw [h] at hok
    exact hok a rfl

/-- A computation that touches no field, and a call with what it returns. -/
theorem after_lift {x : Java α} {f : α → Act σ β} {s : σ} {Q : σ → Prop} (herror : Q s)
    (hok : ∀ a, x = .ok a → Q (exec (f a) s).2) : Q (exec (lift x >>= f) s).2 := by
  cases x with
  | error e => exact herror
  | ok a => exact hok a rfl

theorem keeps_bind {R : σ → σ → Prop} (ht : ∀ s s' s'', R s s' → R s' s'' → R s s'')
    {x : Act σ α} {f : α → Act σ β} {s : σ} (hx : R s (exec x s).2)
    (hf : ∀ a, (exec x s).1 = .ok a → R (exec x s).2 (exec (f a) (exec x s).2).2) :
    R s (exec (x >>= f) s).2 :=
  after_bind (fun _ _ => hx) fun a ha => ht _ _ _ hx (hf a ha)

/-! ### Loops -/

theorem keeps_forM {R : σ → σ → Prop} (hr : ∀ s, R s s)
    (ht : ∀ s s' s'', R s s' → R s' s'' → R s s'') {f : α → Act σ Unit} {l : List α}
    (hf : ∀ a ∈ l, ∀ s, R s (exec (f a) s).2) (s : σ) : R s (exec (l.forM f) s).2 := by
  induction l generalizing s with
  | nil => exact hr s
  | cons a l ih =>
    rw [List.forM_eq_forM, List.forM_cons]
    apply keeps_bind ht (hf a List.mem_cons_self s)
    intro _ _
    exact ih (fun b hb => hf b (List.mem_cons_of_mem a hb)) _

theorem keeps_mapM {R : σ → σ → Prop} (hr : ∀ s, R s s)
    (ht : ∀ s s' s'', R s s' → R s' s'' → R s s'') {f : α → Act σ β} {l : List α}
    (hf : ∀ a ∈ l, ∀ s, R s (exec (f a) s).2) (s : σ) : R s (exec (l.mapM f) s).2 := by
  induction l generalizing s with
  | nil => exact hr s
  | cons a l ih =>
    rw [List.mapM_cons]
    apply keeps_bind ht (hf a List.mem_cons_self s)
    intro b _
    apply keeps_bind ht (ih (fun b hb => hf b (List.mem_cons_of_mem a hb)) _)
    intro bs _
    exact hr _

theorem matched_cons {R : α → β → Prop} {l : List α} {bs : List β} {a : α} {b : β} (hab : R a b)
    (hleft : ∀ a ∈ l, ∃ b ∈ bs, R a b) (hright : ∀ b ∈ bs, ∃ a ∈ l, R a b) :
    (∀ a' ∈ a :: l, ∃ b' ∈ b :: bs, R a' b') ∧ ∀ b' ∈ b :: bs, ∃ a' ∈ a :: l, R a' b' := by
  constructor
  · intro a' ha'
    rcases List.mem_cons.mp ha' with rfl | ha'
    · exact ⟨b, List.mem_cons_self, hab⟩
    · obtain ⟨b', hb', h⟩ := hleft a' ha'
      exact ⟨b', List.mem_cons_of_mem b hb', h⟩
  · intro b' hb'
    rcases List.mem_cons.mp hb' with rfl | hb'
    · exact ⟨a, List.mem_cons_self, hab⟩
    · obtain ⟨a', ha', h⟩ := hright b' hb'
      exact ⟨a', List.mem_cons_of_mem a ha', h⟩

/-- **A loop in which no call throws**: `I k` holds before the element number `k`, and `R`
of every element and what is collected for it. -/
theorem mapM_ok {f : α → Act σ β} {l : List α} {I : Nat → σ → Prop} {R : α → β → Prop}
    (hf : ∀ k a, l[k]? = some a → ∀ s, I k s →
      ∃ b s', exec (f a) s = (.ok b, s') ∧ I (k + 1) s' ∧ R a b) {s : σ} (h0 : I 0 s) :
    ∃ bs s', exec (l.mapM f) s = (.ok bs, s') ∧ I l.length s' ∧
      (∀ a ∈ l, ∃ b ∈ bs, R a b) ∧ ∀ b ∈ bs, ∃ a ∈ l, R a b := by
  induction l generalizing I s with
  | nil => exact ⟨[], s, rfl, h0, by simp, by simp⟩
  | cons a l ih =>
    obtain ⟨b, s', hb, h1, hab⟩ := hf 0 a rfl s h0
    obtain ⟨bs, s'', hbs, hl, hleft, hright⟩ :=
      ih (I := fun k => I (k + 1)) (fun k a' ha' => hf (k + 1) a' ha') h1
    refine ⟨b :: bs, s'', ?_, hl, matched_cons hab hleft hright⟩
    rw [List.mapM_cons, exec_bind_ok hb, exec_bind_ok hbs, exec_pure]

theorem forM_ok {f : α → Act σ Unit} {l : List α} {I : Nat → σ → Prop}
    (hf : ∀ k a, l[k]? = some a → ∀ s, I k s → ∃ s', exec (f a) s = (.ok (), s') ∧ I (k + 1) s')
    {s : σ} (h0 : I 0 s) : ∃ s', exec (l.forM f) s = (.ok (), s') ∧ I l.length s' := by
  induction l generalizing I s with
  | nil => exact ⟨s, rfl, h0⟩
  | cons a l ih =>
    obtain ⟨s', hs', h1⟩ := hf 0 a rfl s h0
    obtain ⟨s'', hs'', hl⟩ := ih (I := fun k => I (k + 1)) (fun k a' ha' => hf (k + 1) a' ha') h1
    refine ⟨s'', ?_, hl⟩
    rw [List.forM_eq_forM, List.forM_cons, exec_bind_ok hs']
    exact hs''

/-- **A loop that returns**: what every call that returns keeps holds at the end, and `R` of
every element and what is collected for it. -/
theorem mapM_returns {f : α → Act σ β} {l : List α} {I : Nat → σ → Prop} {R : α → β → Prop}
    (hf : ∀ k a, l[k]? = some a → ∀ s b s', I k s → exec (f a) s = (.ok b, s') →
      I (k + 1) s' ∧ R a b) {s s' : σ} {bs : List β} (h0 : I 0 s)
    (h : exec (l.mapM f) s = (.ok bs, s')) :
    I l.length s' ∧ (∀ a ∈ l, ∃ b ∈ bs, R a b) ∧ ∀ b ∈ bs, ∃ a ∈ l, R a b := by
  induction l generalizing I s bs with
  | nil =>
    rw [List.mapM_nil, exec_pure] at h
    obtain ⟨hbs, rfl⟩ := Prod.mk.inj h
    obtain rfl := Except.ok.inj hbs
    exact ⟨h0, by simp, by simp⟩
  | cons a l ih =>
    rw [List.mapM_cons, exec_bind_eq_ok] at h
    obtain ⟨b, s1, hb, h⟩ := h
    obtain ⟨bs', s2, hbs', h⟩ := exec_bind_eq_ok.mp h
    rw [exec_pure] at h
    obtain ⟨hbs, rfl⟩ := Prod.mk.inj h
    obtain rfl := Except.ok.inj hbs
    obtain ⟨h1, hab⟩ := hf 0 a rfl s b s1 h0 hb
    obtain ⟨hl, hleft, hright⟩ :=
      ih (I := fun k => I (k + 1)) (fun k a' ha' => hf (k + 1) a' ha') h1 hbs'
    exact ⟨hl, matched_cons hab hleft hright⟩

/-! ### Two calls side by side -/

/-- Both return, or both throw. -/
inductive Alike (Q : α → β → Prop) : Java α → Java β → Prop
  | ok {a : α} {b : β} (h : Q a b) : Alike Q (.ok a) (.ok b)
  | error (e e' : JavaException) : Alike Q (.error e) (.error e')

theorem Alike.refl {Q : α → α → Prop} (h : ∀ a, Q a a) (x : Java α) : Alike Q x x := by
  cases x with
  | ok a => exact .ok (h a)
  | error e => exact .error e e

theorem Alike.imp {Q Q' : α → β → Prop} (h : ∀ a b, Q a b → Q' a b) {x : Java α} {y : Java β}
    (hxy : Alike Q x y) : Alike Q' x y := by
  cases hxy with
  | ok hab => exact .ok (h _ _ hab)
  | error e e' => exact .error e e'

/-- The outcomes of two calls are alike, and the fields after them are related. -/
def Sides (R : σ → σ → Prop) (Q : α → β → Prop) (x : Act σ α) (y : Act σ β) (s t : σ) : Prop :=
  Alike Q (exec x s).1 (exec y t).1 ∧ R (exec x s).2 (exec y t).2

section

variable {R : σ → σ → Prop} {s t : σ}

theorem sides_pure {Q : α → β → Prop} {a : α} {b : β} (hab : Q a b) (h : R s t) :
    Sides R Q (pure a) (pure b) s t := ⟨.ok hab, h⟩

theorem sides_lift {Q : α → β → Prop} {x : Java α} {y : Java β} (hxy : Alike Q x y) (h : R s t) :
    Sides R Q (lift x) (lift y) s t := by
  rw [Sides, exec_lift, exec_lift]
  exact ⟨hxy, h⟩

theorem sides_modify {Q : Unit → Unit → Prop} (hQ : Q () ()) {f g : σ → σ} (h : R (f s) (g t)) :
    Sides R Q (modify f) (modify g) s t := ⟨.ok hQ, h⟩

/-- **Two sequences** are alike when their parts are. -/
theorem sides_bind {α' β' : Type} {Q : α → β → Prop} {Q' : α' → β' → Prop} {x : Act σ α}
    {y : Act σ β} {f : α → Act σ α'} {g : β → Act σ β'} (hxy : Sides R Q x y s t)
    (hfg : ∀ a b s' t', Q a b → R s' t' → Sides R Q' (f a) (g b) s' t') :
    Sides R Q' (x >>= f) (y >>= g) s t := by
  unfold Sides at hxy
  rw [Sides, exec_bind, exec_bind]
  generalize exec x s = r at *
  generalize exec y t = r' at *
  obtain ⟨xa, s'⟩ := r
  obtain ⟨yb, t'⟩ := r'
  obtain ⟨halike, h⟩ := hxy
  dsimp only at halike h
  cases halike with
  | ok hab => exact hfg _ _ s' t' hab h
  | error e e' => exact ⟨.error e e', h⟩

theorem sides_get {Q : α → β → Prop} {f : σ → Act σ α} {g : σ → Act σ β}
    (h : Sides R Q (f s) (g t) s t) : Sides R Q (get >>= f) (get >>= g) s t := h

theorem sides_forM {ι : Type} {l : List ι} {f g : ι → Act σ Unit}
    (hfg : ∀ a ∈ l, ∀ s t, R s t → Sides R Eq (f a) (g a) s t) (h : R s t) :
    Sides R Eq (l.forM f) (l.forM g) s t := by
  induction l generalizing s t with
  | nil => exact sides_pure rfl h
  | cons a l ih =>
    rw [List.forM_eq_forM, List.forM_cons, List.forM_cons]
    refine sides_bind (hfg a List.mem_cons_self s t h) fun _ _ s' t' _ h' => ?_
    exact ih (fun b hb => hfg b (List.mem_cons_of_mem a hb)) h'

end

end Act

end SXP.Lib
