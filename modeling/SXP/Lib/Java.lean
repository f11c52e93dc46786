import Mathlib.Data.List.Forall2
import Mathlib.Tactic.Cases
import Mathlib.Tactic.ByContra

/-!
# Computations that may throw

A Java method either returns or throws.  `Java α` is a computation that reads
no state; `Outcome`s of several such computations are chained by `>>=`, and the
first exception wins.  The lemmas here take a chain that returned apart: from
`x >>= f` returning they give the value `x` returned, and from a test that
guards an exception they give the test.
-/

namespace SXP.Lib

inductive JavaException where
  | nullPointer
  | indexOutOfBounds
  | stringIndexOutOfBounds
  | arithmetic
  | numberFormat
  | dataLength
  | classCast
  | noSuchField
  | runtime (message : String)
deriving DecidableEq, Repr

/-- A computation that returns a value or throws. -/
abbrev Java (α : Type) : Type := Except JavaException α

namespace Java

@[simp] theorem pure_eq {α : Type} (a : α) : (pure a : Java α) = .ok a := rfl

@[simp] theorem throw_eq {α : Type} (e : JavaException) : (throw e : Java α) = .error e := rfl

@[simp] theorem ok_bind {α β : Type} (a : α) (f : α → Java β) :
    ((.ok a : Java α) >>= f) = f a := rfl

@[simp] theorem error_bind {α β : Type} (e : JavaException) (f : α → Java β) :
    ((.error e : Java α) >>= f) = .error e := rfl

theorem bind_eq_ok {α β : Type} {x : Java α} {f : α → Java β} {b : β} :
    (x >>= f) = .ok b ↔ ∃ a, x = .ok a ∧ f a = .ok b := by
  cases x with
  | ok a => simp
  | error e => simp

/-- A reference that may be null, read as an object. -/
def nonNull {α : Type} : Option α → Java α
  | some a => .ok a
  | none => .error .nullPointer

@[simp] theorem nonNull_some {α : Type} (a : α) : nonNull (some a) = .ok a := rfl

@[simp] theorem nonNull_none {α : Type} : nonNull (none : Option α) = .error .nullPointer := rfl

theorem nonNull_eq_ok {α : Type} {o : Option α} {a : α} :
    nonNull o = .ok a ↔ o = some a := by
  cases o with
  | none => simp
  | some b => simp

def first {α : Type} : List α → Java α
  | a :: _ => .ok a
  | [] => .error .indexOutOfBounds

@[simp] theorem first_cons {α : Type} (a : α) (l : List α) : first (a :: l) = .ok a := rfl

theorem first_eq_ok {α : Type} {l : List α} {a : α} : first l = .ok a ↔ l.head? = some a := by
  cases l with
  | nil => simp [first]
  | cons b r => simp [first]

def element {α : Type} (l : List α) (k : ℕ) : Java α :=
  match l[k]? with
  | some a => .ok a
  | none => .error .indexOutOfBounds

theorem element_eq_ok {α : Type} {l : List α} {k : ℕ} {a : α} :
    element l k = .ok a ↔ l[k]? = some a := by
  unfold element
  cases l[k]? with
  | none => simp
  | some b => simp

/-! ### Conditions -/

/-- `x && y`: the right side is evaluated when the left side holds. -/
def andThen (x y : Java Bool) : Java Bool := x >>= fun b => if b then y else pure false

@[simp] theorem andThen_true (y : Java Bool) : andThen (.ok true) y = y := rfl

@[simp] theorem andThen_false (y : Java Bool) : andThen (.ok false) y = .ok false := rfl

@[simp] theorem andThen_error (e : JavaException) (y : Java Bool) :
    andThen (.error e) y = .error e := rfl

theorem andThen_eq_true {x y : Java Bool} :
    andThen x y = .ok true ↔ x = .ok true ∧ y = .ok true := by
  rcases x with e | _ | _ <;> simp

/-- A loop that returns false at the first element that fails the test. -/
def all {α : Type} (p : α → Java Bool) : List α → Java Bool
  | [] => pure true
  | a :: l => andThen (p a) (all p l)

theorem all_eq_true {α : Type} {p : α → Java Bool} {l : List α} :
    all p l = .ok true ↔ ∀ a ∈ l, p a = .ok true := by
  induction l with
  | nil => simp [all]
  | cons a l ih => rw [all, andThen_eq_true, ih, List.forall_mem_cons]

theorem all_of_total {α : Type} {p : α → Java Bool} {f : α → Bool} {l : List α}
    (h : ∀ a ∈ l, p a = .ok (f a)) : all p l = .ok (l.all f) := by
  induction l with
  | nil => rfl
  | cons a l ih =>
    rw [all, h a List.mem_cons_self, ih fun b hb => h b (List.mem_cons_of_mem a hb), List.all_cons]
    cases f a <;> rfl

theorem all_map {α β : Type} (p : β → Java Bool) (f : α → β) (l : List α) :
    all p (l.map f) = all (fun a => p (f a)) l := by
  induction l with
  | nil => rfl
  | cons a l ih => rw [List.map_cons, all, all, ih]

/-- A loop that stops at the first element that passes the test. -/
def any {α : Type} (p : α → Java Bool) : List α → Java Bool
  | [] => pure false
  | a :: l => p a >>= fun b => if b then pure true else any p l

theorem any_of_total {α : Type} {p : α → Java Bool} {f : α → Bool} {l : List α}
    (h : ∀ a ∈ l, p a = .ok (f a)) : any p l = .ok (l.any f) := by
  induction l with
  | nil => rfl
  | cons a l ih =>
    rw [any, h a List.mem_cons_self, ok_bind, ih fun b hb => h b (List.mem_cons_of_mem a hb),
      List.any_cons]
    cases f a <;> rfl

theorem exists_of_any {α : Type} {p : α → Java Bool} {l : List α} (h : any p l = .ok true) :
    ∃ a ∈ l, p a = .ok true := by
  induction l with
  | nil => simp [any] at h
  | cons a l ih =>
    rw [any, bind_eq_ok] at h
    obtain ⟨b, hb, h⟩ := h
    cases b with
    | true => exact ⟨a, List.mem_cons_self, hb⟩
    | false =>
      obtain ⟨a', ha', h'⟩ := ih h
      exact ⟨a', List.mem_cons_of_mem a ha', h'⟩

/-- A loop that returns the first element that passes the test, or null. -/
def find {α : Type} (p : α → Java Bool) : List α → Java (Option α)
  | [] => pure none
  | a :: l => p a >>= fun b => if b then pure (some a) else find p l

/-- **What is found** passes the test, and nothing before it does. -/
theorem find_eq_some {α : Type} {p : α → Java Bool} {l : List α} {a : α} :
    find p l = .ok (some a) ↔
      ∃ pre post, l = pre ++ a :: post ∧ (∀ b ∈ pre, p b = .ok false) ∧ p a = .ok true := by
  induction l with
  | nil => simp [find]
  | cons c l ih =>
    rw [find, bind_eq_ok]
    constructor
    · rintro ⟨_ | _, hc, h⟩
      · obtain ⟨pre, post, rfl, hpre, ha⟩ := ih.mp h
        exact ⟨c :: pre, post, rfl, List.forall_mem_cons.mpr ⟨hc, hpre⟩, ha⟩
      · obtain rfl := Option.some.inj (Except.ok.inj h)
        exact ⟨[], l, rfl, by simp, hc⟩
    · rintro ⟨pre, post, heq, hpre, ha⟩
      cases pre with
      | nil =>
        obtain ⟨rfl, rfl⟩ := List.cons.inj heq
        exact ⟨true, ha, rfl⟩
      | cons d pre =>
        obtain ⟨rfl, rfl⟩ := List.cons.inj heq
        obtain ⟨hd, hpre⟩ := List.forall_mem_cons.mp hpre
        exact ⟨false, hd, ih.mpr ⟨pre, post, rfl, hpre, ha⟩⟩

theorem find_of_total {α : Type} {p : α → Java Bool} {f : α → Bool} {l : List α}
    (h : ∀ a ∈ l, p a = .ok (f a)) : find p l = .ok (l.find? f) := by
  induction l with
  | nil => rfl
  | cons a l ih =>
    rw [find, h a List.mem_cons_self, ok_bind, ih fun b hb => h b (List.mem_cons_of_mem a hb),
      List.find?_cons]
    cases f a <;> rfl

theorem find_eq_none {α : Type} {p : α → Java Bool} {l : List α} :
    find p l = .ok none ↔ ∀ a ∈ l, p a = .ok false := by
  induction l with
  | nil => simp [find]
  | cons c l ih =>
    rw [find, bind_eq_ok, List.forall_mem_cons, ← ih]
    constructor
    · rintro ⟨_ | _, hc, h⟩
      · exact ⟨hc, h⟩
      · exact absurd h (by simp)
    · rintro ⟨hc, h⟩
      exact ⟨false, hc, h⟩

def collect {α β : Type} (f : α → Java β) : List α → Java (List β)
  | [] => pure []
  | a :: l => do
      let b ← f a
      let bs ← collect f l
      return b :: bs

theorem collect_total {α β : Type} {f : α → Java β} {l : List α}
    (h : ∀ a ∈ l, ∃ b, f a = .ok b) : ∃ bs, collect f l = .ok bs := by
  induction l with
  | nil => exact ⟨[], rfl⟩
  | cons a l ih =>
    obtain ⟨b, hb⟩ := h a List.mem_cons_self
    obtain ⟨bs, hbs⟩ := ih fun a' ha' => h a' (List.mem_cons_of_mem a ha')
    exact ⟨b :: bs, by rw [collect, hb, ok_bind, hbs, ok_bind, pure_eq]⟩

theorem collect_eq_ok {α β : Type} {f : α → Java β} : ∀ {l : List α} {bs : List β},
    collect f l = .ok bs ↔ List.Forall₂ (fun a b => f a = .ok b) l bs := by
  intro l
  induction l with
  | nil =>
    intro bs
    rw [collect, pure_eq, Except.ok.injEq, List.forall₂_nil_left_iff]
    exact eq_comm
  | cons a l ih =>
    intro bs
    rw [collect, List.forall₂_cons_left_iff]
    simp only [bind_eq_ok, pure_eq, Except.ok.injEq]
    constructor
    · rintro ⟨b, hb, bs', hbs, rfl⟩
      exact ⟨b, bs', hb, ih.mp hbs, rfl⟩
    · rintro ⟨b, bs', hb, hbs, rfl⟩
      exact ⟨b, hb, bs', ih.mpr hbs, rfl⟩

/-- What is collected from a list that is related to another one. -/
theorem exists_forall₂_collect {α β γ : Type} {f : α → Java β} {R : γ → β → Prop} {cs : List γ}
    {l : List α} (h : List.Forall₂ (fun c a => ∃ b, f a = .ok b ∧ R c b) cs l) :
    ∃ bs, collect f l = .ok bs ∧ List.Forall₂ R cs bs := by
  induction h with
  | nil => exact ⟨[], rfl, .nil⟩
  | cons h _ ih =>
    obtain ⟨b, hb, hr⟩ := h
    obtain ⟨bs, hbs, hall⟩ := ih
    exact ⟨b :: bs, by rw [collect, hb, ok_bind, hbs, ok_bind, pure_eq], .cons hr hall⟩

theorem exists_of_collect {α β : Type} {f : α → Java β} {l : List α} {bs : List β}
    (h : collect f l = .ok bs) {a : α} (ha : a ∈ l) : ∃ b, f a = .ok b := by
  have hall := collect_eq_ok.mp h
  induction hall with
  | nil => exact absurd ha List.not_mem_nil
  | cons hab _ ih =>
    rcases List.mem_cons.mp ha with rfl | ha
    · exact ⟨_, hab⟩
    · exact ih (collect_eq_ok.mpr ‹_›) ha

theorem mem_collect {α β : Type} {f : α → Java β} {l : List α} {bs : List β}
    (h : collect f l = .ok bs) {b : β} : b ∈ bs ↔ ∃ a ∈ l, f a = .ok b := by
  have hall := collect_eq_ok.mp h
  induction hall with
  | nil => simp
  | @cons a b' l bs hab hall ih =>
    have hrest : b ∈ bs ↔ ∃ a ∈ l, f a = .ok b := ih (collect_eq_ok.mpr hall)
    rw [List.mem_cons, hrest, List.exists_mem_cons_iff, hab, Except.ok.injEq]
    exact or_congr_left eq_comm

/-! ### Where nothing is thrown -/

def Returns {α : Type} (x : Java α) : Prop := ∃ a, x = .ok a

theorem returns_ok {α : Type} (a : α) : Returns (.ok a : Java α) := ⟨a, rfl⟩

theorem not_returns_error {α : Type} (e : JavaException) : ¬ Returns (.error e : Java α) := by
  rintro ⟨a, h⟩
  exact absurd h (by simp)

theorem returns_bind {α β : Type} {x : Java α} {f : α → Java β} :
    Returns (x >>= f) ↔ ∃ a, x = .ok a ∧ Returns (f a) := by
  unfold Returns
  simp only [bind_eq_ok]
  exact ⟨fun ⟨b, a, ha, hb⟩ => ⟨a, ha, b, hb⟩, fun ⟨a, ha, b, hb⟩ => ⟨b, a, ha, hb⟩⟩

theorem returns_andThen {x y : Java Bool} :
    Returns (andThen x y) ↔ Returns x ∧ (x = .ok true → Returns y) := by
  rcases x with e | _ | _
  · exact iff_of_false (not_returns_error e) fun h => not_returns_error e h.1
  · exact iff_of_true (returns_ok false) ⟨returns_ok false, fun h => absurd h (by simp)⟩
  · rw [andThen_true]
    exact ⟨fun h => ⟨returns_ok true, fun _ => h⟩, fun h => h.2 rfl⟩

/-- A loop comes to an element when it goes on at all the elements before. -/
def Reaches {α : Type} (goesOn : α → Prop) (l : List α) (a : α) : Prop :=
  ∃ pre post, l = pre ++ a :: post ∧ ∀ b ∈ pre, goesOn b

theorem not_reaches_nil {α : Type} (goesOn : α → Prop) (a : α) : ¬ Reaches goesOn [] a := by
  rintro ⟨pre, post, h, -⟩
  exact absurd h.symm (List.append_ne_nil_of_right_ne_nil _ (List.cons_ne_nil _ _))

theorem reaches_cons {α : Type} {goesOn : α → Prop} {b : α} {l : List α} {a : α} :
    Reaches goesOn (b :: l) a ↔ a = b ∨ (goesOn b ∧ Reaches goesOn l a) := by
  constructor
  · rintro ⟨pre, post, heq, hpre⟩
    cases pre with
    | nil => exact Or.inl (List.cons.inj heq).1.symm
    | cons c pre =>
      obtain ⟨rfl, rfl⟩ := List.cons.inj heq
      obtain ⟨hb, hpre⟩ := List.forall_mem_cons.mp hpre
      exact Or.inr ⟨hb, pre, post, rfl, hpre⟩
  · rintro (rfl | ⟨hb, pre, post, rfl, hpre⟩)
    · exact ⟨[], l, rfl, fun _ h => absurd h List.not_mem_nil⟩
    · exact ⟨b :: pre, post, rfl, List.forall_mem_cons.mpr ⟨hb, hpre⟩⟩

/-- A loop that stops at some elements returns when every element does that it comes to. -/
theorem forall_reaches_cons {α : Type} {goesOn Q : α → Prop} {b : α} {l : List α} :
    (∀ a, Reaches goesOn (b :: l) a → Q a) ↔ Q b ∧ (goesOn b → ∀ a, Reaches goesOn l a → Q a) := by
  simp only [reaches_cons]
  constructor
  · exact fun h => ⟨h b (Or.inl rfl), fun hb a ha => h a (Or.inr ⟨hb, ha⟩)⟩
  · rintro ⟨hb, hl⟩ a (rfl | ⟨hgo, ha⟩)
    · exact hb
    · exact hl hgo a ha

theorem returns_all {α : Type} {p : α → Java Bool} {l : List α} :
    Returns (all p l) ↔ ∀ a, Reaches (fun b => p b = .ok true) l a → Returns (p a) := by
  induction l with
  | nil => exact iff_of_true (returns_ok true) fun a h => absurd h (not_reaches_nil _ a)
  | cons b l ih => rw [all, returns_andThen, ih, forall_reaches_cons]

theorem returns_any {α : Type} {p : α → Java Bool} {l : List α} :
    Returns (any p l) ↔ ∀ a, Reaches (fun b => p b = .ok false) l a → Returns (p a) := by
  induction l with
  | nil => exact iff_of_true (returns_ok false) fun a h => absurd h (not_reaches_nil _ a)
  | cons b l ih =>
    rw [any, forall_reaches_cons, ← ih]
    rcases p b with e | _ | _
    · exact iff_of_false (not_returns_error e) fun h => not_returns_error e h.1
    · exact ⟨fun h => ⟨returns_ok false, fun _ => h⟩, fun h => h.2 rfl⟩
    · exact iff_of_true (returns_ok true) ⟨returns_ok true, fun h => absurd h (by simp)⟩

end Java

end SXP.Lib
