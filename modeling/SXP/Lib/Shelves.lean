import Mathlib.Data.List.InsertIdx
import Mathlib.Data.List.Perm.Basic
import Mathlib.Tactic.Cases

/-!
# Lists of lists

Shelves hold things in places that are counted from the front.  A new shelf
moves the ones behind it back by one (`shelve`), and what is taken off a shelf
leaves it where it is (`strike`).  The lemmas say what is on which shelf after
the two operations, and how many things of a kind there are on all of them.
-/

namespace SXP.Lib.Shelves

variable {α β : Type*}

/-- What fails the test is taken off the shelf `k`. -/
def strike (p : α → Bool) (k : ℕ) (l : List (List α)) : List (List α) := l.modify k (List.filter p)

/-- A new shelf with one thing on it. -/
def shelve (k : ℕ) (a : α) (l : List (List α)) : List (List α) := l.insertIdx k [a]

theorem getElem?_strike (p : α → Bool) (k i : ℕ) (l : List (List α)) :
    (strike p k l)[i]? = l[i]?.map fun s => if k = i then s.filter p else s := by
  rw [strike, List.getElem?_modify]
  rfl

theorem mem_of_strike {p : α → Bool} {k i : ℕ} {l : List (List α)} {s : List α} {a : α}
    (hs : (strike p k l)[i]? = some s) (ha : a ∈ s) :
    ∃ s', l[i]? = some s' ∧ a ∈ s' ∧ (k = i → p a = true) := by
  rw [getElem?_strike, Option.map_eq_some_iff] at hs
  obtain ⟨s', hs', rfl⟩ := hs
  by_cases hk : k = i
  · rw [if_pos hk, List.mem_filter] at ha
    exact ⟨s', hs', ha.1, fun _ => ha.2⟩
  · rw [if_neg hk] at ha
    exact ⟨s', hs', ha, fun h => absurd h hk⟩

theorem mem_strike {p : α → Bool} {k i : ℕ} {l : List (List α)} {s : List α} {a : α}
    (hs : l[i]? = some s) (ha : a ∈ s) (hp : k = i → p a = true) :
    ∃ s', (strike p k l)[i]? = some s' ∧ a ∈ s' := by
  refine ⟨_, by rw [getElem?_strike, hs, Option.map_some], ?_⟩
  by_cases hk : k = i
  · rw [if_pos hk, List.mem_filter]
    exact ⟨ha, hp hk⟩
  · rwa [if_neg hk]

/-- The shelves in front of the new one stay, those behind it move. -/
theorem getElem?_shelve {k : ℕ} {l : List (List α)} (hk : k ≤ l.length) (a : α) (i : ℕ) :
    (shelve k a l)[i]? = if i < k then l[i]? else if i = k then some [a] else l[i - 1]? := by
  rw [shelve, List.getElem?_insertIdx]
  split
  · rfl
  · split
    · rw [if_pos (by omega)]
    · rfl

theorem getElem?_shelve_move {k : ℕ} {l : List (List α)} (hk : k ≤ l.length) (a : α) {i : ℕ}
    (hi : k ≤ i) : (shelve k a l)[i + 1]? = l[i]? := by
  rw [getElem?_shelve hk, if_neg (by omega), if_neg (by omega), Nat.add_sub_cancel]

/-- What is on the shelves afterwards: the new thing, or one that was there, in its place or
moved by one. -/
theorem mem_of_shelve {k i : ℕ} {l : List (List α)} (hk : k ≤ l.length) {a b : α} {s : List α}
    (hs : (shelve k a l)[i]? = some s) (hb : b ∈ s) :
    (i = k ∧ b = a) ∨
    ∃ j s', l[j]? = some s' ∧ b ∈ s' ∧ ((j < k ∧ i = j) ∨ (k ≤ j ∧ i = j + 1)) := by
  rw [getElem?_shelve hk] at hs
  split at hs
  · exact Or.inr ⟨i, s, hs, hb, Or.inl ⟨by assumption, rfl⟩⟩
  · split at hs
    · obtain rfl := Option.some.inj hs
      exact Or.inl ⟨by assumption, List.mem_singleton.mp hb⟩
    · exact Or.inr ⟨i - 1, s, hs, hb, Or.inr ⟨by omega, by omega⟩⟩

/-! ### Counting -/

def count (q : α → Bool) (l : List (List α)) : ℕ := l.flatten.countP q

theorem count_cons (q : α → Bool) (s : List α) (l : List (List α)) :
    count q (s :: l) = s.countP q + count q l := by
  rw [count, count, List.flatten_cons, List.countP_append]

theorem count_pos_iff {q : α → Bool} {l : List (List α)} :
    0 < count q l ↔ ∃ (i : ℕ) (s : List α), l[i]? = some s ∧ ∃ a ∈ s, q a = true := by
  rw [count, List.countP_pos_iff]
  constructor
  · rintro ⟨a, ha, hq⟩
    obtain ⟨s, hs, ha⟩ := List.mem_flatten.mp ha
    obtain ⟨i, hi⟩ := List.getElem?_of_mem hs
    exact ⟨i, s, hi, a, ha, hq⟩
  · rintro ⟨i, s, hs, a, ha, hq⟩
    exact ⟨a, List.mem_flatten.mpr ⟨s, List.mem_of_getElem? hs, ha⟩, hq⟩

theorem count_two {q : α → Bool} {l : List (List α)} {i j : ℕ} (hij : i < j) {s s' : List α}
    (hs : l[i]? = some s) (hs' : l[j]? = some s') (h : ∃ a ∈ s, q a = true)
    (h' : ∃ a ∈ s', q a = true) : 2 ≤ count q l := by
  induction l generalizing i j with
  | nil => exact absurd hs (by simp)
  | cons t l ih =>
    obtain ⟨j, rfl⟩ : ∃ j', j = j' + 1 := ⟨j - 1, by omega⟩
    rw [List.getElem?_cons_succ] at hs'
    rw [count_cons]
    cases i with
    | zero =>
      rw [List.getElem?_cons_zero, Option.some.injEq] at hs
      subst hs
      have hfirst := List.countP_pos_iff.mpr h
      have hrest := count_pos_iff.mpr ⟨j, s', hs', h'⟩
      omega
    | succ i =>
      rw [List.getElem?_cons_succ] at hs
      have := ih (by omega) hs hs'
      omega

theorem count_shelve {q : α → Bool} {k : ℕ} {l : List (List α)} (hk : k ≤ l.length) (a : α) :
    count q (shelve k a l) = count q l + if q a = true then 1 else 0 := by
  have hperm : (shelve k a l).flatten.Perm ([a] :: l).flatten :=
    (List.perm_insertIdx [a] l hk).flatten
  rw [count, hperm.countP_eq, List.flatten_cons, List.countP_append, List.countP_singleton,
    Nat.add_comm]
  rfl

theorem count_strike (q p : α → Bool) (k : ℕ) (l : List (List α)) :
    count q (strike p k l) + (l.getD k []).countP (fun a => q a && !p a) = count q l := by
  induction l generalizing k with
  | nil => cases k <;> rfl
  | cons s l ih =>
    cases k with
    | zero =>
      have hsplit : (s.filter p).countP q + s.countP (fun a => q a && !p a) = s.countP q := by
        rw [List.countP_filter, List.countP_eq_countP_filter_add s q p, List.countP_filter,
          List.countP_filter]
      show count q (s.filter p :: l) + _ = _
      rw [count_cons, count_cons, List.getD_cons_zero]
      omega
    | succ k =>
      show count q (s :: strike p k l) + _ = _
      rw [count_cons, count_cons, List.getD_cons_succ, ← ih k]
      omega

/-- Nothing of a kind is taken off when all of it passes the test. -/
theorem count_strike_of_imp {q p : α → Bool} (h : ∀ a, q a = true → p a = true) (k : ℕ)
    (l : List (List α)) : count q (strike p k l) = count q l := by
  have hnone : (l.getD k []).countP (fun a => q a && !p a) = 0 := by
    rw [List.countP_eq_zero]
    intro a _
    cases hq : q a with
    | false => simp
    | true => simp [h a hq]
  rw [← count_strike q p k l, hnone, Nat.add_zero]

theorem count_strike_le (q p : α → Bool) (k : ℕ) (l : List (List α)) :
    count q (strike p k l) ≤ count q l := by
  rw [← count_strike q p k l]
  exact Nat.le_add_right _ _

/-! ### Pictures of shelves -/

theorem map_shelve (f : α → β) (k : ℕ) (a : α) (l : List (List α)) :
    (shelve k a l).map (List.map f) = shelve k (f a) (l.map (List.map f)) := by
  rw [shelve, List.map_insertIdx]
  rfl

theorem map_strike {f : α → β} {p : α → Bool} {q : β → Bool} (h : ∀ a, p a = q (f a)) (k : ℕ)
    (l : List (List α)) :
    (strike p k l).map (List.map f) = strike q k (l.map (List.map f)) := by
  refine List.ext_getElem? fun i => ?_
  have hp : p = q ∘ f := funext h
  rw [List.getElem?_map, getElem?_strike, getElem?_strike, List.getElem?_map, Option.map_map,
    Option.map_map]
  congr 1
  funext s
  simp only [Function.comp_apply]
  split
  · rw [List.filter_map, hp]
  · rfl

end SXP.Lib.Shelves
