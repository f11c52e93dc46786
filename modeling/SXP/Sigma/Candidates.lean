import SXP.Lib.ListIterator
import SXP.Sigma.Entity
import Mathlib.Data.List.Sort

/-!
# The candidates

Every party starts with the users it knows, less the signers, and takes out of
its list what a list it receives does not contain.  The loop that does this
compares the two lists position by position: for one element of the outer loop
the inner one moves the iterator over as many users as the received list has.
So the list falls into blocks of that length; a block stays as it is if it
agrees with the received list in one position, and loses its last user if it
does not.  `retain_iff` says for which lists this is the intersection.
-/

namespace SXP.Sigma

open SXP.Lib SXP.Lib.Java

structure User where
  key : ElGamalKey
deriving DecidableEq, Repr

namespace Candidates

/-- The users without the signers; for each signer the list is gone through once. -/
def setup (parties : List ElGamalKey) (users : List User) : List User :=
  parties.foldl (fun list k => list.filter fun u => !(k.publicKey == u.key.publicKey)) users

/-- The inner loop: every user of the received list is compared with the next one. -/
def isInBoth : List User → Bool → Act (ListIterator User) Bool
  | [], both => pure both
  | u :: list2, both => do
      let x ← ListIterator.next
      isInBoth list2 (u.key.publicKey == x.key.publicKey || both)

/-- The outer loop; it has at most as many steps as there are users. -/
def retainLoop (list2 : List User) : ℕ → Act (ListIterator User) Unit
  | 0 => pure ()
  | left + 1 => do
      if (← get).hasNext then
        let both ← isInBoth list2 false
        if !both then ListIterator.remove
        retainLoop list2 left

/-- What a received list leaves of the list; an exception leaves what is there by then. -/
def retain (list list2 : List User) : Java Unit × List User :=
  let (result, it) := (retainLoop list2 list.length).exec (ListIterator.ofList list)
  (result, it.toList)

/-- A stable sort. -/
def sort (list : List User) : List User :=
  list.insertionSort fun u1 u2 => u1.key.publicKey ≤ u2.key.publicKey

/-! ### Signers and order -/

theorem mem_setup {parties : List ElGamalKey} {users : List User} {u : User} :
    u ∈ setup parties users ↔ u ∈ users ∧ ∀ k ∈ parties, k.publicKey ≠ u.key.publicKey := by
  unfold setup
  induction parties generalizing users with
  | nil => simp
  | cons k parties ih =>
    rw [List.foldl_cons, ih, List.mem_filter, List.forall_mem_cons, Bool.not_eq_true',
      beq_eq_false_iff_ne, and_assoc]

theorem sort_perm (list : List User) : (sort list).Perm list := List.perm_insertionSort _ list

theorem mem_sort {list : List User} {u : User} : u ∈ sort list ↔ u ∈ list :=
  (sort_perm list).mem_iff

theorem sort_pairwise (list : List User) :
    ((sort list).map fun u => u.key.publicKey).Pairwise (· ≤ ·) := by
  have : Std.Total fun u1 u2 : User => u1.key.publicKey ≤ u2.key.publicKey :=
    ⟨fun _ _ => le_total _ _⟩
  have : IsTrans User fun u1 u2 => u1.key.publicKey ≤ u2.key.publicKey :=
    ⟨fun _ _ _ => le_trans⟩
  exact List.pairwise_map.mpr (List.pairwise_insertionSort _ list)

/-- **The same keys are sorted the same way.** -/
theorem sort_keys {list list' : List User}
    (h : (list.map fun u => u.key.publicKey).Perm (list'.map fun u => u.key.publicKey)) :
    (sort list).map (fun u => u.key.publicKey) = (sort list').map fun u => u.key.publicKey := by
  refine List.Perm.eq_of_pairwise' (sort_pairwise list) (sort_pairwise list') ?_
  exact ((sort_perm list).map _).trans (h.trans ((sort_perm list').map _).symm)

/-! ### Blocks -/

/-- The two lists have the same key at one position. -/
def agrees : List User → List User → Bool
  | u :: list2, x :: block => u.key.publicKey == x.key.publicKey || agrees list2 block
  | _, _ => false

/-- What is left of a block. -/
def turn (list2 block : List User) : List User :=
  if agrees list2 block then block else block.dropLast

def known (list2 : List User) (x : User) : Bool :=
  list2.any fun u => u.key.publicKey == x.key.publicKey

/-- The loop is right about the block: it keeps it, and every user is in the received list,
or it takes the last user out, and this is the one that is not. -/
def Right (list2 block : List User) : Prop :=
  (agrees list2 block = true ∧ ∀ x ∈ block, known list2 x = true) ∨
    (agrees list2 block = false ∧ ∃ front x, block = front ++ [x] ∧
      (∀ y ∈ front, known list2 y = true) ∧ known list2 x = false)

/-- The list consists of blocks of the length of the received list, and the loop is right
about each. -/
inductive Fits (list2 : List User) : List User → Prop
  | nil : Fits list2 []
  | block {block rest : List User} (hne : block ≠ []) (hlen : block.length = list2.length)
      (hright : Right list2 block) (hrest : Fits list2 rest) : Fits list2 (block ++ rest)

theorem turn_sublist (list2 block : List User) : (turn list2 block).Sublist block := by
  rw [turn]
  split
  · exact List.Sublist.refl block
  · exact List.dropLast_sublist block

/-- Being right is leaving the users that both lists contain. -/
theorem right_iff {list2 block : List User} (hne : block ≠ []) :
    Right list2 block ↔ turn list2 block = block.filter (known list2) := by
  constructor
  · rintro (⟨hagrees, hall⟩ | ⟨hagrees, front, x, rfl, hfront, hx⟩)
    · rw [turn, if_pos hagrees, List.filter_eq_self.mpr hall]
    · rw [turn, hagrees, if_neg Bool.false_ne_true, List.dropLast_concat, List.filter_append,
        List.filter_eq_self.mpr hfront, List.filter_singleton, hx, cond_false, List.append_nil]
  · intro h
    cases hagrees : agrees list2 block with
    | true =>
      rw [turn, if_pos hagrees] at h
      exact Or.inl ⟨hagrees, List.filter_eq_self.mp h.symm⟩
    | false =>
      rcases List.eq_nil_or_concat block with rfl | ⟨front, x, rfl⟩
      · exact absurd rfl hne
      · rw [List.concat_eq_append] at hagrees h ⊢
        rw [turn, hagrees, if_neg Bool.false_ne_true, List.dropLast_concat] at h
        have hfront : ∀ y ∈ front, known list2 y = true := by
          intro y hy
          rw [h] at hy
          exact (List.mem_filter.mp hy).2
        refine Or.inr ⟨hagrees, front, x, rfl, hfront, ?_⟩
        by_contra hx
        rw [List.filter_append, List.filter_eq_self.mpr hfront, List.filter_singleton,
          Bool.eq_true_of_not_eq_false hx, cond_true] at h
        exact absurd h (by simp)

theorem exec_isInBoth {list2 block : List User} (h : block.length = list2.length)
    (before rest : List User) (returned both : Bool) :
    (isInBoth list2 both).exec ⟨before, block ++ rest, returned⟩ =
      (.ok (agrees list2 block || both),
        ⟨before ++ block, rest, !block.isEmpty || returned⟩) := by
  induction list2 generalizing block before returned both with
  | nil =>
    obtain rfl := List.length_eq_zero_iff.mp h
    rw [List.append_nil]
    rfl
  | cons u list2 ih =>
    cases block with
    | nil => exact absurd h (by simp)
    | cons x block =>
      rw [isInBoth, List.cons_append, Act.exec_bind_ok (ListIterator.exec_next ..),
        ih (Nat.succ.inj h), agrees, List.append_assoc, List.singleton_append, Bool.or_true,
        List.isEmpty_cons, Bool.not_false, Bool.true_or]
      congr 2
      rw [← Bool.or_assoc, Bool.or_comm (agrees list2 block)]

theorem exec_isInBoth_short {list2 after : List User} (h : after.length < list2.length)
    (before : List User) (returned both : Bool) : ∃ it,
    (isInBoth list2 both).exec ⟨before, after, returned⟩ = (.error noSuchElement, it) ∧
      it.toList = before ++ after := by
  induction list2 generalizing after before returned both with
  | nil => exact absurd h (Nat.not_lt_zero _)
  | cons u list2 ih =>
    cases after with
    | nil =>
      refine ⟨⟨before, [], returned⟩, ?_, rfl⟩
      rw [isInBoth, Act.exec_bind, ListIterator.exec_next_nil]
    | cons x after =>
      obtain ⟨it, hexec, hlist⟩ := ih (Nat.lt_of_succ_lt_succ h) (before ++ [x]) true
        (u.key.publicKey == x.key.publicKey || both)
      refine ⟨it, ?_, by rw [hlist, List.append_assoc, List.singleton_append]⟩
      rw [isInBoth, Act.exec_bind_ok (ListIterator.exec_next ..), hexec]

/-! ### The loop -/

/-- **One turn of the loop** takes a block. -/
theorem exec_retainLoop_block {list2 block : List User} (hne : block ≠ [])
    (hlen : block.length = list2.length) (left : ℕ) (before rest : List User) (returned : Bool) :
    (retainLoop list2 (left + 1)).exec ⟨before, block ++ rest, returned⟩ =
      (retainLoop list2 left).exec ⟨before ++ turn list2 block, rest, agrees list2 block⟩ := by
  have hafter : (ListIterator.mk before (block ++ rest) returned).hasNext = true := by
    simp [ListIterator.hasNext, hne]
  have hreturned : (!block.isEmpty || returned) = true := by simp [hne]
  rw [retainLoop, Act.exec_get_bind, if_pos hafter, Act.exec_bind_ok (exec_isInBoth hlen ..),
    hreturned, Bool.or_false, turn]
  cases agrees list2 block with
  | true => rfl
  | false =>
    rw [Bool.not_false, if_pos rfl, if_neg Bool.false_ne_true,
      Act.exec_bind_ok (ListIterator.exec_remove ..), List.dropLast_append_of_ne_nil hne]

theorem exec_retainLoop_short {list2 after : List User} (hne : after ≠ [])
    (h : after.length < list2.length) (left : ℕ) (before : List User) (returned : Bool) :
    ∃ it, (retainLoop list2 (left + 1)).exec ⟨before, after, returned⟩ = (.error noSuchElement, it) ∧
      it.toList = before ++ after := by
  have hafter : (ListIterator.mk before after returned).hasNext = true := by
    simp [ListIterator.hasNext, hne]
  obtain ⟨it, hexec, hlist⟩ := exec_isInBoth_short h before returned false
  refine ⟨it, ?_, hlist⟩
  rw [retainLoop, Act.exec_get_bind, if_pos hafter, Act.exec_bind, hexec]

theorem exec_retainLoop_nil (list2 : List User) (left : ℕ) (before : List User) (returned : Bool) :
    (retainLoop list2 left).exec ⟨before, [], returned⟩ = (.ok (), ⟨before, [], returned⟩) := by
  cases left <;> rfl

/-- What is left of a list is nothing, too short for the received list, or begins with a
block. -/
theorem blocks (list2 after : List User) : after = [] ∨ (after ≠ [] ∧ after.length < list2.length) ∨
    ∃ block rest, after = block ++ rest ∧ block.length = list2.length := by
  by_cases hne : after = []
  · exact Or.inl hne
  · by_cases hlt : after.length < list2.length
    · exact Or.inr (Or.inl ⟨hne, hlt⟩)
    · refine Or.inr (Or.inr ⟨after.take list2.length, after.drop list2.length,
        (List.take_append_drop _ _).symm, ?_⟩)
      rw [List.length_take]
      omega

theorem fits_append {list2 block rest : List User} (hne : block ≠ [])
    (hlen : block.length = list2.length) :
    Fits list2 (block ++ rest) ↔ Right list2 block ∧ Fits list2 rest := by
  constructor
  · intro h
    generalize hlist : block ++ rest = list at h
    cases h with
    | nil => exact absurd (List.append_eq_nil_iff.mp hlist).1 hne
    | block hne' hlen' hright hrest =>
      obtain ⟨rfl, rfl⟩ := List.append_inj hlist (hlen.trans hlen'.symm)
      exact ⟨hright, hrest⟩
  · rintro ⟨hright, hrest⟩
    exact .block hne hlen hright hrest

theorem not_fits_short {list2 after : List User} (hne : after ≠ [])
    (h : after.length < list2.length) : ¬ Fits list2 after := by
  intro hfits
  cases hfits with
  | nil => exact hne rfl
  | block hne' hlen hright hrest =>
    rw [List.length_append] at h
    omega

theorem retainLoop_sublist {list2 : List User} (h2 : list2 ≠ []) (left : ℕ)
    (before after : List User) (returned : Bool) : ∃ kept,
    ((retainLoop list2 left).exec ⟨before, after, returned⟩).2.toList = before ++ kept ∧
      kept.Sublist after := by
  induction left generalizing before after returned with
  | zero => exact ⟨after, rfl, List.Sublist.refl after⟩
  | succ left ih =>
    rcases blocks list2 after with rfl | ⟨hne, hlt⟩ | ⟨block, rest, rfl, hlen⟩
    · rw [exec_retainLoop_nil]
      exact ⟨[], rfl, List.Sublist.refl []⟩
    · obtain ⟨it, hexec, hlist⟩ := exec_retainLoop_short hne hlt left before returned
      rw [hexec]
      exact ⟨after, hlist, List.Sublist.refl after⟩
    · have hne : block ≠ [] := List.ne_nil_of_length_pos (hlen ▸ List.length_pos_of_ne_nil h2)
      obtain ⟨kept, hkept, hsub⟩ := ih (before ++ turn list2 block) rest (agrees list2 block)
      rw [exec_retainLoop_block hne hlen, hkept]
      exact ⟨turn list2 block ++ kept, List.append_assoc ..,
        (turn_sublist list2 block).append hsub⟩

/-- If parts of two lists are together what a filter keeps of both, then the first part is what
it keeps of the first list: neither part has more elements than it should. -/
theorem eq_filter_of_append {α : Type*} {q : α → Bool} {kept₁ kept₂ list₁ list₂ : List α}
    (hsub₁ : kept₁.Sublist list₁) (hsub₂ : kept₂.Sublist list₂)
    (heq : kept₁ ++ kept₂ = list₁.filter q ++ list₂.filter q) : kept₁ = list₁.filter q := by
  have hall : ∀ x ∈ kept₁ ++ kept₂, q x = true := by
    intro x hx
    rw [heq, ← List.filter_append] at hx
    exact (List.mem_filter.mp hx).2
  rw [List.forall_mem_append] at hall
  have hle₁ := (hsub₁.filter q).length_le
  have hle₂ := (hsub₂.filter q).length_le
  rw [List.filter_eq_self.mpr hall.1] at hle₁
  rw [List.filter_eq_self.mpr hall.2] at hle₂
  have hlength := congrArg List.length heq
  rw [List.length_append, List.length_append] at hlength
  exact (List.append_inj heq (by omega)).1

/-- The loop comes to the users that both lists contain if and only if it is right about
every block. -/
theorem retainLoop_iff {list2 : List User} (h2 : list2 ≠ []) {left : ℕ} {after : List User}
    (hleft : after.length ≤ left) (before : List User) (returned : Bool) :
    (((retainLoop list2 left).exec ⟨before, after, returned⟩).1 = .ok () ∧
      ((retainLoop list2 left).exec ⟨before, after, returned⟩).2.toList =
        before ++ after.filter (known list2)) ↔ Fits list2 after := by
  induction left generalizing before after returned with
  | zero =>
    obtain rfl := List.length_eq_zero_iff.mp (Nat.le_zero.mp hleft)
    rw [exec_retainLoop_nil]
    exact iff_of_true ⟨rfl, rfl⟩ .nil
  | succ left ih =>
    rcases blocks list2 after with rfl | ⟨hne, hlt⟩ | ⟨block, rest, rfl, hlen⟩
    · rw [exec_retainLoop_nil]
      exact iff_of_true ⟨rfl, rfl⟩ .nil
    · obtain ⟨it, hexec, -⟩ := exec_retainLoop_short hne hlt left before returned
      rw [hexec]
      exact iff_of_false (fun h => absurd h.1 (by simp)) (not_fits_short hne hlt)
    · have hpos : 0 < block.length := hlen ▸ List.length_pos_of_ne_nil h2
      have hne : block ≠ [] := List.ne_nil_of_length_pos hpos
      have hrest : rest.length ≤ left := by
        rw [List.length_append] at hleft
        omega
      have hih := ih hrest (before ++ turn list2 block) (agrees list2 block)
      rw [exec_retainLoop_block hne hlen, fits_append hne hlen, ← hih, right_iff hne,
        List.filter_append, ← List.append_assoc]
      constructor
      · rintro ⟨hok, hlist⟩
        obtain ⟨kept, hkept, hsub⟩ :=
          retainLoop_sublist h2 left (before ++ turn list2 block) rest (agrees list2 block)
        have heq : turn list2 block ++ kept =
            block.filter (known list2) ++ rest.filter (known list2) := by
          rw [hkept, List.append_assoc, List.append_assoc] at hlist
          exact List.append_cancel_left hlist
        have hblock := eq_filter_of_append (turn_sublist list2 block) hsub heq
        exact ⟨hblock, hok, by rw [hlist, hblock]⟩
      · rintro ⟨hturn, hok, hlist⟩
        exact ⟨hok, by rw [hlist, hturn]⟩

theorem retain_sublist (list list2 : List User) : (retain list list2).2.Sublist list := by
  by_cases h2 : list2 = []
  · subst h2
    cases list <;> exact List.Sublist.refl _
  · obtain ⟨kept, hkept, hsub⟩ := retainLoop_sublist h2 list.length [] list false
    have heq : (retain list list2).2 = kept := hkept
    rwa [heq]

/-- **The loop makes the intersection** exactly if the list fits the received one. -/
theorem retain_iff (list list2 : List User) :
    retain list list2 = (.ok (), list.filter (known list2)) ↔ Fits list2 list := by
  by_cases h2 : list2 = []
  · subst h2
    cases list with
    | nil => exact iff_of_true rfl .nil
    | cons x rest =>
      -- nothing is compared, and there is nothing to take out
      refine iff_of_false (fun h => ?_) fun h => ?_
      · have herror : (retain (x :: rest) []).1 = .error illegalState := rfl
        rw [h] at herror
        exact absurd herror (by simp)
      · generalize hlist : x :: rest = list at h
        cases h with
        | nil => exact absurd hlist (by simp)
        | block hne hlen => exact hne (List.length_eq_zero_iff.mp hlen)
  · rw [← retainLoop_iff h2 (le_refl _) [] false, Prod.ext_iff, List.nil_append]
    rfl

end Candidates

end SXP.Sigma
