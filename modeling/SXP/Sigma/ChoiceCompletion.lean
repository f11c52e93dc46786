import SXP.Sigma.Intersection
import Mathlib.Algebra.BigOperators.Fin
import Mathlib.Data.Finset.Sort
import Mathlib.Data.Int.ConditionallyCompleteOrder

/-!
# The choice is made

When the lists of users fit, the choice comes to an end.  No party starts again
then: every list keeps the users that are candidates of all, so at the end of the
first round all parties have the same list in the same order; each adds up the
same numbers, so all announce the same key.  A round is over when a message of
every party has arrived, the own one too, and what is sent at its end is what the
next round waits for (`choice_completes`).
-/

namespace SXP.Sigma

open SXP.Lib SXP.Lib.Java

def ChooseMessage.round : ChooseMessage → Fin 3
  | .list _ => 0
  | .number _ => 1
  | .trent _ => 2

def User.publicKeys (list : List User) : List ℤ := list.map fun u => u.key.publicKey

theorem User.mem_publicKeys {list : List User} {pk : ℤ} :
    pk ∈ User.publicKeys list ↔ ∃ u ∈ list, u.key.publicKey = pk := List.mem_map

theorem Candidates.setup_sublist (parties : List ElGamalKey) (users : List User) :
    (Candidates.setup parties users).Sublist users := by
  induction parties generalizing users with
  | nil => exact List.Sublist.refl users
  | cons k parties ih => exact (ih _).trans List.filter_sublist

instance (list2 list : List User) : Decidable (Candidates.Fits list2 list) :=
  decidable_of_iff _ (Candidates.retain_iff list list2)

theorem Candidates.known_iff {list2 : List User} {u : User} :
    Candidates.known list2 u = true ↔ u.key.publicKey ∈ User.publicKeys list2 := by
  simp [Candidates.known, User.publicKeys]

namespace ProtocolChooseTrent

/-! ### Who is noted -/

def Noted (c : ProtocolChooseTrent) (r : Fin 3) (k : ℕ) : Prop := (c.hasSent r)[k]? = some true

instance (c : ProtocolChooseTrent) (r : Fin 3) (k : ℕ) : Decidable (c.Noted r k) :=
  inferInstanceAs (Decidable (_ = _))

section

variable {c : ProtocolChooseTrent} {r r' : Fin 3} {k k' m : ℕ}

theorem noted_mark (hs : c.Sized (m + 1)) (hk : k ≤ m) :
    (c.mark r k).Noted r' k' ↔ c.Noted r' k' ∨ (r' = r ∧ k' = k) := by
  refine ⟨fun h => mark_kept h, fun h => ?_⟩
  have hlt : k < (c.hasSent r).length := by
    rw [hs r]
    omega
  by_cases hr : r' = r
  · subst hr
    rw [Noted, mark_self]
    by_cases hkk : k' = k
    · subst hkk
      exact List.getElem?_set_self hlt
    · rw [List.getElem?_set_ne (Ne.symm hkk)]
      exact h.resolve_right fun hboth => hkk hboth.2
  · rw [Noted, mark_ne hr]
    exact h.resolve_right fun hboth => hr hboth.1

theorem noted_mark_ne (h : r' ≠ r) : (c.mark r k).Noted r' k' ↔ c.Noted r' k' := by
  rw [Noted, mark_ne h, Noted]

theorem not_noted_iff (hs : c.Sized (m + 1)) (hk : k ≤ m) :
    ¬ c.Noted r k ↔ (c.hasSent r)[k]? = some false := by
  have hlt : k < (c.hasSent r).length := by
    rw [hs r]
    omega
  rw [Noted, List.getElem?_eq_getElem hlt]
  cases (c.hasSent r)[k] <;> simp

theorem awaits_iff_noted (hs : c.Sized (m + 1)) : c.awaits r = false ↔ ∀ k ≤ m, c.Noted r k := by
  constructor
  · intro h k hk
    refine noted_of_not_awaits h ?_
    rw [hs r]
    omega
  · intro h
    rw [awaits_eq_false]
    intro sent hsent
    obtain ⟨k, hk, rfl⟩ := List.getElem_of_mem hsent
    rw [hs r] at hk
    exact (List.getElem?_eq_some_iff.mp (h k (by omega))).2

theorem complete_iff_noted (hN : c.N = m) (hs : c.Sized (m + 1)) :
    c.complete r = true ↔ ¬ c.Noted r m ∧ ∀ k < m, c.Noted r k := by
  rw [complete_iff, hN, not_noted_iff hs le_rfl]
  rfl

end

theorem count_of_noted {c : ProtocolChooseTrent} {k : ℕ} (h : c.Noted 1 k) (number : ℤ) :
    c.count k number = c := by
  have hfalse : (c.hasSent 1)[k]? ≠ some false := by
    rw [h]
    simp
  rw [count, if_neg hfalse]

theorem count_of_not_noted {c : ProtocolChooseTrent} {k m : ℕ} (hs : c.Sized (m + 1)) (hk : k ≤ m)
    (h : ¬ c.Noted 1 k) (number : ℤ) :
    c.count k number = { c with finalNumber := c.finalNumber + number }.mark 1 k := by
  rw [count, if_pos ((not_noted_iff hs hk).mp h)]

/-! ### What a message does -/

theorem next_number {c : ProtocolChooseTrent} {senderId : ℤ} {j : ℕ}
    (hj : indexOf c.parties senderId = .ok j) (number : ℤ) (created : ElGamalKey) :
    machine.next c (.receive senderId (.number number) created) =
      ((receiveNumber j number).exec c).2 := by
  have hstep : machine.next c (.receive senderId (.number number) created) =
      ((handle (.receive senderId (.number number) created)).exec c).2 := rfl
  rw [hstep, handle, Act.exec_get_bind, hj, Act.exec_ok_bind]

theorem next_trent {c : ProtocolChooseTrent} {senderId : ℤ} {j : ℕ}
    (hj : indexOf c.parties senderId = .ok j) (publicKey : ℤ) (created : ElGamalKey) :
    machine.next c (.receive senderId (.trent publicKey) created) =
      ((receiveTrent j publicKey created).exec c).2 := by
  have hstep : machine.next c (.receive senderId (.trent publicKey) created) =
      ((handle (.receive senderId (.trent publicKey) created)).exec c).2 := rfl
  rw [hstep, handle, Act.exec_get_bind, hj, Act.exec_ok_bind]

/-- The list as it is after a list that fits, before the round is looked at. -/
def filtered (j : ℕ) (list2 : List User) (c : ProtocolChooseTrent) : ProtocolChooseTrent :=
  (c.setList (c.list.filter (Candidates.known list2))).mark 0 j

theorem next_list {c : ProtocolChooseTrent} (hawaits : c.awaits 0 = true) {senderId : ℤ} {j : ℕ}
    (hj : indexOf c.parties senderId = .ok j) {list2 : List User}
    (hfits : Candidates.Fits list2 c.list) (created : ElGamalKey) :
    machine.next c (.receive senderId (.list list2) created) =
      if (c.filtered j list2).complete 0 then (c.filtered j list2).announce
      else c.filtered j list2 := by
  rw [Machine.next, receive_list c hj, exec_receiveList, if_pos hawaits,
    (Candidates.retain_iff c.list list2).mpr hfits]
  rfl

end ProtocolChooseTrent

namespace Choosing

open ProtocolChooseTrent

variable {n : ℕ} (C : Choosing n)

/-! ### The candidates of all -/

def keysOf (i : Fin n) : Finset ℤ := (User.publicKeys (C.initial i).list).toFinset

/-- The keys of the users that all parties know and that are no parties. -/
def common : Finset ℤ :=
  (Finset.univ.biUnion C.keysOf).filter fun pk => ∀ j, pk ∈ C.keysOf j

/-- The key that the sum of all numbers picks. -/
def choice : Option ℤ :=
  (C.common.sort (· ≤ ·))[((∑ j, C.randomNumber j) % (C.common.card : ℤ)).toNat]?

variable {C}

theorem keysOf_of_common {pk : ℤ} (h : pk ∈ C.common) (j : Fin n) : pk ∈ C.keysOf j :=
  (Finset.mem_filter.mp h).2 j

theorem mem_common (i : Fin n) {pk : ℤ} : pk ∈ C.common ↔ ∀ j, pk ∈ C.keysOf j := by
  refine ⟨fun h => keysOf_of_common h, fun h => Finset.mem_filter.mpr ⟨?_, h⟩⟩
  exact Finset.mem_biUnion.mpr ⟨i, Finset.mem_univ i, h i⟩

theorem choice_isSome_iff : C.choice.isSome = true ↔ C.common.Nonempty := by
  have hlength : (C.common.sort (· ≤ ·)).length = C.common.card := Finset.length_sort _
  constructor
  · intro h
    obtain ⟨pk, hpk⟩ := Option.isSome_iff_exists.mp h
    exact ⟨pk, (Finset.mem_sort _).mp (List.mem_of_getElem? hpk)⟩
  · intro h
    have hpos : (0 : ℤ) < C.common.card := by exact_mod_cast h.card_pos
    have hlt := Int.emod_lt_of_pos (∑ j, C.randomNumber j) hpos
    have hnonneg := Int.emod_nonneg (∑ j, C.randomNumber j) hpos.ne'
    rw [choice, List.getElem?_eq_getElem (by omega)]
    rfl

/-! ### What holds of a party on the way -/

/-- A list that a party has sent or holds: it has candidates of the party, and all that are
candidates of every party. -/
structure Between (C : Choosing n) (i : Fin n) (list : List User) : Prop where
  mine : ∀ pk ∈ User.publicKeys list, pk ∈ C.keysOf i
  keeps : ∀ pk ∈ C.common, pk ∈ User.publicKeys list

/-- The first round: who is noted knows the users that are left, and at its end the list is
that of the common candidates, in order. -/
structure Lists (C : Choosing n) (i : Fin n) (c : ProtocolChooseTrent) : Prop where
  unique : (User.publicKeys c.list).Nodup
  between : C.Between i c.list
  shared : ∀ j : Fin n, c.Noted 0 j → ∀ pk ∈ User.publicKeys c.list, pk ∈ C.keysOf j
  finished : c.Noted 0 n →
    (∀ j : Fin n, c.Noted 0 j) ∧ User.publicKeys c.list = C.common.sort (· ≤ ·)
  sent : ∀ list, .list list ∈ c.sent → C.Between i list

/-- The second round: the sum is that of the numbers noted, and the own number is noted when
it is sent, at the end of the first round. -/
structure Numbers (C : Choosing n) (i : Fin n) (c : ProtocolChooseTrent) : Prop where
  random : c.randomNumber = C.randomNumber i
  sum : c.finalNumber = ∑ j with j = i ∨ c.Noted 1 j, C.randomNumber j
  sent : ∀ number, .number number ∈ c.sent → number = C.randomNumber i ∧ c.Noted 0 n
  first : c.Noted 1 i ↔ c.Noted 0 n
  number : c.Noted 0 n → .number (C.randomNumber i) ∈ c.sent
  finished : c.Noted 1 n →
    (∀ j : Fin n, c.Noted 1 j) ∧ ((∃ pk, .trent pk ∈ c.sent) ∨ C.choice = none)

/-- The third round: nobody holds or announces another key. -/
structure Keys (C : Choosing n) (i : Fin n) (c : ProtocolChooseTrent) : Prop where
  sent : ∀ pk, .trent pk ∈ c.sent → C.choice = some pk ∧ c.trentKey ≠ none
  key : ∀ key, c.trentKey = some key → C.choice = some key.publicKey
  own : c.Noted 2 i → c.trentKey ≠ none
  finished : c.Noted 2 n → c.stepped = true
  stepped : c.stepped = true → c.trentKey ≠ none
  pending : ∀ u, .choice u ∈ c.pending → .trent u.key.publicKey ∈ c.sent

/-- A party that has not started again, and never will. -/
structure OnCourse (C : Choosing n) (i : Fin n) (c : ProtocolChooseTrent) : Prop where
  parties : c.parties = C.parties
  id : c.senderKeyId = i
  sized : c.Sized (n + 1)
  lists : C.Lists i c
  numbers : C.Numbers i c
  keys : C.Keys i c

theorem OnCourse.N_eq {i : Fin n} {c : ProtocolChooseTrent} (h : C.OnCourse i c) : c.N = n := by
  rw [N, h.parties, Choosing.parties, List.length_ofFn]

theorem not_noted_initial (i : Fin n) (r : Fin 3) (k : ℕ) : ¬ (C.initial i).Noted r k := by
  intro h
  have hmem : true ∈ (C.initial i).hasSent r := List.mem_of_getElem? h
  exact absurd (List.eq_of_mem_replicate hmem) (by decide)

theorem initial_onCourse (hunique : ∀ i, (User.publicKeys (C.users i)).Nodup) (i : Fin n) :
    C.OnCourse i (C.initial i) := by
  have hnone := not_noted_initial (C := C) i
  have hsized : (C.initial i).Sized (n + 1) := by
    intro r
    have hlen : ((C.initial i).hasSent r).length = C.parties.length + 1 := List.length_replicate
    rw [hlen, Choosing.parties, List.length_ofFn]
  refine ⟨rfl, rfl, hsized, ⟨?_, ⟨?_, ?_⟩, ?_, ?_, ?_⟩, ⟨rfl, ?_, ?_, ?_, ?_, ?_⟩, ?_⟩
  · exact (Candidates.setup_sublist C.parties (C.users i)).map _ |>.nodup (hunique i)
  · exact fun pk hpk => List.mem_toFinset.mpr hpk
  · exact fun pk hpk => List.mem_toFinset.mp (keysOf_of_common hpk i)
  · exact fun j hj => absurd hj (hnone 0 j)
  · exact fun h => absurd h (hnone 0 n)
  · exact fun _ h => absurd h List.not_mem_nil
  · have hself : (Finset.univ.filter fun j => j = i ∨ (C.initial i).Noted 1 j) = {i} := by
      ext j
      simp [hnone 1 j]
    rw [hself, Finset.sum_singleton]
    rfl
  · exact fun _ h => absurd h List.not_mem_nil
  · exact iff_of_false (hnone 1 i) (hnone 0 n)
  · exact fun h => absurd h (hnone 0 n)
  · exact fun h => absurd h (hnone 1 n)
  · exact ⟨fun _ h => absurd h List.not_mem_nil, fun _ h => absurd h (by simp [initial,
      ProtocolChooseTrent.initial]), fun h => absurd h (hnone 2 i), fun h => absurd h (hnone 2 n),
      fun h => absurd h Bool.false_ne_true, fun _ h => absurd h List.not_mem_nil⟩

/-! ### Changes in one round -/

section

variable {i : Fin n} {c c' : ProtocolChooseTrent}

theorem Lists.congr (h : C.Lists i c) (hlist : c'.list = c.list)
    (hnoted : ∀ k, c'.Noted 0 k ↔ c.Noted 0 k)
    (hsent : ∀ list, .list list ∈ c'.sent → .list list ∈ c.sent ∨ list = c.list) : C.Lists i c' where
  unique := by rw [hlist]; exact h.unique
  between := by rw [hlist]; exact h.between
  shared j hj := by rw [hlist]; exact h.shared j ((hnoted j).mp hj)
  finished hn := by
    obtain ⟨hall, hkeys⟩ := h.finished ((hnoted n).mp hn)
    exact ⟨fun j => (hnoted j).mpr (hall j), by rw [hlist]; exact hkeys⟩
  sent list hmem := by
    rcases hsent list hmem with hold | rfl
    · exact h.sent list hold
    · exact h.between

theorem Numbers.congr (h : C.Numbers i c) (hrandom : c'.randomNumber = c.randomNumber)
    (hfinal : c'.finalNumber = c.finalNumber) (hfirst : c'.Noted 0 n ↔ c.Noted 0 n)
    (hnoted : ∀ k, c'.Noted 1 k ↔ c.Noted 1 k)
    (hsent : ∀ number, .number number ∈ c'.sent ↔ .number number ∈ c.sent)
    (htrent : ∀ pk, .trent pk ∈ c.sent → .trent pk ∈ c'.sent) : C.Numbers i c' where
  random := hrandom.trans h.random
  sum := by
    simp only [hnoted]
    exact hfinal.trans h.sum
  sent number hmem := by
    rw [hfirst]
    exact h.sent number ((hsent number).mp hmem)
  first := by
    rw [hnoted, hfirst]
    exact h.first
  number hn := (hsent _).mpr (h.number (hfirst.mp hn))
  finished hn := by
    obtain ⟨hall, hchoice⟩ := h.finished ((hnoted n).mp hn)
    refine ⟨fun j => (hnoted j).mpr (hall j), hchoice.imp_left ?_⟩
    rintro ⟨pk, hpk⟩
    exact ⟨pk, htrent pk hpk⟩

theorem Keys.congr (h : C.Keys i c) (hkey : c'.trentKey = c.trentKey)
    (hstepped : c'.stepped = c.stepped) (hnoted : ∀ k, c'.Noted 2 k ↔ c.Noted 2 k)
    (hsent : ∀ pk, .trent pk ∈ c'.sent ↔ .trent pk ∈ c.sent)
    (hpending : ∀ u, .choice u ∈ c'.pending → .choice u ∈ c.pending) : C.Keys i c' where
  sent pk hpk := by
    rw [hkey]
    exact h.sent pk ((hsent pk).mp hpk)
  key key hk := h.key key (hkey ▸ hk)
  own hi := by
    rw [hkey]
    exact h.own ((hnoted i).mp hi)
  finished hn := hstepped.trans (h.finished ((hnoted n).mp hn))
  stepped hs := by
    rw [hkey]
    exact h.stepped (hstepped ▸ hs)
  pending u hu := (hsent _).mpr (h.pending u (hpending u hu))

theorem OnCourse.ask (h : C.OnCourse i c) : C.OnCourse i c.ask where
  parties := h.parties
  id := h.id
  sized := h.sized
  lists := by
    refine h.lists.congr rfl (fun _ => Iff.rfl) fun list hmem => ?_
    rcases List.mem_append.mp hmem with hold | hnew
    · exact Or.inl hold
    · exact Or.inr (ChooseMessage.list.inj (List.mem_singleton.mp hnew))
  numbers := by
    refine h.numbers.congr rfl rfl Iff.rfl (fun _ => Iff.rfl) (fun number => ?_) fun pk hpk => ?_
    · simp [ProtocolChooseTrent.ask, send, suspend]
    · exact List.mem_append_left _ hpk
  keys := by
    refine h.keys.congr rfl rfl (fun _ => Iff.rfl) (fun pk => ?_) fun u hu => ?_
    · simp [ProtocolChooseTrent.ask, send, suspend]
    · simpa [ProtocolChooseTrent.ask, send, suspend] using hu

/-! ### The first round -/

theorem OnCourse.filtered (h : C.OnCourse i c) {k : Fin n} {list2 : List User}
    (hlist : C.Between k list2) : C.OnCourse i (c.filtered k list2) := by
  have hmark : ∀ r j, (c.filtered k list2).Noted r j ↔ c.Noted r j ∨ (r = 0 ∧ j = k) :=
    fun r j => noted_mark (r := 0) h.sized (by omega)
  have hother : ∀ r ≠ 0, ∀ j, (c.filtered k list2).Noted r j ↔ c.Noted r j :=
    fun r hr j => (hmark r j).trans (or_iff_left fun hboth => hr hboth.1)
  have hlast : (c.filtered k list2).Noted 0 n ↔ c.Noted 0 n :=
    (hmark 0 n).trans (or_iff_left fun hboth => hboth.2.not_gt k.isLt)
  have hsub : User.publicKeys (c.filtered k list2).list ⊆ User.publicKeys c.list :=
    (List.filter_sublist.map _).subset
  have hkeeps : ∀ pk ∈ C.common, pk ∈ User.publicKeys (c.filtered k list2).list := by
    intro pk hpk
    obtain ⟨u, hu, hkey⟩ := User.mem_publicKeys.mp (h.lists.between.keeps pk hpk)
    refine User.mem_publicKeys.mpr ⟨u, List.mem_filter.mpr ⟨hu, ?_⟩, hkey⟩
    rw [Candidates.known_iff, hkey]
    exact hlist.keeps pk hpk
  have hknown : ∀ pk ∈ User.publicKeys (c.filtered k list2).list, pk ∈ C.keysOf k := by
    intro pk hpk
    obtain ⟨u, hu, rfl⟩ := User.mem_publicKeys.mp hpk
    exact hlist.mine _ (Candidates.known_iff.mp (List.mem_filter.mp hu).2)
  refine ⟨h.parties, h.id, (sized_mark 0 k _).mpr h.sized, ⟨?_, ⟨?_, hkeeps⟩, ?_, ?_, h.lists.sent⟩,
    ?_, ?_⟩
  · exact (List.filter_sublist.map _).nodup h.lists.unique
  · exact fun pk hpk => h.lists.between.mine pk (hsub hpk)
  · intro j hj pk hpk
    rcases (hmark 0 j).mp hj with hold | ⟨-, hjk⟩
    · exact h.lists.shared j hold pk (hsub hpk)
    · rw [Fin.ext hjk]
      exact hknown pk hpk
  · intro hn
    obtain ⟨hall, hkeys⟩ := h.lists.finished (hlast.mp hn)
    refine ⟨fun j => (hmark 0 j).mpr (Or.inl (hall j)), ?_⟩
    -- all that are left are common candidates, so the filter takes nobody out
    have hself : (c.filtered k list2).list = c.list := by
      refine List.filter_eq_self.mpr fun u hu => Candidates.known_iff.mpr (hlist.keeps _ ?_)
      rw [← Finset.mem_sort (· ≤ ·), ← hkeys]
      exact User.mem_publicKeys.mpr ⟨u, hu, rfl⟩
    rw [hself, hkeys]
  · exact h.numbers.congr rfl rfl hlast (hother 1 (by decide)) (fun _ => Iff.rfl) fun _ hpk => hpk
  · exact h.keys.congr rfl rfl (hother 2 (by decide)) (fun _ => Iff.rfl) fun _ hu => hu

/-- Sorted, what is left at the end of the round is the list of the common candidates. -/
theorem OnCourse.sort_eq (h : C.OnCourse i c) (hall : ∀ j : Fin n, c.Noted 0 j) :
    User.publicKeys (Candidates.sort c.list) = C.common.sort (· ≤ ·) := by
  have hperm : (User.publicKeys (Candidates.sort c.list)).Perm (User.publicKeys c.list) :=
    (Candidates.sort_perm c.list).map _
  refine List.Perm.eq_of_pairwise' (Candidates.sort_pairwise c.list)
    (Finset.pairwise_sort _ _) (hperm.trans ?_)
  refine (List.perm_ext_iff_of_nodup h.lists.unique (Finset.sort_nodup _ _)).mpr fun pk => ?_
  rw [Finset.mem_sort]
  refine ⟨fun hpk => (mem_common i).mpr fun j => ?_, fun hpk => h.lists.between.keeps pk hpk⟩
  exact h.lists.shared j (hall j) pk hpk

/-- The end of the round notes its last entry and the own number. -/
theorem OnCourse.noted_announce (h : C.OnCourse i c) (r : Fin 3) (j : ℕ) : c.announce.Noted r j ↔
    (c.Noted r j ∨ (r = 0 ∧ j = n)) ∨ (r = 1 ∧ j = i) := by
  have hfirst : (c.mark 0 c.N).Noted r j ↔ c.Noted r j ∨ (r = 0 ∧ j = n) := by
    rw [noted_mark h.sized h.N_eq.le, h.N_eq]
  have hsecond : c.announce.Noted r j ↔ (c.mark 0 c.N).Noted r j ∨ (r = 1 ∧ j = i) := by
    rw [← h.id]
    refine noted_mark (c := (c.mark 0 c.N).setList (Candidates.sort c.list))
      ((sized_mark 0 c.N c).mpr h.sized) ?_
    show c.senderKeyId ≤ n
    rw [h.id]
    exact i.isLt.le
  rw [hsecond, hfirst]

theorem OnCourse.announce (h : C.OnCourse i c) (hcomplete : c.complete 0 = true) :
    C.OnCourse i c.announce := by
  obtain ⟨hlast, hall⟩ := (complete_iff_noted h.N_eq h.sized).mp hcomplete
  have hmark := h.noted_announce
  have hnew : c.announce.sent = c.sent ++ [.number c.randomNumber] := rfl
  have hover : c.announce.Noted 0 n := (hmark 0 n).mpr (by simp)
  have hlists : C.Lists i c.announce := by
    have hperm : (User.publicKeys c.announce.list).Perm (User.publicKeys c.list) :=
      (Candidates.sort_perm c.list).map _
    refine ⟨hperm.nodup_iff.mpr h.lists.unique, ⟨fun pk hpk => ?_, fun pk hpk => ?_⟩,
      fun j _ pk hpk => ?_, fun _ => ?_, fun list hmem => ?_⟩
    · exact h.lists.between.mine pk (hperm.mem_iff.mp hpk)
    · exact hperm.mem_iff.mpr (h.lists.between.keeps pk hpk)
    · exact h.lists.shared j (hall j j.isLt) pk (hperm.mem_iff.mp hpk)
    · have hnoted : ∀ j : Fin n, c.Noted 0 j := fun j => hall j j.isLt
      exact ⟨fun j => (hmark 0 j).mpr (Or.inl (Or.inl (hnoted j))), h.sort_eq hnoted⟩
    · exact h.lists.sent list (by simpa [hnew] using hmem)
  have hnumbers : C.Numbers i c.announce := by
    refine ⟨h.numbers.random, ?_, fun number hmem => ⟨?_, hover⟩, ?_, fun _ => ?_, fun hn => ?_⟩
    · have hothers : ∀ j : Fin n, j = i ∨ c.announce.Noted 1 j ↔ j = i ∨ c.Noted 1 j := by
        intro j
        rw [hmark]
        simp only [Fin.ext_iff]
        tauto
      simp only [hothers]
      exact h.numbers.sum
    · rw [hnew, List.mem_append, List.mem_singleton, ChooseMessage.number.injEq] at hmem
      rcases hmem with hold | rfl
      · exact (h.numbers.sent number hold).1
      · exact h.numbers.random
    · exact iff_of_true ((hmark 1 i).mpr (by simp)) hover
    · rw [hnew, h.numbers.random]
      exact List.mem_append_right _ (List.mem_singleton_self _)
    · -- the second round is not over before the first
      have hold : c.Noted 1 n := by
        rcases (hmark 1 n).mp hn with (hold | hboth) | hboth
        · exact hold
        · exact absurd hboth.1 (by decide)
        · exact absurd hboth.2 i.isLt.ne'
      exact absurd (h.numbers.first.mp ((h.numbers.finished hold).1 i)) hlast
  have hthird : ∀ j, c.announce.Noted 2 j ↔ c.Noted 2 j := by
    intro j
    rw [hmark]
    simp
  refine ⟨h.parties, h.id, (sized_mark 1 _ _).mpr ((sized_mark 0 c.N c).mpr h.sized), hlists,
    hnumbers, ?_⟩
  refine h.keys.congr rfl rfl hthird (fun pk => ?_) fun _ hu => hu
  simp [hnew]

/-! ### The second round -/

theorem OnCourse.noted_count (h : C.OnCourse i c) (k : Fin n) (number : ℤ) (r : Fin 3) (j : ℕ) :
    (c.count k number).Noted r j ↔ c.Noted r j ∨ (r = 1 ∧ j = k) := by
  by_cases hk : c.Noted 1 k
  · rw [count_of_noted hk]
    refine (or_iff_left_of_imp ?_).symm
    rintro ⟨rfl, rfl⟩
    exact hk
  · rw [count_of_not_noted h.sized k.isLt.le hk]
    exact noted_mark (c := { c with finalNumber := c.finalNumber + number }) h.sized k.isLt.le

/-- The number of a party is added once; the own one is in the sum from the beginning. -/
theorem OnCourse.count (h : C.OnCourse i c) {k : Fin n} (hself : k = i → c.Noted 0 n) :
    C.OnCourse i (c.count k (C.randomNumber k)) := by
  have hmark := h.noted_count k (C.randomNumber k)
  by_cases hk : c.Noted 1 k
  · rwa [count_of_noted hk]
  · have hki : k ≠ i := by
      intro hki
      exact hk (hki ▸ h.numbers.first.mpr (hself hki))
    rw [count_of_not_noted h.sized k.isLt.le hk] at hmark ⊢
    generalize hc' : { c with finalNumber := c.finalNumber + C.randomNumber k }.mark 1 k = c' at hmark ⊢
    have hother : ∀ r ≠ 1, ∀ j, c'.Noted r j ↔ c.Noted r j :=
      fun r hr j => (hmark r j).trans (or_iff_left fun hboth => hr hboth.1)
    have hlast : c'.Noted 1 n ↔ c.Noted 1 n :=
      (hmark 1 n).trans (or_iff_left fun hboth => hboth.2.not_gt k.isLt)
    have hown : c'.Noted 1 i ↔ c.Noted 1 i :=
      (hmark 1 i).trans (or_iff_left fun hboth => hki (Fin.ext hboth.2.symm))
    have hset : (Finset.univ.filter fun j => j = i ∨ c'.Noted 1 j) =
        insert k (Finset.univ.filter fun j => j = i ∨ c.Noted 1 j) := by
      ext j
      simp only [Finset.mem_filter, Finset.mem_univ, true_and, Finset.mem_insert, hmark, Fin.ext_iff]
      tauto
    have hsum : c'.finalNumber = ∑ j with j = i ∨ c'.Noted 1 j, C.randomNumber j := by
      rw [hset, Finset.sum_insert (by simp [hki, hk]), add_comm, ← h.numbers.sum, ← hc']
      rfl
    subst hc'
    refine ⟨h.parties, h.id, (sized_mark 1 k _).mpr h.sized, ?_,
      ⟨h.numbers.random, hsum, ?_, ?_, ?_, ?_⟩, ?_⟩
    · exact h.lists.congr rfl (hother 0 (by decide)) fun _ hmem => Or.inl hmem
    · intro number hmem
      rw [hother 0 (by decide)]
      exact h.numbers.sent number hmem
    · rw [hown, hother 0 (by decide)]
      exact h.numbers.first
    · exact fun hn => h.numbers.number ((hother 0 (by decide) n).mp hn)
    · intro hn
      obtain ⟨hall, hchoice⟩ := h.numbers.finished (hlast.mp hn)
      exact ⟨fun j => (hmark 1 j).mpr (Or.inl (hall j)), hchoice⟩
    · exact h.keys.congr rfl rfl (hother 2 (by decide)) (fun _ => Iff.rfl) fun _ hu => hu

/-- When all numbers are noted, the sum picks the user that it picks for all. -/
theorem OnCourse.picked (h : C.OnCourse i c) (hall : ∀ j : Fin n, c.Noted 1 j) :
    (c.list[(c.finalNumber % c.list.length).toNat]?.map fun u => u.key.publicKey) = C.choice := by
  obtain ⟨-, hkeys⟩ := h.lists.finished (h.numbers.first.mp (hall i))
  have hlength : c.list.length = C.common.card := by
    rw [← Finset.length_sort (· ≤ ·), ← hkeys, User.publicKeys, List.length_map]
  have hset : (Finset.univ.filter fun j => j = i ∨ c.Noted 1 j) = Finset.univ :=
    Finset.filter_true_of_mem fun j _ => Or.inr (hall j)
  rw [choice, ← List.getElem?_map, hlength, h.numbers.sum, hset, ← hkeys]
  rfl

/-- The last entry is noted, and the choice is announced if there is one. -/
theorem OnCourse.mark_last (h : C.OnCourse i c) (hall : ∀ j : Fin n, c.Noted 1 j)
    (hmark : ∀ r j, c'.Noted r j ↔ c.Noted r j ∨ (r = 1 ∧ j = n))
    (hrandom : c'.randomNumber = c.randomNumber) (hfinal : c'.finalNumber = c.finalNumber)
    (hsent : ∀ number, .number number ∈ c'.sent ↔ .number number ∈ c.sent)
    (hchoice : (∃ pk, .trent pk ∈ c'.sent) ∨ C.choice = none) : C.Numbers i c' where
  random := hrandom.trans h.numbers.random
  sum := by
    have hothers : ∀ j : Fin n, c'.Noted 1 j ↔ c.Noted 1 j :=
      fun j => (hmark 1 j).trans (or_iff_left fun hboth => j.isLt.ne hboth.2)
    simp only [hothers]
    exact hfinal.trans h.numbers.sum
  sent number hmem := by
    obtain ⟨hnumber, hn⟩ := h.numbers.sent number ((hsent number).mp hmem)
    exact ⟨hnumber, (hmark 0 n).mpr (Or.inl hn)⟩
  first := by
    refine iff_of_true ((hmark 1 i).mpr (Or.inl (hall i))) ((hmark 0 n).mpr (Or.inl ?_))
    exact h.numbers.first.mp (hall i)
  number _ := (hsent _).mpr (h.numbers.number (h.numbers.first.mp (hall i)))
  finished _ := ⟨fun j => (hmark 1 j).mpr (Or.inl (hall j)), hchoice⟩

theorem OnCourse.noted_last (h : C.OnCourse i c) (r r' : Fin 3) (j : ℕ) :
    (c.mark r c.N).Noted r' j ↔ c.Noted r' j ∨ (r' = r ∧ j = n) := by
  rw [noted_mark h.sized h.N_eq.le, h.N_eq]

theorem OnCourse.nobody (h : C.OnCourse i c) (hall : ∀ j : Fin n, c.Noted 1 j)
    (hnone : C.choice = none) : C.OnCourse i (c.mark 1 c.N) where
  parties := h.parties
  id := h.id
  sized := (sized_mark 1 c.N c).mpr h.sized
  lists := h.lists.congr rfl (fun _ => noted_mark_ne (by decide)) fun _ hmem => Or.inl hmem
  numbers := h.mark_last hall (h.noted_last 1) rfl rfl (fun _ => Iff.rfl) (Or.inr hnone)
  keys := h.keys.congr rfl rfl (fun _ => noted_mark_ne (by decide)) (fun _ => Iff.rfl)
    fun _ hu => hu

theorem noted_choose (u : User) {r : Fin 3} (hr : r ≠ 1) (j : ℕ) :
    ((c.mark 1 c.N).choose u).Noted r j ↔ c.Noted r j :=
  noted_mark_ne (c := c) (k := c.N) hr

/-- A party that has adopted a key before has adopted this one. -/
theorem OnCourse.choose (h : C.OnCourse i c) (hall : ∀ j : Fin n, c.Noted 1 j) {u : User}
    (hchoice : C.choice = some u.key.publicKey) : C.OnCourse i ((c.mark 1 c.N).choose u) where
  parties := h.parties
  id := h.id
  sized := (sized_mark 1 c.N c).mpr h.sized
  lists := by
    refine h.lists.congr rfl (noted_choose u (by decide)) fun _ hmem => Or.inl ?_
    simpa using hmem
  numbers := by
    refine h.mark_last hall (h.noted_last 1) rfl rfl (fun _ => ?_) (Or.inl ⟨u.key.publicKey, ?_⟩)
    · simp
    · simp
  keys := by
    have hkey : ((c.mark 1 c.N).choose u).trentKey = some (c.trentKey.getD u.key) := rfl
    have hsent : ((c.mark 1 c.N).choose u).sent = c.sent ++ [.trent u.key.publicKey] := rfl
    have hpending : ((c.mark 1 c.N).choose u).pending = c.pending ++ [.choice u] := rfl
    refine ⟨fun pk hpk => ⟨?_, ?_⟩, fun key hk => ?_, fun _ => ?_, fun hn => ?_, fun _ => ?_,
      fun v hv => ?_⟩
    · rw [hsent, List.mem_append, List.mem_singleton, ChooseMessage.trent.injEq] at hpk
      rcases hpk with hold | rfl
      · exact (h.keys.sent pk hold).1
      · exact hchoice
    · rw [hkey]
      exact Option.some_ne_none _
    · rw [hkey, Option.some.injEq] at hk
      subst hk
      cases hold : c.trentKey with
      | none => exact hchoice
      | some key => exact h.keys.key key hold
    · rw [hkey]
      exact Option.some_ne_none _
    · exact h.keys.finished ((noted_choose u (by decide) n).mp hn)
    · rw [hkey]
      exact Option.some_ne_none _
    · rw [hpending, List.mem_append, List.mem_singleton, Continuation.choice.injEq] at hv
      rw [hsent]
      rcases hv with hold | rfl
      · exact List.mem_append_left _ (h.keys.pending v hold)
      · exact List.mem_append_right _ (List.mem_singleton_self _)

theorem OnCourse.pick (h : C.OnCourse i c) (hcomplete : c.complete 1 = true) :
    C.OnCourse i (pickTrent.exec c).2 ∧
      ∀ r j, (pickTrent.exec c).2.Noted r j ↔ c.Noted r j ∨ (r = 1 ∧ j = n) := by
  obtain ⟨-, hall⟩ := (complete_iff_noted h.N_eq h.sized).mp hcomplete
  have hnoted : ∀ j : Fin n, c.Noted 1 j := fun j => hall j j.isLt
  have hpicked := h.picked hnoted
  rw [exec_pickTrent, if_pos hcomplete]
  cases huser : c.list[(c.finalNumber % c.list.length).toNat]? with
  | none =>
    rw [huser, Option.map_none] at hpicked
    exact ⟨h.nobody hnoted hpicked.symm, h.noted_last 1⟩
  | some u =>
    rw [huser, Option.map_some] at hpicked
    exact ⟨h.choose hnoted hpicked.symm, h.noted_last 1⟩

/-! ### The third round -/

theorem OnCourse.hold (h : C.OnCourse i c) {k : Fin n} {key : ElGamalKey}
    (hchoice : C.choice = some key.publicKey) :
    C.OnCourse i ((c.setTrent (some key)).mark 2 k) where
  parties := h.parties
  id := h.id
  sized := (sized_mark 2 k _).mpr h.sized
  lists := h.lists.congr rfl (fun _ => noted_mark_ne (c := c.setTrent (some key)) (by decide))
    fun _ hmem => Or.inl hmem
  numbers := by
    have hother : ∀ r ≠ 2, ∀ j, ((c.setTrent (some key)).mark 2 k).Noted r j ↔ c.Noted r j :=
      fun r hr j => noted_mark_ne (c := c.setTrent (some key)) hr
    exact h.numbers.congr rfl rfl (hother 0 (by decide) n) (hother 1 (by decide))
      (fun _ => Iff.rfl) fun _ hpk => hpk
  keys := by
    have hsome : ((c.setTrent (some key)).mark 2 k).trentKey ≠ none := Option.some_ne_none key
    refine ⟨fun pk hpk => ⟨(h.keys.sent pk hpk).1, hsome⟩, fun key' hkey' => ?_, fun _ => hsome,
      fun hn => h.keys.finished ?_, fun _ => hsome, h.keys.pending⟩
    · obtain rfl := Option.some.inj (hkey' : some key = some key')
      exact hchoice
    · rcases (noted_mark (c := c.setTrent (some key)) (r := 2) h.sized k.isLt.le).mp hn with
        hold | ⟨-, hnk⟩
      · exact hold
      · exact absurd hnk k.isLt.ne'

theorem OnCourse.note (h : C.OnCourse i c) (k : Fin n) {key : ElGamalKey}
    (hkey : c.trentKey = some key) : C.OnCourse i (c.mark 2 k) := by
  have hsame : c = c.setTrent (some key) := by
    rw [ProtocolChooseTrent.setTrent, ← hkey]
  rw [hsame]
  exact h.hold (h.keys.key key hkey)

theorem OnCourse.nextStep (h : C.OnCourse i c) (hkey : c.trentKey ≠ none) :
    C.OnCourse i (c.mark 2 c.N).nextStep := by
  have hother : ∀ r ≠ 2, ∀ j, (c.mark 2 c.N).nextStep.Noted r j ↔ c.Noted r j :=
    fun r hr j => noted_mark_ne (c := c) hr
  refine ⟨h.parties, h.id, (sized_mark 2 c.N c).mpr h.sized, ?_, ?_, ?_⟩
  · exact h.lists.congr rfl (hother 0 (by decide)) fun _ hmem => Or.inl hmem
  · exact h.numbers.congr rfl rfl (hother 0 (by decide) n) (hother 1 (by decide))
      (fun _ => Iff.rfl) fun _ hpk => hpk
  · exact ⟨h.keys.sent, h.keys.key, fun _ => hkey, fun _ => rfl, fun _ => hkey, h.keys.pending⟩

/-! ### A message -/

/-- What a message of the party `k` says when it reaches the party `i`; what a party has sent
itself it knows. -/
def Genuine (C : Choosing n) (k i : Fin n) (c : ProtocolChooseTrent) : ChooseMessage → Prop
  | .list list => C.Between k list
  | .number number => number = C.randomNumber k ∧ (k = i → c.Noted 0 n)
  | .trent pk => C.choice = some pk ∧ (k = i → c.trentKey ≠ none)

/-- What a message of a round does: its sender is noted, and the round is over when all are. -/
structure Hears (n : ℕ) (r : Fin 3) (k : Fin n) (c c' : ProtocolChooseTrent) : Prop where
  kept : ∀ r' j, c.Noted r' j → c'.Noted r' j
  noted : c'.Noted r k
  finished : (∀ j : Fin n, c'.Noted r j) → c'.Noted r n

theorem OnCourse.hears_nothing (h : C.OnCourse i c) {r : Fin 3} (hr : c.awaits r = false)
    (k : Fin n) : Hears n r k c c where
  kept _ _ hj := hj
  noted := (awaits_iff_noted h.sized).mp hr k k.isLt.le
  finished _ := (awaits_iff_noted h.sized).mp hr n le_rfl

/-- A round of which all are noted is complete if its last entry is not noted yet. -/
theorem OnCourse.last_of_not_complete (h : C.OnCourse i c) {r : Fin 3}
    (hall : ∀ j : Fin n, c.Noted r j) (hcomplete : c.complete r ≠ true) : c.Noted r n := by
  by_contra hn
  exact hcomplete ((complete_iff_noted h.N_eq h.sized).mpr ⟨hn, fun j hj => hall ⟨j, hj⟩⟩)

theorem OnCourse.receive_list (h : C.OnCourse i c) {k : Fin n} {list2 : List User}
    (hlist : C.Between k list2) (hfits : c.awaits 0 = true → Candidates.Fits list2 c.list)
    (created : ElGamalKey) :
    C.OnCourse i (ProtocolChooseTrent.machine.next c
      (.receive (C.keys k).publicKey (.list list2) created)) ∧
    Hears n 0 k c (ProtocolChooseTrent.machine.next c
      (.receive (C.keys k).publicKey (.list list2) created)) := by
  have hk : indexOf c.parties (C.keys k).publicKey = .ok k := by
    rw [h.parties]
    exact C.indexOf_parties.mpr ⟨k, rfl, rfl⟩
  by_cases hawaits : c.awaits 0 = true
  · rw [next_list hawaits hk (hfits hawaits)]
    have hfiltered := h.filtered hlist
    have hmark : ∀ r j, (c.filtered k list2).Noted r j ↔ c.Noted r j ∨ (r = 0 ∧ j = k) :=
      fun r j => noted_mark (r := 0) h.sized k.isLt.le
    by_cases hcomplete : (c.filtered k list2).complete 0 = true
    · rw [if_pos hcomplete]
      have hnoted := hfiltered.noted_announce
      refine ⟨hfiltered.announce hcomplete, fun r j hj => ?_, ?_, fun _ => ?_⟩
      · exact (hnoted r j).mpr (Or.inl (Or.inl ((hmark r j).mpr (Or.inl hj))))
      · exact (hnoted 0 k).mpr (Or.inl (Or.inl ((hmark 0 k).mpr (Or.inr ⟨rfl, rfl⟩))))
      · exact (hnoted 0 n).mpr (Or.inl (Or.inr ⟨rfl, rfl⟩))
    · rw [if_neg hcomplete]
      refine ⟨hfiltered, fun r j hj => (hmark r j).mpr (Or.inl hj),
        (hmark 0 k).mpr (Or.inr ⟨rfl, rfl⟩), fun hall => ?_⟩
      exact hfiltered.last_of_not_complete hall hcomplete
  · have hsame : ProtocolChooseTrent.machine.next c
        (.receive (C.keys k).publicKey (.list list2) created) = c := by
      rw [Machine.next, ProtocolChooseTrent.receive_list c hk, exec_receiveList, if_neg hawaits]
    rw [hsame]
    exact ⟨h, h.hears_nothing (Bool.eq_false_of_not_eq_true hawaits) k⟩

theorem OnCourse.receive_number (h : C.OnCourse i c) {k : Fin n} (hself : k = i → c.Noted 0 n)
    (created : ElGamalKey) :
    C.OnCourse i (ProtocolChooseTrent.machine.next c
      (.receive (C.keys k).publicKey (.number (C.randomNumber k)) created)) ∧
    Hears n 1 k c (ProtocolChooseTrent.machine.next c
      (.receive (C.keys k).publicKey (.number (C.randomNumber k)) created)) := by
  have hk : indexOf c.parties (C.keys k).publicKey = .ok k := by
    rw [h.parties]
    exact C.indexOf_parties.mpr ⟨k, rfl, rfl⟩
  rw [next_number hk, exec_receiveNumber]
  by_cases hawaits : c.awaits 1 = true
  · rw [if_pos hawaits]
    have hcount := h.count hself
    have hmark := h.noted_count k (C.randomNumber k)
    generalize c.count k (C.randomNumber k) = c' at hcount hmark ⊢
    by_cases hcomplete : c'.complete 1 = true
    · obtain ⟨hpick, hnoted⟩ := hcount.pick hcomplete
      refine ⟨hpick, fun r j hj => ?_, ?_, fun _ => ?_⟩
      · exact (hnoted r j).mpr (Or.inl ((hmark r j).mpr (Or.inl hj)))
      · exact (hnoted 1 k).mpr (Or.inl ((hmark 1 k).mpr (Or.inr ⟨rfl, rfl⟩)))
      · exact (hnoted 1 n).mpr (Or.inr ⟨rfl, rfl⟩)
    · rw [exec_pickTrent, if_neg hcomplete]
      refine ⟨hcount, fun r j hj => (hmark r j).mpr (Or.inl hj),
        (hmark 1 k).mpr (Or.inr ⟨rfl, rfl⟩), fun hall => ?_⟩
      exact hcount.last_of_not_complete hall hcomplete
  · rw [if_neg hawaits]
    exact ⟨h, h.hears_nothing (Bool.eq_false_of_not_eq_true hawaits) k⟩

theorem OnCourse.receive_trent (h : C.OnCourse i c) {k : Fin n} {pk : ℤ}
    (hchoice : C.choice = some pk) (hself : k = i → c.trentKey ≠ none) (created : ElGamalKey) :
    C.OnCourse i (ProtocolChooseTrent.machine.next c
      (.receive (C.keys k).publicKey (.trent pk) created)) ∧
    Hears n 2 k c (ProtocolChooseTrent.machine.next c
      (.receive (C.keys k).publicKey (.trent pk) created)) := by
  have hk : indexOf c.parties (C.keys k).publicKey = .ok k := by
    rw [h.parties]
    exact C.indexOf_parties.mpr ⟨k, rfl, rfl⟩
  have hmark : ∀ r j, (c.mark 2 k).Noted r j ↔ c.Noted r j ∨ (r = 2 ∧ j = k) :=
    fun r j => noted_mark h.sized k.isLt.le
  rw [next_trent hk, exec_receiveTrent]
  by_cases hawaits : c.awaits 2 = true
  · rw [if_pos hawaits]
    cases hkey : c.trentKey with
    | none =>
      refine ⟨h.hold hchoice, fun r j hj => (hmark r j).mpr (Or.inl hj),
        (hmark 2 k).mpr (Or.inr ⟨rfl, rfl⟩), fun hall => ?_⟩
      -- the own announcement has not arrived, so it is not the last one that is awaited
      rcases (hmark 2 i).mp (hall i) with hold | ⟨-, hik⟩
      · exact absurd hkey (h.keys.own hold)
      · exact absurd hkey (hself (Fin.ext hik.symm))
    | some key =>
      have hpk : pk = key.publicKey := by
        have heq := hchoice.symm.trans (h.keys.key key hkey)
        exact Option.some.inj heq
      have hnote := h.note k hkey
      dsimp only
      rw [if_pos hpk]
      by_cases hcomplete : (c.mark 2 k).complete 2 = true
      · rw [if_pos hcomplete]
        have hlast := hnote.noted_last 2
        have hsome : (c.mark 2 k).trentKey ≠ none := by
          rw [show (c.mark 2 k).trentKey = c.trentKey from rfl, hkey]
          exact Option.some_ne_none key
        refine ⟨hnote.nextStep hsome, fun r j hj => ?_, ?_, fun _ => ?_⟩
        · exact (hlast r j).mpr (Or.inl ((hmark r j).mpr (Or.inl hj)))
        · exact (hlast 2 k).mpr (Or.inl ((hmark 2 k).mpr (Or.inr ⟨rfl, rfl⟩)))
        · exact (hlast 2 n).mpr (Or.inr ⟨rfl, rfl⟩)
      · rw [if_neg hcomplete]
        refine ⟨hnote, fun r j hj => (hmark r j).mpr (Or.inl hj),
          (hmark 2 k).mpr (Or.inr ⟨rfl, rfl⟩), fun hall => ?_⟩
        exact hnote.last_of_not_complete hall hcomplete
  · rw [if_neg hawaits]
    exact ⟨h, h.hears_nothing (Bool.eq_false_of_not_eq_true hawaits) k⟩

/-- **A message keeps a party on its course.** -/
theorem OnCourse.receive (h : C.OnCourse i c) {k : Fin n} {message : ChooseMessage}
    (hmessage : C.Genuine k i c message)
    (hfits : ∀ list2, message = .list list2 → c.awaits 0 = true → Candidates.Fits list2 c.list)
    (created : ElGamalKey) :
    C.OnCourse i (ProtocolChooseTrent.machine.next c
      (.receive (C.keys k).publicKey message created)) ∧
    Hears n message.round k c (ProtocolChooseTrent.machine.next c
      (.receive (C.keys k).publicKey message created)) := by
  cases message with
  | list list2 => exact h.receive_list hmessage (hfits list2 rfl) created
  | number number =>
    obtain ⟨rfl, hself⟩ := hmessage
    exact h.receive_number hself created
  | trent pk => exact h.receive_trent hmessage.1 hmessage.2 created

theorem OnCourse.genuine {k : Fin n} (h : C.OnCourse k c) {message : ChooseMessage}
    (hmem : message ∈ c.sent) (hself : k = i → c' = c) : C.Genuine k i c' message := by
  cases message with
  | list list => exact h.lists.sent list hmem
  | number number =>
    obtain ⟨hnumber, hn⟩ := h.numbers.sent number hmem
    refine ⟨hnumber, fun hki => ?_⟩
    rw [hself hki]
    exact hn
  | trent pk =>
    obtain ⟨hchoice, hkey⟩ := h.keys.sent pk hmem
    refine ⟨hchoice, fun hki => ?_⟩
    rw [hself hki]
    exact hkey

/-! ### The own steps -/

theorem OnCourse.start (h : C.OnCourse i c) :
    C.OnCourse i (ProtocolChooseTrent.machine.next c .start) ∧
      (∀ r j, c.Noted r j → (ProtocolChooseTrent.machine.next c .start).Noted r j) ∧
      (c.stepped = false → .list c.list ∈ (ProtocolChooseTrent.machine.next c .start).sent) := by
  have hnext : ProtocolChooseTrent.machine.next c .start = if c.stepped then c else c.ask := by
    have hstep : ProtocolChooseTrent.machine.next c .start = ((handle .start).exec c).2 := rfl
    rw [hstep, handle, Act.exec_get_bind]
    cases c.stepped <;> rfl
  rw [hnext]
  by_cases hstepped : c.stepped = true
  · rw [if_pos hstepped]
    exact ⟨h, fun _ _ hj => hj, fun hfalse => absurd (hstepped.symm.trans hfalse) (by decide)⟩
  · rw [if_neg hstepped]
    exact ⟨h.ask, fun _ _ hj => hj, fun _ => List.mem_append_right _ (List.mem_singleton_self _)⟩

theorem OnCourse.resumed (h : C.OnCourse i c) (k : ℕ) : C.OnCourse i (c.resume k) where
  parties := h.parties
  id := h.id
  sized := h.sized
  lists := h.lists.congr rfl (fun _ => Iff.rfl) fun _ hmem => Or.inl hmem
  numbers := h.numbers.congr rfl rfl Iff.rfl (fun _ => Iff.rfl) (fun _ => Iff.rfl) fun _ hpk => hpk
  keys := h.keys.congr rfl rfl (fun _ => Iff.rfl) (fun _ => Iff.rfl)
    fun _ hu => List.mem_of_mem_eraseIdx hu

theorem OnCourse.noteList (h : C.OnCourse i c) : C.OnCourse i (c.mark 0 i) := by
  have hmark : ∀ r j, (c.mark 0 i).Noted r j ↔ c.Noted r j ∨ (r = 0 ∧ j = i) :=
    fun r j => noted_mark h.sized i.isLt.le
  have hother : ∀ r ≠ 0, ∀ j, (c.mark 0 i).Noted r j ↔ c.Noted r j :=
    fun r hr j => noted_mark_ne hr
  have hlast : (c.mark 0 i).Noted 0 n ↔ c.Noted 0 n :=
    (hmark 0 n).trans (or_iff_left fun hboth => hboth.2.not_gt i.isLt)
  refine ⟨h.parties, h.id, (sized_mark 0 i c).mpr h.sized,
    ⟨h.lists.unique, h.lists.between, fun j hj pk hpk => ?_, fun hn => ?_, h.lists.sent⟩, ?_, ?_⟩
  · rcases (hmark 0 j).mp hj with hold | ⟨-, hji⟩
    · exact h.lists.shared j hold pk hpk
    · rw [Fin.ext hji]
      exact h.lists.between.mine pk hpk
  · obtain ⟨hall, hkeys⟩ := h.lists.finished (hlast.mp hn)
    exact ⟨fun j => (hmark 0 j).mpr (Or.inl (hall j)), hkeys⟩
  · exact h.numbers.congr rfl rfl hlast (hother 1 (by decide)) (fun _ => Iff.rfl) fun _ hpk => hpk
  · exact h.keys.congr rfl rfl (hother 2 (by decide)) (fun _ => Iff.rfl) fun _ hu => hu

/-- A party that goes on with its announcement does not regret it. -/
theorem OnCourse.resume (h : C.OnCourse i c) (k : ℕ) :
    C.OnCourse i (ProtocolChooseTrent.machine.next c (.resume k)) ∧
      ∀ r j, c.Noted r j → (ProtocolChooseTrent.machine.next c (.resume k)).Noted r j := by
  have hkept : ∀ r r' j, c.Noted r' j → ((c.resume k).mark r c.senderKeyId).Noted r' j := by
    intro r r' j hj
    rw [h.id]
    exact (noted_mark (c := c.resume k) h.sized i.isLt.le).mpr (Or.inl hj)
  have hmoves := moves_next c (.resume k)
  generalize ProtocolChooseTrent.machine.next c (.resume k) = c' at hmoves ⊢
  cases hmoves with
  | stay => exact ⟨h, fun _ _ hj => hj⟩
  | resumed hrest =>
    refine ⟨?_, hkept 0⟩
    rw [h.id]
    exact (h.resumed k).noteList
  | @confirmed _ u hrest hsame =>
    refine ⟨?_, hkept 2⟩
    have hkey := (h.keys.sent _ (h.keys.pending u (List.mem_of_getElem? hrest))).2
    obtain ⟨key, hkey⟩ := Option.ne_none_iff_exists'.mp hkey
    rw [h.id]
    exact (h.resumed k).note i hkey
  | @regretted _ u key hrest hkey hne =>
    have hchoice := (h.keys.sent _ (h.keys.pending u (List.mem_of_getElem? hrest))).1
    exact absurd (Option.some.inj ((h.keys.key key hkey).symm.trans hchoice)) hne

end

/-! ### All parties -/

def FitsAll (C : Choosing n) (s : Fin n → ProtocolChooseTrent) (e : Event n) : Prop :=
  match C.localEvent s e with
  | some (j, .receive _ (.list list2) _) =>
      (s j).awaits 0 = true → Candidates.Fits list2 (s j).list
  | _ => True

instance (s : Fin n → ProtocolChooseTrent) (e : Event n) : Decidable (C.FitsAll s e) := by
  unfold FitsAll
  split <;> infer_instance

/-- The user presses the button before the party is through. -/
def Starts (i : Fin n) (s : Fin n → ProtocolChooseTrent) (e : Event n) : Prop :=
  e = .start i ∧ (s i).stepped = false

instance (i : Fin n) (s : Fin n → ProtocolChooseTrent) (e : Event n) : Decidable (Starts i s e) :=
  match e with
  | .start i' => decidable_of_iff (i' = i ∧ (s i).stepped = false) (by simp [Starts])
  | .resume _ _ | .deliver _ _ _ _ => isFalse fun h => absurd h.1 (by simp)

def Delivers (i j : Fin n) (m : ℕ) (s : Fin n → ProtocolChooseTrent) (e : Event n) : Prop :=
  (∃ created, e = .deliver i j m created) ∧ m < (s i).sent.length

instance (i j : Fin n) (m : ℕ) (s : Fin n → ProtocolChooseTrent) (e : Event n) :
    Decidable (Delivers i j m s e) :=
  match e with
  | .start _ | .resume _ _ => isFalse fun h => absurd h.1 (by simp)
  | .deliver i' j' m' created =>
      decidable_of_iff ((i' = i ∧ j' = j ∧ m' = m) ∧ m < (s i).sent.length) (by simp [Delivers])

/-- All parties have started, and every message that was sent has been delivered to every
party, its sender too. -/
structure Quiescent (C : Choosing n) (es : List (Event n)) : Prop where
  started : ∀ i, C.machine.Happens (Starts i) C.initial es
  delivered : ∀ i j m, m < (C.machine.run C.initial es i).sent.length →
    C.machine.Happens (Delivers i j m) C.initial es

def Got (C : Choosing n) (es : List (Event n)) (s : Fin n → ProtocolChooseTrent) (r : Fin 3)
    (i j : Fin n) : Prop :=
  ∃ (m : ℕ) (message : ChooseMessage), (s i).sent[m]? = some message ∧ message.round = r ∧
    C.machine.Happens (Delivers i j m) C.initial es

/-- What has been delivered is noted, and a round of which everything is delivered is over. -/
structure Progress (C : Choosing n) (es : List (Event n)) (s : Fin n → ProtocolChooseTrent) :
    Prop where
  course : ∀ i, C.OnCourse i (s i)
  asked : ∀ i, C.machine.Happens (Starts i) C.initial es → ∃ list, .list list ∈ (s i).sent
  there : ∀ i j m, C.machine.Happens (Delivers i j m) C.initial es → m < (s i).sent.length
  noted : ∀ r i j, C.Got es s r i j → (s j).Noted r i
  finished : ∀ r j, (∀ i, C.Got es s r i j) → (s j).Noted r n

structure Step (C : Choosing n) (s : Fin n → ProtocolChooseTrent) (e : Event n) (j : Fin n)
    (c : ProtocolChooseTrent) : Prop where
  course : C.OnCourse j c
  kept : ∀ r k, (s j).Noted r k → c.Noted r k
  sent : ∃ messages, c.sent = (s j).sent ++ messages
  asked : Starts j s e → ∃ list, .list list ∈ c.sent
  hears : ∀ i m created message, e = .deliver i j m created → (s i).sent[m]? = some message →
    Hears n message.round i (s j) c

theorem next_step {s : Fin n → ProtocolChooseTrent} (h : ∀ i, C.OnCourse i (s i)) {e : Event n}
    (hfits : C.FitsAll s e) {j : Fin n} {e' : ChooseEvent} (hlocal : C.localEvent s e = some (j, e')) :
    C.Step s e j (ProtocolChooseTrent.machine.next (s j) e') := by
  have hsent := (moves_next (s j) e').sent
  cases e with
  | start j' =>
    obtain ⟨rfl, rfl⟩ := Prod.mk.inj (Option.some.inj hlocal)
    obtain ⟨hcourse, hkept, hasked⟩ := (h j').start
    exact ⟨hcourse, hkept, hsent, fun hstart => ⟨_, hasked hstart.2⟩, by simp⟩
  | resume j' k =>
    obtain ⟨rfl, rfl⟩ := Prod.mk.inj (Option.some.inj hlocal)
    obtain ⟨hcourse, hkept⟩ := (h j').resume k
    exact ⟨hcourse, hkept, hsent, fun hstart => absurd hstart.1 (by simp), by simp⟩
  | deliver i j' m created =>
    obtain ⟨message, hmessage, heq⟩ := Option.map_eq_some_iff.mp hlocal
    obtain ⟨rfl, rfl⟩ := Prod.mk.inj heq
    have hgenuine : C.Genuine i j' (s j') message :=
      (h i).genuine (List.mem_of_getElem? hmessage) fun hij => hij ▸ rfl
    have hlist : ∀ list2, message = .list list2 → (s j').awaits 0 = true →
        Candidates.Fits list2 (s j').list := by
      rintro list2 rfl
      rwa [FitsAll, hlocal] at hfits
    obtain ⟨hcourse, hhears⟩ := (h j').receive hgenuine hlist created
    refine ⟨hcourse, hhears.kept, hsent, fun hstart => absurd hstart.1 (by simp), ?_⟩
    intro i' m' created' message' he hm'
    obtain ⟨rfl, -, rfl, rfl⟩ := Event.deliver.inj he
    obtain rfl := Option.some.inj (hmessage.symm.trans hm')
    exact hhears

theorem initial_progress (hunique : ∀ i, (User.publicKeys (C.users i)).Nodup) :
    C.Progress [] C.initial where
  course := initial_onCourse hunique
  asked _ h := absurd h (C.machine.not_happens_nil _ _)
  there _ _ _ h := absurd h (C.machine.not_happens_nil _ _)
  noted := by
    rintro r i j ⟨m, message, hm, -⟩
    exact absurd (List.mem_of_getElem? hm) List.not_mem_nil
  finished r j hall := by
    obtain ⟨m, message, hm, -⟩ := hall j
    exact absurd (List.mem_of_getElem? hm) List.not_mem_nil

/-- A message that has been delivered was there before, or is delivered now. -/
theorem got_concat {es : List (Event n)} {s s' : Fin n → ProtocolChooseTrent} {e : Event n}
    (hs : C.machine.run C.initial es = s)
    (hthere : ∀ i j m, C.machine.Happens (Delivers i j m) C.initial es → m < (s i).sent.length)
    (hsent : ∀ i, ∃ messages, (s' i).sent = (s i).sent ++ messages) {r : Fin 3} {i j : Fin n}
    (h : C.Got (es ++ [e]) s' r i j) : C.Got es s r i j ∨
      ∃ m created message, e = .deliver i j m created ∧ (s i).sent[m]? = some message ∧
        message.round = r := by
  obtain ⟨m, message, hm, hround, hhappens⟩ := h
  obtain ⟨messages, hgrows⟩ := hsent i
  have hold : m < (s i).sent.length → (s i).sent[m]? = some message := by
    intro hlt
    rwa [hgrows, List.getElem?_append_left hlt] at hm
  rcases C.machine.happens_concat.mp hhappens with hbefore | ⟨⟨created, he⟩, hlt⟩
  · exact Or.inl ⟨m, message, hold (hthere i j m hbefore), hround, hbefore⟩
  · rw [hs] at hlt
    exact Or.inr ⟨m, created, message, he, hold hlt, hround⟩

theorem Progress.next {es : List (Event n)} (h : C.Progress es (C.machine.run C.initial es))
    {e : Event n} (hfits : C.FitsAll (C.machine.run C.initial es) e) :
    C.Progress (es ++ [e]) (C.machine.next (C.machine.run C.initial es) e) := by
  generalize hs : C.machine.run C.initial es = s at h hfits ⊢
  cases hlocal : C.localEvent s e with
  | none =>
    rw [next_of_none hlocal]
    have hstarts : ∀ i, ¬ Starts i s e := by
      rintro i ⟨rfl, -⟩
      exact absurd hlocal (by simp [localEvent])
    have hnot : ∀ i j m, ¬ Delivers i j m s e := by
      rintro i j m ⟨⟨created, rfl⟩, hlt⟩
      rw [localEvent, List.getElem?_eq_getElem hlt] at hlocal
      exact absurd hlocal (by simp)
    have hdelivers : ∀ i j m, C.machine.Happens (Delivers i j m) C.initial (es ++ [e]) ↔
        C.machine.Happens (Delivers i j m) C.initial es := by
      intro i j m
      rw [Machine.happens_concat, hs]
      exact or_iff_left (hnot i j m)
    refine ⟨h.course, fun i hi => ?_, fun i j m hm => h.there i j m ((hdelivers i j m).mp hm), ?_, ?_⟩
    · rw [Machine.happens_concat, hs] at hi
      exact h.asked i (hi.resolve_right (hstarts i))
    · simp only [Got, hdelivers]
      exact h.noted
    · simp only [Got, hdelivers]
      exact h.finished
  | some je =>
    obtain ⟨j, e'⟩ := je
    have hstep := next_step h.course hfits hlocal
    rw [next_of_some hlocal]
    generalize ProtocolChooseTrent.machine.next (s j) e' = c at hstep ⊢
    have hcases : ∀ P : Fin n → ProtocolChooseTrent → Prop, P j c → (∀ i, P i (s i)) →
        ∀ i, P i (Function.update s j c i) := by
      intro P hj hother
      exact (Function.forall_update_iff s fun i c => P i c).mpr ⟨hj, fun i _ => hother i⟩
    have hsent : ∀ i, ∃ messages, (Function.update s j c i).sent = (s i).sent ++ messages :=
      hcases (fun i c => ∃ messages, c.sent = (s i).sent ++ messages) hstep.sent
        fun i => ⟨[], (List.append_nil _).symm⟩
    have hkept : ∀ i r k, (s i).Noted r k → (Function.update s j c i).Noted r k :=
      hcases (fun i c => ∀ r k, (s i).Noted r k → c.Noted r k) hstep.kept fun _ _ _ hk => hk
    have hold : ∀ r i k, C.Got (es ++ [e]) (Function.update s j c) r i k → C.Got es s r i k ∨
        k = j ∧ Hears n r i (s j) c := by
      intro r i k hgot
      rcases got_concat hs h.there hsent hgot with hbefore | ⟨m, created, message, he, hm, rfl⟩
      · exact Or.inl hbefore
      · have hk : k = j := by
          subst he
          rw [localEvent, hm] at hlocal
          exact (Prod.mk.inj (Option.some.inj hlocal)).1
        subst hk
        exact Or.inr ⟨rfl, hstep.hears i m created message he hm⟩
    have hnoted : ∀ r i k, C.Got (es ++ [e]) (Function.update s j c) r i k →
        (Function.update s j c k).Noted r i := by
      intro r i k hgot
      rcases hold r i k hgot with hbefore | ⟨rfl, hhears⟩
      · exact hkept k r i (h.noted r i k hbefore)
      · rw [Function.update_self]
        exact hhears.noted
    refine ⟨hcases C.OnCourse hstep.course h.course, fun i hi => ?_, fun i k m hm => ?_, hnoted,
      fun r k hall => ?_⟩
    · rw [Machine.happens_concat, hs] at hi
      rcases hi with hbefore | hnow
      · obtain ⟨messages, hgrows⟩ := hsent i
        obtain ⟨list, hlist⟩ := h.asked i hbefore
        rw [hgrows]
        exact ⟨list, List.mem_append_left _ hlist⟩
      · have hij : i = j := by
          obtain ⟨rfl, -⟩ := hnow
          exact (Prod.mk.inj (Option.some.inj hlocal)).1
        subst hij
        rw [Function.update_self]
        exact hstep.asked hnow
    · obtain ⟨messages, hgrows⟩ := hsent i
      rw [Machine.happens_concat, hs] at hm
      have hlt : m < (s i).sent.length := hm.elim (h.there i k m) fun hnow => hnow.2
      rw [hgrows, List.length_append]
      omega
    · by_cases hbefore : ∀ i, C.Got es s r i k
      · exact hkept k r n (h.finished r k hbefore)
      · -- one of the messages is delivered now
        obtain ⟨i, hi⟩ := not_forall.mp hbefore
        obtain ⟨rfl, hhears⟩ := (hold r i k (hall i)).resolve_left hi
        have hover := hhears.finished
        rw [← Function.update_self k c s] at hover
        exact hover fun i' => hnoted r i' k (hall i')

theorem run_progress (hunique : ∀ i, (User.publicKeys (C.users i)).Nodup) (es : List (Event n))
    (hfits : C.machine.Along (fun _ => C.FitsAll) C.initial es) :
    C.Progress es (C.machine.run C.initial es) :=
  C.machine.invariant_history (initial_progress hunique) (fun _ _ h hfits => h.next hfits) es hfits

theorem Progress.holds {es : List (Event n)} {s : Fin n → ProtocolChooseTrent}
    (h : C.Progress es s) {i : Fin n} (hi : (s i).stepped = true) :
    ∃ key, (s i).trentKey = some key ∧ C.choice = some key.publicKey := by
  obtain ⟨key, hkey⟩ := Option.ne_none_iff_exists'.mp ((h.course i).keys.stepped hi)
  exact ⟨key, hkey, (h.course i).keys.key key hkey⟩

/-- When everything has been delivered, all are through exactly if there is a common
candidate. -/
theorem run_stepped_iff [NeZero n] (hunique : ∀ i, (User.publicKeys (C.users i)).Nodup)
    {es : List (Event n)} (hfits : C.machine.Along (fun _ => C.FitsAll) C.initial es)
    (hq : C.Quiescent es) :
    (∀ i, (C.machine.run C.initial es i).stepped = true) ↔ C.common.Nonempty := by
  have h := run_progress hunique es hfits
  constructor
  · intro hall
    obtain ⟨key, -, hchoice⟩ := h.holds (hall 0)
    rw [← choice_isSome_iff, hchoice]
    rfl
  · intro hcommon i
    have hgot : ∀ r i j message, message ∈ (C.machine.run C.initial es i).sent →
        message.round = r → C.Got es (C.machine.run C.initial es) r i j := by
      intro r i j message hmem hround
      obtain ⟨m, hlt, hm⟩ := List.getElem_of_mem hmem
      exact ⟨m, message, (List.getElem?_eq_getElem hlt).trans (congrArg some hm), hround,
        hq.delivered i j m hlt⟩
    -- each round is over for everybody, since everybody has sent a message of it
    have hfirst : ∀ j, (C.machine.run C.initial es j).Noted 0 n := by
      intro j
      refine h.finished 0 j fun i => ?_
      obtain ⟨list, hlist⟩ := h.asked i (hq.started i)
      exact hgot 0 i j _ hlist rfl
    have hsecond : ∀ j, (C.machine.run C.initial es j).Noted 1 n := by
      intro j
      refine h.finished 1 j fun i => ?_
      exact hgot 1 i j _ ((h.course i).numbers.number (hfirst i)) rfl
    have hthird : ∀ j, (C.machine.run C.initial es j).Noted 2 n := by
      intro j
      refine h.finished 2 j fun i => ?_
      obtain ⟨-, ⟨pk, hpk⟩ | hnone⟩ := (h.course i).numbers.finished (hsecond i)
      · exact hgot 2 i j _ hpk rfl
      · rw [← choice_isSome_iff, hnone] at hcommon
        exact absurd hcommon (by simp)
    exact (h.course i).keys.finished (hthird i)

/-- **The choice of Trent comes to its end** when the lists fit: whoever is through holds the
key that the sum of all numbers picks among the common candidates, and when everything has
been delivered, all are through exactly if there is a common candidate. -/
theorem choice_completes [NeZero n] (C : Choosing n)
    (hunique : ∀ i, (User.publicKeys (C.users i)).Nodup) (es : List (Event n))
    (hfits : C.machine.Along (fun _ => C.FitsAll) C.initial es) :
    (∀ i, (C.machine.run C.initial es i).stepped = true →
      ∃ key, (C.machine.run C.initial es i).trentKey = some key ∧
        C.choice = some key.publicKey) ∧
    (C.Quiescent es → ((∀ i, (C.machine.run C.initial es i).stepped = true) ↔
      C.common.Nonempty)) :=
  ⟨fun _ hi => (run_progress hunique es hfits).holds hi, run_stepped_iff hunique hfits⟩

def sampleAll : List (Event 2) :=
  [.start 0, .start 1] ++ (List.range 3).flatMap fun m =>
    [sampleDeliver 0 0 m, sampleDeliver 0 1 m, sampleDeliver 1 0 m, sampleDeliver 1 1 m]

/-- The sum of the numbers `6` and `7` picks the second one of the users `17` and `19`. -/
theorem choice_completes_sample :
    (∀ i, (sampleChoosing.machine.run sampleChoosing.initial sampleAll i).stepped = true) ∧
      sampleChoosing.choice = some 19 := by
  have hunique : ∀ i, (User.publicKeys (sampleChoosing.users i)).Nodup := by decide +kernel
  have hfits : sampleChoosing.machine.Along (fun _ => sampleChoosing.FitsAll)
      sampleChoosing.initial sampleAll := by decide +kernel
  have hq : sampleChoosing.Quiescent sampleAll :=
    ⟨by decide +kernel, by decide +kernel⟩
  have hcommon : sampleChoosing.common.Nonempty :=
    ⟨19, (mem_common 0).mpr (by decide +kernel)⟩
  obtain ⟨hkey, hall⟩ := choice_completes sampleChoosing hunique sampleAll hfits
  have hstepped := (hall hq).mpr hcommon
  refine ⟨hstepped, ?_⟩
  obtain ⟨key, htrent, hchoice⟩ := hkey 0 (hstepped 0)
  have hrun : ((sampleChoosing.machine.run sampleChoosing.initial sampleAll 0).trentKey.map
      ElGamalKey.publicKey) = some 19 := by decide +kernel
  rw [htrent] at hrun
  exact hchoice.trans hrun

end Choosing

end SXP.Sigma
