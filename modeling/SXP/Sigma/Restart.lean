import SXP.Sigma.Agreement

/-!
# Starting again

The constructor makes arrays with one entry more than there are parties, a
restart makes them without it.  A round is complete when the first `null` is the
last entry, so after a restart no round ever is: the party sends its list and
nothing else, makes no choice and never calls `nextStep`, whatever it receives
(`restart_never_steps`).
-/

namespace SXP.Sigma

open SXP.Lib SXP.Lib.Java

namespace ProtocolChooseTrent

/-- The key that the party holds is not the one it receives, or not the one it has chosen. -/
def Restarts (c : ProtocolChooseTrent) (e : ChooseEvent) : Prop :=
  (∃ senderId publicKey created j key, e = .receive senderId (.trent publicKey) created ∧
    indexOf c.parties senderId = .ok j ∧ c.awaits 2 = true ∧ c.trentKey = some key ∧
    publicKey ≠ key.publicKey) ∨
  ∃ k trentUser key, e = .resume k ∧ c.pending[k]? = some (.choice trentUser) ∧
    c.trentKey = some key ∧ key.publicKey ≠ trentUser.key.publicKey

/-- After a restart the arrays are short, and the sum stays what it was. -/
theorem next_restarts {c : ProtocolChooseTrent} {e : ChooseEvent} (h : Restarts c e) :
    (machine.next c e).Sized (machine.next c e).N ∧ (machine.next c e).trentKey = none ∧
      (machine.next c e).finalNumber = c.finalNumber := by
  have hagain : ∀ c' : ProtocolChooseTrent, c'.again.Sized c'.again.N ∧ c'.again.trentKey = none ∧
      c'.again.finalNumber = c'.finalNumber := fun c' => ⟨sized_again c', rfl, rfl⟩
  rcases h with ⟨senderId, publicKey, created, j, key, rfl, hj, hawaits, hkey, hne⟩ |
    ⟨k, trentUser, key, rfl, hrest, hkey, hne⟩
  · have hnext : machine.next c (.receive senderId (.trent publicKey) created) = c.again := by
      have hstep : machine.next c (.receive senderId (.trent publicKey) created) =
          ((handle (.receive senderId (.trent publicKey) created)).exec c).2 := rfl
      rw [hstep, handle, Act.exec_get_bind, hj, Act.exec_ok_bind]
      dsimp only
      rw [exec_receiveTrent, if_pos hawaits, hkey]
      exact if_neg hne
    rw [hnext]
    exact hagain c
  · have hnext : machine.next c (.resume k) = ((c.resume k).mark 2 c.senderKeyId).again := by
      have hstep : machine.next c (.resume k) = ((handle (.resume k)).exec c).2 := rfl
      rw [hstep, handle, Act.exec_get_bind, hrest]
      dsimp only
      rw [Act.exec_modify_bind, exec_goOn_choice,
        show (c.resume k).trentKey = some key from hkey]
      exact if_pos hne
    rw [hnext]
    exact hagain _

theorem Moves.short {c c' : ProtocolChooseTrent} {e : ChooseEvent} (hmoves : Moves c e c')
    (h : c.Sized c.N) : c'.Sized c'.N ∧ c'.stepped = c.stepped ∧
      ∃ messages, c'.sent = c.sent ++ messages ∧ ∀ m ∈ messages, ∃ list, m = .list list := by
  have hshort : ∀ {c' : ProtocolChooseTrent} {r : Fin 3}, c'.Sized c'.N → ¬ c'.complete r = true :=
    fun hs hc => by
      rw [not_complete_of_sized hs] at hc
      exact Bool.false_ne_true hc
  have hcount : ∀ (j : ℕ) (number : ℤ), (c.count j number).Sized (c.count j number).N := by
    intro j number
    rw [count_N, sized_count]
    exact h
  cases hmoves with
  | stay => exact ⟨h, rfl, [], (List.append_nil _).symm, by simp⟩
  | start => exact ⟨h, rfl, [.list c.list], rfl, by simp⟩
  | thrown => exact ⟨h, rfl, [], (List.append_nil _).symm, by simp⟩
  | listed =>
    exact ⟨(sized_mark 0 _ _).mpr h, rfl, [], (List.append_nil _).symm, by simp⟩
  | announced hj hawaits hretain hcomplete =>
    exact absurd hcomplete (hshort ((sized_mark 0 _ _).mpr h))
  | @counted _ number j =>
    obtain ⟨-, -, -, hsent, hstepped⟩ := count_fields j number c
    exact ⟨hcount j number, hstepped, [], hsent.trans (List.append_nil _).symm, by simp⟩
  | nobody hj hawaits hcomplete => exact absurd hcomplete (hshort (hcount _ _))
  | chose hj hawaits hcomplete => exact absurd hcomplete (hshort (hcount _ _))
  | adopted => exact ⟨(sized_mark 2 _ _).mpr h, rfl, [], (List.append_nil _).symm, by simp⟩
  | agreed => exact ⟨(sized_mark 2 _ _).mpr h, rfl, [], (List.append_nil _).symm, by simp⟩
  | finished hj hawaits hkey hcomplete =>
    exact absurd hcomplete (hshort ((sized_mark 2 _ _).mpr h))
  | disagreed => exact ⟨sized_again c, rfl, [.list c.list], rfl, by simp⟩
  | resumed => exact ⟨(sized_mark 0 _ _).mpr h, rfl, [], (List.append_nil _).symm, by simp⟩
  | confirmed => exact ⟨(sized_mark 2 _ _).mpr h, rfl, [], (List.append_nil _).symm, by simp⟩
  | @regretted k =>
    refine ⟨sized_again _, (again_stepped _).trans rfl, [.list c.list], ?_, by simp⟩
    rw [again_sent, mark_sent]
    rfl

theorem run_short {c : ProtocolChooseTrent} (h : c.Sized c.N) (es : List ChooseEvent) :
    (machine.run c es).stepped = c.stepped ∧
      ∃ messages, (machine.run c es).sent = c.sent ++ messages ∧
        ∀ m ∈ messages, ∃ list, m = .list list := by
  have hrun := machine.invariant (s := c) (I := fun c' => c'.Sized c'.N ∧
    c'.stepped = c.stepped ∧ ∃ messages, c'.sent = c.sent ++ messages ∧
      ∀ m ∈ messages, ∃ list, m = .list list)
    ⟨h, rfl, [], (List.append_nil _).symm, by simp⟩ ?_ es
  · exact hrun.2
  · rintro c' e ⟨hs, hstepped, messages, hsent, hall⟩
    obtain ⟨hs', hstepped', messages', hsent', hall'⟩ := (moves_next c' e).short hs
    refine ⟨hs', hstepped'.trans hstepped, messages ++ messages', ?_, ?_⟩
    · rw [hsent', hsent, List.append_assoc]
    · exact List.forall_mem_append.mpr ⟨hall, hall'⟩

end ProtocolChooseTrent

open ProtocolChooseTrent

namespace Choosing

variable {n : ℕ}

/-- **A restart is the end**: whatever the party receives afterwards, it does not call
`nextStep`, and all it sends are lists. -/
theorem restart_never_steps (C : Choosing n) (es : List (Event n)) (e : Event n) {j : Fin n}
    {e' : ChooseEvent} (hlocal : C.localEvent (C.machine.run C.initial es) e = some (j, e'))
    (hrestarts : Restarts (C.machine.run C.initial es j) e') (later : List ChooseEvent) :
    (ProtocolChooseTrent.machine.run (C.machine.run C.initial (es ++ [e]) j) later).stepped = false ∧
    (∃ messages, (ProtocolChooseTrent.machine.run (C.machine.run C.initial (es ++ [e]) j) later).sent =
      (C.machine.run C.initial (es ++ [e]) j).sent ++ messages ∧
        ∀ m ∈ messages, ∃ list, m = .list list) ∧
    (C.machine.run C.initial (es ++ [e]) j).finalNumber =
      (C.machine.run C.initial es j).finalNumber := by
  have hinv := run_inv (C := C) (es ++ [e])
  have hnext : C.machine.run C.initial (es ++ [e]) j =
      ProtocolChooseTrent.machine.next (C.machine.run C.initial es j) e' := by
    rw [Machine.run_concat, next_of_some hlocal, Function.update_self]
  obtain ⟨hshort, -, hnumber⟩ := next_restarts hrestarts
  rw [← hnext] at hshort hnumber
  obtain ⟨hstepped, hsent⟩ := run_short hshort later
  refine ⟨?_, hsent, hnumber⟩
  rw [hstepped]
  refine Bool.eq_false_of_not_eq_true fun h => ?_
  exact not_both_sized hshort ((hinv.heard j).stepped h).1

/-! ### Two parties that know different users -/

/-- Each of the two parties knows a user that the other does not know. -/
def sampleDisagreeing : Choosing 2 where
  keys i := ⟨11 + i, 23, 5, none⟩
  users i := [sampleUser 17, sampleUser (19 + 2 * i)]
  randomNumber i := 6 + i
  distinct := sampleKeys_distinct

def sampleDisagreement : List (Event 2) := sampleLists ++ sampleNumbers

def sampleReceive (senderId : ℤ) (message : ChooseMessage) : ChooseEvent :=
  .receive senderId message ⟨1, 23, 5, some 1⟩

/-- What the first party needs for a second time, in the order of the rounds. -/
def sampleSecondTime : List ChooseEvent :=
  [.resume 0] ++
    [11, 12].map (fun senderId => sampleReceive senderId (.list [sampleUser 17, sampleUser 19])) ++
    [sampleReceive 11 (.number 6), sampleReceive 12 (.number 7)] ++
    [11, 12].map fun senderId => sampleReceive senderId (.trent 19)

/-- The second time ends with nothing, and each number is counted twice. -/
theorem second_time_stuck :
    (∃ e', sampleDisagreeing.localEvent
        (sampleDisagreeing.machine.run sampleDisagreeing.initial sampleDisagreement)
        (sampleDeliver 1 0 2) = some (0, e') ∧
      Restarts (sampleDisagreeing.machine.run sampleDisagreeing.initial sampleDisagreement 0) e') ∧
    (ProtocolChooseTrent.machine.run (sampleDisagreeing.machine.run sampleDisagreeing.initial
      (sampleDisagreement ++ [sampleDeliver 1 0 2]) 0) sampleSecondTime).stepped = false ∧
    (ProtocolChooseTrent.machine.run (sampleDisagreeing.machine.run sampleDisagreeing.initial
      (sampleDisagreement ++ [sampleDeliver 1 0 2]) 0) sampleSecondTime).finalNumber = 26 := by
  refine ⟨⟨sampleReceive 12 (.trent 21), by decide +kernel, Or.inl ?_⟩, by decide +kernel⟩
  exact ⟨12, 21, ⟨1, 23, 5, some 1⟩, 1, (sampleUser 19).key, rfl, by decide +kernel,
    by decide +kernel, by decide +kernel, by decide⟩

theorem restart_never_steps_sample :
    (ProtocolChooseTrent.machine.run (sampleDisagreeing.machine.run sampleDisagreeing.initial
      (sampleDisagreement ++ [sampleDeliver 1 0 2]) 0) sampleSecondTime).stepped = false := by
  have hrestarts : Restarts (sampleDisagreeing.machine.run sampleDisagreeing.initial
      sampleDisagreement 0) (sampleReceive 12 (.trent 21)) :=
    Or.inl ⟨12, 21, ⟨1, 23, 5, some 1⟩, 1, (sampleUser 19).key, rfl, by decide +kernel,
      by decide +kernel, by decide +kernel, by decide⟩
  exact (restart_never_steps sampleDisagreeing sampleDisagreement (sampleDeliver 1 0 2)
    (by decide +kernel) hrestarts sampleSecondTime).1

end Choosing

end SXP.Sigma
