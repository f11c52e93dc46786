import SXP.Sigma.Agreement

/-!
# The candidates of all

In the first round a party takes out of its list whom the others do not know.
One message does this exactly if the list fits the one received
(`receive_list_iff`), so the lists of a whole run have to fit, each the list that
the ones before it have left; `intersection_iff` says that this is enough, in any
order of the messages.  Two lists of the same users in another order do not fit.
-/

namespace SXP.Sigma.ProtocolChooseTrent

open SXP.Lib SXP.Lib.Java

open Candidates (known Fits retain)

def Processes (c : ProtocolChooseTrent) (e : ChooseEvent) (list2 : List User) : Prop :=
  c.awaits 0 = true ∧ ∃ senderId created j,
    e = .receive senderId (.list list2) created ∧ indexOf c.parties senderId = .ok j

def Meets (c : ProtocolChooseTrent) (e : ChooseEvent) : Prop :=
  (∀ senderId message created, e = .receive senderId message created →
    ∃ j, indexOf c.parties senderId = .ok j) ∧
  ∀ list2, Processes c e list2 → Fits list2 c.list

/-! ### One message -/

theorem retain_perm_iff (list list2 : List User) :
    ((retain list list2).1 = .ok () ∧
      (retain list list2).2.Perm (list.filter (known list2))) ↔ Fits list2 list := by
  rw [← Candidates.retain_iff, Prod.ext_iff]
  refine and_congr_right fun _ => ⟨fun hperm => ?_, fun heq => ?_⟩
  · -- all that are left are known, so they are among the known ones of the list
    have hsub := (Candidates.retain_sublist list list2).filter (known list2)
    rw [List.filter_eq_self.mpr fun x hx => (List.mem_filter.mp (hperm.subset hx)).2] at hsub
    exact hsub.eq_of_length hperm.length_eq
  · rw [heq]

theorem receive_list (c : ProtocolChooseTrent) {senderId : ℤ} {j : ℕ}
    (hj : indexOf c.parties senderId = .ok j) (list2 : List User) (created : ElGamalKey) :
    machine.step c (.receive senderId (.list list2) created) = (receiveList j list2).exec c := by
  have hstep : machine.step c (.receive senderId (.list list2) created) =
      (handle (.receive senderId (.list list2) created)).exec c := rfl
  rw [hstep, handle, Act.exec_get_bind, hj, Act.exec_ok_bind]

/-- The outcome of a message is that of the loop, and so is the list, up to the order. -/
theorem receive_list_retain {c : ProtocolChooseTrent} (hawaits : c.awaits 0 = true) {senderId : ℤ}
    {j : ℕ} (hj : indexOf c.parties senderId = .ok j) (list2 : List User) (created : ElGamalKey) :
    machine.out c (.receive senderId (.list list2) created) = (retain c.list list2).1 ∧
      (machine.next c (.receive senderId (.list list2) created)).list.Perm
        (retain c.list list2).2 := by
  rw [Machine.out, Machine.next, receive_list c hj, exec_receiveList, if_pos hawaits]
  rcases retain c.list list2 with ⟨e | u, list⟩
  · exact ⟨rfl, List.Perm.refl _⟩
  · refine ⟨rfl, ?_⟩
    by_cases hcomplete : ((c.setList list).mark 0 j).complete 0 = true
    · simp only [if_pos hcomplete]
      exact Candidates.sort_perm list
    · simp only [if_neg hcomplete]
      exact List.Perm.refl list

/-- **A message leaves the users of both lists** exactly if the list fits. -/
theorem receive_list_iff {c : ProtocolChooseTrent} (hawaits : c.awaits 0 = true) {senderId : ℤ}
    {j : ℕ} (hj : indexOf c.parties senderId = .ok j) (list2 : List User) (created : ElGamalKey) :
    (machine.out c (.receive senderId (.list list2) created) = .ok () ∧
      (machine.next c (.receive senderId (.list list2) created)).list.Perm
        (c.list.filter (known list2))) ↔ Fits list2 c.list := by
  obtain ⟨hout, hperm⟩ := receive_list_retain hawaits hj list2 created
  rw [← retain_perm_iff, hout]
  exact and_congr_right fun _ => ⟨hperm.symm.trans, hperm.trans⟩

/-! ### A run -/

theorem Moves.list {c c' : ProtocolChooseTrent} {e : ChooseEvent} (hmoves : Moves c e c')
    (h : ∀ list2, ¬ Processes c e list2) : c'.list = c.list := by
  cases hmoves with
  | thrown hj hawaits | listed hj hawaits | announced hj hawaits =>
    exact absurd ⟨hawaits, _, _, _, rfl, hj⟩ (h _)
  | @counted _ number j =>
    exact (count_fields j number c).2.2.1
  | @nobody _ number j =>
    rw [← (count_fields j number c).2.2.1]
    rfl
  | @chose _ number j =>
    rw [← (count_fields j number c).2.2.1]
    rfl
  | _ => rfl

/-- Nothing throws but a list that does not fit, and the search for a sender that is no
party. -/
theorem out_ok {c : ProtocolChooseTrent} {e : ChooseEvent} (h : Meets c e) :
    machine.out c e = .ok () := by
  change ((handle e).exec c).1 = .ok ()
  cases e with
  | start =>
    rw [handle, Act.exec_get_bind]
    cases c.stepped <;> rfl
  | receive senderId message created =>
    obtain ⟨j, hj⟩ := h.1 senderId message created rfl
    rw [handle, Act.exec_get_bind, hj, Act.exec_ok_bind]
    cases message with
    | list list2 =>
      by_cases hawaits : c.awaits 0 = true
      · have hfits := h.2 list2 ⟨hawaits, senderId, created, j, rfl, hj⟩
        have hout := ((receive_list_iff hawaits hj list2 created).mpr hfits).1
        rwa [Machine.out, receive_list c hj] at hout
      · dsimp only
        rw [exec_receiveList, if_neg hawaits]
    | number number =>
      dsimp only
      rw [exec_receiveNumber, exec_pickTrent]
      split <;> rfl
    | trent publicKey =>
      dsimp only
      rw [exec_receiveTrent]
  | resume k =>
    rw [handle, Act.exec_get_bind]
    cases c.pending[k]? with
    | none => rfl
    | some rest =>
      cases rest with
      | list => rfl
      | choice trentUser =>
        dsimp only
        rw [Act.exec_modify_bind, exec_goOn_choice]

/-- The list after a step, when a list that is taken into account fits. -/
theorem mem_next_list {c : ProtocolChooseTrent} {e : ChooseEvent} (h : Meets c e) (u : User) :
    u ∈ (machine.next c e).list ↔
      u ∈ c.list ∧ ∀ list2, Processes c e list2 → known list2 u = true := by
  by_cases hlist : ∃ list2, Processes c e list2
  · obtain ⟨list2, hp⟩ := hlist
    obtain ⟨hawaits, senderId, created, j, rfl, hj⟩ := hp
    have hperm := ((receive_list_iff hawaits hj list2 created).mpr
      (h.2 list2 ⟨hawaits, senderId, created, j, rfl, hj⟩)).2
    rw [hperm.mem_iff, List.mem_filter]
    refine and_congr_right fun _ => ⟨fun hknown list2' hp' => ?_, fun hall => ?_⟩
    · obtain ⟨-, senderId', created', j', he, -⟩ := hp'
      cases he
      exact hknown
    · exact hall list2 ⟨hawaits, senderId, created, j, rfl, hj⟩
  · rw [(moves_next c e).list (not_exists.mp hlist)]
    exact ⟨fun hu => ⟨hu, fun list2 hp => absurd ⟨list2, hp⟩ hlist⟩, fun hu => hu.1⟩

/-- **The list becomes the intersection** when the lists of the run fit: nothing throws, and
what is left are the users of the initial list that every list taken into account contains. -/
theorem intersection_iff (parties : List ElGamalKey) (users : List User) (i : ℕ) (number : ℤ) :
    (∀ (c : ProtocolChooseTrent) (senderId : ℤ) (j : ℕ) (list2 : List User) (created : ElGamalKey),
      c.awaits 0 = true → indexOf c.parties senderId = .ok j →
      ((machine.out c (.receive senderId (.list list2) created) = .ok () ∧
        (machine.next c (.receive senderId (.list list2) created)).list.Perm
          (c.list.filter (known list2))) ↔ Fits list2 c.list)) ∧
    (∀ es, machine.Along (fun _ => Meets) (initial parties users i number) es →
      machine.Along (fun _ c e => machine.out c e = .ok ()) (initial parties users i number) es ∧
      ∀ u, u ∈ (machine.run (initial parties users i number) es).list ↔
        u ∈ Candidates.setup parties users ∧ ∀ list2,
          machine.Happens (fun c e => Processes c e list2) (initial parties users i number) es →
            known list2 u = true) ∧
    ∀ list list' : List User,
      (list.map fun u => u.key.publicKey).Perm (list'.map fun u => u.key.publicKey) →
        (Candidates.sort list).map (fun u => u.key.publicKey) =
          (Candidates.sort list').map fun u => u.key.publicKey := by
  refine ⟨fun c senderId j list2 created hawaits hj => receive_list_iff hawaits hj list2 created,
    fun es hes => ⟨?_, ?_⟩, fun _ _ => Candidates.sort_keys⟩
  · intro pre e post heq
    exact out_ok (hes pre e post heq)
  · refine machine.invariant_history (I := fun pre c => ∀ u, u ∈ c.list ↔
      u ∈ Candidates.setup parties users ∧ ∀ list2,
        machine.Happens (fun c e => Processes c e list2) (initial parties users i number) pre →
          known list2 u = true) ?_ ?_ es hes
    · intro u
      exact ⟨fun hu => ⟨hu, fun list2 hp => absurd hp (machine.not_happens_nil _ _)⟩,
        fun hu => hu.1⟩
    · intro pre e hpre hmeets u
      rw [mem_next_list hmeets, hpre u, and_assoc]
      refine and_congr_right fun _ => ?_
      simp only [machine.happens_concat]
      exact ⟨fun hall list2 hp => hp.elim (hall.1 list2) (hall.2 list2),
        fun hall => ⟨fun list2 hp => hall list2 (Or.inl hp), fun list2 hp => hall list2 (Or.inr hp)⟩⟩

/-! ### Two lists in different orders -/

def sampleChooser : ProtocolChooseTrent :=
  initial [⟨11, 23, 5, none⟩, ⟨12, 23, 5, none⟩] [Choosing.sampleUser 17, Choosing.sampleUser 19] 0 6

def sampleList (users : List User) : ChooseEvent :=
  .receive 12 (.list users) ⟨1, 23, 5, some 1⟩

/-- The second party knows the same users but has them in the other order, or it knows one
more. -/
theorem lists_do_not_fit :
    ((machine.run sampleChooser [.start, .resume 0,
        sampleList [Choosing.sampleUser 19, Choosing.sampleUser 17]]).list =
      [Choosing.sampleUser 17] ∧
      known [Choosing.sampleUser 19, Choosing.sampleUser 17] (Choosing.sampleUser 19) = true ∧
      Choosing.sampleUser 19 ∈ sampleChooser.list) ∧
    machine.out sampleChooser
        (sampleList [Choosing.sampleUser 17, Choosing.sampleUser 19, Choosing.sampleUser 21]) =
      .error noSuchElement := by
  decide +kernel

/-- The second party does not know the last user, and its users are in other places. -/
def sampleFitting : List User := [Choosing.sampleUser 21, Choosing.sampleUser 17]

theorem sampleFitting_fits : Fits sampleFitting sampleChooser.list := by
  have hlist : sampleChooser.list = [Choosing.sampleUser 17, Choosing.sampleUser 19] ++ [] := by
    decide +kernel
  rw [hlist]
  refine .block (List.cons_ne_nil _ _) rfl (Or.inr ⟨by decide, ?_⟩) .nil
  exact ⟨[Choosing.sampleUser 17], Choosing.sampleUser 19, rfl, by decide, by decide⟩

theorem intersection_sample :
    machine.out sampleChooser (sampleList sampleFitting) = .ok () ∧
    machine.Along (fun _ c e => machine.out c e = .ok ()) sampleChooser [sampleList sampleFitting] ∧
    ∀ u ∈ (machine.run sampleChooser [sampleList sampleFitting]).list,
      u ∈ sampleChooser.list ∧ known sampleFitting u = true := by
  have hj : indexOf sampleChooser.parties 12 = .ok 1 := by decide
  have hawaits : sampleChooser.awaits 0 = true := by decide
  obtain ⟨hone, hrun, -⟩ := intersection_iff [⟨11, 23, 5, none⟩, ⟨12, 23, 5, none⟩]
    [Choosing.sampleUser 17, Choosing.sampleUser 19] 0 6
  have hout := (hone sampleChooser 12 1 sampleFitting ⟨1, 23, 5, some 1⟩ hawaits hj).mpr
    sampleFitting_fits
  have hmeets : machine.Along (fun _ => Meets) sampleChooser [sampleList sampleFitting] := by
    rw [Machine.along_singleton]
    refine ⟨fun senderId message created he => ?_, fun list2 hp => ?_⟩
    · cases he
      exact ⟨1, hj⟩
    · obtain ⟨-, senderId, created, j, he, -⟩ := hp
      cases he
      exact sampleFitting_fits
  refine ⟨hout.1, (hrun _ hmeets).1, fun u hu => ?_⟩
  obtain ⟨hinitial, hknown⟩ := ((hrun _ hmeets).2 u).mp hu
  exact ⟨hinitial, hknown sampleFitting
    ⟨[], sampleList sampleFitting, [], rfl, hawaits, 12, _, 1, rfl, hj⟩⟩

end SXP.Sigma.ProtocolChooseTrent
