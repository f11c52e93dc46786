import SXP.Sigma.ChoiceCompletion
import SXP.Sigma.StepChange

/-!
# From the choice of Trent to the signed contract

Each party goes through the choice of Trent, sets its listeners and then signs, at
its own pace.  What reaches it before it signs is lost, so the parties make the same
exchange as parties that are all there from the beginning, to which only those messages
are delivered that find a listener (`Joins.next`, `run_joins`).

So both halves fit together: when nothing is under way any more, all parties have
completed the contract exactly if they have a common candidate for Trent, can encrypt
their identities for it, and no signature has finalized a contract too early
(`establishing_completes`).
-/

namespace SXP.Sigma

open SXP.Lib SXP.Lib.Java

namespace ProtocolChooseTrent

theorem next_stepped {c : ProtocolChooseTrent} (h : c.stepped = true) (e : ChooseEvent) :
    (machine.next c e).stepped = true := by
  have hcount : ∀ (j : ℕ) (number : ℤ), (c.count j number).stepped = c.stepped := by
    intro j number
    unfold count
    split <;> rfl
  have hmoves := moves_next c e
  generalize machine.next c e = c' at hmoves ⊢
  cases hmoves with
  | counted hj => exact (hcount _ _).trans h
  | nobody hj => exact (hcount _ _).trans h
  | chose hj => exact (hcount _ _).trans h
  | finished => rfl
  | _ => exact h

end ProtocolChooseTrent

theorem Party.next_signs {P : Platform} {p : Party} (hsigns : p.signs = true) (e : Sigma.Event) :
    ((Party.machine P).next p e).signs = true := by
  have hready : p.Ready := fun _ => hsigns
  have hevolves : Party.Evolves P (fun _ _ => True) p ((Party.machine P).next p e) :=
    Party.handle_writes hready e fun _ _ _ _ _ _ _ _ _ => trivial
  exact hevolves.signs hsigns

namespace Setting

variable {n : ℕ}

/-- Parties that can encrypt their identities complete the contract in exactly the runs in which
every signature that finalizes completes. -/
theorem exchange_completed_iff [NeZero n] {S : Setting n} (hS : S.Optimistic)
    (hreg : ∀ j, Registered S.trentK (S.keys j)) {es : List (Exchange.Event n Draws)}
    (hq : S.Quiescent es) : (∀ j, S.Completed (S.exchange.run S.created es j)) ↔
      S.exchange.Along (fun _ => S.Completing) S.created es := by
  have h := run_simulates hS hreg es
  have halong := S.exchange.along_simulation (Exchange.machine n Draws) (created_simulates hS)
    (fun _ _ e h => next_simulates hS hreg h e) (fun _ _ e h => h.completing_iff e) es
  rw [halong, ← Exchange.completed_iff ((quiescent_iff hS hreg es).mp hq)]
  exact forall_congr' h.completed_iff

/-- The party's listener on Trent is set, and its signing step is not created. -/
def listening (S : Setting n) (j : Fin n) : Party :=
  { (S.initial j).setStatus .signing with phase := .listening, signer := ⟨some S.trentK, none⟩ }

/-- **A party that has not come to the signing step** stands for one that has just created
it; from then on it is the same party. -/
inductive Joined (S : Setting n) (j : Fin n) : Party → Party → Prop
  | choosing : S.Joined j (S.initial j) (S.created j)
  | listening : S.Joined j (S.listening j) (S.created j)
  | signing (p : Party) (hsigns : p.signs = true) : S.Joined j p p

variable {S : Setting n} {j : Fin n} {p q : Party}

namespace Joined

theorem sent (h : S.Joined j p q) : p.sent = q.sent := by
  cases h <;> rfl

theorem same (h : S.Joined j p q) (hsigns : p.signs = true) : p = q := by
  cases h with
  | choosing => exact absurd hsigns Bool.false_ne_true
  | listening => exact absurd hsigns Bool.false_ne_true
  | signing p => rfl

theorem deaf (h : S.Joined j p q) (hsigns : p.signs = false) : p.listening = false := by
  cases h with
  | choosing => rfl
  | listening => rfl
  | signing p hsigns' => exact absurd (hsigns'.symm.trans hsigns) (by decide)

theorem signs_of_round (h : S.Joined j p q) (hr : p.round ≠ 0) : p.signs = true := by
  cases h with
  | choosing => exact absurd rfl hr
  | listening => exact absurd rfl hr
  | signing p hsigns => exact hsigns

theorem step (h : S.Joined j p q) (hsigns : p.signs = true) (e : Sigma.Event) :
    S.Joined j ((Party.machine S.platform).next p e) ((Party.machine S.platform).next q e) := by
  obtain rfl := h.same hsigns
  exact .signing _ (Party.next_signs hsigns e)

theorem listen (h : S.Joined j p q) :
    S.Joined j ((Party.machine S.platform).next p .listen) q := by
  cases h with
  | choosing => exact .listening
  | listening => exact .listening
  | signing p hsigns =>
    have hphase : ¬ p.phase = .choosing := by
      intro hphase
      rw [Party.signs, hphase] at hsigns
      exact absurd hsigns (by decide)
    have hnext : (Party.machine S.platform).next p .listen = p := by
      change ((Party.handle S.platform .listen).exec p).2 = p
      rw [Party.handle, Act.exec_get_bind, if_neg hphase]
      rfl
    rw [hnext]
    exact .signing p hsigns

theorem create (h : S.Joined j p q) :
    S.Joined j ((Party.machine S.platform).next p .create) q := by
  cases h with
  | choosing => exact .choosing
  | listening => exact .signing _ rfl
  | signing p hsigns =>
    have hphase : ¬ p.phase = .listening := by
      intro hphase
      rw [Party.signs, hphase] at hsigns
      exact absurd hsigns (by decide)
    have hnext : (Party.machine S.platform).next p .create = p := by
      change ((Party.handle S.platform .create).exec p).2 = p
      rw [Party.handle, Act.exec_get_bind, if_neg hphase]
      rfl
    rw [hnext]
    exact .signing p hsigns

theorem idle (h : S.Joined j p q) (hsigns : p.signs = false) (d : Draws) :
    (Party.machine S.platform).next p (.start d) = p := by
  cases h with
  | choosing => rfl
  | listening => rfl
  | signing p hsigns' => exact absurd (hsigns'.symm.trans hsigns) (by decide)

end Joined

end Setting

namespace Establishing

variable {n : ℕ} (E : Establishing n)

/-! ### Runs without requests -/

/-- The user starts, the establisher goes on, or a message is delivered; nobody asks Trent, and
the wish stays. -/
def Plain : Event n → Prop
  | .choose _ => True
  | .sign (.act _ .listen) | .sign (.act _ .create) | .sign (.act _ (.start _)) => True
  | .sign (.deliver _ _ _ _) => True
  | .sign (.act _ _) => False

instance : DecidablePred (Plain (n := n))
  | .choose _ => isTrue trivial
  | .sign (.act _ .listen) | .sign (.act _ .create) | .sign (.act _ (.start _)) => isTrue trivial
  | .sign (.deliver _ _ _ _) => isTrue trivial
  | .sign (.act _ (.receive _ _ _)) | .sign (.act _ (.answer _ _)) => isFalse id
  | .sign (.act _ (.resolve _)) | .sign (.act _ (.setWish _)) => isFalse id

def choice : Event n → Option (Choosing.Event n)
  | .choose e => some e
  | .sign _ => none

/-- What an event is for the exchange of promises and signatures: a step of a party in its
signing step, or a message that reaches one. -/
def exchanged (s : State n) : Event n → Option (Exchange.Event n Draws)
  | .sign (.act j (.start d)) => if (s.2 j).signs then some (.start j d) else none
  | .sign (.deliver i j m d) => if (s.2 j).signs then some (.deliver i j m d) else none
  | _ => none

def Reaches (i j : Fin n) (m : ℕ) (s : State n) (e : Event n) : Prop :=
  (∃ d, e = .sign (.deliver i j m d)) ∧ m < (s.2 i).sent.length ∧ (s.2 j).signs = true

/-- A signature that finalizes a contract is the last one that was missing. -/
def Completing [NeZero n] (s : State n) (e : Event n) : Prop :=
  ∀ e', exchanged s e = some e' → E.setting.Completing s.2 e'

/-- **Nothing is under way**: the choice of Trent is over as far as it comes, whoever is through
it has sent its first promises, and every message has reached everybody in the signing step. -/
structure Settled (es : List (Event n)) : Prop where
  chosen : E.choosing.Quiescent (es.filterMap choice)
  joined : ∀ j, ((E.machine.run E.initial es).1 j).stepped = true →
    ((E.machine.run E.initial es).2 j).phase = .running
  reached : ∀ i j m, m < ((E.machine.run E.initial es).2 i).sent.length →
    E.machine.Happens (Reaches i j m) E.initial es

/-- The parties `t`, all in the signing step, are where those of `s` are that have come there,
and nobody has left the choice of Trent without being through it. -/
structure Joins (s : State n) (t : Fin n → Party) : Prop where
  joined : ∀ j, E.setting.Joined j (s.2 j) (t j)
  left : ∀ j, (s.2 j).phase ≠ .choosing → (s.1 j).stepped = true

variable {E}

theorem initial_joins : E.Joins E.initial E.setting.created where
  joined _ := .choosing
  left _ h := absurd rfl h

/-! ### One step -/

section

variable {s : State n} {t : Fin n → Party} {j : Fin n} {p q : Party}

/-- One party of `s` moves, and the one of `t` with it or not at all. -/
theorem Joins.update (h : E.Joins s t) (hjoined : E.setting.Joined j p q)
    (hleft : p.phase ≠ .choosing → (s.1 j).stepped = true) :
    E.Joins (s.1, Function.update s.2 j p) (Function.update t j q) where
  joined k := by
    show E.setting.Joined k (Function.update s.2 j p k) (Function.update t j q k)
    by_cases hk : k = j
    · subst hk
      rw [Function.update_self, Function.update_self]
      exact hjoined
    · rw [Function.update_of_ne hk, Function.update_of_ne hk]
      exact h.joined k
  left k := by
    show (Function.update s.2 j p k).phase ≠ .choosing → (s.1 k).stepped = true
    by_cases hk : k = j
    · subst hk
      rw [Function.update_self]
      exact hleft
    · rw [Function.update_of_ne hk]
      exact h.left k

theorem Joins.moved (h : E.Joins s t) (hjoined : E.setting.Joined j p (t j))
    (hleft : p.phase ≠ .choosing → (s.1 j).stepped = true) :
    E.Joins (s.1, Function.update s.2 j p) t := by
  have hupdate := h.update hjoined hleft
  rwa [Function.update_eq_self] at hupdate

theorem Joins.stepped (h : E.Joins s t) (hsigns : (s.2 j).signs = true) :
    (s.1 j).stepped = true := by
  refine h.left j fun hphase => ?_
  rw [Party.signs, hphase] at hsigns
  exact absurd hsigns (by decide)

theorem Joins.create_stepped (h : E.Joins s t)
    (hphase : ((Party.machine E.setting.platform).next (s.2 j) .create).phase ≠ .choosing) :
    (s.1 j).stepped = true := by
  refine h.left j fun hchoosing => hphase ?_
  change (((Party.handle E.setting.platform .create).exec (s.2 j)).2).phase = .choosing
  rw [Party.handle, Act.exec_get_bind, if_neg (by rw [hchoosing]; decide)]
  exact hchoosing

/-- **Each step is one of the exchange or leaves it where it is.** -/
theorem Joins.next (h : E.Joins s t) {e : Event n} (he : Plain e) :
    E.Joins (E.machine.next s e) ((exchanged s e).elim t (E.setting.exchange.next t)) := by
  have hact : ∀ (p : Fin n → Party) (j : Fin n) (e : Sigma.Event),
      E.setting.localEvent p (.act j e) = some (j, e) → E.setting.machine.next p (.act j e) =
        Function.update p j ((Party.machine E.setting.platform).next (p j) e) :=
    fun p j e hlocal => Setting.next_of_some _ hlocal
  cases e with
  | choose e =>
    rw [next_choose]
    refine ⟨h.joined, fun j hphase => ?_⟩
    cases hlocal : E.choosing.localEvent s.1 e with
    | none =>
      rw [Choosing.next_of_none hlocal]
      exact h.left j hphase
    | some je =>
      obtain ⟨j', e'⟩ := je
      rw [Choosing.next_of_some hlocal]
      dsimp only
      by_cases hj : j = j'
      · subst hj
        rw [Function.update_self]
        exact ProtocolChooseTrent.next_stepped (h.left j hphase) e'
      · rw [Function.update_of_ne hj]
        exact h.left j hphase
  | sign e =>
    cases e with
    | act j e =>
      cases e with
      | listen =>
        by_cases hp : E.Permits s.1 (.act j .listen)
        · rw [next_sign hp, hact _ _ _ rfl]
          exact h.moved (h.joined j).listen fun _ => hp.1
        · rw [next_refused hp]
          exact h
      | create =>
        rw [next_sign (show E.Permits s.1 (.act j .create) from trivial), hact _ _ _ rfl]
        exact h.moved (h.joined j).create h.create_stepped
      | start d =>
        rw [next_sign (show E.Permits s.1 (.act j (.start d)) from trivial), hact _ _ _ rfl,
          exchanged]
        cases hsigns : (s.2 j).signs with
        | true =>
          rw [if_pos rfl]
          show E.Joins _ (E.setting.exchange.next t (.start j d))
          rw [Setting.exchange_start]
          exact h.update ((h.joined j).step hsigns _) fun _ => h.stepped hsigns
        | false =>
          rw [if_neg (by decide), (h.joined j).idle hsigns, Function.update_eq_self]
          exact h
      | receive message senderId d => exact absurd he id
      | answer a senderId => exact absurd he id
      | resolve d => exact absurd he id
      | setWish w => exact absurd he id
    | deliver i j m d =>
      rw [next_sign (show E.Permits s.1 (.deliver i j m d) from trivial), exchanged]
      cases hsigns : (s.2 j).signs with
      | false =>
        rw [if_neg (by decide), Setting.next_deliver_deaf ((h.joined j).deaf hsigns)]
        exact h
      | true =>
        rw [if_pos rfl]
        show E.Joins _ (E.setting.machine.next t (.deliver i j m d))
        have hlocal : E.setting.localEvent s.2 (.deliver i j m d) =
            E.setting.localEvent t (.deliver i j m d) := by
          simp only [Setting.localEvent, (h.joined i).sent]
        cases hevent : E.setting.localEvent t (.deliver i j m d) with
        | none =>
          rw [Setting.next_of_none _ hevent, Setting.next_of_none _ (hlocal.trans hevent)]
          exact h
        | some je =>
          obtain ⟨j', e'⟩ := je
          have hj : j' = j := by
            rcases hm : (t i).sent[m]? with _ | ⟨round, content⟩ | ⟨round, text, signature⟩ <;>
              simp only [Setting.localEvent, hm, reduceCtorEq, Option.some.injEq,
                Prod.mk.injEq] at hevent
            exact hevent.1.symm
          subst hj
          rw [Setting.next_of_some _ hevent, Setting.next_of_some _ (hlocal.trans hevent)]
          exact h.update ((h.joined j').step hsigns _) fun _ => h.stepped hsigns

end

/-! ### Runs -/

theorem run_joins {es : List (Event n)} (hplain : ∀ e ∈ es, Plain e) :
    E.Joins (E.machine.run E.initial es)
      (E.setting.exchange.run E.setting.created (E.machine.image exchanged E.initial es)) :=
  E.machine.run_image E.setting.exchange (fun e he _ _ h => h.next (hplain e he)) initial_joins

/-- A message that reaches a party in its signing step is delivered in the exchange. -/
theorem reaches_iff {es : List (Event n)} (hplain : ∀ e ∈ es, Plain e) (i j : Fin n) (m : ℕ) :
    E.machine.Happens (Reaches i j m) E.initial es ↔
      E.setting.exchange.Happens (Setting.Delivers i j m) E.setting.created
        (E.machine.image exchanged E.initial es) := by
  refine E.machine.happens_image E.setting.exchange (fun e he _ _ h => h.next (hplain e he))
    (fun e _ s t h => ?_) initial_joins
  constructor
  · rintro ⟨⟨d, rfl⟩, hm, hsigns⟩
    rw [(h.joined i).sent] at hm
    exact ⟨.deliver i j m d, if_pos hsigns, ⟨d, rfl⟩, hm⟩
  · rintro ⟨k, hk, ⟨d, rfl⟩, hm⟩
    rw [← (h.joined i).sent] at hm
    unfold exchanged at hk
    split at hk
    · rw [Option.ite_none_right_eq_some] at hk
      exact absurd hk.2 (by simp)
    · rw [Option.ite_none_right_eq_some, Option.some.injEq] at hk
      obtain ⟨hsigns, hk⟩ := hk
      obtain ⟨rfl, rfl, rfl, rfl⟩ := Exchange.Event.deliver.inj hk
      exact ⟨⟨_, rfl⟩, hm, hsigns⟩
    · exact absurd hk (by simp)

theorem completing_iff [NeZero n] {es : List (Event n)} (hplain : ∀ e ∈ es, Plain e) :
    E.machine.Along (fun _ => E.Completing) E.initial es ↔
      E.setting.exchange.Along (fun _ => E.setting.Completing) E.setting.created
        (E.machine.image exchanged E.initial es) := by
  rw [Machine.along_iff_not_happens, Machine.along_iff_not_happens, not_iff_not]
  refine E.machine.happens_image E.setting.exchange (fun e he _ _ h => h.next (hplain e he))
    (fun e _ s t h => ?_) initial_joins
  have hsame : ∀ e', exchanged s e = some e' →
      (E.setting.Completing s.2 e' ↔ E.setting.Completing t e') := by
    intro e' he'
    unfold Setting.Completing
    refine forall₄_congr fun i j d heq => ?_
    subst heq
    have hsigns : (s.2 j).signs = true := by
      unfold exchanged at he'
      split at he'
      · rw [Option.ite_none_right_eq_some] at he'
        exact absurd he'.2 (by simp)
      · rw [Option.ite_none_right_eq_some, Option.some.injEq] at he'
        obtain ⟨hsigns, he'⟩ := he'
        obtain ⟨rfl, rfl, rfl, rfl⟩ := Exchange.Event.deliver.inj he'
        exact hsigns
      · exact absurd he' (by simp)
    rw [(h.joined i).sent, (h.joined j).same hsigns]
  unfold Completing
  push Not
  refine exists_congr fun e' => and_congr_right fun he' => ?_
  rw [hsame e' he']

theorem next_signs {s : State n} (e : Event n) {j : Fin n} (hsigns : (s.2 j).signs = true) :
    ((E.machine.next s e).2 j).signs = true := by
  cases e with
  | choose e => exact hsigns
  | sign e =>
    by_cases hp : E.Permits s.1 e
    · rw [next_sign hp]
      cases hlocal : E.setting.localEvent s.2 e with
      | none => rwa [Setting.next_of_none _ hlocal]
      | some je =>
        obtain ⟨j', e'⟩ := je
        rw [Setting.next_of_some _ hlocal]
        dsimp only
        by_cases hj : j = j'
        · subst hj
          rw [Function.update_self]
          exact Party.next_signs hsigns e'
        · rwa [Function.update_of_ne hj]
    · rwa [next_refused hp]

theorem image_netEvent {s : State n} (hsigns : ∀ j, (s.2 j).signs = true)
    (es : List (Exchange.Event n Draws)) :
    E.machine.image exchanged s ((es.map Setting.netEvent).map .sign) = es := by
  induction es generalizing s with
  | nil => rfl
  | cons e es ih =>
    have himage : exchanged s (.sign (Setting.netEvent e)) = some e := by
      cases e with
      | start j d => exact if_pos (hsigns j)
      | deliver i j m d => exact if_pos (hsigns j)
    rw [List.map_cons, List.map_cons, Machine.image, himage, ih fun j => next_signs _ (hsigns j)]
    rfl

/-- **The parties establish the contract** in exactly the runs in which they have a common
candidate, can encrypt their identities for Trent, and no signature finalizes a contract
that lacks another one. -/
theorem establishing_completes [NeZero n] (E : Establishing n) (hS : E.setting.Optimistic)
    (hunique : ∀ i, (User.publicKeys (E.users i)).Nodup) {es : List (Event n)}
    (hplain : ∀ e ∈ es, Plain e)
    (hfits : E.choosing.machine.Along (fun _ => E.choosing.FitsAll) E.choosing.initial
      (es.filterMap choice)) (hq : E.Settled es) :
    (∀ j, E.setting.Completed ((E.machine.run E.initial es).2 j)) ↔
      E.choosing.common.Nonempty ∧ (∀ j, Registered E.setting.trentK (E.setting.keys j)) ∧
        E.machine.Along (fun _ => E.Completing) E.initial es := by
  have hjoins := run_joins (E := E) hplain
  have hchoice : (E.machine.run E.initial es).1 =
      E.choosing.machine.run E.choosing.initial (es.filterMap choice) :=
    E.machine.run_part E.choosing.machine (π := Prod.fst) (f := choice)
      (fun s e => by rw [next_fst]; cases e <;> rfl) E.initial es
  have hall := Choosing.run_stepped_iff hunique hfits hq.chosen
  rw [← hchoice] at hall
  have hiff : (∀ j, ((E.machine.run E.initial es).1 j).stepped = true) →
      ((∀ j, E.setting.Completed ((E.machine.run E.initial es).2 j)) ↔
        (∀ j, Registered E.setting.trentK (E.setting.keys j)) ∧
          E.machine.Along (fun _ => E.Completing) E.initial es) := by
    intro hleft
    have hsame : (E.machine.run E.initial es).2 = E.setting.exchange.run E.setting.created
        (E.machine.image exchanged E.initial es) := by
      funext j
      refine (hjoins.joined j).same ?_
      rw [Party.signs, hq.joined j (hleft j)]
      rfl
    have hquiescent : E.setting.Quiescent (E.machine.image exchanged E.initial es) := by
      rw [Setting.Quiescent, ← hsame]
      exact ⟨fun j => hq.joined j (hleft j),
        fun i j m hm => (reaches_iff hplain i j m).mp (hq.reached i j m hm)⟩
    rw [hsame, completing_iff hplain]
    constructor
    · intro h
      have hreg := fun j => Setting.registered_of_completed (hS.honest j) _ (h j)
      exact ⟨hreg, (Setting.exchange_completed_iff hS hreg hquiescent).mp h⟩
    · rintro ⟨hreg, h⟩
      exact (Setting.exchange_completed_iff hS hreg hquiescent).mpr h
  constructor
  · intro hcompleted
    have hleft : ∀ j, ((E.machine.run E.initial es).1 j).stepped = true := by
      intro j
      refine hjoins.stepped ((hjoins.joined j).signs_of_round ?_)
      rw [(hcompleted j).round]
      omega
    exact ⟨hall.mp hleft, (hiff hleft).mp hcompleted⟩
  · rintro ⟨hcommon, hrest⟩
    exact (hiff (hall.mpr hcommon)).mpr hrest

/-! ### Two parties -/

open Setting (sampleSetting sampleCreated)

def sampleEstablished : List (Event 2) :=
  (sampleChoice ++ sampleLate).map .choose ++ (sampleCreated.map .sign ++
    (Setting.sampleRun.map Setting.netEvent).map .sign)

theorem sampleEstablished_plain : ∀ e ∈ sampleEstablished, Plain e := by
  decide +kernel

theorem sampleCreated_permitted : ∀ e ∈ sampleCreated, sampleEstablishing.Permits
    (sampleEstablishing.choosing.machine.run sampleEstablishing.choosing.initial
      (sampleChoice ++ sampleLate)) e := by
  have hlisten : ∀ j, sampleEstablishing.Permits (sampleEstablishing.choosing.machine.run
      sampleEstablishing.choosing.initial (sampleChoice ++ sampleLate)) (.act j .listen) := by
    decide +kernel
  simp only [sampleCreated, List.forall_mem_cons]
  exact ⟨hlisten 0, trivial, hlisten 1, trivial, by simp⟩

theorem sampleCreated_run : sampleEstablishing.machine.run sampleEstablishing.initial
    ((sampleChoice ++ sampleLate).map .choose ++ sampleCreated.map .sign) =
      (sampleEstablishing.choosing.machine.run sampleEstablishing.choosing.initial
        (sampleChoice ++ sampleLate), sampleSetting.created) := by
  rw [Machine.run_append, run_choose]
  exact (run_sign sampleCreated_permitted _).trans
    (congrArg (Prod.mk _) (Setting.run_sampleCreated sampleSetting))

theorem sampleEstablished_image :
    sampleEstablishing.machine.image exchanged sampleEstablishing.initial sampleEstablished =
      Setting.sampleRun := by
  have hchosen : ∀ (s : State 2) (es : List (Choosing.Event 2)),
      sampleEstablishing.machine.image exchanged s (es.map .choose) = [] := by
    intro s es
    induction es generalizing s with
    | nil => rfl
    | cons e es ih => exact ih _
  rw [sampleEstablished, Machine.image_append, Machine.image_append, hchosen, List.nil_append,
    ← Machine.run_append, sampleCreated_run, image_netEvent fun j => rfl]
  rfl

theorem sampleEstablished_run :
    sampleEstablishing.machine.run sampleEstablishing.initial sampleEstablished =
      (sampleEstablishing.choosing.machine.run sampleEstablishing.choosing.initial
        (sampleChoice ++ sampleLate), sampleSetting.exchange.run sampleSetting.created
          Setting.sampleRun) := by
  have hpermitted : ∀ e ∈ Setting.sampleRun.map Setting.netEvent, sampleEstablishing.Permits
      (sampleEstablishing.choosing.machine.run sampleEstablishing.choosing.initial
        (sampleChoice ++ sampleLate)) e := by
    intro e he
    obtain ⟨e', -, rfl⟩ := List.mem_map.mp he
    cases e' <;> trivial
  rw [sampleEstablished, ← List.append_assoc, Machine.run_append, sampleCreated_run]
  exact (run_sign hpermitted _).trans (congrArg (Prod.mk _) (Setting.run_netEvent _ _))

theorem sampleRun_quiescent : sampleSetting.Quiescent Setting.sampleRun :=
  (Setting.quiescent_iff Setting.sampleSetting_optimistic Setting.sampleSetting_registered _).mpr
    (by decide +kernel)

theorem sampleRun_completing : sampleSetting.exchange.Along (fun _ => sampleSetting.Completing)
    sampleSetting.created Setting.sampleRun := by
  have hS := Setting.sampleSetting_optimistic
  have hreg := Setting.sampleSetting_registered
  refine (Setting.exchange_completed_iff hS hreg sampleRun_quiescent).mp fun j => ?_
  refine ((Setting.run_simulates hS hreg Setting.sampleRun).completed_iff j).mpr ⟨?_, ?_, ?_⟩ <;>
    revert j <;> decide +kernel

theorem sampleEstablished_settled : sampleEstablishing.Settled sampleEstablished where
  chosen := by
    have hchoice : sampleEstablished.filterMap choice = sampleChoice ++ sampleLate := rfl
    rw [hchoice]
    exact ⟨by decide +kernel, by decide +kernel⟩
  joined j _ := by
    rw [sampleEstablished_run]
    exact sampleRun_quiescent.1 j
  reached i j m hm := by
    rw [reaches_iff sampleEstablished_plain, sampleEstablished_image]
    rw [sampleEstablished_run] at hm
    exact sampleRun_quiescent.2 i j m hm

/-- The parties sign with the Trent that they have chosen. -/
theorem establishing_completes_sample : sampleEstablishing.Settled sampleEstablished ∧
    ∀ j, sampleSetting.Completed
      ((sampleEstablishing.machine.run sampleEstablishing.initial sampleEstablished).2 j) := by
  have hS := Setting.sampleSetting_optimistic
  have hunique : ∀ i, (User.publicKeys (sampleEstablishing.users i)).Nodup := by decide +kernel
  have hfits : sampleEstablishing.choosing.machine.Along (fun _ => sampleEstablishing.choosing.FitsAll)
      sampleEstablishing.choosing.initial (sampleEstablished.filterMap choice) := by decide +kernel
  have hcommon : sampleEstablishing.choosing.common.Nonempty :=
    ⟨(sampleKey 1002).publicKey, (Choosing.mem_common 0).mpr (by decide +kernel)⟩
  refine ⟨sampleEstablished_settled, ?_⟩
  refine (establishing_completes sampleEstablishing hS hunique sampleEstablished_plain hfits
    sampleEstablished_settled).mpr ⟨hcommon, Setting.sampleSetting_registered, ?_⟩
  rw [completing_iff sampleEstablished_plain, sampleEstablished_image]
  exact sampleRun_completing

end Establishing

end SXP.Sigma
