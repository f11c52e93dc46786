import SXP.Sigma.Agreement
import SXP.Sigma.Completion
import SXP.Sigma.FirstRound

/-!
# From the choice of Trent to the promises

Each party calls `nextStep` at its own moment, and only then it sets the
listener of the signing step.  A promise that a faster party has sent until
then finds no listener and is gone; nobody sends it again.  So all parties have
all promises of the first round in exactly the runs in which each of these
messages arrives once when its receiver listens (`promises_kept_iff`), and
`promise_lost` is a run in which everything was delivered and one promise is
missing for ever.
-/

namespace SXP.Sigma

open SXP.Lib SXP.Lib.Java

namespace Setting

variable {n : ℕ} {S : Setting n}

theorem run_netEvent (s : Fin n → Party) (es : List (Exchange.Event n Draws)) :
    S.machine.run s (es.map netEvent) = S.exchange.run s es := by
  rw [← List.filterMap_eq_map]
  exact (S.exchange.run_part S.machine (π := id) (fun _ _ => rfl) s es).symm

theorem exchange_start (s : Fin n → Party) (j : Fin n) (d : Draws) :
    S.exchange.next s (.start j d) =
      Function.update s j ((Party.machine S.platform).next (s j) (.start d)) :=
  next_of_some S (show S.localEvent s (.act j (.start d)) = some (j, .start d) from rfl)

theorem happens_netEvent {occurs : (Fin n → Party) → NetEvent n → Prop} (s : Fin n → Party)
    (es : List (Exchange.Event n Draws)) :
    S.machine.Happens occurs s (es.map netEvent) ↔
      S.exchange.Happens (fun s e => occurs s (netEvent e)) s es := by
  rw [← List.filterMap_eq_map]
  exact (S.exchange.happens_part S.machine (π := id) (fun _ _ => rfl) (fun s e => by simp) s es).symm

def sampleCreated : List (NetEvent 2) :=
  [.act 0 .listen, .act 0 .create, .act 1 .listen, .act 1 .create]

theorem run_sampleCreated (S : Setting 2) :
    S.machine.run S.initial sampleCreated = S.created := by
  have hact : ∀ (s : Fin 2 → Party) (j : Fin 2) (e : Sigma.Event),
      S.localEvent s (.act j e) = some (j, e) → S.machine.next s (.act j e) =
        Function.update s j ((Party.machine S.platform).next (s j) e) :=
    fun s j e hlocal => next_of_some _ hlocal
  funext i
  rw [sampleCreated, Machine.run_cons, Machine.run_cons, Machine.run_cons, Machine.run_cons,
    Machine.run_nil, hact _ _ _ rfl, hact _ _ _ rfl, hact _ _ _ rfl, hact _ _ _ rfl]
  by_cases hi : i = 1
  · rw [hi]
    rfl
  · obtain rfl : i = 0 := by omega
    rfl

/-- The promises of the first round are where the member has them. -/
theorem Simulates.has_iff {s : Fin n → Party} {t : Fin n → Exchange.Member n}
    (h : S.Simulates s t) {i j : Fin n} : (s j).Has 1 i ↔ (t j).got 1 i = true := by
  rw [(h.follows j).got 1 i, Option.isSome_iff_exists]
  rfl

end Setting

/-- The parties of one contract, from the choice of Trent on. -/
structure Establishing (n : ℕ) where
  setting : Setting n
  users : Fin n → List User
  randomNumber : Fin n → ℤ

namespace Establishing

/-- Something happens in the step that chooses Trent, or in the steps after it. -/
inductive Event (n : ℕ) where
  | choose (e : Choosing.Event n)
  | sign (e : NetEvent n)

/-- What all parties have in the first step, and what they have from then on. -/
abbrev State (n : ℕ) : Type := (Fin n → ProtocolChooseTrent) × (Fin n → Party)

variable {n : ℕ} (E : Establishing n)

def choosing : Choosing n where
  keys := E.setting.keys
  users := E.users
  randomNumber := E.randomNumber
  distinct := E.setting.distinct

/-- The listener on Trent is set by `nextStep`, with the key that was chosen.  Where it was
read from an announcement it comes with a private key, which no party uses. -/
def Permits (c : Fin n → ProtocolChooseTrent) : NetEvent n → Prop
  | .act j .listen => (c j).stepped = true ∧
      (c j).trentKey.map ElGamalKey.getPublicKeys = some E.setting.trentK.getPublicKeys
  | _ => True

instance (c : Fin n → ProtocolChooseTrent) : (e : NetEvent n) → Decidable (E.Permits c e)
  | .act j .listen => inferInstanceAs (Decidable ((c j).stepped = true ∧
      (c j).trentKey.map ElGamalKey.getPublicKeys = some E.setting.trentK.getPublicKeys))
  | .act _ .create | .act _ (.start _) | .act _ (.receive _ _ _) | .act _ (.answer _ _)
  | .act _ (.resolve _) | .act _ (.setWish _) | .deliver _ _ _ _ => isTrue trivial

def machine : Machine (State n) (Event n) (Java Unit) where
  step s
    | .choose e =>
        let (result, c) := E.choosing.machine.step s.1 e
        (result, (c, s.2))
    | .sign e =>
        if E.Permits s.1 e then
          let (result, p) := E.setting.machine.step s.2 e
          (result, (s.1, p))
        else (.ok (), s)

def initial : State n := (E.choosing.initial, E.setting.initial)

def InChoice (occurs : (Fin n → ProtocolChooseTrent) → Choosing.Event n → Prop) (s : State n)
    (e : Event n) : Prop :=
  ∃ e', e = .choose e' ∧ occurs s.1 e'

def InSigning (occurs : (Fin n → Party) → NetEvent n → Prop) (s : State n) (e : Event n) : Prop :=
  ∃ e', e = .sign e' ∧ occurs s.2 e'

def ChoiceDelivers (i j : Fin n) (m : ℕ) (c : Fin n → ProtocolChooseTrent) (e : Choosing.Event n) :
    Prop :=
  (∃ created, e = .deliver i j m created) ∧ m < (c i).sent.length

instance (i j : Fin n) (m : ℕ) (c : Fin n → ProtocolChooseTrent) (e : Choosing.Event n) :
    Decidable (ChoiceDelivers i j m c e) :=
  match e with
  | .start _ | .resume _ _ => isFalse fun h => absurd h.1 (by simp)
  | .deliver i' j' m' created =>
      decidable_of_iff ((i' = i ∧ j' = j ∧ m' = m) ∧ m < (c i).sent.length)
        (by simp [ChoiceDelivers])

def SigningDelivers (i j : Fin n) (m : ℕ) (p : Fin n → Party) (e : NetEvent n) : Prop :=
  (∃ d, e = .deliver i j m d) ∧ m < (p i).sent.length

/-- All parties have left the choice of Trent and sent their first promises, and every
message that was sent has been delivered to every party. -/
structure Quiescent (es : List (Event n)) : Prop where
  left : ∀ j, ((E.machine.run E.initial es).1 j).stepped = true ∧
    ((E.machine.run E.initial es).2 j).phase = .running
  chosen : ∀ i j m, m < ((E.machine.run E.initial es).1 i).sent.length →
    E.machine.Happens (InChoice (ChoiceDelivers i j m)) E.initial es
  signed : ∀ i j m, m < ((E.machine.run E.initial es).2 i).sent.length →
    E.machine.Happens (InSigning (SigningDelivers i j m)) E.initial es

variable {E}

theorem next_choose (s : State n) (e : Choosing.Event n) :
    E.machine.next s (.choose e) = (E.choosing.machine.next s.1 e, s.2) := rfl

theorem next_sign {s : State n} {e : NetEvent n} (h : E.Permits s.1 e) :
    E.machine.next s (.sign e) = (s.1, E.setting.machine.next s.2 e) := by
  simp only [Machine.next, machine, if_pos h]

theorem next_refused {s : State n} {e : NetEvent n} (h : ¬ E.Permits s.1 e) :
    E.machine.next s (.sign e) = s := by
  simp only [Machine.next, machine, if_neg h]

/-! ### What is kept -/

theorem next_heard (hh : ∀ k, E.setting.honest k = true) {s : State n} (hs : E.setting.Heard s.2)
    (e : Event n) : E.setting.Heard (E.machine.next s e).2 := by
  cases e with
  | choose e => exact hs
  | sign e =>
    by_cases hp : E.Permits s.1 e
    · rw [next_sign hp]
      exact hs.next hh e
    · rwa [next_refused hp]

theorem next_keeps {s : State n} (hs : E.setting.Heard s.2) (e : Event n) (j : Fin n)
    (hsigns : (s.2 j).signs = true) : ((E.machine.next s e).2 j).signs = true ∧
      ∀ k i, (s.2 j).Has k i → ((E.machine.next s e).2 j).Has k i := by
  cases e with
  | choose e => exact ⟨hsigns, fun _ _ => id⟩
  | sign e =>
    by_cases hp : E.Permits s.1 e
    · rw [next_sign hp]
      exact Setting.next_keeps hs e j hsigns
    · rw [next_refused hp]
      exact ⟨hsigns, fun _ _ => id⟩

theorem next_has_iff (hh : ∀ k, E.setting.honest k = true) {s : State n}
    (hs : E.setting.Heard s.2) (e : Event n) {i j : Fin n} (hij : i ≠ j) :
    ((E.machine.next s e).2 j).Has 1 i ↔ (s.2 j).Has 1 i ∨ InSigning (Setting.Arrives i j) s e := by
  cases e with
  | choose e => simp [next_choose, InSigning]
  | sign e =>
    by_cases hp : E.Permits s.1 e
    · rw [next_sign hp, Setting.next_has_iff hh hs e hij]
      simp [InSigning]
    · rw [next_refused hp]
      refine (or_iff_left ?_).symm
      rintro ⟨e', he, m, d, content, rfl, -⟩
      obtain rfl := Event.sign.inj he
      exact hp trivial

/-- What is there of the first round, and how it came there. -/
structure Inv (E : Establishing n) (es : List (Event n)) (s : State n) : Prop where
  heard : E.setting.Heard s.2
  others : ∀ i j, i ≠ j →
    ((s.2 j).Has 1 i ↔ E.machine.Happens (InSigning (Setting.Arrives i j)) E.initial es)
  own : ∀ i j, E.machine.Happens (InSigning (Setting.Arrives i j)) E.initial es →
    (s.2 i).signs = true ∧ (s.2 i).Has 1 i

theorem initial_inv : E.Inv [] E.initial where
  heard := Setting.initial_heard
  others i j _ := by
    refine iff_of_false ?_ (Machine.not_happens_nil _ _ _)
    rintro ⟨o, ho⟩
    exact absurd ho (by simp [initial, Setting.initial, Party.initial])
  own _ _ h := absurd h (Machine.not_happens_nil _ _ _)

theorem Inv.next (hh : ∀ k, E.setting.honest k = true) {es : List (Event n)}
    (h : E.Inv es (E.machine.run E.initial es)) (e : Event n) :
    E.Inv (es ++ [e]) (E.machine.next (E.machine.run E.initial es) e) where
  heard := next_heard hh h.heard e
  others i j hij := by
    rw [next_has_iff hh h.heard e hij, h.others i j hij, Machine.happens_concat]
  own i j hhappens := by
    have hold : ((E.machine.run E.initial es).2 i).signs = true ∧
        ((E.machine.run E.initial es).2 i).Has 1 i := by
      rcases E.machine.happens_concat.mp hhappens with hhappens | harrives
      · exact h.own i j hhappens
      · -- the sender has its own promise since it sent the message
        obtain ⟨-, -, m, -, content, -, hm, -⟩ := harrives
        have hmem := List.mem_of_getElem? hm
        have hp := h.heard.vouched i
        refine ⟨?_, (hp.written content hmem).2⟩
        by_contra hsigns
        rw [(hp.rounds.outside (Bool.eq_false_of_not_eq_true hsigns)).2] at hmem
        exact absurd hmem List.not_mem_nil
    obtain ⟨hsigns, hkeeps⟩ := next_keeps h.heard e i hold.1
    exact ⟨hsigns, hkeeps 1 i hold.2⟩

theorem run_inv (hh : ∀ k, E.setting.honest k = true) (es : List (Event n)) :
    E.Inv es (E.machine.run E.initial es) :=
  E.machine.invariant_inputs initial_inv (fun _ e h => h.next hh e) es

/-- **No promise of the first round is lost** in exactly the runs in which each party's
message arrives at each other party when this one listens. -/
theorem promises_kept_iff (E : Establishing n) (hn : 2 ≤ n) (hh : ∀ i, E.setting.honest i = true)
    (es : List (Event n)) :
    (∀ j i : Fin n, ∃ o, ((E.machine.run E.initial es).2 j).roundReceived 1 i = some o) ↔
      ∀ i j, i ≠ j → E.machine.Happens (InSigning (Setting.Arrives i j)) E.initial es := by
  have h := run_inv hh es
  constructor
  · intro hall i j hij
    exact (h.others i j hij).mp (hall j i)
  · intro hall j i
    by_cases hij : i = j
    · obtain ⟨k, hk⟩ : ∃ k : Fin n, j ≠ k := by
        have : Nontrivial (Fin n) := Fin.nontrivial_iff_two_le.mpr hn
        obtain ⟨k, hk⟩ := exists_ne j
        exact ⟨k, hk.symm⟩
      rw [hij]
      exact (h.own j k (hall j k hk)).2
    · exact (h.others i j hij).mpr (hall i j hij)

/-! ### The two parts of a run -/

theorem next_fst (s : State n) (e : Event n) : (E.machine.next s e).1 =
    (match e with
      | .choose e => some e
      | .sign _ => none).elim s.1 (E.choosing.machine.next s.1) := by
  cases e with
  | choose e => rfl
  | sign e =>
    by_cases hp : E.Permits s.1 e
    · rw [next_sign hp]
      rfl
    · rw [next_refused hp]
      rfl

theorem run_choose (s : State n) (es : List (Choosing.Event n)) :
    E.machine.run s (es.map .choose) = (E.choosing.machine.run s.1 es, s.2) := by
  induction es generalizing s with
  | nil => rfl
  | cons e es ih => rw [List.map_cons, Machine.run_cons, ih, next_choose, Machine.run_cons]

theorem run_sign {c : Fin n → ProtocolChooseTrent} {es : List (NetEvent n)}
    (h : ∀ e ∈ es, E.Permits c e) (p : Fin n → Party) :
    E.machine.run (c, p) (es.map .sign) = (c, E.setting.machine.run p es) := by
  induction es generalizing p with
  | nil => rfl
  | cons e es ih =>
    have hp : E.Permits (c, p).1 e := h e List.mem_cons_self
    rw [List.map_cons, Machine.run_cons, next_sign hp,
      ih fun e he => h e (List.mem_cons_of_mem _ he), Machine.run_cons]

theorem happens_sign {c : Fin n → ProtocolChooseTrent} {es : List (NetEvent n)}
    (h : ∀ e ∈ es, E.Permits c e) {occurs : (Fin n → Party) → NetEvent n → Prop}
    (p : Fin n → Party) : E.machine.Happens (InSigning occurs) (c, p) (es.map .sign) ↔
      E.setting.machine.Happens occurs p es := by
  induction es generalizing p with
  | nil => exact iff_of_false (Machine.not_happens_nil _ _ _) (Machine.not_happens_nil _ _ _)
  | cons e es ih =>
    have hp : E.Permits (c, p).1 e := h e List.mem_cons_self
    rw [List.map_cons, Machine.happens_cons, next_sign hp,
      ih fun e he => h e (List.mem_cons_of_mem _ he), Machine.happens_cons]
    simp [InSigning]

/-! ### Two parties -/

open Setting (sampleSetting sampleDraws sampleDeliver)

def sampleEstablishing : Establishing 2 where
  setting := sampleSetting
  users _ := [⟨(sampleKey 1002).getPublicKeys⟩]
  randomNumber i := 6 + i

/-- The first party is through, and its announcement has not reached the second. -/
def sampleChoice : List (Choosing.Event 2) :=
  Choosing.sampleLists ++ Choosing.sampleNumbers ++ [Choosing.sampleDeliver 1 0 2]

/-- It does now, and every party hears its own messages. -/
def sampleLate : List (Choosing.Event 2) :=
  Choosing.sampleDeliver 0 1 2 ::
    (List.range 3).flatMap fun m => [Choosing.sampleDeliver 0 0 m, Choosing.sampleDeliver 1 1 m]

def sampleJoin (j : Fin 2) : List (NetEvent 2) :=
  [.act j .listen, .act j .create, .act j (.start sampleDraws)]

/-- What is sent after both have started, without the first message of the first party. -/
def sampleRest : List (Exchange.Event 2 Draws) :=
  [sampleDeliver 1 0 0, sampleDeliver 0 1 1, sampleDeliver 0 0 0, sampleDeliver 0 0 1,
    sampleDeliver 1 1 0]

def sampleEarly : List (NetEvent 2) := sampleJoin 0 ++ [.deliver 0 1 0 sampleDraws]

def sampleSigning : List (NetEvent 2) := sampleJoin 1 ++ sampleRest.map Setting.netEvent

/-- The promises of the first party arrive before the second one has left the choice of
Trent. -/
def lostRun : List (Event 2) :=
  sampleChoice.map .choose ++ (sampleEarly.map .sign ++ (sampleLate.map .choose ++
    sampleSigning.map .sign))

/-- The same, and the promises are delivered once more. -/
def keptRun : List (Event 2) := lostRun ++ [.sign (.deliver 0 1 0 sampleDraws)]

def sampleStarts : List (Exchange.Event 2 Draws) := [.start 0 sampleDraws, .start 1 sampleDraws]

theorem sampleEarly_permitted : ∀ e ∈ sampleEarly, sampleEstablishing.Permits
    (sampleEstablishing.choosing.machine.run sampleEstablishing.choosing.initial sampleChoice) e := by
  have hlisten : sampleEstablishing.Permits (sampleEstablishing.choosing.machine.run
      sampleEstablishing.choosing.initial sampleChoice) (.act 0 .listen) := by decide +kernel
  simp only [sampleEarly, sampleJoin, List.cons_append, List.nil_append, List.forall_mem_cons]
  exact ⟨hlisten, trivial, trivial, trivial, by simp⟩

theorem sampleSigning_permitted : ∀ e ∈ sampleSigning, sampleEstablishing.Permits
    (sampleEstablishing.choosing.machine.run sampleEstablishing.choosing.initial
      (sampleChoice ++ sampleLate)) e := by
  have hlisten : sampleEstablishing.Permits (sampleEstablishing.choosing.machine.run
      sampleEstablishing.choosing.initial (sampleChoice ++ sampleLate)) (.act 1 .listen) := by
    decide +kernel
  simp only [sampleSigning, sampleJoin, sampleRest, sampleDeliver, Setting.netEvent, List.map_cons,
    List.map_nil, List.cons_append, List.nil_append, List.forall_mem_cons]
  exact ⟨hlisten, trivial, trivial, trivial, trivial, trivial, trivial, trivial, by simp⟩

theorem sampleStarts_run : sampleSetting.machine.run
    (sampleSetting.machine.run sampleSetting.initial sampleEarly) (sampleJoin 1) =
      sampleSetting.exchange.run sampleSetting.created sampleStarts := by
  rw [sampleEarly, Machine.run_append, sampleJoin, Setting.run_join rfl, Machine.run_cons,
    Machine.run_nil, Setting.next_deliver_deaf (by rw [Function.update_of_ne (by decide)]; rfl),
    sampleJoin, Setting.run_join (by rw [Function.update_of_ne (by decide)]), sampleStarts,
    Machine.run_cons, Machine.run_cons, Machine.run_nil, Setting.exchange_start, Setting.exchange_start,
    Function.update_of_ne (show (1 : Fin 2) ≠ 0 by decide)]
  funext i
  by_cases h1 : i = 1
  · rw [h1, Function.update_self, Function.update_self]
    rfl
  · obtain rfl : i = 0 := by omega
    rw [Function.update_of_ne h1, Function.update_of_ne h1, Function.update_self,
      Function.update_self]
    rfl

theorem sampleChoice_run : sampleEstablishing.machine.run sampleEstablishing.initial
    (sampleChoice.map .choose) = (sampleEstablishing.choosing.machine.run
      sampleEstablishing.choosing.initial sampleChoice, sampleSetting.initial) := run_choose _ _

theorem lostRun_run : sampleEstablishing.machine.run sampleEstablishing.initial lostRun =
    (sampleEstablishing.choosing.machine.run sampleEstablishing.choosing.initial
        (sampleChoice ++ sampleLate),
      sampleSetting.exchange.run sampleSetting.created (sampleStarts ++ sampleRest)) := by
  rw [lostRun, Machine.run_append, sampleChoice_run, Machine.run_append,
    run_sign sampleEarly_permitted, Machine.run_append, run_choose]
  dsimp only
  rw [← Machine.run_append, run_sign sampleSigning_permitted]
  refine congrArg (Prod.mk _) ?_
  rw [sampleSigning, Machine.run_append, Machine.run_append, Setting.run_netEvent]
  exact congrArg (fun s => sampleSetting.exchange.run s sampleRest) sampleStarts_run

theorem lostRun_simulates : sampleSetting.Simulates
    (sampleEstablishing.machine.run sampleEstablishing.initial lostRun).2
    ((Exchange.machine 2 Draws).run (fun _ => Exchange.Member.initial)
      (sampleStarts ++ sampleRest)) := by
  rw [lostRun_run]
  exact Setting.run_simulates Setting.sampleSetting_optimistic Setting.sampleSetting_registered _

/-- What is delivered to parties that have joined, and what is delivered before. -/
theorem lostRun_delivers (i j : Fin 2) (m : ℕ) (h : sampleSetting.machine.Happens
      (SigningDelivers i j m) sampleSetting.initial sampleEarly ∨
    sampleSetting.machine.Happens (SigningDelivers i j m)
      (sampleSetting.machine.run sampleSetting.initial sampleEarly) sampleSigning) :
    sampleEstablishing.machine.Happens (InSigning (SigningDelivers i j m))
      sampleEstablishing.initial lostRun := by
  rw [lostRun, Machine.happens_append, sampleChoice_run, Machine.happens_append,
    happens_sign sampleEarly_permitted, run_sign sampleEarly_permitted, Machine.happens_append,
    run_choose]
  dsimp only
  rw [← Machine.run_append, happens_sign sampleSigning_permitted]
  exact Or.inr (h.imp_right Or.inr)

theorem lostRun_quiescent : sampleEstablishing.Quiescent lostRun where
  left j := by
    rw [(lostRun_simulates.follows j).phase, lostRun_run]
    revert j
    decide +kernel
  chosen i j m hm := by
    rw [lostRun_run] at hm
    have hall : ∀ i j : Fin 2, ∀ m < (sampleEstablishing.choosing.machine.run
        sampleEstablishing.choosing.initial (sampleChoice ++ sampleLate) i).sent.length,
        sampleEstablishing.choosing.machine.Happens (ChoiceDelivers i j m)
          sampleEstablishing.choosing.initial (sampleChoice ++ sampleLate) := by decide +kernel
    refine (sampleEstablishing.machine.happens_part sampleEstablishing.choosing.machine next_fst
      (fun s e => ?_) _ _).mpr (hall i j m hm)
    cases e <;> simp [InChoice]
  signed i j m hm := by
    rw [lostRun_simulates.sent_length] at hm
    have hall : ∀ i j : Fin 2, ∀ m < ((Exchange.machine 2 Draws).run
        (fun _ => Exchange.Member.initial) (sampleStarts ++ sampleRest) i).sent,
        (i = 0 ∧ j = 1 ∧ m = 0) ∨ (Exchange.machine 2 Draws).Happens (Exchange.Delivers i j m)
          ((Exchange.machine 2 Draws).run (fun _ => Exchange.Member.initial) sampleStarts)
          sampleRest := by decide +kernel
    apply lostRun_delivers
    rcases hall i j m hm with ⟨rfl, rfl, rfl⟩ | hhappens
    · left
      have hsent := (Setting.run_simulates Setting.sampleSetting_optimistic
        Setting.sampleSetting_registered [.start 0 sampleDraws]).sent_length 0
      rw [Machine.run_cons, Machine.run_nil, Setting.exchange_start, Function.update_self] at hsent
      rw [sampleEarly, Machine.happens_append, sampleJoin, Setting.run_join rfl]
      refine Or.inr ⟨[], _, [], rfl, ⟨sampleDraws, rfl⟩, ?_⟩
      rw [Machine.run_nil, Function.update_self]
      exact Nat.lt_of_lt_of_eq (by decide) hsent.symm
    · right
      rw [sampleSigning, Machine.happens_append, sampleStarts_run, Setting.happens_netEvent]
      refine Or.inr ((sampleSetting.exchange.happens_simulation (Exchange.machine 2 Draws)
        (Setting.run_simulates Setting.sampleSetting_optimistic Setting.sampleSetting_registered
          sampleStarts) (fun _ _ e h => Setting.next_simulates Setting.sampleSetting_optimistic
            Setting.sampleSetting_registered h e) (fun s t e h => ?_) sampleRest).mpr hhappens)
      rw [SigningDelivers, Exchange.Delivers, h.sent_length]
      cases e <;> simp [Setting.netEvent]

/-- **A promise is lost**: all parties are honest and have left the choice of Trent, every
message has been delivered, and the second party waits for a promise that nobody sends
again. -/
theorem promise_lost : (∀ i, sampleEstablishing.setting.honest i = true) ∧
    sampleEstablishing.Quiescent lostRun ∧
    ¬ (∃ o, ((sampleEstablishing.machine.run sampleEstablishing.initial lostRun).2 1).roundReceived
      1 (0 : Fin 2) = some o) ∧
    ¬ ∀ j i : Fin 2, ∃ o, ((sampleEstablishing.machine.run sampleEstablishing.initial
      lostRun).2 j).roundReceived 1 i = some o := by
  have hlost : ¬ ((sampleEstablishing.machine.run sampleEstablishing.initial lostRun).2 1).Has 1
      (0 : Fin 2) := by
    rw [lostRun_simulates.has_iff]
    decide +kernel
  exact ⟨fun _ => rfl, lostRun_quiescent, hlost, fun hall => hlost (hall 1 0)⟩

/-- The message of the first party is still there, and the second party listens. -/
theorem lostRun_arrives : InSigning (Setting.Arrives 0 1)
    (sampleEstablishing.machine.run sampleEstablishing.initial lostRun)
    (.sign (.deliver 0 1 0 sampleDraws)) := by
  have hlt : 0 < ((sampleEstablishing.machine.run sampleEstablishing.initial
      lostRun).2 0).sent.length := by
    rw [lostRun_simulates.sent_length]
    decide +kernel
  have hmessage := List.getElem?_eq_getElem hlt
  obtain ⟨content, hcontent, -⟩ := (lostRun_simulates.sent 0).written 0 _ hmessage
  refine ⟨_, rfl, 0, sampleDraws, content, rfl, hmessage.trans (congrArg some hcontent), ?_⟩
  rw [← (lostRun_simulates.follows 1).listening]
  decide +kernel

/-- The promises that are delivered once more are taken into account. -/
theorem promises_kept_sample :
    (∀ i j, i ≠ j → sampleEstablishing.machine.Happens (InSigning (Setting.Arrives i j))
      sampleEstablishing.initial keptRun) ∧
    ∀ j i : Fin 2, ∃ o, ((sampleEstablishing.machine.run sampleEstablishing.initial
      keptRun).2 j).roundReceived 1 i = some o := by
  have hh : ∀ i, sampleEstablishing.setting.honest i = true := fun _ => rfl
  have hsecond : sampleEstablishing.machine.Happens (InSigning (Setting.Arrives 1 0))
      sampleEstablishing.initial lostRun := by
    refine ((run_inv hh lostRun).others 1 0 (by decide)).mp ?_
    rw [lostRun_simulates.has_iff]
    decide +kernel
  have hcases : ∀ i j : Fin 2, i ≠ j → (i = 1 ∧ j = 0) ∨ (i = 0 ∧ j = 1) := by decide
  have hall : ∀ i j, i ≠ j → sampleEstablishing.machine.Happens (InSigning (Setting.Arrives i j))
      sampleEstablishing.initial keptRun := by
    intro i j hij
    rw [keptRun, Machine.happens_concat]
    rcases hcases i j hij with ⟨rfl, rfl⟩ | ⟨rfl, rfl⟩
    · exact Or.inl hsecond
    · exact Or.inr lostRun_arrives
  exact ⟨hall, (promises_kept_iff sampleEstablishing (le_refl 2) hh keptRun).mpr hall⟩

end Establishing

end SXP.Sigma
