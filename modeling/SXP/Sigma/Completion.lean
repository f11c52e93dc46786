import SXP.Sigma.Simulation

/-!
# Optimistic completion

Honest parties that do not refuse, and that nobody has asked Trent for, are the
members of an exchange (`next_simulates`).  So when every message has reached
everybody, all parties are through all rounds, finalized and in possession of
all signatures exactly if every clear signature that arrived and finalized a
contract completed its signatures (`completion_iff`).

The test looks at the first party only, so a signature can finalize a contract
that lacks others, and even a round: `overtaken_stuck` is a run of two parties
in which the first party's signature overtakes its last promise.
-/

namespace SXP.Sigma

open SXP.Lib SXP.Lib.Java

namespace Setting

open Exchange (Member Idle)

variable {n : ℕ} (S : Setting n)

def created (i : Fin n) : Party :=
  Party.created (S.keys i) S.trentK (S.contract i) (S.chooseRound i)

def netEvent : Exchange.Event n Draws → NetEvent n
  | .start j d => .act j (.start d)
  | .deliver i j m d => .deliver i j m d

def exchange : Machine (Fin n → Party) (Exchange.Event n Draws) (Java Unit) where
  step s e := S.machine.step s (netEvent e)

/-- All parties are honest and none refuses a contract that nobody has signed. -/
structure Optimistic : Prop where
  honest : ∀ i, S.honest i = true
  wish : ∀ i, (S.contract i).wish ≠ .refuse
  fresh : ∀ i k, (S.contract i).signatures (S.keys k).getPublicKeys = none

def Delivers (i j : Fin n) (m : ℕ) (s : Fin n → Party) (e : Exchange.Event n Draws) : Prop :=
  (∃ d, e = .deliver i j m d) ∧ m < (s i).sent.length

/-- All parties have sent their first message, and every message that was sent has been
delivered to every party. -/
def Quiescent (es : List (Exchange.Event n Draws)) : Prop :=
  (∀ j, (S.exchange.run S.created es j).phase = .running) ∧
  ∀ i j m, m < (S.exchange.run S.created es i).sent.length →
    S.exchange.Happens (Delivers i j m) S.created es

structure Completed (p : Party) : Prop where
  round : p.round = n + 2
  status : p.contract.status = .finalized
  signed : ∀ k, ∃ s, p.contract.signatures (S.keys k).getPublicKeys = some s ∧
    p.contract.verifiesClear S.platform.hash (S.keys k).getPublicKeys s = .ok true

def Holds (p : Party) (k : Fin n) : Prop :=
  (p.contract.signatures (S.keys k).getPublicKeys).isSome = true

/-- A clear signature of another party that arrives when the first party's is stored, or is
the first party's, is the last one that was missing. -/
def Completing [NeZero n] (s : Fin n → Party) (e : Exchange.Event n Draws) : Prop :=
  ∀ i j d, e = .deliver i j (n + 1) d → n + 1 < (s i).sent.length → i ≠ j →
    (s j).listening = true → (i = 0 ∨ S.Holds (s j) 0) → ∀ k, k = i ∨ S.Holds (s j) k

variable {S}

/-! ### The simulation -/

structure Simulates (S : Setting n) (s : Fin n → Party) (t : Fin n → Member n) : Prop where
  follows : ∀ j, S.Follows j (s j) (t j)
  sent : ∀ j, S.HasSent j (s j) (t j).sent
  idle : ∀ j, Idle j (t j)

theorem created_simulates (hS : S.Optimistic) :
    S.Simulates S.created fun _ => Member.initial where
  follows j := by
    refine ⟨⟨rfl, rfl, rfl, rfl, rfl⟩, hS.wish j, rfl, rfl, ?_, fun _ _ => rfl, ?_, ?_, rfl, rfl⟩
    · show 1 ≤ n + 2
      omega
    · intro k
      rw [show (S.created j).contract.signatures _ = none from hS.fresh j k]
      rfl
    · intro k s hs
      rw [show (S.created j).contract.signatures _ = none from hS.fresh j k] at hs
      exact absurd hs (by simp)
  sent j := ⟨rfl, fun m o h => absurd h (by simp [created, Party.created, Party.initial])⟩
  idle _ := fun _ => ⟨rfl, rfl⟩

theorem Simulates.update {s : Fin n → Party} {t : Fin n → Member n} (h : S.Simulates s t)
    {j : Fin n} {p : Party} {q : Member n} (hfollows : S.Follows j p q)
    (hsent : S.HasSent j p q.sent) (hidle : Idle j q) :
    S.Simulates (Function.update s j p) (Function.update t j q) := by
  have hcases : ∀ (C : Fin n → Party → Member n → Prop), C j p q → (∀ i, C i (s i) (t i)) →
      ∀ i, C i (Function.update s j p i) (Function.update t j q i) := by
    intro C hj hother
    refine (Function.forall_update_iff s fun i p => C i p (Function.update t j q i)).mpr ⟨?_, ?_⟩
    · rwa [Function.update_self]
    · intro i hi
      rw [Function.update_of_ne hi]
      exact hother i
  exact ⟨hcases (fun i p q => S.Follows i p q) hfollows h.follows,
    hcases (fun i p q => S.HasSent i p q.sent) hsent h.sent,
    hcases (fun i _ q => Idle i q) hidle h.idle⟩

variable [NeZero n]

/-- **One step of the parties is one step of the members.** -/
theorem next_simulates (hS : S.Optimistic) (hreg : ∀ j, Registered S.trentK (S.keys j))
    {s : Fin n → Party} {t : Fin n → Member n} (h : S.Simulates s t)
    (e : Exchange.Event n Draws) :
    S.Simulates (S.exchange.next s e) ((Exchange.machine n Draws).next t e) := by
  cases e with
  | start j d =>
    have hlocal : S.localEvent s (.act j (.start d)) = some (j, .start d) := rfl
    rw [Exchange.next_start]
    change S.Simulates (S.machine.next s (.act j (.start d))) _
    rw [next_of_some S hlocal]
    obtain ⟨p', hp', hfollows, hsent⟩ :=
      (h.follows j).exec_start hS.honest (hreg j) d (h.sent j) (h.idle j)
    have hnext : (Party.machine S.platform).next (s j) (.start d) = p' := congrArg Prod.snd hp'
    rw [hnext]
    exact h.update hfollows hsent (h.idle j).start
  | deliver i j m d =>
    change S.Simulates (S.machine.next s (.deliver i j m d)) _
    by_cases hm : m < (t i).sent
    · rw [Exchange.next_deliver hm]
      have hlt : m < (s i).sent.length := by rwa [(h.sent i).length]
      obtain ⟨content, heq, hall⟩ :=
        (h.sent i).written m _ (List.getElem?_eq_getElem hlt)
      have hget := (List.getElem?_eq_getElem hlt).trans (congrArg some heq)
      have hlocal : S.localEvent s (.deliver i j m d) = some (j,
          .receive (.ofContent (m + 1 : ℕ) content) (S.keys i).publicKey d) := by
        simp only [localEvent, hget]
      obtain ⟨payload, hentry, hsound⟩ := hall j
      obtain ⟨p', hp', hfollows, hsent⟩ := (h.follows j).exec_receive hS.honest (hreg j) d
        (h.sent j) (h.idle j) hentry hsound
      have hnext : (Party.machine S.platform).next (s j)
          (.receive (.ofContent (m + 1 : ℕ) content) (S.keys i).publicKey d) = p' :=
        congrArg Prod.snd hp'
      rw [next_of_some S hlocal, hnext]
      exact h.update hfollows hsent ((h.idle j).receive i (m + 1))
    · rw [Exchange.next_unsent hm]
      have hget : (s i).sent[m]? = none := by
        rw [List.getElem?_eq_none_iff, (h.sent i).length]
        exact not_lt.mp hm
      have hlocal : S.localEvent s (.deliver i j m d) = none := by
        simp only [localEvent, hget]
      rw [next_of_none S hlocal]
      exact h

theorem run_simulates (hS : S.Optimistic) (hreg : ∀ j, Registered S.trentK (S.keys j))
    (es : List (Exchange.Event n Draws)) : S.Simulates (S.exchange.run S.created es)
      ((Exchange.machine n Draws).run (fun _ => Member.initial) es) :=
  S.exchange.run_simulation _ (created_simulates hS)
    (fun _ _ e h => next_simulates hS hreg h e) es

omit [NeZero n] in
theorem Simulates.sent_length {s : Fin n → Party} {t : Fin n → Member n} (h : S.Simulates s t)
    (i : Fin n) : (s i).sent.length = (t i).sent := (h.sent i).length

omit [NeZero n] in
theorem Simulates.holds_iff {s : Fin n → Party} {t : Fin n → Member n} (h : S.Simulates s t)
    {j k : Fin n} : S.Holds (s j) k ↔ (t j).signed k = true := by
  rw [Holds, (h.follows j).signed k]

theorem Simulates.completing_iff {s : Fin n → Party} {t : Fin n → Member n} (h : S.Simulates s t)
    (e : Exchange.Event n Draws) : S.Completing s e ↔ Exchange.Good t e := by
  unfold Completing Exchange.Good Exchange.Completing
  simp only [h.sent_length, h.holds_iff, ← (h.follows _).listening]
  constructor
  · intro hs i j m d he hm hij hr
    obtain rfl : m = n + 1 := by omega
    exact hs i j d he hm hij
  · intro ht i j d he hm hij
    exact ht i j (n + 1) d he hm hij rfl

omit [NeZero n] in
theorem Simulates.completed_iff {s : Fin n → Party} {t : Fin n → Member n} (h : S.Simulates s t)
    (j : Fin n) : S.Completed (s j) ↔ Exchange.Completed (t j) := by
  have hj := h.follows j
  constructor
  · intro hs
    refine ⟨?_, ?_, fun k => ?_⟩
    · have hr := hs.round
      rw [hj.round] at hr
      omega
    · by_contra hf
      have hst := hs.status
      rw [hj.status, if_neg hf] at hst
      exact absurd hst (by decide)
    · obtain ⟨sign, hsign, -⟩ := hs.signed k
      rw [hj.signed k, hsign]
      rfl
  · intro ht
    refine ⟨?_, ?_, fun k => ?_⟩
    · rw [hj.round, ht.round]
      rfl
    · rw [hj.status, if_pos ht.finalized]
    · obtain ⟨sign, hsign⟩ := Option.isSome_iff_exists.mp ((hj.signed k).symm.trans (ht.signed k))
      refine ⟨sign, hsign, ?_⟩
      rw [SigmaContract.verifiesClear, SigmaContract.clearData_eq, hashableData_of_same hj.same k]
      refine hj.genuine k sign hsign _ ⟨?_, ?_⟩
      · rintro r ⟨⟩
        rfl
      · intro r hr
        have htrent : (s j).contract.trentK = some S.trentK := hj.same.contractTrentK
        rw [← Option.some.inj (htrent.symm.trans hr)]

theorem quiescent_iff (hS : S.Optimistic) (hreg : ∀ j, Registered S.trentK (S.keys j))
    (es : List (Exchange.Event n Draws)) : S.Quiescent es ↔ Exchange.Quiescent es := by
  have h := run_simulates hS hreg es
  have hhappens : ∀ i j m, S.exchange.Happens (Delivers i j m) S.created es ↔
      Exchange.Delivered es i j m := by
    intro i j m
    refine S.exchange.happens_simulation _ (created_simulates hS)
      (fun _ _ e h => next_simulates hS hreg h e) (fun s t e h => ?_) es
    rw [Delivers, Exchange.Delivers, h.sent_length]
  unfold Quiescent Exchange.Quiescent
  simp only [h.sent_length, hhappens]
  refine and_congr_left fun _ => forall_congr' fun j => ?_
  rw [(h.follows j).phase]
  cases ((Exchange.machine n Draws).run (fun _ => Member.initial) es j).started <;> simp

/-! ### Parties that cannot make a promise -/

omit [NeZero n]

structure Barren (j : Fin n) (p : Party) : Prop where
  round : p.round ≤ 1
  none : ∀ k, p.roundReceived k j = none

theorem writes_barren {j : Fin n} {p p' : Party} (hj : S.honest j = true)
    (hreg : ¬ Registered S.trentK (S.keys j)) (hsame : Party.Same (S.initial j) p)
    (hw : Party.Writes S.platform (fun _ i => i ≠ j.val) p p') (hp : Barren j p) : Barren j p' := by
  have hset : ∀ (k : ℤ) (i : ℕ) (o : OrClause), i ≠ j.val → Barren j (p.setPromise k i o) := by
    intro k i o hi
    refine ⟨hp.round, fun k' => ?_⟩
    exact (if_neg fun h => hi h.2.symm).trans (hp.none k')
  cases hw with
  | create => exact ⟨le_refl _, fun _ => rfl⟩
  | promise k i o horigin => exact hset k i o horigin
  | own i k nonce d o hi hk ho =>
    -- only the party's own key is equal to it, and no promise can be made with it
    obtain ⟨i', rfl, rfl⟩ := (getElem?_of_same hsame).mp hi
    have hkey : p.key = S.keys j := hsame.key
    have htrent : p.trentK = S.trentK := hsame.trentK
    rw [hkey, htrent] at ho
    exact absurd (registered_of_getPcs (S.valid j hj) S.trent ho) hreg
  | next hsigns hr hc =>
    obtain ⟨o, ho⟩ := (Party.claimFormed_iff hr).mp hc j.val (by rw [N_of_same hsame]; exact j.isLt)
    rw [hp.none] at ho
    exact absurd ho (by simp)
  | _ => exact ⟨hp.round, hp.none⟩

structure StaysBarren (S : Setting n) (j : Fin n) (p : Party) : Prop where
  same : Party.Same (S.initial j) p
  ready : p.Ready
  barren : Barren j p

theorem next_barren {j : Fin n} (hj : S.honest j = true) (hreg : ¬ Registered S.trentK (S.keys j))
    {s : Fin n → Party} (h : S.StaysBarren j (s j)) (e : NetEvent n) :
    S.StaysBarren j (S.machine.next s e j) := by
  cases hlocal : S.localEvent s e with
  | none => rwa [next_of_none S hlocal]
  | some je =>
    obtain ⟨j', e'⟩ := je
    rw [next_of_some S hlocal]
    by_cases hjj : j = j'
    · subst hjj
      rw [Function.update_self]
      have hbrings : Party.Brings (fun _ i => i ≠ j.val) (s j) e' := by
        rintro message senderId d rfl k i - hi hne rfl
        obtain ⟨i', hi', rfl⟩ := (indexOf_of_same h.same).mp hi
        rw [Fin.ext hi'] at hne
        exact hne (congrArg _ h.same.key.symm)
      have hchain := Party.handle_writes (P := S.platform) h.ready e' hbrings
      exact hchain.keeps (fun hw hp => ⟨hp.same.trans hw.same, hw.ready hp.ready,
        writes_barren hj hreg hp.same hw hp.barren⟩) h
    · rw [Function.update_of_ne hjj]
      exact h

/-- A party that is completed has made a promise, so its identity can be encrypted. -/
theorem registered_of_completed {j : Fin n} (hj : S.honest j = true)
    (es : List (Exchange.Event n Draws)) (h : S.Completed (S.exchange.run S.created es j)) :
    Registered S.trentK (S.keys j) := by
  by_contra hreg
  have hbarren := S.exchange.invariant (I := fun s => S.StaysBarren j (s j)) (s := S.created)
    ⟨⟨rfl, rfl, rfl, rfl, rfl⟩, fun _ => rfl, le_refl _, fun _ => rfl⟩
    (fun s e h => next_barren hj hreg h (netEvent e)) es
  have hle := hbarren.barren.round
  rw [h.round] at hle
  omega

/-! ### Completion -/

/-- **The parties complete the contract in exactly the runs in which every signature that
finalizes completes**, if they can encrypt their identities at all. -/
theorem completion_iff [NeZero n] (S : Setting n) (hS : S.Optimistic)
    {es : List (Exchange.Event n Draws)} (hq : S.Quiescent es) :
    (∀ j, S.Completed (S.exchange.run S.created es j)) ↔
      (∀ j, Registered S.trentK (S.keys j)) ∧
        S.exchange.Along (fun _ => S.Completing) S.created es := by
  have hiff : (∀ j, Registered S.trentK (S.keys j)) →
      ((∀ j, S.Completed (S.exchange.run S.created es j)) ↔
        S.exchange.Along (fun _ => S.Completing) S.created es) := by
    intro hreg
    have h := run_simulates hS hreg es
    have halong := S.exchange.along_simulation (Exchange.machine n Draws) (created_simulates hS)
      (fun _ _ e h => next_simulates hS hreg h e) (fun _ _ e h => h.completing_iff e) es
    rw [halong, ← Exchange.completed_iff ((quiescent_iff hS hreg es).mp hq)]
    exact forall_congr' h.completed_iff
  constructor
  · intro h
    have hreg : ∀ j, Registered S.trentK (S.keys j) :=
      fun j => registered_of_completed (hS.honest j) es (h j)
    exact ⟨hreg, (hiff hreg).mp h⟩
  · rintro ⟨hreg, h⟩
    exact (hiff hreg).mpr h

/-! ### Two parties -/

theorem sampleKey_large : ∀ i : Fin 2, 10 ^ 124 ≤ (sampleKey (1000 + i.val)).publicKey := by
  decide +kernel

def sampleSetting : Setting 2 where
  platform := samplePlatform
  keys i := sampleKey (1000 + i.val)
  trentK := (sampleKey 1002).getPublicKeys
  contract _ := SigmaContract.sampleContract
  chooseRound _ := 2
  honest _ := true
  parties _ := by simp [SigmaContract.sampleContract]
  clauses _ _ := rfl
  distinct := by decide +kernel
  trent := sampleKey_valid 1002
  valid i _ := (sampleKey_registered 1002 (sampleKey_large i)).party
  owned _ _ := sampleKey_owned _

theorem sampleSetting_optimistic : sampleSetting.Optimistic where
  honest _ := rfl
  wish _ := show Wish.accept ≠ .refuse by decide
  fresh _ _ := rfl

theorem sampleSetting_registered (j : Fin 2) :
    Registered sampleSetting.trentK (sampleSetting.keys j) :=
  sampleKey_registered 1002 (sampleKey_large j)

def sampleDraws : Draws :=
  ⟨fun _ _ => (7, 8, ⟨1, 2, 3, 4, 5, 6⟩), (7, 8, ⟨1, 2, 3, 4, 5, 6⟩)⟩

def sampleDeliver (i j : Fin 2) (m : ℕ) : Exchange.Event 2 Draws := .deliver i j m sampleDraws

/-- The first party has sent all its messages, and the second has three of its own and two
of these. -/
def sampleStart : List (Exchange.Event 2 Draws) :=
  [.start 0 sampleDraws, .start 1 sampleDraws, sampleDeliver 0 1 0, sampleDeliver 1 0 0,
    sampleDeliver 1 0 1, sampleDeliver 0 1 1, sampleDeliver 1 0 2]

def sampleEchoes : List (Exchange.Event 2 Draws) :=
  (List.range 4).flatMap fun m => [sampleDeliver 0 0 m, sampleDeliver 1 1 m]

def sampleRun : List (Exchange.Event 2 Draws) :=
  sampleStart ++ [sampleDeliver 0 1 2, sampleDeliver 0 1 3, sampleDeliver 1 0 3] ++ sampleEchoes

/-- The first party's signature arrives before its last promise. -/
def overtaken : List (Exchange.Event 2 Draws) :=
  sampleStart ++ [sampleDeliver 0 1 3, sampleDeliver 0 1 2] ++ sampleEchoes

theorem completion_sample : sampleSetting.Optimistic ∧ sampleSetting.Quiescent sampleRun ∧
    (∀ j, sampleSetting.Completed (sampleSetting.exchange.run sampleSetting.created sampleRun j)) ∧
    sampleSetting.exchange.Along (fun _ => sampleSetting.Completing) sampleSetting.created
      sampleRun := by
  have hS := sampleSetting_optimistic
  have hq : sampleSetting.Quiescent sampleRun :=
    (quiescent_iff hS sampleSetting_registered sampleRun).mpr (by decide +kernel)
  have hcompleted : ∀ j, sampleSetting.Completed
      (sampleSetting.exchange.run sampleSetting.created sampleRun j) := by
    intro j
    refine ((run_simulates hS sampleSetting_registered sampleRun).completed_iff j).mpr ⟨?_, ?_, ?_⟩
    · revert j
      decide +kernel
    · revert j
      decide +kernel
    · revert j
      decide +kernel
  exact ⟨hS, hq, hcompleted, ((completion_iff sampleSetting hS hq).mp hcompleted).2⟩

/-- **A signature overtakes a promise**: every message has been delivered, but the second
party stays in the third round, finalized without its own signature. -/
theorem overtaken_stuck : sampleSetting.Optimistic ∧ sampleSetting.Quiescent overtaken ∧
    (sampleSetting.exchange.run sampleSetting.created overtaken 1).round = 3 ∧
    (sampleSetting.exchange.run sampleSetting.created overtaken 1).contract.status = .finalized ∧
    ¬ sampleSetting.Holds (sampleSetting.exchange.run sampleSetting.created overtaken 1) 1 ∧
    ¬ ∀ j, sampleSetting.Completed
      (sampleSetting.exchange.run sampleSetting.created overtaken j) := by
  have hS := sampleSetting_optimistic
  have h := run_simulates hS sampleSetting_registered overtaken
  have hround : (sampleSetting.exchange.run sampleSetting.created overtaken 1).round = 3 := by
    rw [(h.follows 1).round]
    exact congrArg Int.ofNat (show _ = 3 by decide +kernel)
  refine ⟨hS, (quiescent_iff hS sampleSetting_registered overtaken).mpr (by decide +kernel), hround,
    ?_, ?_, ?_⟩
  · rw [(h.follows 1).status]
    exact if_pos (by decide +kernel)
  · rw [h.holds_iff]
    decide +kernel
  · intro hall
    have hlast := (hall 1).round
    rw [hround] at hlast
    exact absurd hlast (by decide)

end Setting

end SXP.Sigma
