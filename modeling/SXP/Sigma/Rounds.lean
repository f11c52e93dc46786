import SXP.Sigma.Network

/-!
# Round discipline

A party enters a round when it has the promises of all parties for the round
before, and a promise of an honest party says that this party has come to its
round.  So the rounds of honest parties stay together, whatever is delivered,
lost, delayed or repeated, and the round that a resolve request claims, which
is the last one its sender has all promises of, is one of the three rounds that
any other honest party tries when Trent answers (`round_discipline`).
-/

namespace SXP.Sigma

open SXP.Lib SXP.Lib.Java Relation

namespace Party

variable {P : Platform} {origin : ℤ → ℕ → Prop} {p p' : Party}

/-! ### One party -/

/-- What a promise of the party to itself verifies on. -/
def OwnPromises (P : Platform) (p : Party) : Prop :=
  ∀ (i : ℕ) (k : ElGamalKey) (m : List UInt8) (nonce : ℤ) (d : PCS.Draws) (o : OrClause),
    p.contract.parties[i]? = some k → k.publicKey = p.key.publicKey →
    PCS.getPcs P.hash p.key p.trentK m k nonce d = .ok o → o.verifies P.hash m = .ok true

theorem Same.ownPromises (h : Same p p') (hp : p.OwnPromises P) : p'.OwnPromises P := by
  intro i k m nonce d o hi hk ho
  rw [h.parties] at hi
  rw [h.key] at hk ho
  rw [h.trentK] at ho
  exact hp i k m nonce d o hi hk ho

/-- **The rounds of one party**: it is not yet in the signing step, or it has all
promises of the rounds before its own; its messages are of rounds up to its own, and once
it has sent a request it stays in the round it has claimed. -/
structure RoundInv (P : Platform) (p : Party) : Prop where
  outside : p.signs = false → p.round = 0 ∧ p.sent = []
  inside : p.signs = true → 1 ≤ p.round
  formed : ∀ j : ℤ, 1 ≤ j → j < p.round → ∀ i < p.N, ∃ o, p.roundReceived j i = some o
  verified : ∀ j i o, p.roundReceived j i = some o →
    o.verifies P.hash (p.contract.roundData j) = .ok true
  signing : ∀ round content, Outgoing.signing round content ∈ p.sent → round ≤ p.round
  request : ∀ c text s, Outgoing.request c text s ∈ p.sent → c = p.round - 1 ∧ p.Halted

theorem initial_roundInv (key trentK : ElGamalKey) (c : SigmaContract) (chooseRound : ℤ) :
    RoundInv P (initial key trentK c chooseRound) where
  outside _ := ⟨rfl, rfl⟩
  inside h := absurd h (by simp [Party.signs, initial])
  formed j h1 hj := absurd hj (by simp [initial]; omega)
  verified j i o h := absurd h (by simp [initial])
  signing round content h := absurd h (by simp [initial])
  request c text s h := absurd h (by simp [initial])

theorem setPromise_mono {j k : ℤ} {i i' : ℕ} {o o' : OrClause}
    (h : p.roundReceived j i = some o) :
    ∃ o, (p.setPromise k i' o').roundReceived j i = some o := by
  unfold setPromise
  by_cases hk : j = k ∧ i = i'
  · exact ⟨o', if_pos hk⟩
  · exact ⟨o, (if_neg hk).trans h⟩

/-- A promise that is there after one was stored is the one that was stored or was there
before. -/
theorem setPromise_cases {j k : ℤ} {i i' : ℕ} {o o' : OrClause}
    (h : (p.setPromise k i' o').roundReceived j i = some o) :
    (j = k ∧ i = i' ∧ o = o') ∨ p.roundReceived j i = some o := by
  unfold setPromise at h
  by_cases hk : j = k ∧ i = i'
  · have ho := (if_pos hk).symm.trans h
    exact Or.inl ⟨hk.1, hk.2, (Option.some.inj ho).symm⟩
  · exact Or.inr ((if_neg hk).symm.trans h)

theorem RoundInv.setPromise (hp : RoundInv P p) {k : ℤ} {i : ℕ} {o : OrClause}
    (hv : o.verifies P.hash (p.contract.roundData k) = .ok true) :
    RoundInv P (p.setPromise k i o) where
  outside := hp.outside
  inside := hp.inside
  formed j h1 hj i' hi' := by
    obtain ⟨o', ho'⟩ := hp.formed j h1 hj i' hi'
    exact setPromise_mono ho'
  verified j i' o' ho' := by
    rcases setPromise_cases ho' with ⟨rfl, rfl, rfl⟩ | h
    · exact hv
    · exact hp.verified j i' o' h
  signing := hp.signing
  request c text s h :=
    ⟨(hp.request c text s h).1, (hp.request c text s h).2.phase, (hp.request c text s h).2.status⟩

theorem RoundInv.of_eq (hp : RoundInv P p) (hsame : Same p p') (hsigns : p'.signs = p.signs)
    (hround : p'.round = p.round) (hreceived : p'.roundReceived = p.roundReceived)
    (hsent : p'.sent = p.sent) (hhalted : p.Halted → p'.Halted) : RoundInv P p' where
  outside := by rw [hsigns, hround, hsent]; exact hp.outside
  inside := by rw [hsigns, hround]; exact hp.inside
  formed := by rw [hround, hreceived, hsame.N]; exact hp.formed
  verified := by
    rw [hreceived]
    intro j i o h
    rw [hsame.roundData]
    exact hp.verified j i o h
  signing := by rw [hsent, hround]; exact hp.signing
  request := by
    rw [hsent, hround]
    intro c text s h
    exact ⟨(hp.request c text s h).1, hhalted (hp.request c text s h).2⟩

/-- A message of the current round, or a request of a party that has halted, can be sent. -/
theorem RoundInv.send (hp : RoundInv P p) (hsigns : p.signs = true) {m : Outgoing}
    (hsigning : ∀ round content, m = .signing round content → round ≤ p.round)
    (hrequest : ∀ c text s, m = .request c text s → c = p.round - 1 ∧ p.Halted) :
    RoundInv P (p.send m) where
  outside h := absurd (hsigns.symm.trans h) (by decide)
  inside := hp.inside
  formed := hp.formed
  verified := hp.verified
  signing round content hmem := by
    rcases List.mem_append.mp hmem with hmem | hmem
    · exact hp.signing round content hmem
    · exact hsigning round content (List.mem_singleton.mp hmem).symm
  request c text s hmem := by
    have hsend : c = p.round - 1 ∧ p.Halted := by
      rcases List.mem_append.mp hmem with hmem | hmem
      · exact hp.request c text s hmem
      · exact hrequest c text s (List.mem_singleton.mp hmem).symm
    exact ⟨hsend.1, hsend.2.phase, hsend.2.status⟩

/-- The round moves on once its claim is formed; no request was sent while the party is
signing. -/
theorem RoundInv.step (hp : RoundInv P p) (hsigns : p.signs = true) (hr : p.round ≤ p.N + 1)
    (hc : p.claimFormed = true) (hst : p.contract.status = .signing) :
    RoundInv P { p with round := p.round + 1 } where
  outside h := absurd (hsigns.symm.trans h) (by decide)
  inside _ := (hp.inside hsigns).trans (lt_add_one p.round).le
  formed j h1 hj i hi := by
    by_cases hlt : j < p.round
    · exact hp.formed j h1 hlt i hi
    · obtain rfl : j = p.round := le_antisymm (Int.lt_add_one_iff.mp hj) (not_lt.mp hlt)
      exact (claimFormed_iff hr).mp hc i hi
  verified := hp.verified
  signing round content hmem := (hp.signing round content hmem).trans (lt_add_one p.round).le
  request c text s hmem := absurd hst (hp.request c text s hmem).2.status

/-- **One write keeps the invariant.** -/
theorem Writes.roundInv (h : Writes P origin p p') (hown : p.OwnPromises P) (hp : RoundInv P p) :
    RoundInv P p' := by
  have hsame := h.same
  have hhalted := h.halted
  cases h with
  | listen h =>
    have hsigns : p.signs = false := by rw [Party.signs, h]; rfl
    obtain ⟨hround, hsent⟩ := hp.outside hsigns
    exact ⟨fun _ => ⟨hround, hsent⟩, fun h => absurd h (by simp [Party.signs]), hp.formed,
      hp.verified, hp.signing, fun c text s h => absurd h (by simp [hsent, setStatus, setContract])⟩
  | create h =>
    have hsigns : p.signs = false := by rw [Party.signs, h]; rfl
    obtain ⟨-, hsent⟩ := hp.outside hsigns
    refine ⟨fun h => absurd h (by simp [Party.signs]), fun _ => le_refl _, ?_, ?_, ?_, ?_⟩
    · intro j h1 hj
      exact absurd hj (by simp; omega)
    · intro j i o h
      exact absurd h (by simp)
    · intro round content h
      exact absurd h (by simp [hsent])
    · intro c text s h
      exact absurd h (by simp [hsent])
  | start h =>
    have hsigns : p.signs = true := by rw [Party.signs, h]; rfl
    exact hp.of_eq hsame hsigns.symm rfl rfl rfl hhalted
  | promise k i o _ _ hv => exact hp.setPromise hv
  | own i k nonce d o hi hk ho => exact hp.setPromise (hown i k _ nonce d o hi hk ho)
  | signing content h =>
    refine hp.send h ?_ (fun c text s h => absurd h (by simp))
    intro round content' h
    obtain ⟨rfl, -⟩ := Outgoing.signing.inj h
    exact le_refl _
  | request text s h hst =>
    have hphase : p.phase ≠ .choosing := by
      intro hphase
      rw [Party.signs, hphase] at h
      exact absurd h (by decide)
    refine hp.send h (fun round content h => absurd h (by simp)) ?_
    rintro c text' s' h
    obtain ⟨rfl, -, -⟩ := Outgoing.request.inj h
    exact ⟨rfl, hphase, by rw [hst]; decide⟩
  | next hsigns hr hc hst => exact hp.step hsigns hr hc hst
  | _ => exact hp.of_eq hsame rfl rfl rfl rfl hhalted

theorem Writes.round_le (h : Writes P origin p p') (hp : RoundInv P p) : p.round ≤ p'.round := by
  cases h with
  | create h =>
    have hsigns : p.signs = false := by rw [Party.signs, h]; rfl
    rw [(hp.outside hsigns).1]
    exact Int.zero_le_ofNat 1
  | next => exact (lt_add_one p.round).le
  | _ => exact le_refl _

theorem Evolves.roundInv (h : Evolves P origin p p') (hown : p.OwnPromises P) (hp : RoundInv P p) :
    RoundInv P p' :=
  have hstep : ∀ {p p'}, Writes P origin p p' → p.OwnPromises P ∧ RoundInv P p →
      p'.OwnPromises P ∧ RoundInv P p' :=
    fun hw ⟨hown, hp⟩ => ⟨hw.same.ownPromises hown, hw.roundInv hown hp⟩
  (h.keeps hstep ⟨hown, hp⟩).2

theorem Evolves.round_le (h : Evolves P origin p p') (hown : p.OwnPromises P) (hp : RoundInv P p) :
    p.round ≤ p'.round := by
  induction h with
  | refl => exact le_refl _
  | tail hchain hw ih => exact ih.trans (hw.round_le (Evolves.roundInv hchain hown hp))

/-- Every promise that is there was there before, came with a message, or is the party's
own. -/
theorem Evolves.received (h : Evolves P origin p p') (hown : p.OwnPromises P) (hp : RoundInv P p)
    {k : ℤ} {i : ℕ} {o : OrClause} (ho : p'.roundReceived k i = some o) :
    (∃ o, p.roundReceived k i = some o) ∨ origin k i ∨
      (k ≤ p'.round ∧ ∃ key, p.contract.parties[i]? = some key ∧ key.publicKey = p.key.publicKey) := by
  induction h generalizing o with
  | refl => exact Or.inl ⟨o, ho⟩
  | @tail q q' hchain hw ih =>
    have hle := hw.round_le (Evolves.roundInv hchain hown hp)
    have hsame := Evolves.same hchain
    have hold : ∀ o, q.roundReceived k i = some o →
        (∃ o, p.roundReceived k i = some o) ∨ origin k i ∨ (k ≤ q'.round ∧
          ∃ key, p.contract.parties[i]? = some key ∧ key.publicKey = p.key.publicKey) := by
      intro o ho
      rcases ih ho with h | h | ⟨h, hkey⟩
      · exact Or.inl h
      · exact Or.inr (Or.inl h)
      · exact Or.inr (Or.inr ⟨h.trans hle, hkey⟩)
    cases hw with
    | create => exact absurd ho (by simp)
    | promise k' i' o' horigin =>
      rcases setPromise_cases ho with ⟨rfl, rfl, rfl⟩ | h
      · exact Or.inr (Or.inl horigin)
      · exact hold o h
    | own i' key nonce d o' hi hk =>
      rcases setPromise_cases ho with ⟨rfl, rfl, rfl⟩ | h
      · rw [hsame.parties] at hi
        rw [hsame.key] at hk
        exact Or.inr (Or.inr ⟨le_refl _, key, hi, hk⟩)
      · exact hold o h
    | _ => exact hold o ho

end Party

namespace Setting

variable {n : ℕ} {S : Setting n}

open Party

/-! ### All parties -/

def Known (S : Setting n) (s : Fin n → Party) (k : ℤ) (i : ℕ) : Prop :=
  ∀ i' : Fin n, i'.val = i → S.honest i' = true → k ≤ (s i').round

theorem Known.mono {s s' : Fin n → Party} (h : ∀ i, S.honest i = true → (s i).round ≤ (s' i).round)
    {k : ℤ} {i : ℕ} (hk : S.Known s k i) : S.Known s' k i :=
  fun i' hi hh => (hk i' hi hh).trans (h i' hh)

structure NetInv (S : Setting n) (s : Fin n → Party) : Prop where
  same : ∀ j, Same (S.initial j) (s j)
  ready : ∀ j, (s j).Ready
  rounds : ∀ j, S.honest j = true → RoundInv S.platform (s j)
  known : ∀ j, S.honest j = true → ∀ k i o, (s j).roundReceived k i = some o → S.Known s k i

theorem getPcs_verifies {p : Party} {j k : Fin n} (hj : S.honest j = true) (hk : S.honest k = true)
    (hsame : Same (S.initial j) p) {m : List UInt8} {nonce : ℤ} {d : PCS.Draws} {o : OrClause}
    (ho : PCS.getPcs S.platform.hash p.key p.trentK m (S.keys k).getPublicKeys nonce d = .ok o) :
    o.verifies S.platform.hash m = .ok true := by
  have hkey : p.key = S.keys j := hsame.key
  have htrent : p.trentK = S.trentK := hsame.trentK
  rw [hkey, htrent] at ho
  have : Fact S.trentK.p.toNat.Prime := ⟨S.trent.prime⟩
  obtain ⟨o', res, ho', hpromise, -⟩ := getPcs_isPromise S.platform.hash
    (registered_of_getPcs (S.valid j hj) S.trent ho) (S.owned j hj)
    (S.valid k hk).getPublicKeys m nonce d
  obtain rfl := Except.ok.inj (ho.symm.trans ho')
  exact hpromise.verifies

theorem ownPromises {p : Party} {j : Fin n} (hj : S.honest j = true)
    (h : Same (S.initial j) p) : p.OwnPromises S.platform := by
  intro i k m nonce d o hi hk ho
  obtain ⟨j', -, rfl⟩ := (getElem?_of_same h).mp hi
  have hkey : p.key = S.keys j := h.key
  rw [hkey] at hk
  obtain rfl : j' = j := S.distinct hk
  exact getPcs_verifies hj hj h ho

/-- What a network event brings is known: an honest sender has come to the round of its
message, and the others are not honest. -/
theorem brings {s : Fin n → Party} (hs : NetInv S s) {e : NetEvent n} {j : Fin n} {e' : Event}
    (h : S.localEvent s e = some (j, e')) : Brings (S.Known s) (s j) e' := by
  rintro message senderId d rfl k i hk hi - i' hi' hh
  cases e with
  | act j' e =>
    cases e with
    | receive message' senderId' d' =>
      simp only [localEvent] at h
      by_cases hf : S.Foreign senderId'
      · rw [if_pos hf, Option.some.injEq, Prod.mk.injEq, Event.receive.injEq] at h
        obtain ⟨rfl, rfl, rfl, rfl⟩ := h
        obtain ⟨i'', hi'', hkey⟩ := (indexOf_of_same (hs.same j')).mp hi
        obtain rfl : i'' = i' := Fin.ext (hi''.trans hi'.symm)
        exact absurd hkey (hf i'' hh)
      · rw [if_neg hf] at h
        exact absurd h (by simp)
    | _ => simp [localEvent] at h
  | deliver i₀ j' m d' =>
    simp only [localEvent] at h
    rcases hm : (s i₀).sent[m]? with _ | ⟨round, content⟩ | _
    · simp [hm] at h
    · simp only [hm, Option.some.injEq, Prod.mk.injEq, Event.receive.injEq] at h
      obtain ⟨rfl, rfl, rfl, rfl⟩ := h
      obtain ⟨i'', hi'', hkey⟩ := (indexOf_of_same (hs.same j')).mp hi
      obtain rfl : i'' = i' := Fin.ext (hi''.trans hi'.symm)
      obtain rfl : i'' = i₀ := S.distinct hkey
      obtain rfl : round = k := Except.ok.inj hk
      exact (hs.rounds i'' hh).signing round content (List.mem_of_getElem? hm)
    · simp [hm] at h

theorem initial_netInv : NetInv S S.initial where
  same _ := ⟨rfl, rfl, rfl, rfl, rfl⟩
  ready j hl := absurd hl (by simp [initial, Party.initial])
  rounds j _ := initial_roundInv _ _ _ _
  known j _ k i o h := absurd h (by simp [initial, Party.initial])

/-- **One event of the network keeps the invariant.** -/
theorem next_netInv {s : Fin n → Party} (hs : NetInv S s) (e : NetEvent n) :
    NetInv S (S.machine.next s e) := by
  cases h : S.localEvent s e with
  | none => rwa [next_of_none S h]
  | some je =>
    obtain ⟨j, e'⟩ := je
    rw [next_of_some S h]
    have hchain := handle_writes (P := S.platform) (hs.ready j) e' (brings hs h)
    generalize (Party.machine S.platform).next (s j) e' = p' at hchain
    have hmono : ∀ i, S.honest i = true → (s i).round ≤ (Function.update s j p' i).round :=
      (Function.forall_update_iff s fun i p => S.honest i = true → (s i).round ≤ p.round).mpr
        ⟨fun hj => hchain.round_le (ownPromises hj (hs.same j)) (hs.rounds j hj),
          fun _ _ _ => le_refl _⟩
    refine ⟨?_, ?_, ?_, ?_⟩
    · exact (Function.forall_update_iff s fun i p => Same (S.initial i) p).mpr
        ⟨(hs.same j).trans hchain.same, fun i _ => hs.same i⟩
    · exact (Function.forall_update_iff s fun _ p => p.Ready).mpr
        ⟨hchain.ready (hs.ready j), fun i _ => hs.ready i⟩
    · exact (Function.forall_update_iff s fun i p => S.honest i = true → RoundInv S.platform p).mpr
        ⟨fun hj => hchain.roundInv (ownPromises hj (hs.same j)) (hs.rounds j hj),
          fun i _ => hs.rounds i⟩
    · refine (Function.forall_update_iff s fun i p => S.honest i = true → ∀ k i' o,
        p.roundReceived k i' = some o → S.Known (Function.update s j p') k i').mpr ⟨?_, ?_⟩
      · intro hj k i' o ho
        have hown := ownPromises hj (hs.same j)
        rcases hchain.received hown (hs.rounds j hj) ho with ⟨o', ho'⟩ | hk | ⟨hk, key, hkey, hpk⟩
        · exact (hs.known j hj k i' o' ho').mono hmono
        · exact hk.mono hmono
        · -- the party's own promises are of rounds up to its own
          intro i'' hi'' _
          obtain ⟨j', hj', rfl⟩ := (getElem?_of_same (hs.same j)).mp hkey
          have hsame : j' = j := S.distinct (hpk.trans (congrArg _ (hs.same j).key))
          obtain rfl : i'' = j := (Fin.ext (hi''.trans hj'.symm)).trans hsame
          rw [Function.update_self]
          exact hk
      · intro i _ hi k i' o ho
        exact (hs.known i hi k i' o ho).mono hmono

theorem run_netInv (es : List (NetEvent n)) : NetInv S (S.machine.run S.initial es) :=
  S.machine.invariant initial_netInv (fun _ e hs => next_netInv hs e) es

/-- **Honest parties are in rounds that differ by at most one.** -/
theorem NetInv.round_le {s : Fin n → Party} (hs : NetInv S s) {i j : Fin n} (hi : S.honest i = true)
    (hj : S.honest j = true) : (s i).round ≤ (s j).round + 1 := by
  have hpos : 0 ≤ (s j).round := by
    cases hsigns : (s j).signs with
    | false => exact (hs.rounds j hj).outside hsigns |>.1.symm.le
    | true => exact le_of_lt ((hs.rounds j hj).inside hsigns)
  by_cases hr : (s i).round ≤ 1
  · omega
  · -- the promise of `j` for the round before is there, so `j` has come to this round
    obtain ⟨o, ho⟩ := (hs.rounds i hi).formed ((s i).round - 1) (by omega) (by omega) j.val
      (by rw [N_of_same (hs.same i)]; exact j.isLt)
    have hle := hs.known i hi _ _ o ho j rfl hj
    omega

/-- **Round discipline.** -/
theorem round_discipline (S : Setting n) (es : List (NetEvent n)) :
    (∀ i, S.honest i = true → ∀ j : ℤ, 1 ≤ j → j < (S.machine.run S.initial es i).round →
      ∀ k : Fin n, ∃ o, (S.machine.run S.initial es i).roundReceived j k = some o ∧
        o.verifies S.platform.hash ((S.machine.run S.initial es i).contract.roundData j)
          = .ok true) ∧
    (∀ i j, S.honest i = true → S.honest j = true →
      (S.machine.run S.initial es i).round ≤ (S.machine.run S.initial es j).round + 1) ∧
    (∀ i j, S.honest i = true → S.honest j = true → ∀ c text sign,
      Outgoing.request c text sign ∈ (S.machine.run S.initial es i).sent →
      c = (S.machine.run S.initial es i).round - 1 ∧
      (1 ≤ (S.machine.run S.initial es j).round →
        (S.machine.run S.initial es j).round - 2 ≤ c ∧ c ≤ (S.machine.run S.initial es j).round ∧
        c ∈ [(S.machine.run S.initial es j).getRound, (S.machine.run S.initial es j).getRound - 1,
          (S.machine.run S.initial es j).getRound - 2])) := by
  have hs := run_netInv (S := S) es
  generalize S.machine.run S.initial es = s at hs ⊢
  refine ⟨?_, fun i j hi hj => hs.round_le hi hj, ?_⟩
  · intro i hi j h1 hj k
    obtain ⟨o, ho⟩ := (hs.rounds i hi).formed j h1 hj k.val
      (by rw [N_of_same (hs.same i)]; exact k.isLt)
    exact ⟨o, ho, (hs.rounds i hi).verified j k.val o ho⟩
  · intro i j hi hj c text sign hmem
    obtain ⟨hc, -⟩ := (hs.rounds i hi).request c text sign hmem
    refine ⟨hc, fun h1 => ?_⟩
    have hij := hs.round_le hi hj
    have hji := hs.round_le hj hi
    have hsigns : (s j).signs = true := by
      by_contra hf
      have h0 := ((hs.rounds j hj).outside (by simpa using hf)).1
      omega
    have hround : (s j).getRound = (s j).round := if_pos hsigns
    refine ⟨by omega, by omega, ?_⟩
    rw [hround, List.mem_cons, List.mem_cons, List.mem_singleton]
    omega

end Setting

end SXP.Sigma
