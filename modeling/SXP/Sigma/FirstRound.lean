import SXP.Sigma.Simulation
import SXP.Sigma.Rounds

/-!
# The promises of the first round

A party sends its promises of the first round once, when it starts, and it has
its own from then on (`Vouched`).  Whatever else happens, a user who refuses,
requests to Trent and what Trent answers, another party has these promises
exactly if their message reached it while the listener of the signing step was
set (`next_has_iff`): what is there stays, and what arrives earlier is gone.
-/

namespace SXP.Sigma

open SXP.Lib SXP.Lib.Java Relation

namespace Party

variable {P : Platform} {origin : ℤ → ℕ → Prop} {p p' : Party}

theorem exec_payload_promise (hr : p.round ≠ p.N + 2) (k : ElGamalKey) (i : ℕ) (d : Draws) :
    (ProtocolSign.payload P d (k, i)).exec p =
      match PCS.getPcs P.hash p.key p.trentK (p.contract.roundData p.round) k (d.sign p.round i).1
        (d.sign p.round i).2.2 with
      | .error e => (.error e, p)
      | .ok o => (.ok (k.publicKey, .promise o),
          if k.publicKey = p.key.publicKey then p.setPromise p.round i o else p) := by
  unfold ProtocolSign.payload
  rw [Act.exec_get_bind]
  dsimp only
  rw [if_neg hr]
  cases PCS.getPcs P.hash p.key p.trentK (p.contract.roundData p.round) k (d.sign p.round i).1
    (d.sign p.round i).2.2 with
  | error e => rfl
  | ok o =>
    dsimp only
    rw [Act.exec_ok_bind]
    by_cases hk : k.publicKey = p.key.publicKey
    · rw [if_pos (beq_iff_eq.mpr hk), if_pos hk, Act.exec_modify_bind, Act.exec_pure]
    · rw [if_neg (mt beq_iff_eq.mp hk), if_neg hk, Act.exec_pure]

def Has (k : ℤ) (i : ℕ) (p : Party) : Prop := ∃ o, p.roundReceived k i = some o

theorem Writes.has (h : Writes P origin p p') {k : ℤ} {i : ℕ} (hs : p.signs = true)
    (hp : p.Has k i) : p'.Has k i := by
  obtain ⟨o, ho⟩ := hp
  cases h with
  | create h =>
    rw [Party.signs, h] at hs
    exact absurd hs (by decide)
  | promise => exact setPromise_mono ho
  | own => exact setPromise_mono ho
  | _ => exact ⟨o, ho⟩

theorem Evolves.has (h : Evolves P origin p p') {k : ℤ} {i : ℕ} (hs : p.signs = true)
    (hp : p.Has k i) : p'.Has k i :=
  (h.keeps (I := fun p => p.signs = true ∧ p.Has k i)
    (fun hw ⟨hs, hp⟩ => ⟨hw.signs hs, hw.has hs hp⟩) ⟨hs, hp⟩).2

end Party

namespace Setting

variable {n : ℕ} {S : Setting n}

open Party

/-! ### Who sends the message of the first round -/

/-- There is a promise of `j` for everybody, and all of them verify. -/
def Promises (S : Setting n) (j : Fin n) (content : List (ℤ × Payload)) : Prop :=
  ∀ k, ∃ o, entry content (S.keys k).publicKey = some (.promise o) ∧
    o.verifies S.platform.hash ((S.initial j).contract.roundData 1) = .ok true

/-- **What holds of a party whatever happens**: with its message of the first round
it has its own promise. -/
structure Vouched (S : Setting n) (j : Fin n) (p : Party) : Prop where
  same : Same (S.initial j) p
  ready : p.Ready
  rounds : RoundInv S.platform p
  written : ∀ content, .signing 1 content ∈ p.sent → S.Promises j content ∧ p.Has 1 j

theorem initial_vouched (j : Fin n) : S.Vouched j (S.initial j) where
  same := ⟨rfl, rfl, rfl, rfl, rfl⟩
  ready h := absurd h Bool.false_ne_true
  rounds := initial_roundInv _ _ _ _
  written _ h := absurd h List.not_mem_nil

theorem payload_first (hh : ∀ k, S.honest k = true) {j k : Fin n} {p p' : Party}
    (hsame : Same (S.initial j) p) (hr : p.round = 1) {d : Draws} {e : ℤ × Payload}
    (h : (ProtocolSign.payload S.platform d ((S.keys k).getPublicKeys, k.val)).exec p
      = (.ok e, p')) : ∃ o, e = ((S.keys k).publicKey, .promise o) ∧
        o.verifies S.platform.hash ((S.initial j).contract.roundData 1) = .ok true ∧
        p' = if k = j then p.setPromise 1 k o else p := by
  have hne : p.round ≠ p.N + 2 := by omega
  rw [exec_payload_promise hne, hr] at h
  split at h
  · exact absurd (congrArg Prod.fst h) (by simp)
  · rename_i o ho
    obtain ⟨he, rfl⟩ := Prod.mk.inj h
    have hv := getPcs_verifies (hh j) (hh k) hsame ho
    rw [hsame.roundData] at hv
    have hindex : (S.keys k).getPublicKeys.publicKey = p.key.publicKey ↔ k = j := by
      rw [hsame.key]
      exact S.distinct.eq_iff
    exact ⟨o, (Except.ok.inj he).symm, hv, if_congr hindex rfl rfl⟩

/-- What the loop over the receivers collects in the first round. -/
theorem payloads_first (hh : ∀ k, S.honest k = true) {j : Fin n} {p p' : Party}
    (hsame : Same (S.initial j) p) (hr : p.round = 1) {d : Draws} {content : List (ℤ × Payload)}
    (h : (p.contract.parties.zipIdx.mapM (ProtocolSign.payload S.platform d)).exec p
      = (.ok content, p')) : S.Promises j content ∧ p'.Has 1 j := by
  have hlen : p.contract.parties.length = n := N_of_same hsame
  obtain ⟨⟨-, -, hown⟩, hall, hany⟩ := Act.mapM_returns
    (I := fun k q => Same (S.initial j) q ∧ q.round = 1 ∧ (j.val < k → q.Has 1 j))
    (R := fun rk e => e.1 = rk.1.publicKey ∧ ∃ o, e.2 = .promise o ∧
      o.verifies S.platform.hash ((S.initial j).contract.roundData 1) = .ok true)
    (by
      rintro i ⟨key, i'⟩ hi q e q' ⟨hq, hround, hown⟩ hexec
      rw [List.getElem?_zipIdx, Option.map_eq_some_iff] at hi
      obtain ⟨key', hkey, heq⟩ := hi
      obtain ⟨rfl, rfl⟩ := Prod.mk.inj heq
      obtain ⟨k, rfl, rfl⟩ := (getElem?_of_same hsame).mp hkey
      rw [Nat.zero_add] at hexec
      obtain ⟨o, rfl, hv, rfl⟩ := payload_first hh hq hround hexec
      refine ⟨?_, rfl, o, rfl, hv⟩
      by_cases hk : k = j
      · rw [if_pos hk, hk]
        exact ⟨⟨hq.key, hq.trentK, hq.parties, hq.clauses, hq.contractTrentK⟩, hround,
          fun _ => ⟨o, if_pos ⟨rfl, rfl⟩⟩⟩
      · rw [if_neg hk]
        refine ⟨hq, hround, fun hlt => hown ?_⟩
        have hval : j.val ≠ k.val := fun h => hk (Fin.ext h.symm)
        omega)
    ⟨hsame, hr, fun h => absurd h (Nat.not_lt_zero _)⟩ h
  rw [List.length_zipIdx, hlen] at hown
  refine ⟨fun k => ?_, hown j.isLt⟩
  have hkey : ∃ e ∈ content, e.1 = (S.keys k).publicKey := by
    obtain ⟨e, he, hkey, -⟩ := hall ((S.keys k).getPublicKeys, k.val)
      (List.mem_zipIdx_iff_getElem?.mpr ((getElem?_of_same hsame).mpr ⟨k, rfl, rfl⟩))
    exact ⟨e, he, hkey⟩
  obtain ⟨payload, hentry, o, rfl, hv⟩ := entry_of_mem (Q := fun payload => ∃ o,
    payload = .promise o ∧ o.verifies S.platform.hash ((S.initial j).contract.roundData 1)
      = .ok true) hkey fun e he => by
    obtain ⟨-, -, -, hpayload⟩ := hany e he
    exact hpayload
  exact ⟨o, hentry, hv⟩

/-! ### Calls -/

theorem Vouched.write {j : Fin n} {p p' : Party} (hp : S.Vouched j p) (hj : S.honest j = true)
    (h : Writes S.platform (fun _ _ => True) p p')
    (hsent : ∀ round content, .signing round content ∈ p'.sent → .signing round content ∈ p.sent) :
    S.Vouched j p' where
  same := hp.same.trans h.same
  ready := h.ready hp.ready
  rounds := h.roundInv (ownPromises hj hp.same) hp.rounds
  written content hmem := by
    have hold := hsent 1 content hmem
    obtain ⟨hpromises, hhas⟩ := hp.written content hold
    refine ⟨hpromises, h.has ?_ hhas⟩
    by_contra hsigns
    rw [(hp.rounds.outside (Bool.eq_false_of_not_eq_true hsigns)).2] at hold
    exact absurd hold List.not_mem_nil

theorem Vouched.silent {j : Fin n} {p p' : Party} (hp : S.Vouched j p) (hj : S.honest j = true)
    (h : Silent S.platform (fun _ _ => True) p p') : S.Vouched j p' := by
  induction h with
  | refl => exact hp
  | tail _ hw ih => exact ih.write hj hw.1 hw.2

/-- A message that is sent in the first round has the promises, and those that are sent
later are not of the first round. -/
theorem Vouched.sendMessage (hh : ∀ k, S.honest k = true) {j : Fin n} {p : Party}
    (hp : S.Vouched j p) (hs : p.signs = true) (d : Draws) :
    S.Vouched j ((ProtocolSign.sendMessage S.platform d).exec p).2 := by
  unfold ProtocolSign.sendMessage
  rw [Act.exec_get_bind]
  by_cases hw : p.contract.wish = .refuse
  · rw [if_pos hw]
    exact hp.silent (hh j) (resolve_sendMessage_writes hs d.resolve)
  rw [if_neg hw]
  have hloop : Silent S.platform (fun _ _ => True) p
      ((p.contract.parties.zipIdx.mapM (ProtocolSign.payload S.platform d)).exec p).2 :=
    payloads_writes p d
  have hcollected := hp.silent (hh j) hloop
  have hle := hloop.evolves.round_le (ownPromises (hh j) hp.same) hp.rounds
  have hsigns := hloop.evolves.signs hs
  apply Act.after_bind
  · exact fun _ _ => hcollected
  intro content hcontent
  have hfirst : p.round = 1 → S.Promises j content ∧ Party.Has 1 j
      ((p.contract.parties.zipIdx.mapM (ProtocolSign.payload S.platform d)).exec p).2 :=
    fun hr => payloads_first hh hp.same hr (Prod.ext hcontent rfl)
  generalize ((p.contract.parties.zipIdx.mapM (ProtocolSign.payload S.platform d)).exec p).2 = q
    at hcollected hle hsigns hfirst
  rw [Act.exec_get_bind]
  apply Act.after_lift hcollected
  intro _ _
  rw [Act.exec_modify]
  have hwrite : Writes S.platform (fun _ _ => True) q (q.send (.signing q.round content)) :=
    .signing q content hsigns
  refine ⟨hcollected.same.trans hwrite.same, hwrite.ready hcollected.ready,
    hwrite.roundInv (ownPromises (hh j) hcollected.same) hcollected.rounds, ?_⟩
  intro content' hmem
  rcases List.mem_append.mp hmem with hold | hnew
  · exact hcollected.written content' hold
  · obtain ⟨hround, rfl⟩ := Outgoing.signing.inj (List.mem_singleton.mp hnew)
    have hlow := hp.rounds.inside hs
    exact hfirst (by omega)

theorem Vouched.sendRounds (hh : ∀ k, S.honest k = true) {j : Fin n} (d : Draws) (left : ℕ)
    {p : Party} (hp : S.Vouched j p) (hs : p.signs = true) :
    S.Vouched j ((ProtocolSign.sendRounds S.platform d left).exec p).2 := by
  induction left generalizing p with
  | zero => exact hp
  | succ left ih =>
    rw [ProtocolSign.sendRounds, Act.exec_get_bind]
    split
    · rename_i hc
      obtain ⟨hr, hformed, hst⟩ := hc
      rw [Act.exec_modify_bind]
      have hnext := hp.write (hh j) (.next p hs hr hformed hst)
        fun _ _ => id
      have hsent := hnext.sendMessage hh hs d
      have hchain : Evolves S.platform (fun _ _ => True) { p with round := p.round + 1 }
          ((ProtocolSign.sendMessage S.platform d).exec { p with round := p.round + 1 }).2 :=
        sign_sendMessage_writes (p := { p with round := p.round + 1 }) hs d
      apply Act.after_bind
      · exact fun _ _ => hsent
      · exact fun _ _ => ih hsent (hchain.signs hs)
    · exact hp

/-- **Every event keeps it.** -/
theorem Vouched.next (hh : ∀ k, S.honest k = true) {j : Fin n} {p : Party} (hp : S.Vouched j p)
    (e : Event) : S.Vouched j ((Party.machine S.platform).next p e) := by
  have htakes := takes_next (P := S.platform) p e
  generalize (Party.machine S.platform).next p e = p' at htakes ⊢
  cases htakes with
  | ignored => exact hp
  | listen hphase => exact hp.write (hh j) (.listen p hphase) fun _ _ => id
  | create hphase => exact hp.write (hh j) (.create p hphase) fun _ _ => id
  | start d hphase =>
    exact (hp.write (hh j) (.start p hphase) fun _ _ => id).sendMessage hh rfl d
  | receive message senderId d hl =>
    unfold ProtocolSign.received
    have hstore : Silent S.platform (fun _ _ => True) p
        ((ProtocolSign.verifyAndStoreSignature S.platform message senderId).exec p).2 :=
      verifyAndStoreSignature_writes fun _ _ _ _ _ => trivial
    have hstored := hp.silent (hh j) hstore
    apply Act.after_bind
    · exact fun _ _ => hstored
    · intro _ _
      rw [Act.exec_get_bind]
      exact hstored.sendRounds hh d _ (hstore.evolves.signs (hp.ready hl))
  | answer a senderId => exact hp.silent (hh j) (answered_writes a senderId)
  | resolve d hs => exact hp.silent (hh j) (resolve_sendMessage_writes hs d)
  | setWish w => exact hp.write (hh j) (.wish p w) fun _ _ => id

/-! ### Who has the promises of the first round -/

/-- The message of the first round of `i` reaches `j` while `j` has its listener set. -/
def Arrives (i j : Fin n) (s : Fin n → Party) (e : NetEvent n) : Prop :=
  ∃ m d content, e = .deliver i j m d ∧ (s i).sent[m]? = some (.signing 1 content) ∧
    (s j).listening = true

theorem has_of_receive {i j : Fin n} (hij : i ≠ j) {p : Party} (hp : S.Vouched j p)
    (hl : p.listening = true) {content : List (ℤ × Payload)} (hcontent : S.Promises i content)
    (d : Draws) : Party.Has 1 i ((Party.machine S.platform).next p
      (.receive (.ofContent 1 content) (S.keys i).publicKey d)) := by
  have hkey : p.key = S.keys j := hp.same.key
  obtain ⟨o, hentry, hv⟩ := hcontent j
  have hindex : p.indexOf (S.keys i).publicKey = .ok i.val :=
    (indexOf_of_same hp.same).mpr ⟨i, rfl, rfl⟩
  have hne : (S.keys i).publicKey ≠ p.key.publicKey := by
    rw [hkey]
    exact fun h => hij (S.distinct h)
  have hround : (SignMessage.ofContent 1 content).round = .ok 1 := rfl
  have hmessage : (SignMessage.ofContent 1 content).promise p.key.publicKey = .ok (some o) := by
    rw [hkey]
    simp only [SignMessage.ofContent, hentry]
  rw [← roundData_of_same hp.same i] at hv
  have hstored := exec_verifyAndStore (P := S.platform) hindex hround hne
  rw [if_neg (by omega), exec_receivePromise ⟨by omega, by omega⟩ hmessage hv] at hstored
  change Party.Has 1 i ((Party.handle S.platform _).exec p).2
  unfold Party.handle ProtocolSign.received
  rw [Act.exec_get_bind, if_pos hl, Act.exec_bind_ok hstored, Act.exec_get_bind]
  have hloop : ∀ (left : ℕ) (q : Party), q.signs = true → q.Has 1 i →
      Party.Has 1 i ((ProtocolSign.sendRounds S.platform d left).exec q).2 := by
    intro left q hsigns hhas
    have hchain : Evolves S.platform (fun _ _ => True) q _ := sendRounds_writes hsigns d left
    exact hchain.has hsigns hhas
  have hsigns := hp.ready hl
  cases hold : p.roundReceived 1 i with
  | some o' => exact hloop _ _ hsigns ⟨o', hold⟩
  | none => exact hloop _ (p.setPromise 1 i o) hsigns ⟨o, if_pos ⟨rfl, rfl⟩⟩

theorem next_deaf {P : Platform} {p : Party} (hl : p.listening = false) (message : SignMessage)
    (senderId : ℤ) (d : Draws) : (Party.machine P).next p (.receive message senderId d) = p := by
  change ((Party.handle P _).exec p).2 = p
  unfold Party.handle
  rw [Act.exec_get_bind, if_neg (by rw [hl]; decide)]
  rfl

theorem next_deliver_deaf {s : Fin n → Party} {i j : Fin n} (hl : (s j).listening = false) (m : ℕ)
    (d : Draws) : S.machine.next s (.deliver i j m d) = s := by
  rcases hm : (s i).sent[m]? with _ | ⟨round, content⟩ | ⟨round, text, signature⟩
  · exact next_of_none S (by simp only [localEvent, hm])
  · have hlocal : S.localEvent s (.deliver i j m d) =
        some (j, .receive (.ofContent round content) (S.keys i).publicKey d) := by
      simp only [localEvent, hm]
    rw [next_of_some S hlocal, next_deaf hl, Function.update_eq_self]
  · exact next_of_none S (by simp only [localEvent, hm])

theorem run_join {s : Fin n → Party} {j : Fin n} (h : s j = S.initial j) (d : Draws) :
    S.machine.run s [.act j .listen, .act j .create, .act j (.start d)] =
      Function.update s j ((Party.machine S.platform).next (Party.created (S.keys j) S.trentK
        (S.contract j) (S.chooseRound j)) (.start d)) := by
  have hact : ∀ (s : Fin n → Party) (e : Event), S.localEvent s (.act j e) = some (j, e) →
      S.machine.next s (.act j e) =
        Function.update s j ((Party.machine S.platform).next (s j) e) :=
    fun s e hlocal => next_of_some S hlocal
  rw [Machine.run_cons, Machine.run_cons, Machine.run_cons, Machine.run_nil, hact s _ rfl,
    hact _ _ rfl, hact _ _ rfl]
  simp only [Function.update_self, Function.update_idem, h]
  rfl

/-- The state of all parties: promises of others come after the listener is set. -/
structure Heard (S : Setting n) (s : Fin n → Party) : Prop where
  vouched : ∀ j, S.Vouched j (s j)
  blank : ∀ i j, i ≠ j → (s j).signs = false → ¬ (s j).Has 1 i

theorem initial_heard : S.Heard S.initial where
  vouched := initial_vouched
  blank _ _ _ _ h := absurd h.choose_spec (by simp [initial, Party.initial])

/-- A message of the first round that does not arrive brings no promise. -/
theorem brings_other {s : Fin n → Party} (hh : ∀ k, S.honest k = true) (hs : S.Heard s)
    {e : NetEvent n} {i j : Fin n} (harrives : ¬ Arrives i j s e) {e' : Event}
    (hlocal : S.localEvent s e = some (j, e')) (hl : (s j).listening = true) :
    Brings (fun k i' => ¬ (k = 1 ∧ i' = i.val)) (s j) e' := by
  rintro message senderId d rfl k i' hk hi - ⟨rfl, rfl⟩
  obtain ⟨i'', hi'', hkey⟩ := (indexOf_of_same (hs.vouched j).same).mp hi
  obtain rfl : i'' = i := Fin.ext hi''
  cases e with
  | act j' e =>
    cases e with
    | receive message' senderId' d' =>
      rw [localEvent, Option.ite_none_right_eq_some] at hlocal
      obtain ⟨hforeign, h⟩ := hlocal
      simp only [Option.some.injEq, Prod.mk.injEq, Event.receive.injEq] at h
      obtain ⟨-, -, rfl, -⟩ := h
      exact hforeign i'' (hh i'') hkey
    | _ => simp [localEvent] at hlocal
  | deliver i₀ j' m d' =>
    simp only [localEvent] at hlocal
    rcases hm : (s i₀).sent[m]? with _ | ⟨round, content⟩ | _
    · simp [hm] at hlocal
    · simp only [hm, Option.some.injEq, Prod.mk.injEq, Event.receive.injEq] at hlocal
      obtain ⟨rfl, rfl, rfl, rfl⟩ := hlocal
      obtain rfl : i'' = i₀ := S.distinct hkey
      obtain rfl : round = 1 := Except.ok.inj hk
      exact harrives ⟨m, d', content, rfl, hm, hl⟩
    · simp [hm] at hlocal

theorem next_keeps {s : Fin n → Party} (hs : S.Heard s) (e : NetEvent n) (j : Fin n)
    (hsigns : (s j).signs = true) : (S.machine.next s e j).signs = true ∧
      ∀ k i, (s j).Has k i → Party.Has k i (S.machine.next s e j) := by
  cases hlocal : S.localEvent s e with
  | none =>
    rw [next_of_none S hlocal]
    exact ⟨hsigns, fun _ _ => id⟩
  | some je =>
    obtain ⟨j', e'⟩ := je
    rw [next_of_some S hlocal]
    by_cases hj : j = j'
    · subst hj
      rw [Function.update_self]
      have hchain : Evolves S.platform (fun _ _ => True) (s j) _ :=
        handle_writes (hs.vouched j).ready e' fun _ _ _ _ _ _ _ _ _ => trivial
      exact ⟨hchain.signs hsigns, fun _ _ => hchain.has hsigns⟩
    · rw [Function.update_of_ne hj]
      exact ⟨hsigns, fun _ _ => id⟩

/-- An event that brings no promise of the first round of `i` leaves a party without one:
what it writes itself is at its own index. -/
theorem Vouched.has_of_next {i j : Fin n} {p : Party} (hp : S.Vouched j p)
    (hj : S.honest j = true) (hij : i ≠ j) (e : Event)
    (hbrings : Brings (fun k i' => ¬ (k = 1 ∧ i' = i.val)) p e)
    (hhas : Party.Has 1 i ((Party.machine S.platform).next p e)) : p.Has 1 i := by
  obtain ⟨o, ho⟩ := hhas
  have hchain := handle_writes (P := S.platform) hp.ready e hbrings
  rcases hchain.received (ownPromises hj hp.same) hp.rounds ho with h | h | h
  · exact h
  · exact absurd ⟨rfl, rfl⟩ h
  · obtain ⟨-, key, hkey, hpk⟩ := h
    obtain ⟨k, hk, rfl⟩ := (getElem?_of_same hp.same).mp hkey
    obtain rfl : k = j := S.distinct (hpk.trans (congrArg _ hp.same.key))
    exact absurd (Fin.ext hk.symm) hij

/-- **One step**: promises of others are those that were there and the one that arrives. -/
theorem next_has_iff (hh : ∀ k, S.honest k = true) {s : Fin n → Party} (hs : S.Heard s)
    (e : NetEvent n) {i j : Fin n} (hij : i ≠ j) :
    Party.Has 1 i (S.machine.next s e j) ↔ (s j).Has 1 i ∨ Arrives i j s e := by
  have hp := hs.vouched j
  by_cases harrives : Arrives i j s e
  · refine iff_of_true ?_ (Or.inr harrives)
    obtain ⟨m, d, content, rfl, hm, hl⟩ := harrives
    have hlocal : S.localEvent s (.deliver i j m d) =
        some (j, .receive (.ofContent 1 content) (S.keys i).publicKey d) := by
      simp only [localEvent, hm]
    rw [next_of_some S hlocal, Function.update_self]
    exact has_of_receive hij hp hl ((hs.vouched i).written content (List.mem_of_getElem? hm)).1 d
  rw [or_iff_left harrives]
  constructor
  · rintro ⟨o, ho⟩
    cases hlocal : S.localEvent s e with
    | none =>
      rw [next_of_none S hlocal] at ho
      exact ⟨o, ho⟩
    | some je =>
      obtain ⟨j', e'⟩ := je
      rw [next_of_some S hlocal] at ho
      by_cases hj : j = j'
      · subst hj
        rw [Function.update_self] at ho
        by_cases hdeaf : (s j).listening = false ∧
            ∃ message senderId d, e' = .receive message senderId d
        · obtain ⟨hl, message, senderId, d, rfl⟩ := hdeaf
          rw [next_deaf hl] at ho
          exact ⟨o, ho⟩
        have hbrings : Brings (fun k i' => ¬ (k = 1 ∧ i' = i.val)) (s j) e' := by
          intro message senderId d he
          refine brings_other hh hs harrives hlocal ?_ message senderId d he
          by_contra hl
          exact hdeaf ⟨Bool.eq_false_of_not_eq_true hl, message, senderId, d, he⟩
        exact hp.has_of_next (hh j) hij e' hbrings ⟨o, ho⟩
      · rw [Function.update_of_ne hj] at ho
        exact ⟨o, ho⟩
  · intro hhas
    refine (next_keeps hs e j ?_).2 1 i hhas
    by_contra hsigns
    exact hs.blank i j hij (Bool.eq_false_of_not_eq_true hsigns) hhas

theorem Heard.next (hh : ∀ k, S.honest k = true) {s : Fin n → Party} (hs : S.Heard s)
    (e : NetEvent n) : S.Heard (S.machine.next s e) where
  vouched := by
    cases hlocal : S.localEvent s e with
    | none =>
      rw [next_of_none S hlocal]
      exact hs.vouched
    | some je =>
      obtain ⟨j, e'⟩ := je
      rw [next_of_some S hlocal]
      exact (Function.forall_update_iff s fun j p => S.Vouched j p).mpr
        ⟨(hs.vouched j).next hh e', fun i _ => hs.vouched i⟩
  blank i j hij hsigns := by
    have hbefore : (s j).signs = false := by
      by_contra h
      rw [(next_keeps hs e j (Bool.eq_true_of_not_eq_false h)).1] at hsigns
      exact absurd hsigns (by decide)
    rw [next_has_iff hh hs e hij]
    rintro (h | ⟨m, d, content, -, -, hl⟩)
    · exact hs.blank i j hij hbefore h
    · exact absurd (hbefore.symm.trans ((hs.vouched j).ready hl)) (by decide)

end Setting

end SXP.Sigma
