import SXP.Sigma.Verdicts

/-!
# Honest claims and the order in which they arrive

A claim shows another one to be dishonest when it is at least two rounds ahead
of it.  When the later round arrives second this is what the first loop tests:
a claim is stored at its round and moves up only, so an index below
`round - 1` belongs to a claim two rounds back.  When the later round arrives
first, the third loop has to find it among the stored claims, and it takes
every index above `round` for a later round, although a claim that was moved
up, or stored one round ahead, is no evidence.  `arrival_iff` says for which
runs this does no harm.
-/

namespace SXP.Sigma.TrentSolver

open SXP.Lib SXP.Lib.Java

/-- The call returns, and its sender has made no call before; the sender is a new
object each time. -/
structure OneClaim (A : Arbiter) (pre : List Call) (st : TrentSolver) (c : Call) : Prop where
  fresh : ∀ c' ∈ pre, c'.senderId.ref ≠ c.senderId.ref
  first : ∀ c' ∈ pre, c'.senderId.value ≠ c.senderId.value
  lower : 0 ≤ c.round
  upper : c.round ≤ A.contract.parties.length + 1
  returns : ∃ answer, (machine A).out st c = .ok answer

/-- Everybody declared dishonest made a claim that another party's is at least two
rounds ahead of. -/
def HeldRightly (pre : List Call) (st : TrentSolver) : Prop :=
  ∀ v, st.dishonestClaims v ≠ none → ∃ c ∈ pre, c.senderId.value = v ∧
    ∃ c' ∈ pre, c'.senderId.value ≠ v ∧ c.round + 2 ≤ c'.round

/-- The call meets a stored claim at an index above its round, none at an index that
would be evidence against that claim instead, and nobody has claimed a round two
ahead of it. -/
structure Misjudged (A : Arbiter) (pre : List Call) (st : TrentSolver) (c : Call) : Prop where
  silent : ∀ (k : ℕ) (m : Claims), (k : ℤ) + 1 < c.round →
    st.possiblyHonestClaims[k]? = some m → m = []
  above : ∃ (k : ℕ) (m : Claims), c.round < k ∧ k < A.contract.parties.length ∧
    st.possiblyHonestClaims[k]? = some m ∧ m ≠ []
  nobody : ∀ c' ∈ pre, c'.round ≤ c.round + 1

theorem HeldRightly.mono {pre : List Call} {st : TrentSolver} (h : HeldRightly pre st)
    (c : Call) : HeldRightly (pre ++ [c]) st := by
  intro v hv
  obtain ⟨c1, h1, hval, c2, h2, hne, hr⟩ := h v hv
  exact ⟨c1, List.mem_append_left _ h1, hval, c2, List.mem_append_left _ h2, hne, hr⟩

theorem HeldRightly.accused {pre : List Call} {st : TrentSolver} (h : HeldRightly pre st)
    {s s' : String} {ev : String × String} {k : ℕ}
    (hs : ∃ c ∈ pre, c.senderId.value = s ∧ ∃ c' ∈ pre, c'.senderId.value ≠ s ∧
      c.round + 2 ≤ c'.round) : HeldRightly pre ((st.accused s ev).remove k s') := by
  intro v hv
  by_cases hvs : v = s
  · rw [hvs]
    exact hs
  · refine h v ?_
    intro hnone
    refine hv ?_
    show (if v = s then some ev else st.dishonestClaims v) = none
    rw [if_neg hvs, hnone]

theorem OneClaim.not_stored {A : Arbiter} {pre : List Call} {st : TrentSolver} {c : Call}
    (hc : OneClaim A pre st c) (hst : st.Stored pre) {k : ℕ} {x : String} :
    repeats st.possiblyHonestClaims c.senderId.value c.round ≠ some (k, x) := by
  intro h
  obtain ⟨m, hm, e, he, hv⟩ := repeats_some h
  obtain ⟨i, hi⟩ := List.getElem?_of_mem hm
  obtain ⟨c', hc', hs, -⟩ := hst i m hi e he
  exact hc.first c' hc' (by rw [hs, hv])

/-- **One call keeps the judgement right** unless it is misjudged. -/
theorem HeldRightly.next {A : Arbiter} {pre : List Call} {st : TrentSolver} {c : Call}
    (h : HeldRightly pre st) (hst : st.Stored pre) (hc : OneClaim A pre st c)
    (hgood : ¬ Misjudged A pre st c) : HeldRightly (pre ++ [c]) ((machine A).next st c) := by
  have hlast : c ∈ pre ++ [c] := by simp
  have hx := exit A st c
  generalize (machine A).out st c = o at hx
  generalize (machine A).next st c = st' at hx ⊢
  cases hx with
  | beyond e _ => exact h.mono c
  | shown k s x ha =>
    obtain ⟨-, hk, m, hm, hother⟩ := accuses_eq_some ha
    obtain ⟨c1, hc1, hs, hr⟩ := hst k m hm _ (Claims.mem_of_other hother)
    have hval : c1.senderId.value = s.value := by rw [hs]
    refine (h.mono c).accused ⟨c1, List.mem_append_left _ hc1, hval, c, hlast, ?_, by omega⟩
    rw [← hval]
    exact (hc.first c1 hc1).symm
  | repeated k x ha hr => exact absurd hr (hc.not_stored hst)
  | overtaken k e ha hr ho =>
    obtain ⟨hlt, hN, m, hm, he⟩ := overtaken_some ho
    have hsilent : ∀ (k : ℕ) (m : Claims), (k : ℤ) + 1 < c.round →
        st.possiblyHonestClaims[k]? = some m → m = [] := by
      intro k' m' hk' hm'
      obtain ⟨m'', hm'', hnone⟩ := accuses_eq_none.mp ha k' (Nat.zero_le k') (by omega)
      rw [hm'] at hm''
      obtain rfl := Option.some.inj hm''
      exact (other_of_fresh hst hc.fresh hm').mp hnone
    have hsome : ∃ c' ∈ pre, c.round + 2 ≤ c'.round := by
      by_contra hno
      refine hgood ⟨hsilent, ⟨k, m, hlt, hN, hm, List.ne_nil_of_mem he⟩, ?_⟩
      intro c' hc'
      by_contra hlt'
      exact hno ⟨c', hc', by omega⟩
    obtain ⟨c', hc', hr'⟩ := hsome
    exact (h.mono c).accused ⟨c, hlast, rfl, c', List.mem_append_left _ hc', hc.first c' hc', hr'⟩
  | opened _ _ => exact h.mono c
  | stored _ _ _ _ _ _ => exact h.mono c
  | outside _ _ _ _ _ => exact h.mono c

theorem Misjudged.accuses {A : Arbiter} {pre : List Call} {st : TrentSolver} {c : Call}
    (h : Misjudged A pre st c) (hset : st.Settled) (hst : st.Stored pre)
    (hc : OneClaim A pre st c) : ((machine A).next st c).dishonestClaims c.senderId.value ≠ none := by
  obtain ⟨k, m, hlt, hN, hm, hne⟩ := h.above
  have hseen : TrentSolver.overtaken st.possiblyHonestClaims c.senderId c.round
      A.contract.parties.length ≠ none := by
    intro hnone
    exact hne ((other_of_fresh hst hc.fresh hm).mp (overtaken_eq_none.mp hnone k hlt hN m hm))
  obtain ⟨answer, hret⟩ := hc.returns
  have hx := exit A st c
  rw [hret] at hx
  generalize ho : (Except.ok answer : Java (Option Answer)) = o at hx
  generalize (machine A).next st c = st' at hx ⊢
  cases hx with
  | beyond e _ => exact absurd ho (by simp)
  | shown k' s x ha =>
    obtain ⟨-, hk', m', hm', hother⟩ := accuses_eq_some ha
    have hnil := h.silent k' m' (by omega) hm'
    rw [hnil] at hother
    exact absurd hother (by simp [Claims.other])
  | repeated k' x ha hr => exact absurd hr (hc.not_stored hst)
  | overtaken k' e ha hr hov =>
    show (if c.senderId.value = c.senderId.value then some (c.m, e.2) else _) ≠ none
    rw [if_pos rfl]
    exact Option.some_ne_none _
  | opened ha hopen =>
    have hnil : st.possiblyHonestClaims = [] := by
      rcases hopen with hopen | hopen
      · exact hopen.1
      · exact hset hopen
    rw [hnil] at hm
    exact absurd hm (by simp)
  | stored ha hr hov _ _ _ => exact absurd hov hseen
  | outside ha hr hov _ _ => exact absurd hov hseen

/-- **An honest claim is not held against its sender** in exactly the runs in which no
call is misjudged. -/
theorem arrival_iff (A : Arbiter) (calls : List Call)
    (hcalls : (machine A).Along (OneClaim A) initial calls) :
    (∀ pre, pre <+: calls → HeldRightly pre ((machine A).run initial pre)) ↔
      (machine A).Along (fun pre st c => ¬ Misjudged A pre st c) initial calls := by
  constructor
  · intro h pre c post heq hmis
    have hc := hcalls pre c post heq
    have hacc := hmis.accuses (run_settled A pre) (run_stored A pre) hc
    have hright := h (pre ++ [c]) ⟨post, by rw [heq, List.append_assoc, List.singleton_append]⟩
    rw [Machine.run_concat] at hright
    obtain ⟨c1, hc1, hval, c2, hc2, hne, hr⟩ := hright c.senderId.value hacc
    -- the sender made one claim only, so the evidence is about this call
    have hc1' : c1 = c := by
      rcases List.mem_append.mp hc1 with hpre | hlast
      · exact absurd hval (hc.first c1 hpre)
      · exact List.mem_singleton.mp hlast
    rw [hc1'] at hr
    rcases List.mem_append.mp hc2 with hpre | hlast
    · have := hmis.nobody c2 hpre
      omega
    · exact hne (by rw [List.mem_singleton.mp hlast])
  · intro h pre hpre
    refine (machine A).invariant_history (I := HeldRightly) ?_ ?_ pre
      ((hcalls.of_prefix hpre).and (h.of_prefix hpre))
    · intro v hv
      exact absurd rfl hv
    · intro pre c hheld hc
      exact hheld.next (run_stored A pre) hc.1 hc.2

/-! ### Three parties that abort -/

def sampleThree : Arbiter where
  hash := sha256
  contract := { SigmaContract.sampleContract with
    parties := [sampleKey 1000, sampleKey 1001, sampleKey 1003] }
  keys := sampleKey 1002
  toOrs := fun m => if m = "[]" then some [] else none

def threeAborts : List Call :=
  [sampleCall "ABORT" 0 0 "first", sampleCall "ABORT" 0 1 "second", sampleCall "ABORT" 0 2 "third"]

theorem threeAborts_oneClaim : (machine sampleThree).Along (OneClaim sampleThree) initial
    threeAborts := by
  have h0 := (machine sampleThree).along_nil (OneClaim sampleThree) initial
  have h1 := ((machine sampleThree).along_concat (i := sampleCall "ABORT" 0 0 "first")).mpr
    ⟨h0, ⟨by simp, by simp, le_refl 0, by decide, ⟨_, rfl⟩⟩⟩
  have h2 := ((machine sampleThree).along_concat (i := sampleCall "ABORT" 0 1 "second")).mpr
    ⟨h1, ⟨by decide, by decide, le_refl 0, by decide, ⟨_, rfl⟩⟩⟩
  exact ((machine sampleThree).along_concat (i := sampleCall "ABORT" 0 2 "third")).mpr
    ⟨h2, ⟨by decide, by decide, le_refl 0, by decide, ⟨_, rfl⟩⟩⟩

/-- The third abort is held against its sender, although all claims are of round `0`. -/
theorem third_abort_misjudged :
    (machine sampleThree).Along (OneClaim sampleThree) initial threeAborts ∧
    ((machine sampleThree).run initial threeAborts).dishonestClaims "third" ≠ none ∧
    ¬ HeldRightly threeAborts ((machine sampleThree).run initial threeAborts) := by
  have hacc : ((machine sampleThree).run initial threeAborts).dishonestClaims "third" ≠ none := by
    decide
  refine ⟨threeAborts_oneClaim, hacc, ?_⟩
  intro h
  obtain ⟨c, hc, -, c', hc', -, hr⟩ := h "third" hacc
  have hzero : ∀ c ∈ threeAborts, c.round = 0 := by decide
  rw [hzero c hc, hzero c' hc'] at hr
  exact absurd hr (by decide)

theorem arrival_sample :
    (machine sampleThree).Along (OneClaim sampleThree) initial threeAborts ∧
    ((∀ pre, pre <+: threeAborts → HeldRightly pre ((machine sampleThree).run initial pre)) ↔
      (machine sampleThree).Along (fun pre st c => ¬ Misjudged sampleThree pre st c) initial
        threeAborts) :=
  ⟨threeAborts_oneClaim, arrival_iff sampleThree threeAborts threeAborts_oneClaim⟩

end SXP.Sigma.TrentSolver
