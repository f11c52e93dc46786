import SXP.Sigma.ClaimText
import SXP.Sigma.TrentSolver

/-!
# Verdicts of the solver

Whatever is asked, and in whatever order, a solver that has once decided to
open promises stores no claim, and a stored claim keeps its place in the list.
So the two kinds of verdict exclude each other for good
(`verdicts_consistent`), and a claim of the last round, for which the first
loop reads as many indices as there are parties, is opened in no state at all
(`last_round_never_resolved`).  The calls that are answered are determined by
the size of the list and by whether a claim is still in it (`answered_iff`).
-/

namespace SXP.Sigma.TrentSolver

open SXP.Lib SXP.Lib.Java SXP.Lib.BigInteger

def Settled (st : TrentSolver) : Prop := st.optimistic = false → st.possiblyHonestClaims = []

theorem initial_settled : initial.Settled := by
  intro h
  exact absurd h (by decide)

@[simp] theorem remove_length (st : TrentSolver) (k : ℕ) (s : String) :
    (st.remove k s).possiblyHonestClaims.length = st.possiblyHonestClaims.length :=
  List.length_modify _ _ _

@[simp] theorem accused_claims (st : TrentSolver) (s : String) (ev : String × String) :
    (st.accused s ev).possiblyHonestClaims = st.possiblyHonestClaims := rfl

theorem add_length {st : TrentSolver} {k : ℕ} (h : k ≤ st.possiblyHonestClaims.length)
    (s : StringRef) (m : String) :
    (st.add k s m).possiblyHonestClaims.length = st.possiblyHonestClaims.length + 1 :=
  List.length_insertIdx_of_le_length h _

theorem length_le_next (A : Arbiter) (st : TrentSolver) (c : Call) :
    st.possiblyHonestClaims.length ≤ ((machine A).next st c).possiblyHonestClaims.length := by
  have h := exit A st c
  generalize (machine A).out st c = o at h
  generalize (machine A).next st c = st' at h ⊢
  cases h with
  | beyond e h => exact le_refl _
  | shown k s x h => simp
  | repeated k x h h' => simp
  | overtaken k e h h' h'' => simp
  | opened h h' => exact le_refl _
  | stored h h' h'' ho h0 hle =>
    rw [add_length (by omega)]
    omega
  | outside h h' h'' ho hr => exact le_refl _

theorem next_settled (A : Arbiter) (st : TrentSolver) (c : Call) (hs : st.Settled) :
    ((machine A).next st c).Settled := by
  have h := exit A st c
  generalize (machine A).out st c = o at h
  generalize (machine A).next st c = st' at h ⊢
  have hempty : ∀ (k : ℕ) (s s' : String) (ev : String × String),
      ((st.accused s ev).remove k s').Settled := by
    intro k s s' ev ho
    have hnil := hs ho
    exact List.length_eq_zero_iff.mp (by rw [remove_length, accused_claims, hnil]; rfl)
  cases h with
  | beyond e h => exact hs
  | shown k s x h => exact hempty _ _ _ _
  | repeated k x h h' => exact hempty _ _ _ _
  | overtaken k e h h' h'' => exact hempty _ _ _ _
  | opened h h' =>
    intro _
    rcases h' with h' | h'
    · exact h'.1
    · exact hs h'
  | stored h h' h'' ho h0 hle =>
    intro hopt
    exact absurd (Or.inr hopt) ho
  | outside h h' h'' ho hr => exact hs

theorem run_settled (A : Arbiter) (calls : List Call) :
    ((machine A).run initial calls).Settled :=
  (machine A).invariant initial_settled (next_settled A) calls

/-! ### No conflicting verdicts -/

def Resolved (o : Java (Option Answer)) : Prop := ∃ token, o = .ok (some (.resolved token))

def Aborted (o : Java (Option Answer)) : Prop := ∃ m d, o = .ok (some (.aborted m d))

def Accused (o : Java (Option Answer)) : Prop := ∃ m d, o = .ok (some (.honestyToken m d))

/-- Only a solver without stored claims opens promises, and it goes on to do so. -/
theorem resolved_cases {A : Arbiter} {st : TrentSolver} {c : Call} (hs : st.Settled)
    (h : Resolved ((machine A).out st c)) :
    st.possiblyHonestClaims = [] ∧ ((machine A).next st c).optimistic = false := by
  obtain ⟨token, h⟩ := h
  have hx := exit A st c
  rw [h] at hx
  generalize (machine A).next st c = st' at hx ⊢
  generalize ho : (Except.ok (some (Answer.resolved token)) : Java (Option Answer)) = o at hx
  cases hx with
  | opened h h' =>
    refine ⟨?_, rfl⟩
    rcases h' with h' | h'
    · exact h'.1
    · exact hs h'
  | _ => simp [honestyToken, abortToken] at ho

theorem aborted_cases {A : Arbiter} {st : TrentSolver} {c : Call}
    (h : Aborted ((machine A).out st c)) :
    st.optimistic = true ∧ ((machine A).next st c).possiblyHonestClaims ≠ [] := by
  obtain ⟨m, d, h⟩ := h
  have hx := exit A st c
  rw [h] at hx
  generalize (machine A).next st c = st' at hx ⊢
  generalize ho : (Except.ok (some (Answer.aborted m d)) : Java (Option Answer)) = o at hx
  cases hx with
  | stored h h' h'' hn h0 hle =>
    refine ⟨?_, ?_⟩
    · by_contra hf
      exact hn (Or.inr (Bool.eq_false_iff.mpr hf))
    · intro hnil
      have hlen := add_length (show c.round.toNat ≤ st.possiblyHonestClaims.length by omega)
        c.senderId c.m
      rw [hnil] at hlen
      exact absurd hlen (by simp)
  | opened h h' => cases ht : resolveToken A c <;> simp [ht, Except.map] at ho
  | _ => simp [honestyToken] at ho

theorem accused_cases {A : Arbiter} {st : TrentSolver} {c : Call}
    (h : Accused ((machine A).out st c)) : st.possiblyHonestClaims ≠ [] := by
  obtain ⟨m, d, h⟩ := h
  have hx := exit A st c
  rw [h] at hx
  generalize (machine A).next st c = st' at hx
  generalize ho : (Except.ok (some (Answer.honestyToken m d)) : Java (Option Answer)) = o at hx
  cases hx with
  | shown k s x h =>
    obtain ⟨-, -, m', hm', -⟩ := accuses_eq_some h
    intro hnil
    rw [hnil] at hm'
    exact absurd hm' (by simp)
  | opened h h' => cases ht : resolveToken A c <;> simp [ht, Except.map] at ho
  | _ => simp [abortToken] at ho

theorem run_opening (A : Arbiter) {st : TrentSolver} (ho : st.optimistic = false)
    (hs : st.Settled) (calls : List Call) :
    ((machine A).run st calls).optimistic = false ∧
      ((machine A).run st calls).possiblyHonestClaims = [] := by
  refine (machine A).invariant (I := fun st => st.optimistic = false ∧
    st.possiblyHonestClaims = []) ⟨ho, hs ho⟩ ?_ calls
  rintro st c ⟨ho, hnil⟩
  have hset : st.Settled := fun _ => hnil
  have hopt : ((machine A).next st c).optimistic = false := by
    have hx := exit A st c
    generalize (machine A).out st c = o at hx
    generalize (machine A).next st c = st' at hx ⊢
    cases hx with
    | opened h h' => rfl
    | stored h h' h'' hn h0 hle => exact absurd (Or.inr ho) hn
    | _ => exact ho
  exact ⟨hopt, next_settled A st c hset hopt⟩

theorem run_length (A : Arbiter) (st : TrentSolver) (calls : List Call) :
    st.possiblyHonestClaims.length ≤ ((machine A).run st calls).possiblyHonestClaims.length :=
  (machine A).invariant (I := fun st' => st.possiblyHonestClaims.length ≤
    st'.possiblyHonestClaims.length) (le_refl _)
    (fun st' c h => h.trans (length_le_next A st' c)) calls

/-- **Trent gives no conflicting verdicts.**  After a call that is answered with the
opened promises no call is answered with an abort or with an honesty token, and
everybody who was answered with an abort before is declared dishonest by then.  The
second half has no case: after an abort no promise is opened. -/
theorem verdicts_consistent (A : Arbiter) :
    (∀ (pre : List Call) (c : Call) (mid : List Call) (c' : Call),
      Resolved ((machine A).out ((machine A).run initial pre) c) →
      ¬ Aborted ((machine A).out ((machine A).run initial (pre ++ c :: mid)) c') ∧
      ¬ Accused ((machine A).out ((machine A).run initial (pre ++ c :: mid)) c')) ∧
    (∀ (pre : List Call) (c : Call) (mid : List Call) (c' : Call),
      Aborted ((machine A).out ((machine A).run initial pre) c) →
      Resolved ((machine A).out ((machine A).run initial (pre ++ c :: mid)) c') →
      ((machine A).next ((machine A).run initial (pre ++ c :: mid)) c').dishonestClaims
        c.senderId.value ≠ none) := by
  constructor
  · intro pre c mid c' hres
    have hset := run_settled A pre
    obtain ⟨-, hopt⟩ := resolved_cases hset hres
    obtain ⟨ho, hnil⟩ := run_opening A hopt (next_settled A _ c hset) mid
    rw [Machine.run_append, Machine.run_cons]
    refine ⟨?_, ?_⟩
    · intro hab
      have htrue := (aborted_cases hab).1
      rw [ho] at htrue
      exact absurd htrue (by decide)
    · intro hac
      exact accused_cases hac hnil
  · intro pre c mid c' hab hres
    -- the abort stored a claim, and the list never becomes empty again
    have hne := (aborted_cases hab).2
    have hset := run_settled A (pre ++ c :: mid)
    have hnil := (resolved_cases hset hres).1
    have hlen := run_length A ((machine A).next ((machine A).run initial pre) c) mid
    rw [Machine.run_append, Machine.run_cons] at hnil
    rw [hnil] at hlen
    exact absurd (List.length_eq_zero_iff.mp (Nat.le_zero.mp hlen)) hne

/-! ### The last round -/

/-- **A claim of the last round is never answered with the opened promises**: the
first loop reads an index for each party, so the list would have to hold that
many maps, and then it is not empty. -/
theorem last_round_never_resolved (A : Arbiter) (hN : 2 ≤ A.contract.parties.length)
    (calls : List Call) (c : Call) (hc : c.round = A.contract.parties.length + 1) :
    ¬ Resolved ((machine A).out ((machine A).run initial calls) c) := by
  intro hres
  have hset := run_settled A calls
  have hnil := (resolved_cases hset hres).1
  obtain ⟨token, h⟩ := hres
  have hx := exit A ((machine A).run initial calls) c
  rw [h] at hx
  generalize (machine A).next ((machine A).run initial calls) c = st' at hx
  generalize ho : (Except.ok (some (Answer.resolved token)) : Java (Option Answer)) = o at hx
  cases hx with
  | opened h h' =>
    obtain ⟨m, hm, -⟩ := accuses_eq_none.mp h 0 (le_refl 0) (by omega)
    rw [hnil] at hm
    exact absurd hm (by simp)
  | _ => simp [honestyToken, abortToken] at ho

/-! ### Which calls are answered -/

/-- Trent's keys can answer for every ciphertext. -/
structure Equipped (A : Arbiter) : Prop where
  modulus : 0 < A.keys.p
  privateKey : A.keys.privateKey ≠ none
  parties : 2 ≤ A.contract.parties.length
  abort : A.toOrs "ABORT" = none

/-- A request of the resolving step: the text `ABORT` for round `0`, and an array of
one promise for each party from round `1` on. -/
structure Legit (A : Arbiter) (pre : List Call) (c : Call) : Prop where
  fresh : ∀ c' ∈ pre, c'.senderId.ref ≠ c.senderId.ref
  lower : 0 ≤ c.round
  upper : c.round ≤ A.contract.parties.length + 1
  abort : c.round = 0 → c.m = "ABORT"
  claim : 1 ≤ c.round → ∃ ors : List OrClause, A.toOrs c.m = some (ors.map some) ∧
    ors.length = A.contract.parties.length ∧ ∀ or ∈ ors, or.ands ≠ []

/-- The calls that are answered: the first claim after the start or after an opening,
and, while nothing is opened, a claim within the list or one that meets a claim
still stored. -/
def Answerable (st : TrentSolver) (c : Call) : Prop :=
  (c.round = 1 ∧ st.possiblyHonestClaims = []) ∨
  (st.optimistic = true ∧ (c.round ≤ st.possiblyHonestClaims.length ∨
    ∃ m ∈ st.possiblyHonestClaims, m ≠ []))

theorem sendResponse_total (hash : List UInt8 → Digest) {keys : ElGamalKey} (hp : 0 < keys.p)
    (hkey : keys.privateKey ≠ none) (res : ResEncrypt) (name : String) (s : ℕ) :
    ∃ r, Trent.sendResponse hash keys res name s = .ok r := by
  obtain ⟨x, hx⟩ := Option.ne_none_iff_exists'.mp hkey
  rw [Trent.sendResponse, Trent.sendMasks, modPow_natCast hp, modPow_natCast hp, ok_bind, ok_bind,
    pure_eq, ok_bind]
  simp only [Trent.sendAnswer, hx, nonNull_some, ok_bind, pure_eq]
  exact ⟨_, rfl⟩

theorem resolveToken_claim {A : Arbiter} (hA : Equipped A) {c : Call} {ors : List OrClause}
    (hm : A.toOrs c.m = some (ors.map some)) (hlen : ors.length = A.contract.parties.length)
    (hands : ∀ or ∈ ors, or.ands ≠ []) : ∃ token, resolveToken A c = .ok token := by
  refine collect_total ?_
  intro k hk
  have hk' : k < ors.length := by rw [hlen]; exact List.mem_range.mp hk
  obtain ⟨and0, rest, hcons⟩ := List.exists_cons_of_ne_nil (hands _ (List.getElem_mem hk'))
  obtain ⟨r, hr⟩ :=
    sendResponse_total A.hash hA.modulus hA.privateKey and0.resEncrypt c.name (c.s k)
  refine ⟨⟨ors[k], r, A.keys.getPublicKeys⟩, ?_⟩
  rw [openPromise, hm, nonNull_some, ok_bind, List.getElem?_map, List.getElem?_eq_getElem hk']
  simp only [Option.map_some, nonNull_some, ok_bind, hcons, first_cons, hr, pure_eq]

theorem resolveToken_abort {A : Arbiter} (hA : Equipped A) {c : Call} (hm : c.m = "ABORT") :
    resolveToken A c = .error .nullPointer := by
  obtain ⟨n, hn⟩ : ∃ n, A.contract.parties.length = n + 1 :=
    ⟨A.contract.parties.length - 1, by have := hA.parties; omega⟩
  rw [resolveToken, hn, List.range_succ_eq_map, collect, hm, hA.abort, openPromise, nonNull_none,
    error_bind, error_bind]

/-- Without stored claims, a claim of round `1`, and anything up to round `1` after an
opening, is opened. -/
theorem resolveT_opening (A : Arbiter) (st : TrentSolver) (hnil : st.possiblyHonestClaims = [])
    {c : Call} (hc : c.round ≤ 1) (ho : 0 < c.round ∨ st.optimistic = false) :
    (machine A).out st c = (resolveToken A c).map (fun token => some (.resolved token)) ∧
      (machine A).next st c = { st with optimistic := false } := by
  have hround : (c.round - 1).toNat = 0 := by omega
  have hover : TrentSolver.overtaken [] c.senderId c.round A.contract.parties.length = none :=
    overtaken_eq_none.mpr fun k _ _ m hm => absurd hm (by simp)
  refine Prod.mk.inj (?_ : resolveT A st c = _)
  rw [resolveT, hround, hnil]
  simp only [accuses, repeats, List.findSome?_nil, pure_eq, hover]
  rw [if_pos (ho.imp_left fun h => ⟨trivial, h⟩)]
  cases resolveToken A c <;> rfl

/-- A stored claim is only there while nothing is opened, and makes every call answerable. -/
theorem answerable_of_mem {st : TrentSolver} (hset : st.Settled) {m : Claims}
    (hm : m ∈ st.possiblyHonestClaims) (hne : m ≠ []) (c : Call) : Answerable st c := by
  refine Or.inr ⟨?_, Or.inr ⟨m, hm, hne⟩⟩
  by_contra hf
  rw [hset (Bool.eq_false_iff.mpr hf)] at hm
  exact absurd hm (by simp)

/-- A call from beyond the list is not answerable once all stored maps are empty. -/
theorem not_answerable_of_empty {st : TrentSolver} {c : Call}
    (hlen : st.possiblyHonestClaims.length < c.round)
    (hempty : ∀ m ∈ st.possiblyHonestClaims, m = [])
    (hone : ¬ (c.round = 1 ∧ st.possiblyHonestClaims = [])) : ¬ Answerable st c := by
  rintro (h | ⟨-, hle | ⟨m, hm, hne⟩⟩)
  · exact hone h
  · exact absurd hle (not_le.mpr hlen)
  · exact hne (hempty m hm)

/-- **A call that is opened** is answered if it is the first claim, and not if it is an
abort: an abort has no promises to open. -/
theorem opened_answered_iff {A : Arbiter} (hA : Equipped A) {pre : List Call} {st : TrentSolver}
    (hset : st.Settled) {c : Call} (hc : Legit A pre c)
    (h : accuses st.possiblyHonestClaims c.senderId 0 (c.round - 1).toNat = .ok none)
    (hopens : (st.possiblyHonestClaims = [] ∧ 0 < c.round) ∨ st.optimistic = false) :
    (∃ answer, (resolveToken A c).map (fun token => some (Answer.resolved token)) = .ok answer) ↔
      Answerable st c := by
  have hlower := hc.lower
  have hnil : st.possiblyHonestClaims = [] := by
    rcases hopens with hopens | hopens
    · exact hopens.1
    · exact hset hopens
  have hround : c.round ≤ 1 := by
    by_contra hlt
    obtain ⟨m, hm, -⟩ := accuses_eq_none.mp h 0 (le_refl 0) (by omega)
    rw [hnil] at hm
    exact absurd hm (by simp)
  by_cases h1 : c.round = 1
  · obtain ⟨ors, hm, hlen, hands⟩ := hc.claim h1.ge
    obtain ⟨token, ht⟩ := resolveToken_claim hA hm hlen hands
    exact ⟨fun _ => Or.inl ⟨h1, hnil⟩, fun _ => ⟨_, by rw [ht]; rfl⟩⟩
  · have hopt : st.optimistic = false := by
      rcases hopens with hopens | hopens
      · have := hopens.2
        omega
      · exact hopens
    rw [resolveToken_abort hA (hc.abort (by omega))]
    refine ⟨fun ⟨_, ho⟩ => absurd ho (by simp [Except.map]), ?_⟩
    rintro (⟨hone, -⟩ | ⟨htrue, -⟩)
    · exact absurd hone h1
    · rw [hopt] at htrue
      exact absurd htrue (by decide)

/-- **A legitimate call is answered exactly when it is answerable.** -/
theorem answered_iff {A : Arbiter} (hA : Equipped A) {pre : List Call} {st : TrentSolver}
    (hset : st.Settled) (hst : st.Stored pre) {c : Call} (hc : Legit A pre c) :
    (∃ answer, (machine A).out st c = .ok answer) ↔ Answerable st c := by
  have hempty : ∀ {k : ℕ} {m : Claims}, st.possiblyHonestClaims[k]? = some m →
      (m.other c.senderId = none ↔ m = []) := fun hm => other_of_fresh hst hc.fresh hm
  have hx := exit A st c
  generalize (machine A).out st c = o at hx ⊢
  generalize (machine A).next st c = st' at hx
  cases hx with
  | beyond e h =>
    -- the first loop ran past the end of the list
    obtain ⟨hlen, hall⟩ := accuses_error h
    refine iff_of_false (fun ⟨_, ho⟩ => absurd ho (by simp)) ?_
    refine not_answerable_of_empty (by omega) ?_ (by omega)
    intro m hm
    obtain ⟨k, hk⟩ := List.getElem?_of_mem hm
    exact (hempty hk).mp (hall k (Nat.zero_le k) m hk)
  | shown k s x h =>
    obtain ⟨-, -, m, hm, hother⟩ := accuses_eq_some h
    refine iff_of_true ⟨_, rfl⟩ (answerable_of_mem hset (List.mem_of_getElem? hm) ?_ c)
    rintro rfl
    exact absurd hother (by simp [Claims.other])
  | repeated k x h h' =>
    obtain ⟨m, hm, e, he, -⟩ := repeats_some h'
    exact iff_of_true ⟨_, rfl⟩ (answerable_of_mem hset hm (List.ne_nil_of_mem he) c)
  | overtaken k e h h' h'' =>
    obtain ⟨-, -, m, hm, he⟩ := overtaken_some h''
    exact iff_of_true ⟨_, rfl⟩
      (answerable_of_mem hset (List.mem_of_getElem? hm) (List.ne_nil_of_mem he) c)
  | opened h h' => exact opened_answered_iff hA hset hc h h'
  | stored h h' h'' ho h0 hle =>
    refine iff_of_true ⟨_, rfl⟩ (Or.inr ⟨?_, Or.inl hle⟩)
    by_contra hf
    exact ho (Or.inr (Bool.eq_false_iff.mpr hf))
  | outside h h' h'' ho hr =>
    -- the list is too short for the claim, and the first loop has seen all of it
    have hall := accuses_eq_none.mp h
    have hlower := hc.lower
    refine iff_of_false (fun ⟨_, ho⟩ => absurd ho (by simp)) ?_
    refine not_answerable_of_empty (not_le.mp fun hle => hr ⟨hlower, hle⟩) ?_ ?_
    · intro m hm
      obtain ⟨k, hk⟩ := List.getElem?_of_mem hm
      obtain ⟨hklt, -⟩ := List.getElem?_eq_some_iff.mp hk
      obtain ⟨m', hm', hother⟩ := hall k (Nat.zero_le k) (by omega)
      obtain rfl := Option.some.inj (hk.symm.trans hm')
      exact (hempty hk).mp hother
    · rintro ⟨hone, hnil⟩
      exact ho (Or.inl ⟨hnil, by omega⟩)

/-- **Every legitimate request of a run is answered** exactly when every one of them
is answerable in the state it comes to. -/
theorem answered_run_iff (A : Arbiter) (hA : Equipped A) (calls : List Call)
    (hlegit : (machine A).Along (fun pre _ c => Legit A pre c) initial calls) :
    (machine A).Along (fun _ st c => ∃ answer, (machine A).out st c = .ok answer) initial calls ↔
      (machine A).Along (fun _ st c => Answerable st c) initial calls := by
  have hstep : ∀ pre c post, calls = pre ++ c :: post →
      ((∃ answer, (machine A).out ((machine A).run initial pre) c = .ok answer) ↔
        Answerable ((machine A).run initial pre) c) :=
    fun pre c post heq => answered_iff hA (run_settled A pre) (run_stored A pre)
      (hlegit pre c post heq)
  exact ⟨fun h pre c post heq => (hstep pre c post heq).mp (h pre c post heq),
    fun h pre c post heq => (hstep pre c post heq).mpr (h pre c post heq)⟩

/-! ### Requests that are not answered -/

def sampleText (round : ℤ) (ors : List OrClause) : String :=
  claimJson (some (SigmaContract.sampleContract.roundData round)) (ors.map some)

/-- The text of that claim is the array of its promises, every other text is none. -/
def sampleReader (round : ℤ) (ors : List OrClause) (m : String) :
    Option (List (Option OrClause)) :=
  if m = sampleText round ors then some (ors.map some) else none

theorem sampleReader_abort (round : ℤ) (ors : List OrClause) :
    sampleReader round ors "ABORT" = none :=
  if_neg (claimJson_ne_abort _ _).symm

theorem sampleReader_text (round : ℤ) (ors : List OrClause) :
    sampleReader round ors (sampleText round ors) = some (ors.map some) := if_pos rfl

def sampleArbiter (round : ℤ) (ors : List OrClause) : Arbiter where
  hash := sha256
  contract := SigmaContract.sampleContract
  keys := sampleKey 1002
  toOrs := sampleReader round ors

def sampleCall (m : String) (round : ℤ) (ref : ℕ) (value : String) : Call :=
  ⟨m, round, ⟨ref, value⟩, "[B@1b6d3586", fun k => k + 1⟩

def sampleClaim (round : ℤ) (ors : List OrClause) : Call :=
  sampleCall (sampleText round ors) round 0 "party"

theorem sampleArbiter_claim (round : ℤ) (ors : List OrClause) :
    (sampleArbiter round ors).toOrs (sampleClaim round ors).m = some (ors.map some) := by
  simp only [sampleArbiter, sampleClaim, sampleCall, sampleReader_text]

theorem sampleArbiter_equipped (round : ℤ) (ors : List OrClause) :
    Equipped (sampleArbiter round ors) where
  modulus := show (0 : ℤ) < samplePrime by decide +kernel
  privateKey := Option.some_ne_none _
  parties := le_refl 2
  abort := sampleReader_abort round ors

/-- The promises that the two parties make to the first one for a round. -/
def samplePromise (x : ℕ) (round : ℤ) : Java OrClause :=
  PCS.getPcs sha256 (sampleKey x) (sampleKey 1002).getPublicKeys
    (SigmaContract.sampleContract.roundData round) (sampleKey 1000).getPublicKeys 7
    ⟨1, 2, 3, 4, 5, 6⟩

theorem samplePromise_exists {x : ℕ} (hx : 10 ^ 124 ≤ (sampleKey x).publicKey) (round : ℤ) :
    ∃ or, samplePromise x round = .ok or ∧ or.ands ≠ [] := by
  have : Fact (sampleKey 1002).getPublicKeys.p.toNat.Prime := ⟨samplePrime_prime⟩
  obtain ⟨or, res, hor, hp, -⟩ := getPcs_isPromise sha256 (sampleKey_registered 1002 hx)
    (sampleKey_owned x) (sampleKey_valid 1000) (SigmaContract.sampleContract.roundData round) 7
    ⟨1, 2, 3, 4, 5, 6⟩
  obtain ⟨and0, and1, hands, -⟩ := hp.ands
  exact ⟨or, hor, by rw [hands]; exact List.cons_ne_nil _ _⟩

theorem sampleClaim_legit (round : ℤ) (h1 : 1 ≤ round) (h3 : round ≤ 3) : ∃ or0 or1,
    samplePromise 1000 round = .ok or0 ∧ samplePromise 1001 round = .ok or1 ∧
    Legit (sampleArbiter round [or0, or1]) [] (sampleClaim round [or0, or1]) := by
  obtain ⟨or0, h0, ha0⟩ := samplePromise_exists (x := 1000) (by decide +kernel) round
  obtain ⟨or1, h1', ha1⟩ := samplePromise_exists (x := 1001) (by decide +kernel) round
  have hlower : (0 : ℤ) ≤ round := by omega
  refine ⟨or0, or1, h0, h1', ⟨by simp, hlower, h3, ?_, ?_⟩⟩
  · intro h
    have h' : round = 0 := h
    omega
  · intro _
    refine ⟨[or0, or1], sampleArbiter_claim round [or0, or1], rfl, ?_⟩
    intro or hor
    rcases List.mem_pair.mp hor with rfl | rfl
    · exact ha0
    · exact ha1

/-- The complete claim of the first round is opened when it comes first. -/
theorem sampleClaim_opened {or0 or1 : OrClause}
    (hlegit : Legit (sampleArbiter 1 [or0, or1]) [] (sampleClaim 1 [or0, or1])) :
    Resolved ((machine (sampleArbiter 1 [or0, or1])).out initial (sampleClaim 1 [or0, or1])) ∧
    (machine (sampleArbiter 1 [or0, or1])).run initial [sampleClaim 1 [or0, or1]] =
      ⟨false, [], fun _ => none⟩ := by
  obtain ⟨ors, hm, hlen, hands⟩ := hlegit.claim (le_refl 1)
  obtain ⟨token, ht⟩ := resolveToken_claim (sampleArbiter_equipped 1 [or0, or1]) hm hlen hands
  have hopen := resolveT_opening (sampleArbiter 1 [or0, or1]) initial rfl
    (c := sampleClaim 1 [or0, or1]) (le_refl 1) (Or.inl Int.one_pos)
  constructor
  · refine ⟨token, ?_⟩
    rw [hopen.1, ht]
    rfl
  · rw [Machine.run_cons, Machine.run_nil, hopen.2]
    rfl

theorem verdicts_consistent_sample : ∃ or0 or1,
    samplePromise 1000 1 = .ok or0 ∧ samplePromise 1001 1 = .ok or1 ∧
    Resolved ((machine (sampleArbiter 1 [or0, or1])).out initial (sampleClaim 1 [or0, or1])) ∧
    ¬ Aborted ((machine (sampleArbiter 1 [or0, or1])).out ((machine
      (sampleArbiter 1 [or0, or1])).run initial [sampleClaim 1 [or0, or1]])
        (sampleCall "ABORT" 0 1 "other")) := by
  obtain ⟨or0, or1, h0, h1, hlegit⟩ := sampleClaim_legit 1 (by decide) (by decide)
  have hres := (sampleClaim_opened hlegit).1
  exact ⟨or0, or1, h0, h1, hres, ((verdicts_consistent (sampleArbiter 1 [or0, or1])).1 []
    (sampleClaim 1 [or0, or1]) [] (sampleCall "ABORT" 0 1 "other") hres).1⟩

/-- The first request is a complete claim of the last round. -/
theorem last_round_refused : ∃ or0 or1,
    samplePromise 1000 3 = .ok or0 ∧ samplePromise 1001 3 = .ok or1 ∧
    Legit (sampleArbiter 3 [or0, or1]) [] (sampleClaim 3 [or0, or1]) ∧
    (machine (sampleArbiter 3 [or0, or1])).out initial (sampleClaim 3 [or0, or1])
      = .error .indexOutOfBounds := by
  obtain ⟨or0, or1, h0, h1, hlegit⟩ := sampleClaim_legit 3 (by decide) (by decide)
  exact ⟨or0, or1, h0, h1, hlegit, rfl⟩

theorem last_round_never_resolved_sample : ∃ or0 or1,
    samplePromise 1000 3 = .ok or0 ∧ samplePromise 1001 3 = .ok or1 ∧
    ¬ Resolved ((machine (sampleArbiter 3 [or0, or1])).out ((machine
      (sampleArbiter 3 [or0, or1])).run initial [sampleCall "ABORT" 0 1 "other"])
        (sampleClaim 3 [or0, or1])) := by
  obtain ⟨or0, or1, h0, h1, -⟩ := sampleClaim_legit 3 (by decide) (by decide)
  exact ⟨or0, or1, h0, h1, last_round_never_resolved (sampleArbiter 3 [or0, or1]) (le_refl 2)
    [sampleCall "ABORT" 0 1 "other"] (sampleClaim 3 [or0, or1]) rfl⟩

/-- The claim of the first round, and then an abort of somebody else. -/
theorem answered_run_sample : ∃ or0 or1,
    samplePromise 1000 1 = .ok or0 ∧ samplePromise 1001 1 = .ok or1 ∧
    (machine (sampleArbiter 1 [or0, or1])).Along
      (fun pre _ c => Legit (sampleArbiter 1 [or0, or1]) pre c) initial
      [sampleClaim 1 [or0, or1], sampleCall "ABORT" 0 1 "other"] ∧
    ((machine (sampleArbiter 1 [or0, or1])).Along (fun _ st c => ∃ answer,
        (machine (sampleArbiter 1 [or0, or1])).out st c = .ok answer) initial
        [sampleClaim 1 [or0, or1], sampleCall "ABORT" 0 1 "other"] ↔
      (machine (sampleArbiter 1 [or0, or1])).Along (fun _ st c => Answerable st c) initial
        [sampleClaim 1 [or0, or1], sampleCall "ABORT" 0 1 "other"]) := by
  obtain ⟨or0, or1, h0, h1, hclaim⟩ := sampleClaim_legit 1 (by decide) (by decide)
  have habort : Legit (sampleArbiter 1 [or0, or1]) [sampleClaim 1 [or0, or1]]
      (sampleCall "ABORT" 0 1 "other") := by
    refine ⟨?_, le_refl 0, show (0 : ℤ) ≤ 3 by decide, fun _ => rfl, fun h => absurd h (by decide)⟩
    intro c' hc'
    rw [List.mem_singleton.mp hc']
    exact show (0 : ℕ) ≠ 1 by decide
  have hlegit : (machine (sampleArbiter 1 [or0, or1])).Along
      (fun pre _ c => Legit (sampleArbiter 1 [or0, or1]) pre c) initial
      ([sampleClaim 1 [or0, or1]] ++ [sampleCall "ABORT" 0 1 "other"]) :=
    (machine (sampleArbiter 1 [or0, or1])).along_concat.mpr
      ⟨(machine (sampleArbiter 1 [or0, or1])).along_singleton.mpr hclaim, habort⟩
  exact ⟨or0, or1, h0, h1, hlegit, answered_run_iff (sampleArbiter 1 [or0, or1])
    (sampleArbiter_equipped 1 [or0, or1])
    [sampleClaim 1 [or0, or1], sampleCall "ABORT" 0 1 "other"] hlegit⟩

/-- A first claim of round `2` ends in an exception, and so does an abort after an
opening. -/
theorem requests_unanswered : ∃ or0 or1 or2 or3,
    samplePromise 1000 2 = .ok or0 ∧ samplePromise 1001 2 = .ok or1 ∧
    Legit (sampleArbiter 2 [or0, or1]) [] (sampleClaim 2 [or0, or1]) ∧
    (machine (sampleArbiter 2 [or0, or1])).out initial (sampleClaim 2 [or0, or1])
      = .error .indexOutOfBounds ∧
    samplePromise 1000 1 = .ok or2 ∧ samplePromise 1001 1 = .ok or3 ∧
    Resolved ((machine (sampleArbiter 1 [or2, or3])).out initial (sampleClaim 1 [or2, or3])) ∧
    (machine (sampleArbiter 1 [or2, or3])).out ((machine (sampleArbiter 1 [or2, or3])).run initial
      [sampleClaim 1 [or2, or3]]) (sampleCall "ABORT" 0 1 "other") = .error .nullPointer := by
  obtain ⟨or0, or1, h0, h1, hlegit⟩ := sampleClaim_legit 2 (by decide) (by decide)
  obtain ⟨or2, or3, h2, h3, hlegit'⟩ := sampleClaim_legit 1 (by decide) (by decide)
  obtain ⟨hres, hrun⟩ := sampleClaim_opened hlegit'
  have habort := resolveT_opening (sampleArbiter 1 [or2, or3]) ⟨false, [], fun _ => none⟩ rfl
    (c := sampleCall "ABORT" 0 1 "other") Int.one_nonneg (Or.inr rfl)
  refine ⟨or0, or1, or2, or3, h0, h1, hlegit, rfl, h2, h3, hres, ?_⟩
  rw [hrun]
  exact habort.1.trans (by rw [resolveToken_abort (sampleArbiter_equipped 1 [or2, or3]) rfl]; rfl)

end SXP.Sigma.TrentSolver
