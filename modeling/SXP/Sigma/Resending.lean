import SXP.Sigma.Ledger

/-!
# A claim that comes again

A claim that is recorded may reach the solver once more.  The second loop is
meant for another claim of the same sender, and lets a claim pass that is at
the index of its round: such a claim is recorded a second time.  One that has
been moved from there is held against its sender.

* `Exposed`: the claim at an index is the one the second or the third loop removes.
* `resent_iff`: one call.  `resends_iff`: runs.
-/

namespace SXP.Sigma.TrentSolver

open SXP.Lib SXP.Lib.Java

variable {A : Arbiter} {st : TrentSolver} {l : Ledger} {c : Call} {j : ℕ}

/-- The same message for the same round from the same sender, as texts. -/
def sameClaim (c c' : Call) : Bool :=
  c'.m == c.m && c'.round == c.round && c'.senderId.value == c.senderId.value

/-- The claim of the call is recorded at the index `j`. -/
def Copy (l : Ledger) (c : Call) (j : ℕ) : Prop :=
  ∃ calls, l[j]? = some calls ∧ ∃ c' ∈ calls, sameClaim c c' = true

def Resends (l : Ledger) (c : Call) : Prop := 0 < Shelves.count (sameClaim c) l

/-- The solver with none of the claims of a party. -/
def without (st : TrentSolver) (s : String) : TrentSolver :=
  { st with possiblyHonestClaims := st.possiblyHonestClaims.map fun m => m.remove s }

/-- The call puts the party into `dishonestClaims`: it is there even if nobody was before. -/
def Declares (A : Arbiter) (st : TrentSolver) (c : Call) (s : String) : Prop :=
  ((machine A).next { st with dishonestClaims := fun _ => none } c).dishonestClaims s ≠ none

/-- The sender is put into `dishonestClaims` only if it would be without its own claims, and
its claim is recorded once. -/
def Harmless (A : Arbiter) (st : TrentSolver) (l : Ledger) (c : Call) : Prop :=
  (Declares A st c c.senderId.value →
    Declares A (st.without c.senderId.value) c c.senderId.value) ∧
  Shelves.count (sameClaim c) (record A st c l) = 1

/-- Another party is stored behind the index of the round. -/
def Overtakes (A : Arbiter) (st : TrentSolver) (c : Call) : Prop :=
  ∃ (k : ℕ) (m : Claims), c.round < k ∧ k < A.contract.parties.length ∧
    st.possiblyHonestClaims[k]? = some m ∧
    ∃ e ∈ m, e.1.ref ≠ c.senderId.ref ∧ e.1.value ≠ c.senderId.value

/-- The claim at the index `j` has been moved behind its round, and it is there the first one
of its sender with another message than the one at the index of the round; or, where all
messages of its sender are the one at that index, it is the first claim behind it that is not
of the calling object. -/
def Exposed (A : Arbiter) (st : TrentSolver) (c : Call) (j : ℕ) : Prop :=
  c.round < j ∧
  ((∀ i < j, ∀ z, st.Owns c.senderId.value i z →
      z ≠ c.m ∧ st.Owns c.senderId.value c.round.toNat z) ∨
    (st.Owns c.senderId.value c.round.toNat c.m ∧
      (∀ i z, st.Owns c.senderId.value i z → z = c.m) ∧ j < A.contract.parties.length ∧
      (∃ m, st.possiblyHonestClaims[j]? = some m ∧ m.other c.senderId ≠ none) ∧
      ∀ i : ℕ, c.round < i → i < j → ∀ m, st.possiblyHonestClaims[i]? = some m →
        m.other c.senderId = none))

/-- Another object is stored in front of the round before, or another party is stored behind the
round and the recorded claim is not the one that is removed. -/
def Spared (A : Arbiter) (st : TrentSolver) (l : Ledger) (c : Call) : Prop :=
  (∃ (i : ℕ) (m : Claims), (i : ℤ) + 1 < c.round ∧ st.possiblyHonestClaims[i]? = some m ∧
    m.other c.senderId ≠ none) ∨
  (Overtakes A st c ∧ ∀ j, Copy l c j → ¬ Exposed A st c j)

theorem sameClaim_iff {c c' : Call} : sameClaim c c' = true ↔
    c'.m = c.m ∧ c'.round = c.round ∧ c'.senderId.value = c.senderId.value := by
  simp only [sameClaim, Bool.and_eq_true, beq_iff_eq, and_assoc]

theorem sameClaim_self (c : Call) : sameClaim c c = true := sameClaim_iff.mpr ⟨rfl, rfl, rfl⟩

theorem sameClaim_congr {c c' : Call} (h : sameClaim c c' = true) :
    sameClaim c = sameClaim c' := by
  obtain ⟨hm, hround, hs⟩ := sameClaim_iff.mp h
  funext c''
  rw [sameClaim, sameClaim, hm, hround, hs]

/-! ### Who is declared dishonest -/

theorem declares_iff (hset : st.Settled) {s : String} :
    Declares A st c s ↔ ∃ k, removal A st c = some (k, s) := by
  unfold Declares
  have hremoval : removal A { st with dishonestClaims := fun _ => none } c = removal A st c := rfl
  have hnobody : ∀ v, TrentSolver.dishonestClaims { st with dishonestClaims := fun _ => none } v =
      none := fun _ => rfl
  have hset' : TrentSolver.Settled { st with dishonestClaims := fun _ => none } := hset
  rw [← hremoval]
  generalize { st with dishonestClaims := fun _ => none } = st₀ at hnobody hset' ⊢
  have hx := enters A hset' c []
  generalize (machine A).next st₀ c = st' at hx ⊢
  generalize record A st₀ c [] = l' at hx
  cases hx with
  | removes k v ev h _ =>
    rw [h]
    by_cases hs : s = v
    · refine iff_of_true ?_ ⟨k, by rw [hs]⟩
      rw [show ((st₀.accused v ev).remove k v).dishonestClaims s = some ev from if_pos hs]
      exact Option.some_ne_none _
    · refine iff_of_false (fun hne => hne ((if_neg hs).trans (hnobody s))) ?_
      rintro ⟨k', hk'⟩
      exact hs (Prod.mk.inj (Option.some.inj hk')).2.symm
  | stores h =>
    rw [h]
    exact iff_of_false (fun hne => hne (hnobody s)) fun ⟨k, hk⟩ => absurd hk (by simp)
  | nothing st' h _ _ hdishonest =>
    rw [h]
    refine iff_of_false (fun hne => hne ?_) fun ⟨k, hk⟩ => absurd hk (by simp)
    rw [hdishonest]
    exact hnobody s

theorem without_getElem? (st : TrentSolver) (s : String) (i : ℕ) :
    (st.without s).possiblyHonestClaims[i]? =
      st.possiblyHonestClaims[i]?.map fun m => m.remove s := List.getElem?_map

theorem without_settled (h : st.Settled) (s : String) : (st.without s).Settled := by
  intro ho
  have hnil : st.possiblyHonestClaims = [] := h ho
  rw [without, hnil]
  rfl

theorem get_remove (m : Claims) (s : String) : (m.remove s).get s = none := by
  rw [Claims.get, Option.map_eq_none_iff, List.find?_eq_none]
  intro e he
  rw [Claims.remove, List.mem_filter, bne_iff_ne] at he
  simpa using he.2

/-- **Without its own claims** the sender is declared dishonest if another party is behind it,
unless the first loop finds somebody. -/
theorem declares_without_iff (hset : st.Settled)
    (hfront : ∀ i : ℕ, (i : ℤ) + 1 < c.round → ∃ m, st.possiblyHonestClaims[i]? = some m ∧
      m.other c.senderId = none) :
    Declares A (st.without c.senderId.value) c c.senderId.value ↔ Overtakes A st c := by
  have ha : accuses (st.without c.senderId.value).possiblyHonestClaims c.senderId 0
      (c.round - 1).toNat = .ok none := by
    refine accuses_first_eq_none.mpr fun i hi => ?_
    obtain ⟨m, hm, hother⟩ := hfront i hi
    refine ⟨m.remove c.senderId.value, by rw [without_getElem?, hm]; rfl, ?_⟩
    rw [Claims.other, List.find?_eq_none] at hother ⊢
    exact fun e he => hother e (List.mem_of_mem_filter he)
  have hr : repeats (st.without c.senderId.value).possiblyHonestClaims c.senderId.value
      c.round = none := by
    refine repeats_eq_none.mpr fun m hm hget => ?_
    obtain ⟨m', -, rfl⟩ := List.mem_map.mp hm
    exact absurd (get_remove m' _) hget
  have hovertakes : Overtakes A st c ↔ overtaken (st.without c.senderId.value).possiblyHonestClaims
      c.senderId c.round A.contract.parties.length ≠ none := by
    rw [Ne, overtaken_eq_none]
    push Not
    constructor
    · rintro ⟨k, m, hk, hN, hm, e, he, href, hv⟩
      refine ⟨k, hk, hN, m.remove c.senderId.value, by rw [without_getElem?, hm]; rfl, ?_⟩
      intro hnone
      have hno := List.find?_eq_none.mp hnone e (List.mem_filter.mpr ⟨he, bne_iff_ne.mpr hv⟩)
      exact hno (bne_iff_ne.mpr href)
    · rintro ⟨k, hk, hN, m', hm', hother⟩
      rw [without_getElem?, Option.map_eq_some_iff] at hm'
      obtain ⟨m, hm, rfl⟩ := hm'
      obtain ⟨e, he⟩ := Option.ne_none_iff_exists'.mp hother
      have hin := List.mem_filter.mp (Claims.mem_of_other he)
      have href : (e.1.ref != c.senderId.ref) = true := by
        rw [Claims.other] at he
        have hfound := List.find?_some he
        exact hfound
      exact ⟨k, m, hk, hN, hm, e, hin.1, bne_iff_ne.mp href, bne_iff_ne.mp hin.2⟩
  rw [declares_iff (without_settled hset _), hovertakes, removal, ha]
  simp only [hr]
  cases overtaken (st.without c.senderId.value).possiblyHonestClaims c.senderId c.round
    A.contract.parties.length with
  | none => simp
  | some found => simp

/-! ### The claims of one sender -/

/-- No claim of a sender is in front of the round of another one. -/
def Paired (l : Ledger) : Prop :=
  ∀ (i j : ℕ) (calls calls' : List Call), l[i]? = some calls → l[j]? = some calls' →
    ∀ c ∈ calls, ∀ c' ∈ calls', c.senderId.value = c'.senderId.value → c.round ≤ j

/-- Every claim is recorded once at most. -/
def Single (l : Ledger) : Prop := ∀ c, Shelves.count (sameClaim c) l ≤ 1

theorem initial_paired : Paired [] := fun i j calls calls' h => absurd h (by simp)

theorem initial_single : Single [] := fun _ => Nat.zero_le 1

/-- A claim that passes is recorded at the index of the sender's first claim. -/
theorem Paired.shelve (hp : Paired l) (h : Keeps st l) {c : Call}
    (hr : repeats st.possiblyHonestClaims c.senderId.value c.round = none) (h0 : 0 ≤ c.round)
    (hk : c.round.toNat ≤ l.length) : Paired (Shelves.shelve c.round.toNat c l) := by
  intro i j calls calls' hi hj a ha b hb hsame
  rcases Shelves.mem_of_shelve hk hi ha with ⟨-, rfl⟩ | ⟨i', calls'', hi', ha', -⟩
  · rcases Shelves.mem_of_shelve hk hj hb with ⟨rfl, rfl⟩ | ⟨j', cs3, hj', hb', hjj⟩
    · omega
    · have hle := h.not_in_front hr hj' hb' hsame.symm
      omega
  · rcases Shelves.mem_of_shelve hk hj hb with ⟨rfl, rfl⟩ | ⟨j', cs3, hj', hb', hjj⟩
    · -- the sender has a claim at the index of the round already
      obtain ⟨m, hm, -, hget⟩ := h.nonempty hi' ha'
      rw [hsame] at hget
      obtain ⟨r, -, hindex, ⟨m', hm', hget'⟩, -⟩ := h.first_equal hm hget
      have hround := repeats_eq_none.mp hr m (List.mem_of_getElem? hm) (by rw [hget]; simp)
      obtain ⟨calls'', hcalls, b', hb', hbs, -⟩ := h.exists_of_owns ⟨m', hm', hget'⟩
      have hle := hp i' r _ _ hi' hcalls a ha' b' hb' (hsame.trans hbs.symm)
      omega
    · have hle := hp i' j' _ _ hi' hj' a ha' b hb' hsame
      omega

theorem Paired.next (hp : Paired l) (h : Keeps st l) (c : Call) : Paired (record A st c l) := by
  have hx := enters A h.settled c l
  generalize (machine A).next st c = st' at hx
  generalize record A st c l = l' at hx ⊢
  cases hx with
  | removes k v ev _ _ =>
    intro i j calls calls' hi hj a ha b hb hsame
    obtain ⟨s, hs, ha', -⟩ := Shelves.mem_of_strike hi ha
    obtain ⟨s', hs', hb', -⟩ := Shelves.mem_of_strike hj hb
    exact hp i j s s' hs hs' a ha' b hb' hsame
  | stores _ _ _ hr _ _ h0 hle =>
    exact hp.shelve h hr h0 (by rw [← h.length]; omega)
  | nothing => exact hp

/-- A claim is recorded once at most, if the calls that repeat one are harmless. -/
theorem Single.next (h1 : Single l) (h : Keeps st l) {c : Call}
    (hharmless : Resends l c → Harmless A st l c) : Single (record A st c l) := by
  have hx := enters A h.settled c l
  have honce : Resends l c → Shelves.count (sameClaim c) (record A st c l) = 1 :=
    fun hr => (hharmless hr).2
  generalize (machine A).next st c = st' at hx
  generalize record A st c l = l' at hx honce ⊢
  intro c'
  cases hx with
  | removes k v ev _ _ => exact (Shelves.count_strike_le _ _ k l).trans (h1 c')
  | stores _ _ _ _ _ _ h0 hle =>
    have hk : c.round.toNat ≤ l.length := by
      rw [← h.length]
      omega
    rw [Shelves.count_shelve hk] at honce ⊢
    rw [if_pos (sameClaim_self c)] at honce
    by_cases hsame : sameClaim c' c = true
    · rw [if_pos hsame, sameClaim_congr hsame]
      by_contra hmore
      have hr : Resends l c := Nat.pos_of_ne_zero fun hzero => hmore (by rw [hzero])
      have htwo := honce hr
      have hpos : 0 < Shelves.count (sameClaim c) l := hr
      omega
    · rw [if_neg hsame]
      exact h1 c'
  | nothing => exact h1 c'

/-! ### One call -/

theorem Owns.unique {s x y : String} {k : ℕ} (hx : st.Owns s k x) (hy : st.Owns s k y) :
    x = y := by
  obtain ⟨m, hm, hx⟩ := hx
  obtain ⟨m', hm', hy⟩ := hy
  obtain rfl := Option.some.inj (hm.symm.trans hm')
  exact Option.some.inj (hx.symm.trans hy)

theorem resends_iff_copy : Resends l c ↔ ∃ j, Copy l c j := Shelves.count_pos_iff

theorem Single.copy_unique (h1 : Single l) {i j : ℕ} (hi : Copy l c i) (hj : Copy l c j) :
    i = j := by
  obtain ⟨calls, hci, hi⟩ := hi
  obtain ⟨calls', hcj, hj⟩ := hj
  have hle := h1 c
  rcases Nat.lt_trichotomy i j with hlt | heq | hlt
  · have := Shelves.count_two hlt hci hcj hi hj
    omega
  · exact heq
  · have := Shelves.count_two hlt hcj hci hj hi
    omega

theorem Copy.owns (hj : Copy l c j) (h : Keeps st l) : st.Owns c.senderId.value j c.m := by
  obtain ⟨calls, hcalls, a, ha, hsame⟩ := hj
  obtain ⟨hm, -, hs⟩ := sameClaim_iff.mp hsame
  obtain ⟨m, hm', -, hget⟩ := h.nonempty hcalls ha
  rw [hs, hm] at hget
  exact ⟨m, hm', hget⟩

theorem Copy.round (hj : Copy l c j) (h : Keeps st l) : 0 ≤ c.round ∧ c.round ≤ j := by
  obtain ⟨calls, hcalls, a, ha, hsame⟩ := hj
  rw [← (sameClaim_iff.mp hsame).2.1]
  exact h.round j calls hcalls a ha

theorem Copy.behind (hj : Copy l c j) (h : Keeps st l) (hp : Paired l) {i : ℕ} {z : String}
    (hi : st.Owns c.senderId.value i z) : c.round ≤ i := by
  obtain ⟨calls, hcalls, a, ha, hsame⟩ := hj
  obtain ⟨-, hround, hs⟩ := sameClaim_iff.mp hsame
  obtain ⟨calls', hcalls', b, hb, hbs, -⟩ := h.exists_of_owns hi
  rw [← hround]
  exact hp j i calls calls' hcalls hcalls' a ha b hb (hs.trans hbs.symm)

/-- **What is removed** from the claims of the caller is the copy if and only if it is
exposed. -/
theorem Copy.removed_iff (hj : Copy l c j) (h : Keeps st l) (hp : Paired l)
    (ha : accuses st.possiblyHonestClaims c.senderId 0 (c.round - 1).toNat = .ok none)
    {k : ℕ} (hremoval : removal A st c = some (k, c.senderId.value)) :
    k = j ↔ Exposed A st c j := by
  obtain ⟨h0, hle⟩ := hj.round h
  have hown := hj.owns h
  rw [removal, ha] at hremoval
  dsimp only at hremoval
  cases hr : repeats st.possiblyHonestClaims c.senderId.value c.round with
  | some found =>
    obtain ⟨k', x⟩ := found
    rw [hr] at hremoval
    obtain rfl : k' = k := (Prod.mk.inj (Option.some.inj hremoval)).1
    obtain ⟨hround, howns, hbefore⟩ := h.repeats_eq_some hr
    have hk := hj.behind h hp howns
    constructor
    · rintro rfl
      obtain rfl := howns.unique hown
      refine ⟨by omega, Or.inl fun i hi z hz => ?_⟩
      obtain ⟨hne, r, -, hreq, hr'⟩ := hbefore i hi z hz
      refine ⟨hne, ?_⟩
      rwa [← hreq, Int.toNat_natCast]
    · rintro ⟨hlt, hfirst | ⟨hat, hall, -⟩⟩
      · rcases Nat.lt_trichotomy k' j with hkj | heq | hjk
        · -- the copy is behind a claim that is removed before it
          obtain ⟨-, hat⟩ := hfirst k' hkj x howns
          obtain ⟨hne, -⟩ := hbefore c.round.toNat (by omega) x hat
          exact absurd rfl hne
        · exact heq
        · obtain ⟨-, r, -, hreq, hat⟩ := hbefore j hjk c.m hown
          obtain ⟨hne, -⟩ := hfirst r (by omega) c.m hat
          exact absurd rfl hne
      · obtain ⟨hne, -⟩ := hbefore c.round.toNat (by omega) c.m hat
        exact absurd (hall k' x howns).symm hne
  | none =>
    rw [hr] at hremoval
    -- all messages of the sender are the one at the index of the round
    have hat : ∀ i z, st.Owns c.senderId.value i z →
        st.Owns c.senderId.value c.round.toNat z := by
      rintro i z ⟨m, hm, hz⟩
      obtain ⟨r, -, hindex, howns, -⟩ := h.first_equal hm hz
      have hround := repeats_eq_none.mp hr m (List.mem_of_getElem? hm) (by rw [hz]; simp)
      rw [hindex] at hround
      rwa [← hround, Int.toNat_natCast]
    have hall : ∀ i z, st.Owns c.senderId.value i z → z = c.m :=
      fun i z hz => (hat i z hz).unique (hat j c.m hown)
    cases ho : overtaken st.possiblyHonestClaims c.senderId c.round A.contract.parties.length with
    | none =>
      rw [ho] at hremoval
      exact absurd hremoval (by simp)
    | some found =>
      obtain ⟨k', e⟩ := found
      rw [ho] at hremoval
      obtain rfl : k' = k := (Prod.mk.inj (Option.some.inj hremoval)).1
      obtain ⟨hlt, hN, ⟨m, hm, hother⟩, hbefore⟩ := overtaken_first ho
      constructor
      · rintro rfl
        exact ⟨hlt, Or.inr ⟨hat k' c.m hown, hall, hN, ⟨m, hm, by rw [hother]; simp⟩, hbefore⟩⟩
      · rintro ⟨hltj, hfirst | ⟨-, -, -, ⟨m', hm', hother'⟩, hbefore'⟩⟩
        · obtain ⟨hne, -⟩ := hfirst c.round.toNat (by omega) c.m (hat j c.m hown)
          exact absurd rfl hne
        · rcases Nat.lt_trichotomy k' j with hkj | heq | hjk
          · rw [hbefore' k' hlt hkj m hm] at hother
            exact absurd hother (by simp)
          · exact heq
          · exact absurd (hbefore j hltj hjk m' hm') hother'

/-- Who is removed is the sender, unless the first loop finds somebody. -/
theorem removal_sender
    (ha : accuses st.possiblyHonestClaims c.senderId 0 (c.round - 1).toNat = .ok none) {k : ℕ}
    {v : String} (h : removal A st c = some (k, v)) : v = c.senderId.value := by
  rw [removal, ha] at h
  dsimp only at h
  cases hr : repeats st.possiblyHonestClaims c.senderId.value c.round with
  | some found =>
    rw [hr] at h
    exact (Prod.mk.inj (Option.some.inj h)).2.symm
  | none =>
    rw [hr] at h
    obtain ⟨e, -, heq⟩ := Option.map_eq_some_iff.mp h
    exact (Prod.mk.inj heq).2.symm

theorem passes_of_removal
    (ha : accuses st.possiblyHonestClaims c.senderId 0 (c.round - 1).toNat = .ok none)
    (h : removal A st c = none) : Passes A st c := by
  rw [removal, ha] at h
  dsimp only at h
  cases hr : repeats st.possiblyHonestClaims c.senderId.value c.round with
  | some found =>
    rw [hr] at h
    exact absurd h (by simp)
  | none =>
    rw [hr] at h
    exact passes_iff.mpr ⟨ha, hr, Option.map_eq_none_iff.mp h⟩

/-- The copy stays if and only if it is not at the index from which the sender is removed. -/
theorem Single.strike_iff (h1 : Single l) (hj : Copy l c j) (k : ℕ) :
    Shelves.count (sameClaim c)
      (Shelves.strike (fun c' => c'.senderId.value != c.senderId.value) k l) = 1 ↔ k ≠ j := by
  have hle := (Shelves.count_strike_le (sameClaim c)
    (fun c' => c'.senderId.value != c.senderId.value) k l).trans (h1 c)
  constructor
  · rintro hone rfl
    obtain ⟨i, calls, hcalls, a, ha, hsame⟩ := Shelves.count_pos_iff.mp (hone ▸ Nat.zero_lt_one)
    obtain ⟨calls', hcalls', ha', hp⟩ := Shelves.mem_of_strike hcalls ha
    have hik : i = k := h1.copy_unique ⟨calls', hcalls', a, ha', hsame⟩ hj
    exact absurd (sameClaim_iff.mp hsame).2.2 (bne_iff_ne.mp (hp hik.symm))
  · intro hk
    obtain ⟨calls, hcalls, a, ha, hsame⟩ := hj
    obtain ⟨calls', hcalls', ha'⟩ := Shelves.mem_strike
      (p := fun c' => c'.senderId.value != c.senderId.value) hcalls ha fun hkj => absurd hkj hk
    exact le_antisymm hle (Shelves.count_pos_iff.mpr ⟨j, calls', hcalls', a, ha', hsame⟩)

/-- **A claim that comes again is harmless** if and only if it is spared. -/
theorem resent_iff (h : Keeps st l) (hp : Paired l) (h1 : Single l) (hr : Resends l c) :
    Harmless A st l c ↔ Spared A st l c := by
  obtain ⟨j, hj⟩ := resends_iff_copy.mp hr
  obtain ⟨h0, hle⟩ := hj.round h
  obtain ⟨mj, hmj, hgetj⟩ := hj.owns h
  have hlen := (List.getElem?_eq_some_iff.mp hmj).1
  have hone : Shelves.count (sameClaim c) l = 1 := le_antisymm (h1 c) hr
  unfold Harmless Spared
  rw [declares_iff h.settled]
  cases ha : accuses st.possiblyHonestClaims c.senderId 0 (c.round - 1).toNat with
  | error e =>
    have := (accuses_error ha).1
    omega
  | ok found =>
    cases found with
    | some found =>
      obtain ⟨k, s, x⟩ := found
      obtain ⟨-, hk, m, hm, hother⟩ := accuses_eq_some ha
      have hremoval : removal A st c = some (k, s.value) := by rw [removal, ha]
      -- it is not the sender, whose claims are not in front of the round
      have hs : s.value ≠ c.senderId.value := by
        intro hs
        obtain ⟨y, hy⟩ := owns_of_mem hm (Claims.mem_of_other hother)
        rw [hs] at hy
        have := hj.behind h hp hy
        omega
      refine iff_of_true ⟨?_, ?_⟩ (Or.inl ⟨k, m, by omega, hm, by rw [hother]; simp⟩)
      · rintro ⟨k', hk'⟩
        rw [hremoval] at hk'
        exact absurd (Prod.mk.inj (Option.some.inj hk')).2 hs
      · rw [record, hremoval]
        refine (Shelves.count_strike_of_imp (fun c' hc' => ?_) k l).trans hone
        rw [(sameClaim_iff.mp hc').2.2]
        exact bne_iff_ne.mpr (Ne.symm hs)
    | none =>
      have hfront := accuses_first_eq_none.mp ha
      have hnot : ¬ ∃ (i : ℕ) (m : Claims), (i : ℤ) + 1 < c.round ∧
          st.possiblyHonestClaims[i]? = some m ∧ m.other c.senderId ≠ none := by
        rintro ⟨i, m, hi, hm, hother⟩
        obtain ⟨m', hm', hnone⟩ := hfront i hi
        obtain rfl := Option.some.inj (hm.symm.trans hm')
        exact hother hnone
      rw [or_iff_right hnot, declares_without_iff h.settled hfront]
      cases hremoval : removal A st c with
      | some found =>
        obtain ⟨k, v⟩ := found
        obtain rfl : v = c.senderId.value := removal_sender ha hremoval
        have hremoved := hj.removed_iff h hp ha hremoval
        rw [record, hremoval]
        constructor
        · rintro ⟨hovertakes, hcount⟩
          refine ⟨hovertakes ⟨k, rfl⟩, fun j' hj' hexposed => ?_⟩
          obtain rfl := h1.copy_unique hj' hj
          exact (h1.strike_iff hj k).mp hcount (hremoved.mpr hexposed)
        · rintro ⟨hovertakes, hno⟩
          exact ⟨fun _ => hovertakes,
            (h1.strike_iff hj k).mpr fun hkj => hno j hj (hremoved.mp hkj)⟩
      | none =>
        -- nothing is found, and the claim is recorded once more
        have hpasses := passes_of_removal ha hremoval
        have hstores : stores A st c = true :=
          stores_iff.mpr ⟨hpasses, h.not_opened hmj, h0, by omega⟩
        have hk : c.round.toNat ≤ l.length := by
          rw [← h.length]
          omega
        refine iff_of_false ?_ ?_
        · rintro ⟨-, hcount⟩
          rw [record, hremoval, hstores] at hcount
          simp only [if_true] at hcount
          rw [Shelves.count_shelve hk, if_pos (sameClaim_self c), hone] at hcount
          exact absurd hcount (by decide)
        · rintro ⟨⟨k, m, hk, hN, hm, e, he, href, -⟩, -⟩
          have hnone := List.find?_eq_none.mp (hpasses.behind k hk hN m hm) e he
          exact hnone (bne_iff_ne.mpr href)

/-! ### Runs -/

/-- **Sending a claim again is harmless** in exactly the runs in which every claim that comes
again is spared. -/
theorem resends_iff (A : Arbiter) (calls : List Call) :
    (books A).Along (fun _ t c => Resends t.2 c → Harmless A t.1 t.2 c) (initial, []) calls ↔
    (books A).Along (fun _ t c => Resends t.2 c → Spared A t.1 t.2 c) (initial, []) calls := by
  induction calls using List.reverseRecOn with
  | nil => exact iff_of_true ((books A).along_nil _ _) ((books A).along_nil _ _)
  | append_singleton calls c ih =>
    rw [Machine.along_concat, Machine.along_concat, ← ih]
    refine and_congr_right fun hharmless => ?_
    obtain ⟨hkeeps, hpaired, hsingle⟩ := (books A).invariant_along (s := (initial, []))
      (I := fun t => Keeps t.1 t.2 ∧ Paired t.2 ∧ Single t.2)
      ⟨initial_keeps, initial_paired, initial_single⟩
      (fun _ t c h hc => ⟨h.1.next c, h.2.1.next h.1 c, h.2.2.next h.1 hc⟩) calls hharmless
    exact imp_congr_right fun hr => resent_iff hkeeps hpaired hsingle hr

/-! ### An abort that is sent again -/

def abortAgain : List Call :=
  [sampleCall "ABORT" 0 0 "first", sampleCall "ABORT" 0 1 "first"]

/-- The second call records the claim of the first once more, and when it comes a third time
its sender is declared dishonest, though nobody else has called. -/
theorem abort_recorded_twice :
    Shelves.count (sameClaim (sampleCall "ABORT" 0 2 "first"))
      (ledger (sampleArbiter 0 []) abortAgain) = 2 ∧
    Declares (sampleArbiter 0 []) ((machine (sampleArbiter 0 [])).run initial abortAgain)
      (sampleCall "ABORT" 0 2 "first") "first" ∧
    ¬ (books (sampleArbiter 0 [])).Along (fun _ t c => Resends t.2 c →
      Harmless (sampleArbiter 0 []) t.1 t.2 c) (initial, []) abortAgain := by
  refine ⟨by decide, by unfold Declares; decide, ?_⟩
  intro h
  have hconcat : (books (sampleArbiter 0 [])).Along (fun _ t c => Resends t.2 c →
      Harmless (sampleArbiter 0 []) t.1 t.2 c) (initial, [])
      ([sampleCall "ABORT" 0 0 "first"] ++ [sampleCall "ABORT" 0 1 "first"]) := h
  have hlast := ((books (sampleArbiter 0 [])).along_concat.mp hconcat).2
  exact absurd (hlast (by unfold Resends; decide)).2 (by decide)

end SXP.Sigma.TrentSolver
