import SXP.Sigma.Arrival
import SXP.Sigma.Ledger

/-!
# Whether dishonesty is permanent

A party that has been declared dishonest is meant to be answered no more.  The
solver does not look at `dishonestClaims` when a call comes in, so such a party
is refused only when its call is caught by the loops; and a claim is removed
from one map, so the party keeps those it has in others.

`permanent_iff` gives the runs in which neither happens.
-/

namespace SXP.Sigma.TrentSolver

open SXP.Lib SXP.Lib.Java

variable {A : Arbiter} {st : TrentSolver} {c : Call}

def Recorded (st : TrentSolver) (v : String) : Prop :=
  ∃ (k : ℕ) (m : Claims), st.possiblyHonestClaims[k]? = some m ∧ ∃ e ∈ m, e.1.value = v

/-- Nobody is dishonest and possibly honest at once. -/
def Separate (st : TrentSolver) : Prop := ∀ v, st.dishonestClaims v ≠ none → ¬ st.Recorded v

/-- A party that is dishonest gets null, and nothing is recorded. -/
def Refused (A : Arbiter) (st : TrentSolver) (c : Call) : Prop :=
  st.dishonestClaims c.senderId.value ≠ none → (machine A).out st c = .ok none ∧
    ((machine A).next st c).possiblyHonestClaims = st.possiblyHonestClaims

def OnlyAt (st : TrentSolver) (v : String) (k : ℕ) : Prop :=
  ∀ (i : ℕ) (m : Claims), i ≠ k → st.possiblyHonestClaims[i]? = some m → ∀ e ∈ m, e.1.value ≠ v

/-- Nobody is removed from one map and left in another.  The first object in front of the round
that is not the sender has no claim in another map.  If there is none, nothing is found against
the sender, or it has claims in one map at most, which is not the one of the round. -/
structure Clears (A : Arbiter) (st : TrentSolver) (c : Call) : Prop where
  found : ∀ (k : ℕ) (m : Claims) (e : StringRef × String), (k : ℤ) + 1 < c.round →
    st.possiblyHonestClaims[k]? = some m → m.other c.senderId = some e →
    (∀ i < k, ∃ m', st.possiblyHonestClaims[i]? = some m' ∧ m'.other c.senderId = none) →
    st.OnlyAt e.1.value k
  sender : (∀ i : ℕ, (i : ℤ) + 1 < c.round → ∃ m, st.possiblyHonestClaims[i]? = some m ∧
    m.other c.senderId = none) → Passes A st c ∨
    ∃ k : ℕ, (k : ℤ) ≠ c.round ∧ st.OnlyAt c.senderId.value k

/-- A party that is dishonest calls with a round for which the first loop finds nobody and the
third loop somebody. -/
def Caught (A : Arbiter) (st : TrentSolver) (c : Call) : Prop :=
  st.dishonestClaims c.senderId.value ≠ none →
    (∀ i : ℕ, (i : ℤ) + 1 < c.round → ∃ m, st.possiblyHonestClaims[i]? = some m ∧
      m.other c.senderId = none) ∧
    ∃ (k : ℕ) (m : Claims), c.round < k ∧ k < A.contract.parties.length ∧
      st.possiblyHonestClaims[k]? = some m ∧ m.other c.senderId ≠ none

theorem caught_iff : Caught A st c ↔ (st.dishonestClaims c.senderId.value ≠ none →
    accuses st.possiblyHonestClaims c.senderId 0 (c.round - 1).toNat = .ok none ∧
    overtaken st.possiblyHonestClaims c.senderId c.round A.contract.parties.length ≠ none) := by
  refine imp_congr_right fun _ => and_congr ?_ ?_
  · exact accuses_first_eq_none.symm
  · rw [Ne, overtaken_eq_none]
    push Not
    exact exists_congr fun k => ⟨fun ⟨m, h1, h2, h3, h4⟩ => ⟨h1, h2, m, h3, h4⟩,
      fun ⟨h1, h2, m, h3, h4⟩ => ⟨m, h1, h2, h3, h4⟩⟩

/-! ### What is recorded after a call -/

theorem getElem?_remove (st : TrentSolver) (k i : ℕ) (v : String) :
    (st.remove k v).possiblyHonestClaims[i]? = st.possiblyHonestClaims[i]?.map
      fun m => if k = i then m.remove v else m := by
  exact Shelves.getElem?_strike _ k i _

theorem Recorded.of_remove {k : ℕ} {v v' : String} (h : (st.remove k v).Recorded v') :
    st.Recorded v' := by
  obtain ⟨i, m, hm, e, he, hv⟩ := h
  obtain ⟨m', hm', he', -⟩ := Shelves.mem_of_strike (l := st.possiblyHonestClaims) hm he
  exact ⟨i, m', hm', e, he', hv⟩

theorem remove_of_not_recorded {v : String} (h : ¬ st.Recorded v) (k : ℕ) :
    (st.remove k v).possiblyHonestClaims = st.possiblyHonestClaims := by
  refine List.ext_getElem? fun i => ?_
  rw [getElem?_remove]
  cases hm : st.possiblyHonestClaims[i]? with
  | none => rfl
  | some m =>
    rw [Option.map_some]
    split
    · refine congrArg some (List.filter_eq_self.mpr fun e he => bne_iff_ne.mpr ?_)
      exact fun hv => h ⟨i, m, hm, e, he, hv⟩
    · rfl

theorem not_recorded_remove {k : ℕ} {v : String} :
    ¬ (st.remove k v).Recorded v ↔ st.OnlyAt v k := by
  constructor
  · intro h i m hi hm e he hv
    refine h ⟨i, m, ?_, e, he, hv⟩
    rw [getElem?_remove, hm, Option.map_some, if_neg (Ne.symm hi)]
  · rintro h ⟨i, m, hm, e, he, hv⟩
    obtain ⟨m', hm', he', hp⟩ := Shelves.mem_of_strike (l := st.possiblyHonestClaims) hm he
    by_cases hi : k = i
    · exact absurd hv (bne_iff_ne.mp (hp hi))
    · exact h i m' (Ne.symm hi) hm' e he' hv

theorem OnlyAt.eq {v x : String} {i k : ℕ} (h : st.OnlyAt v i) (hk : st.Owns v k x) : k = i := by
  obtain ⟨m, hm, hx⟩ := hk
  obtain ⟨e, he, hv⟩ := Claims.exists_of_get hx
  by_contra hne
  exact h k m hne hm e he hv

/-- **Whoever is removed is removed altogether**, if and only if the call is one that clears. -/
theorem clears_iff {l : Ledger} (h : Keeps st l) :
    Clears A st c ↔ ∀ k v, removal A st c = some (k, v) → st.OnlyAt v k := by
  cases ha : accuses st.possiblyHonestClaims c.senderId 0 (c.round - 1).toNat with
  | error e =>
    -- the first loop runs off the list, and finds nobody on it
    refine iff_of_true ⟨?_, fun hfront => ?_⟩ fun k v hkv => ?_
    · intro k m e' hk hm hother _
      rw [(accuses_error ha).2 k (Nat.zero_le k) m hm] at hother
      exact absurd hother (by simp)
    · rw [accuses_first_eq_none.mpr hfront] at ha
      exact absurd ha (by simp)
    · rw [removal, ha] at hkv
      exact absurd hkv (by simp)
  | ok found =>
    cases found with
    | some found =>
      obtain ⟨k, s, x⟩ := found
      have hremoval : removal A st c = some (k, s.value) := by rw [removal, ha]
      obtain ⟨-, hk, ⟨m, hm, hother⟩, hbefore⟩ := accuses_eq_some_iff.mp ha
      have hfront : ∀ i < k, ∃ m', st.possiblyHonestClaims[i]? = some m' ∧
          m'.other c.senderId = none := fun i hi => hbefore i (Nat.zero_le i) hi
      rw [hremoval]
      constructor
      · rintro hclears k' v ⟨⟩
        exact hclears.found k m (s, x) (by omega) hm hother hfront
      · intro hclears
        refine ⟨?_, fun hnone => ?_⟩
        · intro k' m' e' hk' hm' hother' hfront'
          have ha' : accuses st.possiblyHonestClaims c.senderId 0 (c.round - 1).toNat =
              .ok (some (k', e')) := accuses_eq_some_iff.mpr
            ⟨Nat.zero_le k', by omega, ⟨m', hm', hother'⟩, fun i _ hi => hfront' i hi⟩
          rw [ha] at ha'
          obtain ⟨rfl, rfl⟩ := Prod.mk.inj (Option.some.inj (Except.ok.inj ha'))
          exact hclears k s.value rfl
        · rw [accuses_first_eq_none.mpr hnone] at ha
          exact absurd ha (by simp)
    | none =>
      have hfront := accuses_first_eq_none.mp ha
      have hfound : Clears A st c ↔ (Passes A st c ∨ ∃ k : ℕ, (k : ℤ) ≠ c.round ∧
          st.OnlyAt c.senderId.value k) := by
        refine ⟨fun hclears => hclears.sender hfront, fun hor => ⟨?_, fun _ => hor⟩⟩
        intro k m e hk hm hother _
        obtain ⟨m', hm', hnone⟩ := hfront k hk
        obtain rfl := Option.some.inj (hm.symm.trans hm')
        exact absurd (hother.symm.trans hnone) (by simp)
      rw [hfound]
      cases hr : repeats st.possiblyHonestClaims c.senderId.value c.round with
      | some found =>
        obtain ⟨k, x⟩ := found
        have hremoval : removal A st c = some (k, c.senderId.value) := by
          rw [removal, ha]
          simp only [hr]
        obtain ⟨hround, howns, -⟩ := h.repeats_eq_some hr
        rw [hremoval]
        constructor
        · rintro (hpasses | ⟨i, -, honly⟩) k' v ⟨⟩
          · exact absurd (hr.symm.trans (passes_iff.mp hpasses).2.1) (by simp)
          · rwa [honly.eq howns]
        · intro hclears
          exact Or.inr ⟨k, hround, hclears k _ rfl⟩
      | none =>
        cases ho : overtaken st.possiblyHonestClaims c.senderId c.round
          A.contract.parties.length with
        | none =>
          refine iff_of_true (Or.inl (passes_iff.mpr ⟨ha, hr, ho⟩)) fun k v hkv => ?_
          rw [(passes_iff.mpr ⟨ha, hr, ho⟩).removal] at hkv
          exact absurd hkv (by simp)
        | some found =>
          obtain ⟨k, e⟩ := found
          have hremoval : removal A st c = some (k, c.senderId.value) := by
            rw [removal, ha]
            simp only [hr, ho, Option.map_some]
          have hlt := (overtaken_first ho).1
          rw [hremoval]
          constructor
          · rintro (hpasses | ⟨i, hi, honly⟩) k' v ⟨⟩
            · exact absurd (ho.symm.trans (passes_iff.mp hpasses).2.2) (by simp)
            · -- the sender has no claim: the first of its maps would be at the round
              intro j m hj hm e' he' hv
              obtain ⟨x, howns⟩ := owns_of_mem hm he'
              rw [hv] at howns
              obtain ⟨m', hm', hx⟩ := howns
              obtain ⟨r, -, hindex, howns, -⟩ := h.first_equal hm' hx
              have hround := repeats_eq_none.mp hr m' (List.mem_of_getElem? hm') (by rw [hx]; simp)
              rw [hindex, honly.eq howns] at hround
              exact hi hround
          · intro hclears
            exact Or.inr ⟨k, by omega, hclears k _ rfl⟩

theorem out_null (h : (machine A).out st c = .ok none) :
    accuses st.possiblyHonestClaims c.senderId 0 (c.round - 1).toNat = .ok none ∧
      (st.Recorded c.senderId.value ∨
        overtaken st.possiblyHonestClaims c.senderId c.round A.contract.parties.length ≠ none) := by
  have hx := exit A st c
  rw [h] at hx
  generalize (machine A).next st c = st' at hx
  generalize ho : (Except.ok none : Java (Option Answer)) = o at hx
  cases hx with
  | repeated k x h h' =>
    obtain ⟨m, hm, e, he, hv⟩ := repeats_some h'
    obtain ⟨i, hi⟩ := List.getElem?_of_mem hm
    exact ⟨h, Or.inl ⟨i, m, hi, e, he, hv⟩⟩
  | overtaken k e h h' h'' => exact ⟨h, Or.inr (by rw [h'']; simp)⟩
  | opened h h' => cases ht : resolveToken A c <;> simp [ht, Except.map] at ho
  | _ => simp [honestyToken, abortToken] at ho

/-! ### Steps and runs -/

theorem Separate.refused_iff (h : Separate st) :
    Refused A st c ↔ Caught A st c := by
  rw [caught_iff]
  refine imp_congr_right fun hdishonest => ?_
  have hrecorded := h _ hdishonest
  constructor
  · rintro ⟨hout, -⟩
    obtain ⟨haccuses, hor⟩ := out_null hout
    exact ⟨haccuses, hor.resolve_left hrecorded⟩
  · rintro ⟨haccuses, hovertaken⟩
    have hrepeats : repeats st.possiblyHonestClaims c.senderId.value c.round = none := by
      by_contra hsome
      obtain ⟨⟨k, x⟩, hkx⟩ := Option.ne_none_iff_exists'.mp hsome
      obtain ⟨m, hm, e, he, hv⟩ := repeats_some hkx
      obtain ⟨i, hi⟩ := List.getElem?_of_mem hm
      exact hrecorded ⟨i, m, hi, e, he, hv⟩
    obtain ⟨⟨k, e⟩, hke⟩ := Option.ne_none_iff_exists'.mp hovertaken
    have hcall : resolveT A st c = (.ok none, (st.accused c.senderId.value (c.m, e.2)).remove k
        c.senderId.value) := by
      rw [resolveT]
      simp only [haccuses, hrepeats, hke]
    change (resolveT A st c).1 = .ok none ∧ (resolveT A st c).2.possiblyHonestClaims = _
    rw [hcall]
    exact ⟨rfl, remove_of_not_recorded hrecorded k⟩

/-- **What one call keeps.** -/
theorem Separate.next_iff (h : Separate st) {l : Ledger} (hkeeps : Keeps st l) :
    Separate ((machine A).next st c) ∧ Refused A st c ↔ Clears A st c ∧ Caught A st c := by
  rw [h.refused_iff, clears_iff hkeeps]
  refine and_congr_left fun hcaught => ?_
  have hx := enters A hkeeps.settled c l
  generalize (machine A).next st c = st' at hx ⊢
  generalize record A st c l = l' at hx
  cases hx with
  | removes k v ev hremoval _ =>
    rw [hremoval]
    constructor
    · rintro hsep k' v' ⟨⟩
      exact not_recorded_remove.mp (hsep v (by simp [remove, accused]))
    · intro hclears v' hv'
      by_cases hvv : v' = v
      · rw [hvv]
        exact not_recorded_remove.mpr (hclears k v rfl)
      · have hbefore : st.dishonestClaims v' ≠ none := by
          rw [← show ((st.accused v ev).remove k v).dishonestClaims v' = _ from if_neg hvv]
          exact hv'
        exact mt Recorded.of_remove (h v' hbefore)
  | stores hremoval _ _ _ ho _ h0 hle =>
    rw [hremoval]
    refine iff_of_true ?_ fun k v hkv => absurd hkv (by simp)
    rintro v hv ⟨i, m, hm, e, he, hev⟩
    have hm' : (Shelves.shelve c.round.toNat (c.senderId, c.m) st.possiblyHonestClaims)[i]? =
        some m := hm
    rcases Shelves.mem_of_shelve (by omega) hm' he with ⟨-, rfl⟩ | ⟨j, m', hj, he', -⟩
    · -- the sender would have been caught
      exact absurd ho (caught_iff.mp hcaught (by rw [hev]; exact hv)).2
    · exact h v hv ⟨j, m', hj, e, he', hev⟩
  | nothing st' hremoval _ hclaims hdishonest =>
    rw [hremoval]
    refine iff_of_true ?_ fun k v hkv => absurd hkv (by simp)
    rintro v hv ⟨i, m, hm, hrest⟩
    rw [hdishonest] at hv
    rw [hclaims] at hm
    exact h v hv ⟨i, m, hm, hrest⟩

/-- **Dishonesty is permanent** in exactly the runs in which no party is removed from one map and
left in another, and a dishonest party's calls are caught by the loops. -/
theorem permanent_iff (A : Arbiter) (calls : List Call) :
    ((∀ pre, pre <+: calls → Separate ((machine A).run initial pre)) ∧
      (machine A).Along (fun _ st c => Refused A st c) initial calls) ↔
    (machine A).Along (fun _ st c => Clears A st c ∧ Caught A st c) initial calls := by
  induction calls using List.reverseRecOn with
  | nil =>
    refine iff_of_true ⟨?_, (machine A).along_nil _ _⟩ ((machine A).along_nil _ _)
    intro pre hpre v hv
    rw [List.prefix_nil.mp hpre] at hv
    exact absurd rfl hv
  | append_singleton calls c ih =>
    rw [Machine.along_concat, Machine.along_concat, ← ih]
    constructor
    · rintro ⟨hsep, hrefused, hlast⟩
      have hall : ∀ pre, pre <+: calls → Separate ((machine A).run initial pre) :=
        fun pre hpre => hsep pre (hpre.trans (List.prefix_append calls [c]))
      have hend := hsep (calls ++ [c]) (List.prefix_refl _)
      rw [Machine.run_concat] at hend
      exact ⟨⟨hall, hrefused⟩, ((hall calls (List.prefix_refl _)).next_iff
        (run_keeps A calls)).mp ⟨hend, hlast⟩⟩
    · rintro ⟨⟨hall, hrefused⟩, hlast⟩
      obtain ⟨hend, hlast⟩ := ((hall calls (List.prefix_refl _)).next_iff
        (run_keeps A calls)).mpr hlast
      refine ⟨?_, hrefused, hlast⟩
      intro pre hpre
      rcases List.prefix_concat_iff.mp hpre with rfl | hpre
      · rw [Machine.run_concat]
        exact hend
      · exact hall pre hpre

/-! ### A party that comes back -/

/-- The third of three aborts is held against its sender, who then claims the first round
without a promise. -/
theorem dishonest_claim_stored :
    ((machine sampleThree).run initial threeAborts).dishonestClaims "third" ≠ none ∧
    Aborted ((machine sampleThree).out ((machine sampleThree).run initial threeAborts)
      (sampleCall "[]" 1 3 "third")) ∧
    ¬ Separate ((machine sampleThree).run initial
      (threeAborts ++ [sampleCall "[]" 1 3 "third"])) := by
  refine ⟨by decide, ⟨_, _, rfl⟩, ?_⟩
  intro h
  exact h "third" (by decide) ⟨1, [(⟨3, "third"⟩, "[]")], by decide, _, List.mem_cons_self, rfl⟩

end SXP.Sigma.TrentSolver
