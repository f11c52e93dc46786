import SXP.Lib.Shelves
import SXP.Sigma.Verdicts

/-!
# Where claims are filed

The index of a map in the list is meant to be the round of its claims.  A claim
is filed under its round, but it is filed by inserting a map, so what is
stored from that index on moves up.  The `Ledger` follows the list and has the
calls in the place of their claims: it tells which call a claim was made in.

`filed_iff` says in which runs every claim stays under its round.
-/

namespace SXP.Sigma

open SXP.Lib SXP.Lib.Java

/-- The calls of the stored claims, in the places of the claims. -/
abbrev Ledger : Type := List (List Call)

namespace TrentSolver

/-- The index and the sender of the claim that a call declares dishonest. -/
def removal (A : Arbiter) (st : TrentSolver) (c : Call) : Option (ℕ × String) :=
  match accuses st.possiblyHonestClaims c.senderId 0 (c.round - 1).toNat with
  | .error _ => none
  | .ok (some (k, s, _)) => some (k, s.value)
  | .ok none =>
      match repeats st.possiblyHonestClaims c.senderId.value c.round with
      | some (k, _) => some (k, c.senderId.value)
      | none =>
          (overtaken st.possiblyHonestClaims c.senderId c.round A.contract.parties.length).map
            fun e => (e.1, c.senderId.value)

/-- The claim of the call is stored: it is answered with an abort. -/
def stores (A : Arbiter) (st : TrentSolver) (c : Call) : Bool :=
  match (machine A).out st c with
  | .ok (some (.aborted _ _)) => true
  | _ => false

def record (A : Arbiter) (st : TrentSolver) (c : Call) (l : Ledger) : Ledger :=
  match removal A st c with
  | some (k, v) => Shelves.strike (fun c' => c'.senderId.value != v) k l
  | none => if stores A st c then Shelves.shelve c.round.toNat c l else l

/-- The solver and its ledger. -/
def books (A : Arbiter) : Machine (TrentSolver × Ledger) Call (Java (Option Answer)) :=
  (machine A).traced (record A)

def ledger (A : Arbiter) (calls : List Call) : Ledger := ((books A).run (initial, []) calls).2

/-! ### What one call writes -/

inductive Enters (A : Arbiter) (st : TrentSolver) (c : Call) (l : Ledger) :
    TrentSolver → Ledger → Prop where
  | removes (k : ℕ) (v : String) (ev : String × String) (h : removal A st c = some (k, v))
      (hs : TrentSolver.stores A st c = false) :
      Enters A st c l ((st.accused v ev).remove k v)
        (Shelves.strike (fun c' => c'.senderId.value != v) k l)
  | stores (h : removal A st c = none) (hs : TrentSolver.stores A st c = true)
      (ha : accuses st.possiblyHonestClaims c.senderId 0 (c.round - 1).toNat = .ok none)
      (hr : repeats st.possiblyHonestClaims c.senderId.value c.round = none)
      (ho : overtaken st.possiblyHonestClaims c.senderId c.round A.contract.parties.length = none)
      (hopt : st.optimistic = true) (h0 : 0 ≤ c.round)
      (hle : c.round ≤ st.possiblyHonestClaims.length) :
      Enters A st c l (st.add c.round.toNat c.senderId c.m) (Shelves.shelve c.round.toNat c l)
  | nothing (st' : TrentSolver) (h : removal A st c = none)
      (hs : TrentSolver.stores A st c = false)
      (hclaims : st'.possiblyHonestClaims = st.possiblyHonestClaims)
      (hdishonest : st'.dishonestClaims = st.dishonestClaims) : Enters A st c l st' l

theorem enters (A : Arbiter) {st : TrentSolver} (hset : st.Settled) (c : Call) (l : Ledger) :
    Enters A st c l ((machine A).next st c) (record A st c l) := by
  have hx := exit A st c
  have hstores : stores A st c = match (machine A).out st c with
    | .ok (some (.aborted _ _)) => true
    | _ => false := rfl
  generalize (machine A).out st c = o at hx hstores
  generalize (machine A).next st c = st' at hx ⊢
  unfold record
  cases hx with
  | beyond e h =>
    have hremoval : removal A st c = none := by rw [removal, h]
    rw [hremoval, hstores]
    exact .nothing st hremoval hstores rfl rfl
  | shown k s x h =>
    have hremoval : removal A st c = some (k, s.value) := by rw [removal, h]
    rw [hremoval]
    exact .removes k s.value _ hremoval hstores
  | repeated k x h h' =>
    have hremoval : removal A st c = some (k, c.senderId.value) := by
      rw [removal, h]
      simp only [h']
    rw [hremoval]
    exact .removes k c.senderId.value _ hremoval hstores
  | overtaken k e h h' h'' =>
    have hremoval : removal A st c = some (k, c.senderId.value) := by
      rw [removal, h]
      simp only [h', h'', Option.map_some]
    rw [hremoval]
    exact .removes k c.senderId.value _ hremoval hstores
  | opened h h' =>
    have hnil : st.possiblyHonestClaims = [] := by
      rcases h' with h' | h'
      · exact h'.1
      · exact hset h'
    have hremoval : removal A st c = none := by
      have hover : TrentSolver.overtaken [] c.senderId c.round A.contract.parties.length = none :=
        overtaken_eq_none.mpr fun _ _ _ _ hm => absurd hm (by simp)
      rw [removal, h]
      simp only [hnil, repeats, List.findSome?_nil, hover, Option.map_none]
    have hstores' : stores A st c = false := by
      rw [hstores]
      cases resolveToken A c <;> rfl
    rw [hremoval]
    simp only [hstores', Bool.false_eq_true, if_false]
    exact .nothing _ hremoval hstores' rfl rfl
  | stored h h' h'' ho h0 hle =>
    have hremoval : removal A st c = none := by
      rw [removal, h]
      simp only [h', h'', Option.map_none]
    have hopt : st.optimistic = true := by
      by_contra hf
      exact ho (Or.inr (Bool.eq_false_iff.mpr hf))
    rw [hremoval]
    simp only [hstores]
    exact .stores hremoval hstores h h' h'' hopt h0 hle
  | outside h h' h'' ho hr =>
    have hremoval : removal A st c = none := by
      rw [removal, h]
      simp only [h', h'', Option.map_none]
    rw [hremoval]
    simp only [hstores]
    exact .nothing st hremoval hstores rfl rfl

/-! ### The ledger is the list -/

/-- The ledger of a solver: the calls of the stored claims, one on a shelf at most, none of
them for a round above its index. -/
structure Keeps (st : TrentSolver) (l : Ledger) : Prop where
  settled : st.Settled
  claims : st.possiblyHonestClaims = l.map (List.map fun c => (c.senderId, c.m))
  single : ∀ (k : ℕ) (calls : List Call), l[k]? = some calls → calls.length ≤ 1
  round : ∀ (k : ℕ) (calls : List Call), l[k]? = some calls → ∀ c ∈ calls,
    0 ≤ c.round ∧ c.round ≤ k

variable {A : Arbiter} {st : TrentSolver} {l : Ledger}

theorem initial_keeps : Keeps initial [] where
  settled := initial_settled
  claims := rfl
  single := fun k calls h => absurd h (by simp)
  round := fun k calls h => absurd h (by simp)

theorem Keeps.length (h : Keeps st l) : st.possiblyHonestClaims.length = l.length := by
  rw [h.claims, List.length_map]

theorem Keeps.getElem? (h : Keeps st l) (k : ℕ) : st.possiblyHonestClaims[k]? =
    l[k]?.map (List.map fun c => (c.senderId, c.m)) := by
  rw [h.claims, List.getElem?_map]

theorem Keeps.strike (h : Keeps st l) (k : ℕ) (v : String) (ev : String × String) :
    Keeps ((st.accused v ev).remove k v)
      (Shelves.strike (fun c' => c'.senderId.value != v) k l) where
  settled := by
    intro ho
    have hnil : st.possiblyHonestClaims = [] := h.settled ho
    exact List.length_eq_zero_iff.mp (by rw [remove_length, accused_claims, hnil]; rfl)
  claims := by
    have hstrike : ((st.accused v ev).remove k v).possiblyHonestClaims =
        Shelves.strike (fun e => e.1.value != v) k st.possiblyHonestClaims := rfl
    rw [hstrike, h.claims]
    have hmap := Shelves.map_strike (f := fun c : Call => (c.senderId, c.m))
      (p := fun c => c.senderId.value != v) (q := fun e => e.1.value != v) (fun _ => rfl) k l
    exact hmap.symm
  single := by
    intro i calls hi
    rw [Shelves.getElem?_strike, Option.map_eq_some_iff] at hi
    obtain ⟨calls', hi', rfl⟩ := hi
    have hle := h.single i calls' hi'
    split
    · exact (List.length_filter_le _ _).trans hle
    · exact hle
  round := by
    intro i calls hi c hc
    obtain ⟨calls', hi', hc', -⟩ := Shelves.mem_of_strike hi hc
    exact h.round i calls' hi' c hc'

theorem Keeps.shelve (h : Keeps st l) {c : Call} (hopt : st.optimistic = true)
    (h0 : 0 ≤ c.round) (hle : c.round ≤ st.possiblyHonestClaims.length) :
    Keeps (st.add c.round.toNat c.senderId c.m) (Shelves.shelve c.round.toNat c l) := by
  have hk : c.round.toNat ≤ l.length := by
    rw [← h.length]
    omega
  refine ⟨?_, ?_, ?_, ?_⟩
  · intro ho
    exact absurd (hopt.symm.trans ho) (by decide)
  · have hshelve : (st.add c.round.toNat c.senderId c.m).possiblyHonestClaims =
        Shelves.shelve c.round.toNat (c.senderId, c.m) st.possiblyHonestClaims := rfl
    rw [hshelve, h.claims, Shelves.map_shelve]
  · intro i calls hi
    rw [Shelves.getElem?_shelve hk] at hi
    split at hi
    · exact h.single i calls hi
    · split at hi
      · rw [← Option.some.inj hi]
        exact le_refl 1
      · exact h.single (i - 1) calls hi
  · intro i calls hi c' hc'
    rcases Shelves.mem_of_shelve hk hi hc' with ⟨rfl, rfl⟩ | ⟨j, calls', hj, hmem, hij⟩
    · exact ⟨h0, by omega⟩
    · have hround := h.round j calls' hj c' hmem
      exact ⟨hround.1, by omega⟩

theorem Keeps.next (h : Keeps st l) (c : Call) :
    Keeps ((machine A).next st c) (record A st c l) := by
  have hx := enters A h.settled c l
  have hsettled := next_settled A st c h.settled
  generalize (machine A).next st c = st' at hx hsettled ⊢
  generalize record A st c l = l' at hx ⊢
  cases hx with
  | removes k v ev _ _ => exact h.strike k v ev
  | stores _ _ _ _ _ hopt h0 hle => exact h.shelve hopt h0 hle
  | nothing st' _ _ hclaims _ => exact ⟨hsettled, hclaims.trans h.claims, h.single, h.round⟩

/-- **The ledger of a run is the list of its solver.** -/
theorem run_keeps (A : Arbiter) (calls : List Call) :
    Keeps ((machine A).run initial calls) (ledger A calls) := by
  have hinv := (books A).invariant (I := fun t => Keeps t.1 t.2) (s := (initial, []))
    initial_keeps (fun t c h => h.next c) calls
  rwa [books, Machine.traced_run_fst] at hinv

theorem ledger_concat (A : Arbiter) (calls : List Call) (c : Call) : ledger A (calls ++ [c]) =
    record A ((machine A).run initial calls) c (ledger A calls) := by
  rw [ledger, Machine.run_concat, books, Machine.traced_next, Machine.traced_run_fst]
  rfl

/-! ### The maps behind the ledger -/

theorem Keeps.nonempty (h : Keeps st l) {k : ℕ} {calls : List Call} (hk : l[k]? = some calls)
    {c : Call} (hc : c ∈ calls) : ∃ m, st.possiblyHonestClaims[k]? = some m ∧ m ≠ [] ∧
      m.get c.senderId.value = some c.m := by
  obtain ⟨c', rfl⟩ := List.length_eq_one_iff.mp
    (le_antisymm (h.single k calls hk) (List.length_pos_of_mem hc))
  obtain rfl := List.mem_singleton.mp hc
  refine ⟨[(c.senderId, c.m)], ?_, List.cons_ne_nil _ _, ?_⟩
  · rw [h.getElem?, hk]
    rfl
  · simp [Claims.get]

theorem Keeps.calls (h : Keeps st l) {k : ℕ} {m : Claims}
    (hm : st.possiblyHonestClaims[k]? = some m) (hne : m ≠ []) :
    ∃ calls, l[k]? = some calls ∧ ∃ c, c ∈ calls := by
  rw [h.getElem?, Option.map_eq_some_iff] at hm
  obtain ⟨calls, hcalls, rfl⟩ := hm
  exact ⟨calls, hcalls, List.exists_mem_of_ne_nil calls fun hnil => hne (by rw [hnil]; rfl)⟩

theorem Keeps.not_opened (h : Keeps st l) {k : ℕ} {m : Claims}
    (hm : st.possiblyHonestClaims[k]? = some m) {c : Call} :
    ¬ ((st.possiblyHonestClaims = [] ∧ 0 < c.round) ∨ st.optimistic = false) := by
  have hne : st.possiblyHonestClaims ≠ [] := by
    rintro hnil
    rw [hnil] at hm
    exact absurd hm (by simp)
  rintro (⟨hnil, -⟩ | ho)
  · exact hne hnil
  · exact hne (h.settled ho)

/-- The claim of the sender in the `k`-th map. -/
def Owns (st : TrentSolver) (s : String) (k : ℕ) (x : String) : Prop :=
  ∃ m, st.possiblyHonestClaims[k]? = some m ∧ m.get s = some x

theorem owns_of_mem {k : ℕ} {m : Claims} (hm : st.possiblyHonestClaims[k]? = some m)
    {e : StringRef × String} (he : e ∈ m) : ∃ x, st.Owns e.1.value k x := by
  cases hx : m.get e.1.value with
  | some x => exact ⟨x, m, hm, hx⟩
  | none =>
    have hno := List.find?_eq_none.mp (Option.map_eq_none_iff.mp hx) e he
    exact absurd (beq_self_eq_true _) hno

theorem Keeps.exists_of_mem (h : Keeps st l) {k : ℕ} {m : Claims}
    (hm : st.possiblyHonestClaims[k]? = some m) {e : StringRef × String} (he : e ∈ m) :
    ∃ calls, l[k]? = some calls ∧ ∃ c ∈ calls, c.senderId = e.1 ∧ c.m = e.2 := by
  rw [h.getElem?, Option.map_eq_some_iff] at hm
  obtain ⟨calls, hcalls, rfl⟩ := hm
  obtain ⟨c, hc, rfl⟩ := List.mem_map.mp he
  exact ⟨calls, hcalls, c, hc, rfl, rfl⟩

theorem Keeps.exists_of_owns (h : Keeps st l) {s x : String} {k : ℕ} (hk : st.Owns s k x) :
    ∃ calls, l[k]? = some calls ∧ ∃ c ∈ calls, c.senderId.value = s ∧ c.m = x := by
  obtain ⟨m, hm, hx⟩ := hk
  obtain ⟨e, he, rfl⟩ := Option.map_eq_some_iff.mp hx
  have hv := List.find?_some he
  obtain ⟨calls, hcalls, c, hc, hs, hcm⟩ := h.exists_of_mem hm (List.mem_of_find?_eq_some he)
  exact ⟨calls, hcalls, c, hc, by rw [hs]; exact beq_iff_eq.mp hv, hcm⟩

theorem Keeps.map_length (h : Keeps st l) {k : ℕ} {m : Claims}
    (hm : st.possiblyHonestClaims[k]? = some m) : m.length ≤ 1 := by
  rw [h.getElem?, Option.map_eq_some_iff] at hm
  obtain ⟨calls, hcalls, rfl⟩ := hm
  rw [List.length_map]
  exact h.single k calls hcalls

/-- A map is equal to those in which its sender has the same claim. -/
theorem Keeps.equals_iff (h : Keeps st l) {i j : ℕ} {m m' : Claims} {s x : String}
    (hm : st.possiblyHonestClaims[i]? = some m) (hx : m.get s = some x)
    (hm' : st.possiblyHonestClaims[j]? = some m') :
    m.equals m' = true ↔ m'.get s = some x := by
  obtain ⟨e, he, hes⟩ := Claims.exists_of_get hx
  obtain ⟨e', rfl⟩ := List.length_eq_one_iff.mp
    (le_antisymm (h.map_length hm) (List.length_pos_of_mem he))
  obtain rfl := List.mem_singleton.mp he
  have hex : e.2 = x := by simpa [Claims.get, hes] using hx
  rw [Claims.equals, List.all_cons, List.all_nil, Bool.and_true, Bool.and_eq_true, beq_iff_eq,
    beq_iff_eq, hes, hex]
  refine and_iff_right_of_imp fun hget => ?_
  obtain ⟨e', he', -⟩ := Claims.exists_of_get hget
  exact (le_antisymm (h.map_length hm') (List.length_pos_of_mem he')).symm

theorem Keeps.first_equal (h : Keeps st l) {i : ℕ} {m : Claims} {s x : String}
    (hm : st.possiblyHonestClaims[i]? = some m) (hx : m.get s = some x) :
    ∃ k ≤ i, (st.possiblyHonestClaims.findIdx fun m' => m.equals m') = k ∧ st.Owns s k x ∧
      ∀ j < k, ¬ st.Owns s j x := by
  obtain ⟨hlt, hget⟩ := List.getElem?_eq_some_iff.mp hm
  have hself : m.equals m = true := (h.equals_iff hm hx hm).mpr hx
  have hle : (st.possiblyHonestClaims.findIdx fun m' => m.equals m') ≤ i := by
    by_contra hno
    have hnot := List.not_of_lt_findIdx (p := fun m' => m.equals m') (Nat.lt_of_not_le hno)
    rw [hget, hself] at hnot
    exact absurd hnot (by decide)
  refine ⟨_, hle, rfl, ?_, ?_⟩
  · have hfound := List.findIdx_getElem (p := fun m' => m.equals m')
      (w := Nat.lt_of_le_of_lt hle hlt)
    have hat := List.getElem?_eq_getElem (Nat.lt_of_le_of_lt hle hlt)
    exact ⟨_, hat, (h.equals_iff hm hx hat).mp hfound⟩
  · rintro j hj ⟨m', hm', hx'⟩
    obtain ⟨hlt', hget'⟩ := List.getElem?_eq_some_iff.mp hm'
    have hnot := List.not_of_lt_findIdx (p := fun m' => m.equals m') hj
    rw [hget', (h.equals_iff hm hx hm').mpr hx'] at hnot
    exact absurd hnot (by decide)

/-- **What the second loop finds**: a claim of the sender that is not at the index of the round.
Those in front of it are other messages, and they are at that index. -/
theorem Keeps.repeats_eq_some (h : Keeps st l) {s x : String} {round : ℤ} {k : ℕ}
    (hr : repeats st.possiblyHonestClaims s round = some (k, x)) :
    (k : ℤ) ≠ round ∧ st.Owns s k x ∧ ∀ j < k, ∀ z, st.Owns s j z →
      z ≠ x ∧ ∃ r ≤ j, (r : ℤ) = round ∧ st.Owns s r z := by
  obtain ⟨front, m, back, hsplit, hf, hfront⟩ := List.findSome?_eq_some_iff.mp hr
  have hm : st.possiblyHonestClaims[front.length]? = some m := by
    rw [hsplit, List.getElem?_append_right (le_refl _), Nat.sub_self]
    rfl
  -- a map in front was passed, because its first equal is at the index of the round
  have hpassed : ∀ j < front.length, ∀ z, st.Owns s j z →
      ∃ r ≤ j, (r : ℤ) = round ∧ st.Owns s r z ∧ ∀ i < r, ¬ st.Owns s i z := by
    rintro j hj z ⟨m', hm', hz⟩
    obtain ⟨r, hle, hindex, howns, hfirst⟩ := h.first_equal hm' hz
    have hmem : m' ∈ front := by
      rw [hsplit, List.getElem?_append_left hj] at hm'
      exact List.mem_of_getElem? hm'
    have hnone := hfront m' hmem
    rw [hz] at hnone
    simp only [ne_eq, ite_not, ite_eq_left_iff, reduceCtorEq, imp_false, not_not] at hnone
    exact ⟨r, hle, by rw [← hindex]; exact hnone, howns, hfirst⟩
  cases hx : m.get s with
  | none =>
    rw [hx] at hf
    exact absurd hf (by simp)
  | some y =>
    rw [hx] at hf
    simp only [ne_eq, ite_not, Option.ite_none_left_eq_some, Option.some.injEq,
      Prod.mk.injEq] at hf
    obtain ⟨hround, hk, rfl⟩ := hf
    obtain ⟨k', hle, hindex, howns, hfirst⟩ := h.first_equal hm hx
    obtain rfl : k' = k := hindex.symm.trans hk
    rw [hindex] at hround
    have hlast : k' = front.length := by
      rcases Nat.eq_or_lt_of_le hle with heq | hlt
      · exact heq
      · obtain ⟨r, hrk, hreq, hr', -⟩ := hpassed k' hlt y howns
        rcases Nat.eq_or_lt_of_le hrk with rfl | hrk
        · exact absurd hreq hround
        · exact absurd hr' (hfirst r hrk)
    refine ⟨hround, howns, ?_⟩
    intro j hj z hz
    obtain ⟨r, hrj, hreq, hr', -⟩ := hpassed j (hlast ▸ hj) z hz
    refine ⟨?_, r, hrj, hreq, hr'⟩
    rintro rfl
    exact hfirst j hj hz

/-- A sender that is stored repeats its claim, unless the first map that is equal to its own
has the index of the round. -/
theorem repeats_eq_none {claims : List Claims} {s : String} {round : ℤ} :
    repeats claims s round = none ↔ ∀ m ∈ claims, m.get s ≠ none →
      ((claims.findIdx fun m' => m.equals m' : ℕ) : ℤ) = round := by
  rw [repeats, List.findSome?_eq_none_iff]
  refine forall₂_congr fun m _ => ?_
  cases m.get s with
  | none => simp
  | some x =>
    simp only [ne_eq, reduceCtorEq, not_false_eq_true, forall_const, ite_eq_right_iff, imp_false,
      not_not]

/-- Who is stored in front of the round of a new claim repeats its claim. -/
theorem Keeps.not_in_front (h : Keeps st l) {s : String} {round : ℤ}
    (hr : repeats st.possiblyHonestClaims s round = none) {k : ℕ} {calls : List Call}
    (hk : l[k]? = some calls) {c : Call} (hc : c ∈ calls) (hs : c.senderId.value = s) :
    round ≤ k := by
  obtain ⟨m, hm, -, hget⟩ := h.nonempty hk hc
  rw [hs] at hget
  obtain ⟨r, hle, hindex, -, -⟩ := h.first_equal hm hget
  have hround := repeats_eq_none.mp hr m (List.mem_of_getElem? hm) (by rw [hget]; simp)
  omega

/-! ### Calls that pass -/

/-- The three loops find nothing against the call.  The second of them looks for the first map
that is equal to the one the sender is in. -/
structure Passes (A : Arbiter) (st : TrentSolver) (c : Call) : Prop where
  front : ∀ i : ℕ, (i : ℤ) + 1 < c.round → ∃ m, st.possiblyHonestClaims[i]? = some m ∧
    m.other c.senderId = none
  own : ∀ m ∈ st.possiblyHonestClaims, m.get c.senderId.value ≠ none →
    ((st.possiblyHonestClaims.findIdx fun m' => m.equals m' : ℕ) : ℤ) = c.round
  behind : ∀ k : ℕ, c.round < k → k < A.contract.parties.length →
    ∀ m, st.possiblyHonestClaims[k]? = some m → m.other c.senderId = none

/-- The first loop looks at the indices in front of the round before the claimed one. -/
theorem accuses_first_eq_none {claims : List Claims} {s : StringRef} {round : ℤ} :
    accuses claims s 0 (round - 1).toNat = .ok none ↔ ∀ i : ℕ, (i : ℤ) + 1 < round →
      ∃ m, claims[i]? = some m ∧ m.other s = none := by
  rw [accuses_eq_none]
  refine forall_congr' fun i => ?_
  constructor
  · intro h hi
    exact h (Nat.zero_le i) (by omega)
  · intro h _ hi
    exact h (by omega)

theorem passes_iff {c : Call} : Passes A st c ↔
    accuses st.possiblyHonestClaims c.senderId 0 (c.round - 1).toNat = .ok none ∧
    repeats st.possiblyHonestClaims c.senderId.value c.round = none ∧
    overtaken st.possiblyHonestClaims c.senderId c.round A.contract.parties.length = none := by
  rw [accuses_first_eq_none, repeats_eq_none, overtaken_eq_none]
  exact ⟨fun h => ⟨h.front, h.own, h.behind⟩, fun ⟨h1, h2, h3⟩ => ⟨h1, h2, h3⟩⟩

/-- A claim is stored if nothing is found against it and the list has a place for it. -/
theorem stores_iff {c : Call} : stores A st c = true ↔ Passes A st c ∧
    ¬ ((st.possiblyHonestClaims = [] ∧ 0 < c.round) ∨ st.optimistic = false) ∧
    0 ≤ c.round ∧ c.round ≤ st.possiblyHonestClaims.length := by
  have hx := exit A st c
  rw [passes_iff]
  unfold stores
  generalize (machine A).out st c = o at hx ⊢
  generalize (machine A).next st c = st' at hx
  cases hx with
  | beyond e h => exact iff_of_false (by simp) fun hall => absurd (h.symm.trans hall.1.1) (by simp)
  | shown k s x h =>
    exact iff_of_false (by simp [honestyToken]) fun hall =>
      absurd (h.symm.trans hall.1.1) (by simp)
  | repeated k x h h' =>
    exact iff_of_false (by simp) fun hall => absurd (h'.symm.trans hall.1.2.1) (by simp)
  | overtaken k e h h' h'' =>
    exact iff_of_false (by simp) fun hall => absurd (h''.symm.trans hall.1.2.2) (by simp)
  | opened h h' =>
    refine iff_of_false ?_ fun hall => hall.2.1 h'
    cases resolveToken A c <;> simp [Except.map]
  | stored h h' h'' ho h0 hle =>
    exact iff_of_true (by simp [abortToken]) ⟨⟨h, h', h''⟩, ho, h0, hle⟩
  | outside h h' h'' ho hr => exact iff_of_false (by simp) fun hall => hr hall.2.2

theorem Passes.removal {c : Call} (h : Passes A st c) : removal A st c = none := by
  obtain ⟨h1, h2, h3⟩ := passes_iff.mp h
  rw [TrentSolver.removal, h1]
  simp only [h2, h3, Option.map_none]

/-! ### Filed claims -/

/-- Every claim is under its round, and nobody has two of them. -/
structure Filed (l : Ledger) : Prop where
  round : ∀ (k : ℕ) (calls : List Call), l[k]? = some calls → ∀ c ∈ calls, c.round = k
  once : ∀ v, Shelves.count (fun c => c.senderId.value == v) l ≤ 1

/-- Nothing is found against the call, and somebody is stored at the index of its round or
behind it. -/
def Displaces (A : Arbiter) (st : TrentSolver) (c : Call) : Prop :=
  0 ≤ c.round ∧ Passes A st c ∧ ∃ (k : ℕ) (m : Claims), c.round ≤ k ∧
    st.possiblyHonestClaims[k]? = some m ∧ m ≠ []

theorem initial_filed : Filed [] where
  round := fun k calls h => absurd h (by simp)
  once := fun v => Nat.zero_le 1

/-- A claim that is stored where nothing is behind it is filed with the others. -/
theorem Filed.shelve (hf : Filed l) {c : Call} (hk : c.round.toNat ≤ l.length)
    (h0 : 0 ≤ c.round) (hbehind : ∀ (k : ℕ) (calls : List Call), c.round ≤ k →
      l[k]? = some calls → calls = [])
    (hfront : ∀ (k : ℕ) (calls : List Call), l[k]? = some calls → ∀ c' ∈ calls,
      c'.senderId.value = c.senderId.value → c.round ≤ k) :
    Filed (Shelves.shelve c.round.toNat c l) := by
  constructor
  · intro i calls hi c' hc'
    rcases Shelves.mem_of_shelve hk hi hc' with ⟨rfl, rfl⟩ | ⟨j, calls', hj, hmem, hij⟩
    · omega
    · rcases hij with ⟨-, rfl⟩ | ⟨hle, -⟩
      · exact hf.round i calls' hj c' hmem
      · rw [hbehind j calls' (by omega) hj] at hmem
        exact absurd hmem List.not_mem_nil
  · intro v
    rw [Shelves.count_shelve hk]
    split
    · -- the sender has no claim behind the new one, and none in front of it
      rename_i hv
      have hnone : Shelves.count (fun c' => c'.senderId.value == v) l = 0 := by
        by_contra hne
        obtain ⟨k, calls, hcalls, c', hc', hv'⟩ :=
          Shelves.count_pos_iff.mp (Nat.pos_of_ne_zero hne)
        have hsame : c'.senderId.value = c.senderId.value :=
          (beq_iff_eq.mp hv').trans (beq_iff_eq.mp hv).symm
        rw [hbehind k calls (hfront k calls hcalls c' hc' hsame) hcalls] at hc'
        exact absurd hc' List.not_mem_nil
      omega
    · exact hf.once v

/-- **A call keeps the claims filed** unless it displaces one. -/
theorem Filed.next_iff (h : Keeps st l) (hf : Filed l) (c : Call) :
    Filed (record A st c l) ↔ ¬ Displaces A st c := by
  have hx := enters A h.settled c l
  generalize (machine A).next st c = st' at hx
  generalize record A st c l = l' at hx ⊢
  cases hx with
  | removes k v ev hremoval _ =>
    refine iff_of_true ⟨?_, ?_⟩ ?_
    · intro i calls hi c' hc'
      obtain ⟨calls', hi', hmem, -⟩ := Shelves.mem_of_strike hi hc'
      exact hf.round i calls' hi' c' hmem
    · exact fun v' => (Shelves.count_strike_le _ _ k l).trans (hf.once v')
    · rintro ⟨-, hpasses, -⟩
      rw [hpasses.removal] at hremoval
      exact absurd hremoval (by simp)
  | stores _ hs _ hr _ hopt h0 hle =>
    have hk : c.round.toNat ≤ l.length := by
      rw [← h.length]
      omega
    constructor
    · rintro hf' ⟨-, -, k, m, hround, hm, hne⟩
      obtain ⟨calls, hcalls, c', hc'⟩ := h.calls hm hne
      have hmoved : (Shelves.shelve c.round.toNat c l)[k + 1]? = some calls :=
        (Shelves.getElem?_shelve_move hk c (by omega)).trans hcalls
      have hbefore := hf.round k calls hcalls c' hc'
      have hafter := hf'.round (k + 1) calls hmoved c' hc'
      omega
    · intro hno
      refine hf.shelve hk h0 ?_ fun k calls hcalls c' hc' hsame =>
        h.not_in_front hr hcalls hc' hsame
      intro k calls hle hcalls
      by_contra hne
      obtain ⟨c', hc'⟩ := List.exists_mem_of_ne_nil calls hne
      obtain ⟨m, hm, hmne, -⟩ := h.nonempty hcalls hc'
      exact hno ⟨h0, (stores_iff.mp hs).1, k, m, hle, hm, hmne⟩
  | nothing st' _ hs _ _ =>
    refine iff_of_true hf ?_
    -- with somebody on the list, a call against which nothing is found would be stored
    rintro ⟨h0, hpasses, k, m, hround, hm, -⟩
    have hlen := (List.getElem?_eq_some_iff.mp hm).1
    have hplace : stores A st c = true :=
      stores_iff.mpr ⟨hpasses, h.not_opened hm, h0, by omega⟩
    rw [hs] at hplace
    exact absurd hplace (by decide)

/-- **Claims stay under their rounds** in exactly the runs in which there is no call against
which nothing is found while somebody is stored at the index of its round or behind it.  The
ledger shows the calls of the claims in the list, so it says which round a claim was submitted
with. -/
theorem filed_iff (A : Arbiter) (calls : List Call) :
    (∀ pre, ((machine A).run initial pre).possiblyHonestClaims =
      (ledger A pre).map (List.map fun c => (c.senderId, c.m))) ∧
    ((∀ pre, pre <+: calls → Filed (ledger A pre)) ↔
      (machine A).Along (fun _ st c => ¬ Displaces A st c) initial calls) := by
  refine ⟨fun pre => (run_keeps A pre).claims, ?_⟩
  induction calls using List.reverseRecOn with
  | nil =>
    refine iff_of_true ?_ ((machine A).along_nil _ _)
    intro pre hpre
    rw [List.prefix_nil.mp hpre]
    exact initial_filed
  | append_singleton calls c ih =>
    rw [Machine.along_concat, ← ih]
    constructor
    · intro h
      have hall : ∀ pre, pre <+: calls → Filed (ledger A pre) := fun pre hpre =>
        h pre (hpre.trans (List.prefix_append calls [c]))
      refine ⟨hall, ?_⟩
      have hlast := h (calls ++ [c]) (List.prefix_refl _)
      rw [ledger_concat] at hlast
      exact ((hall calls (List.prefix_refl _)).next_iff (run_keeps A calls) c).mp hlast
    · rintro ⟨hall, hlast⟩ pre hpre
      rcases List.prefix_concat_iff.mp hpre with rfl | hpre
      · rw [ledger_concat]
        exact ((hall calls (List.prefix_refl _)).next_iff (run_keeps A calls) c).mpr hlast
      · exact hall pre hpre

/-! ### Two parties that abort -/

def twoAborts : List Call :=
  [sampleCall "ABORT" 0 0 "first", sampleCall "ABORT" 0 1 "second"]

/-- The first claim, of round `0`, is at the index `1` afterwards. -/
theorem second_abort_displaces :
    (machine (sampleArbiter 0 [])).Along
      (fun _ st c => ∃ answer, (machine (sampleArbiter 0 [])).out st c = .ok answer) initial
      twoAborts ∧
    ((machine (sampleArbiter 0 [])).run initial twoAborts).possiblyHonestClaims =
      [[(⟨1, "second"⟩, "ABORT")], [(⟨0, "first"⟩, "ABORT")]] ∧
    ¬ Filed (ledger (sampleArbiter 0 []) twoAborts) := by
  refine ⟨?_, by decide, ?_⟩
  · have h1 : (machine (sampleArbiter 0 [])).Along
        (fun _ st c => ∃ answer, (machine (sampleArbiter 0 [])).out st c = .ok answer) initial
        [sampleCall "ABORT" 0 0 "first"] :=
      (machine (sampleArbiter 0 [])).along_singleton.mpr ⟨_, rfl⟩
    exact (machine (sampleArbiter 0 [])).along_concat.mpr ⟨h1, _, rfl⟩
  · intro h
    have hround := h.round 1 [sampleCall "ABORT" 0 0 "first"] rfl _ List.mem_cons_self
    exact absurd hround (by decide)

end TrentSolver

end SXP.Sigma
