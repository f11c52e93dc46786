import SXP.Sigma.Entity
import Mathlib.Data.Set.Basic

/-!
# Responses as keys of a map

The map of a clause finds a key by `hashCode` and `equals` of the response.  Two of the classes
ask for an object of their own class, the third one does not: it is equal to a response of another
class with the same numbers, which is not equal to it and has another hash.

`equals_contract_iff` says that these pairs are the only ones that break the contract of `equals`
and `hashCode`, and which clauses have a key that is not found because of them.
-/

namespace SXP.Sigma

open SXP.Lib SXP.Lib.Java

/-! ### Decoded responses -/

/-- Masks as they are decoded: the first one may be missing, too. -/
structure DecodedMasks where
  a : Option ℤ
  aBis : Option ℤ
deriving DecidableEq, Repr

namespace DecodedMasks

def equals (m o : DecodedMasks) : Java Bool := do
  let a ← nonNull m.a
  let a' ← nonNull o.a
  match m.aBis, o.aBis with
  | none, none => return a == a'
  | some aBis, some aBis' => return a == a' && aBis == aBis'
  | _, _ => return false

def hashCode (m : DecodedMasks) : Java Int32 := do
  let a ← nonNull m.a
  match m.aBis with
  | none => return BigInteger.intValue a
  | some aBis => return BigInteger.intValue a + BigInteger.intValue aBis

end DecodedMasks

/-- A response with masks, a challenge and a response. -/
structure DecodedResponses where
  kind : ResponsesKind
  masks : DecodedMasks
  challenge : ℤ
  response : ℤ
deriving DecidableEq, Repr

namespace DecodedResponses

def superEquals (r o : DecodedResponses) : Java Bool := do
  let okM ← o.masks.equals r.masks
  return okM && o.response == r.response && o.challenge == r.challenge

def equals (r o : DecodedResponses) : Java Bool :=
  match r.kind with
  | .schnorr => if o.kind = .schnorr then r.superEquals o else pure false
  | .cce => if o.kind = .cce then r.superEquals o else pure false
  | .ccd => r.superEquals o

def hashCode (r : DecodedResponses) : Java Int32 := do
  let hashM ← r.masks.hashCode
  return hashM + BigInteger.intValue r.response + BigInteger.intValue r.response +
    r.kind.hashOffset

/-- A response that has a hash: its first mask is there. -/
def complete (r : DecodedResponses) : Java Responses := do
  let a ← nonNull r.masks.a
  return ⟨r.kind, ⟨a, r.masks.aBis⟩, r.challenge, r.response⟩

/-- Equal, one way or the other. -/
def Alike (r o : DecodedResponses) : Prop := r.equals o = .ok true ∨ o.equals r = .ok true

def SameNumbers (r o : DecodedResponses) : Prop :=
  r.masks = o.masks ∧ r.challenge = o.challenge ∧ r.response = o.response

end DecodedResponses

def Responses.decoded (r : Responses) : DecodedResponses where
  kind := r.kind
  masks := ⟨some r.masks.a, r.masks.aBis⟩
  challenge := r.challenge
  response := r.response

/-- A clause as it is decoded: the entries of `rK` are put in the map one after the other. -/
structure DecodedAnd where
  entries : List (DecodedResponses × ElGamalKey)
  responses : List DecodedResponses

namespace DecodedAnd

/-- `result.put(key, value)`. -/
def put (m : ResponseKeys) (e : DecodedResponses × ElGamalKey) : Java ResponseKeys := do
  let r ← e.1.complete
  return ResponseKeys.put m r e.2

def rK (and : DecodedAnd) : Java ResponseKeys := and.entries.foldlM put []

/-- `rK.get(res)`. -/
def get (m : ResponseKeys) (res : DecodedResponses) : Java (Option ElGamalKey) := do
  let r ← res.complete
  return ResponseKeys.get m r

end DecodedAnd

/-! ### The contract -/

/-- What a map relies on, for the responses of a set. -/
structure Lawful (S : Set DecodedResponses) : Prop where
  symm : ∀ r ∈ S, ∀ o ∈ S, r.equals o = .ok true ↔ o.equals r = .ok true
  trans : ∀ r ∈ S, ∀ o ∈ S, ∀ t ∈ S, r.equals o = .ok true → o.equals t = .ok true →
    r.equals t = .ok true
  hash : ∀ r ∈ S, ∀ o ∈ S, r.equals o = .ok true → r.hashCode = o.hashCode

/-- No response of the third class has the numbers of one of another class. -/
def Unmixed (S : Set DecodedResponses) : Prop :=
  ∀ r ∈ S, ∀ o ∈ S, r.kind = .ccd → r.masks.a ≠ none → r.SameNumbers o → o.kind = .ccd

namespace DecodedAnd

/-- For each of the responses for which a key is stored under an equal response, such a key is
found. -/
def Finds (and : DecodedAnd) : Prop :=
  ∀ m, and.rK = .ok m → ∀ res ∈ and.responses, ∀ e ∈ m, res.Alike e.1.decoded →
    ∃ e' ∈ m, res.Alike e'.1.decoded ∧ get m res = .ok (some e'.2)

/-- A response whose numbers are stored, where it or the stored one is of the third class, is stored
itself. -/
def Keyed (and : DecodedAnd) : Prop :=
  (∀ e ∈ and.entries, e.1.masks.a ≠ none) → ∀ res ∈ and.responses, ∀ e ∈ and.entries,
    res.SameNumbers e.1 → (res.kind = .ccd ∨ e.1.kind = .ccd) → ∃ e' ∈ and.entries, e'.1 = res

end DecodedAnd

namespace DecodedResponses

variable {r o : DecodedResponses}

/-! ### Equality -/

theorem complete_eq_ok {c : Responses} : r.complete = .ok c ↔ r = c.decoded := by
  obtain ⟨kind, ⟨a, aBis⟩, challenge, response⟩ := r
  obtain ⟨kind', ⟨a', aBis'⟩, challenge', response'⟩ := c
  cases a with
  | none => simp [complete, Responses.decoded]
  | some a => simp [complete, Responses.decoded, and_assoc]

theorem exists_complete (h : r.masks.a ≠ none) : ∃ c : Responses, r = c.decoded := by
  obtain ⟨a, ha⟩ := Option.ne_none_iff_exists'.mp h
  refine ⟨⟨r.kind, ⟨a, r.masks.aBis⟩, r.challenge, r.response⟩, ?_⟩
  rw [← complete_eq_ok, complete, ha]
  rfl

theorem masks_equals_eq_true {m m' : DecodedMasks} :
    m.equals m' = .ok true ↔ m.a ≠ none ∧ m = m' := by
  obtain ⟨a, aBis⟩ := m
  obtain ⟨a', aBis'⟩ := m'
  cases a with
  | none => simp [DecodedMasks.equals]
  | some a =>
    cases a' with
    | none => simp [DecodedMasks.equals]
    | some a' => cases aBis <;> cases aBis' <;> simp [DecodedMasks.equals]

theorem decoded_injective : Function.Injective Responses.decoded := by
  intro c c' h
  exact Except.ok.inj ((complete_eq_ok.mpr rfl).symm.trans (complete_eq_ok.mpr h))

theorem superEquals_eq_true :
    r.superEquals o = .ok true ↔ r.masks.a ≠ none ∧ r.SameNumbers o := by
  unfold superEquals SameNumbers
  rw [bind_eq_ok]
  constructor
  · rintro ⟨okM, hmasks, h⟩
    rw [pure_eq, Except.ok.injEq, Bool.and_eq_true, Bool.and_eq_true, beq_iff_eq, beq_iff_eq] at h
    obtain ⟨⟨rfl, hresponse⟩, hchallenge⟩ := h
    obtain ⟨ha, hm⟩ := masks_equals_eq_true.mp hmasks
    exact ⟨hm ▸ ha, hm.symm, hchallenge.symm, hresponse.symm⟩
  · rintro ⟨ha, hm, hchallenge, hresponse⟩
    refine ⟨true, masks_equals_eq_true.mpr ⟨hm ▸ ha, hm.symm⟩, ?_⟩
    rw [hchallenge, hresponse, beq_self_eq_true, beq_self_eq_true]
    rfl

/-- **A hash** is that of the response with its first mask. -/
theorem hashCode_eq (r : DecodedResponses) : r.hashCode = r.complete.map Responses.hashCode := by
  obtain ⟨kind, ⟨a, aBis⟩, challenge, response⟩ := r
  cases a with
  | none => rfl
  | some a => cases aBis <;> rfl

/-- **Which responses are equal.** -/
theorem equals_eq_true : r.equals o = .ok true ↔
    r.masks.a ≠ none ∧ r.SameNumbers o ∧ (r.kind ≠ .ccd → o.kind = r.kind) := by
  rw [← and_assoc, ← superEquals_eq_true]
  cases hk : r.kind with
  | schnorr =>
    rw [equals, hk]
    by_cases ho : o.kind = .schnorr <;> simp [ho]
  | cce =>
    rw [equals, hk]
    by_cases ho : o.kind = .cce <;> simp [ho]
  | ccd =>
    rw [equals, hk]
    simp

theorem SameNumbers.symm (h : r.SameNumbers o) : o.SameNumbers r :=
  ⟨h.1.symm, h.2.1.symm, h.2.2.symm⟩

theorem alike_iff : r.Alike o ↔ r.masks.a ≠ none ∧ r.SameNumbers o ∧
    ((r.kind = .ccd ∨ o.kind = .ccd) ∨ o.kind = r.kind) := by
  unfold Alike
  rw [equals_eq_true, equals_eq_true]
  constructor
  · rintro (⟨ha, hsame, hkind⟩ | ⟨ha, hsame, hkind⟩)
    · refine ⟨ha, hsame, ?_⟩
      by_cases hk : r.kind = .ccd
      · exact .inl (.inl hk)
      · exact .inr (hkind hk)
    · refine ⟨hsame.1 ▸ ha, hsame.symm, ?_⟩
      by_cases hk : o.kind = .ccd
      · exact .inl (.inr hk)
      · exact .inr (hkind hk).symm
  · rintro ⟨ha, hsame, (hk | hk) | hk⟩
    · exact .inl ⟨ha, hsame, fun hne => absurd hk hne⟩
    · exact .inr ⟨hsame.1 ▸ ha, hsame.symm, fun hne => absurd hk hne⟩
    · exact .inl ⟨ha, hsame, fun _ => hk⟩

theorem SameNumbers.eq (h : r.SameNumbers o) (hk : o.kind = r.kind) : r = o := by
  obtain ⟨kind, masks, challenge, response⟩ := r
  obtain ⟨kind', masks', challenge', response'⟩ := o
  obtain ⟨hmasks, hchallenge, hresponse⟩ := h
  dsimp only at hk hmasks hchallenge hresponse
  rw [hk, hmasks, hchallenge, hresponse]

/-- Equality is that of the complete responses. -/
theorem equals_decoded (c c' : Responses) : c.decoded.equals c'.decoded = .ok (c.equals c') := by
  have hmasks : c'.decoded.masks.equals c.decoded.masks = .ok (c'.masks.equals c.masks) := by
    obtain ⟨kind, ⟨a, aBis⟩, challenge, response⟩ := c
    obtain ⟨kind', ⟨a', aBis'⟩, challenge', response'⟩ := c'
    cases aBis <;> cases aBis' <;> simp [Responses.decoded, DecodedMasks.equals, Masks.equals]
  have hsuper : c.decoded.superEquals c'.decoded = .ok (c.superEquals c') := by
    rw [superEquals, hmasks]
    rfl
  have hkind : c.decoded.kind = c.kind := rfl
  have hkind' : c'.decoded.kind = c'.kind := rfl
  rw [equals, Responses.equals, hsuper, hkind, hkind']
  cases c.kind <;> cases c'.kind <;> rfl

/-- **A map compares its keys as they are decoded**: by their hashes, and then by `equals`. -/
theorem isEntryOf_decoded (c : Responses) (e : Responses × ElGamalKey) :
    ResponseKeys.isEntryOf c e = true ↔ e.1.decoded.hashCode = c.decoded.hashCode ∧
      c.decoded.equals e.1.decoded = .ok true := by
  have hhash : ∀ r : Responses, r.decoded.hashCode = .ok r.hashCode := by
    intro r
    rw [hashCode_eq, complete_eq_ok.mpr rfl]
    rfl
  rw [hhash, hhash, equals_decoded, ResponseKeys.isEntryOf, Bool.and_eq_true, beq_iff_eq,
    Except.ok.injEq, Except.ok.injEq]

/-- **Equality is transitive**, whatever the classes are. -/
theorem equals_trans {t : DecodedResponses} (h : r.equals o = .ok true)
    (h' : o.equals t = .ok true) : r.equals t = .ok true := by
  obtain ⟨ha, ⟨hm, hc, hr⟩, hk⟩ := equals_eq_true.mp h
  obtain ⟨-, ⟨hm', hc', hr'⟩, hk'⟩ := equals_eq_true.mp h'
  refine equals_eq_true.mpr ⟨ha, ⟨hm.trans hm', hc.trans hc', hr.trans hr'⟩, fun hne => ?_⟩
  rw [hk' (by rwa [hk hne]), hk hne]

end DecodedResponses

open DecodedResponses

/-- In a set without a mixed pair, only a response itself is equal to it. -/
theorem Unmixed.eq {S : Set DecodedResponses} (h : Unmixed S) {r o : DecodedResponses} (hr : r ∈ S)
    (ho : o ∈ S) (hequal : r.equals o = .ok true) : r = o := by
  obtain ⟨ha, hsame, hkind⟩ := equals_eq_true.mp hequal
  by_cases hk : r.kind = .ccd
  · exact hsame.eq ((h r hr o ho hk ha hsame).trans hk.symm)
  · exact hsame.eq (hkind hk)

/-- **The contract holds** without mixed pairs, and only then. -/
theorem lawful_iff {S : Set DecodedResponses} : Lawful S ↔ Unmixed S := by
  constructor
  · intro h r hr o ho hk ha hsame
    have hequal : r.equals o = .ok true := equals_eq_true.mpr ⟨ha, hsame, fun hne => absurd hk hne⟩
    obtain ⟨-, -, hback⟩ := equals_eq_true.mp ((h.symm r hr o ho).mp hequal)
    by_contra hne
    exact hne ((hback hne).symm.trans hk)
  · intro h
    have hsymm : ∀ r ∈ S, ∀ o ∈ S, r.equals o = .ok true → o.equals r = .ok true := by
      intro r hr o ho hequal
      have heq := h.eq hr ho hequal
      rw [heq] at hequal ⊢
      exact hequal
    refine ⟨fun r hr o ho => ⟨hsymm r hr o ho, hsymm o ho r hr⟩,
      fun r _ o _ t _ => equals_trans, fun r hr o ho hequal => ?_⟩
    rw [h.eq hr ho hequal]

/-! ### The map of a clause -/

namespace ResponseKeys

/-- A key is stored for the response. -/
def Stores (m : ResponseKeys) (r : Responses) : Prop := ∃ k, (r, k) ∈ m

variable {m : ResponseKeys} {r r' : Responses} {k : ElGamalKey}

theorem stores_put : Stores (put m r' k) r ↔ Stores m r ∨ r = r' := by
  unfold put Stores
  split
  · rename_i hany
    obtain ⟨e, he, hentry⟩ := List.any_eq_true.mp hany
    have hkey : e.1 = r' := isEntryOf_iff.mp hentry
    constructor
    · rintro ⟨k', hmem⟩
      obtain ⟨e', he', heq⟩ := List.mem_map.mp hmem
      split at heq
      · obtain rfl := (Prod.mk.inj heq).1
        exact .inl ⟨e'.2, he'⟩
      · exact .inl ⟨k', heq ▸ he'⟩
    · intro h
      have hstored : ∃ k', (r, k') ∈ m := by
        rcases h with h | rfl
        · exact h
        · exact ⟨e.2, hkey ▸ he⟩
      obtain ⟨k', hmem⟩ := hstored
      by_cases hr : isEntryOf r' (r, k') = true
      · exact ⟨k, List.mem_map.mpr ⟨(r, k'), hmem, if_pos hr⟩⟩
      · exact ⟨k', List.mem_map.mpr ⟨(r, k'), hmem, if_neg hr⟩⟩
  · constructor
    · rintro ⟨k', hmem⟩
      rcases List.mem_append.mp hmem with hmem | hmem
      · exact .inl ⟨k', hmem⟩
      · exact .inr (Prod.mk.inj (List.mem_singleton.mp hmem)).1
    · rintro (⟨k', hmem⟩ | rfl)
      · exact ⟨k', List.mem_append_left _ hmem⟩
      · exact ⟨k, List.mem_append_right _ List.mem_cons_self⟩

theorem get_of_stores (h : Stores m r) : ∃ e ∈ m, e.1 = r ∧ m.get r = some e.2 := by
  obtain ⟨k, hmem⟩ := h
  rw [get]
  cases hfind : m.find? (isEntryOf r) with
  | none => exact absurd (isEntryOf_self r k) (by simpa using List.find?_eq_none.mp hfind _ hmem)
  | some e =>
    exact ⟨e, List.mem_of_find?_eq_some hfind, isEntryOf_iff.mp (List.find?_some hfind), rfl⟩

theorem stores_of_get (h : m.get r = some k) : Stores m r := by
  rw [get, Option.map_eq_some_iff] at h
  obtain ⟨e, hfind, -⟩ := h
  have hkey : e.1 = r := isEntryOf_iff.mp (List.find?_some hfind)
  exact ⟨e.2, hkey ▸ List.mem_of_find?_eq_some hfind⟩

end ResponseKeys

namespace DecodedAnd

open ResponseKeys

variable {and : DecodedAnd} {m : ResponseKeys} {r : Responses} {res : DecodedResponses}

/-- **One entry** is stored if its key has a hash. -/
theorem put_eq_ok {m' : ResponseKeys} {e : DecodedResponses × ElGamalKey} :
    put m e = .ok m' ↔ ∃ c : Responses, e.1 = c.decoded ∧ ResponseKeys.put m c e.2 = m' := by
  unfold put
  simp only [bind_eq_ok, complete_eq_ok, pure_eq, Except.ok.injEq]

/-- **All entries** are stored, one after the other. -/
theorem stores_foldlM {entries : List (DecodedResponses × ElGamalKey)} {m' : ResponseKeys}
    (h : entries.foldlM put m = .ok m') :
    Stores m' r ↔ Stores m r ∨ ∃ e ∈ entries, e.1 = r.decoded := by
  induction entries generalizing m with
  | nil =>
    obtain rfl := Except.ok.inj h
    simp
  | cons e entries ih =>
    rw [List.foldlM_cons, bind_eq_ok] at h
    obtain ⟨next, hput, hrest⟩ := h
    obtain ⟨c, hc, rfl⟩ := put_eq_ok.mp hput
    rw [ih hrest, stores_put, or_assoc]
    refine or_congr_right ?_
    have hkey : r = c ↔ e.1 = r.decoded := by
      rw [hc]
      exact ⟨fun h => h ▸ rfl, fun h => (decoded_injective h).symm⟩
    rw [hkey]
    simp

theorem decodes_iff {entries : List (DecodedResponses × ElGamalKey)} :
    (∃ m', entries.foldlM put m = .ok m') ↔ ∀ e ∈ entries, e.1.masks.a ≠ none := by
  induction entries generalizing m with
  | nil => exact iff_of_true ⟨m, rfl⟩ (fun e he => absurd he List.not_mem_nil)
  | cons e entries ih =>
    rw [List.forall_mem_cons]
    constructor
    · rintro ⟨m', h⟩
      rw [List.foldlM_cons, bind_eq_ok] at h
      obtain ⟨next, hput, hrest⟩ := h
      obtain ⟨c, hc, rfl⟩ := put_eq_ok.mp hput
      refine ⟨?_, ih.mp ⟨m', hrest⟩⟩
      rw [hc]
      exact Option.some_ne_none c.masks.a
    · rintro ⟨he, hentries⟩
      obtain ⟨c, hc⟩ := exists_complete he
      obtain ⟨m', hrest⟩ := ih.mpr hentries
      refine ⟨m', ?_⟩
      rw [List.foldlM_cons, bind_eq_ok]
      exact ⟨_, put_eq_ok.mpr ⟨c, hc, rfl⟩, hrest⟩

theorem stores_iff (h : and.rK = .ok m) :
    Stores m r ↔ ∃ e ∈ and.entries, e.1 = r.decoded := by
  rw [stores_foldlM h]
  simp [Stores]

theorem get_eq_ok {key : Option ElGamalKey} : get m res = .ok key ↔
    ∃ c : Responses, res = c.decoded ∧ ResponseKeys.get m c = key := by
  unfold get
  simp only [bind_eq_ok, complete_eq_ok, pure_eq, Except.ok.injEq]

/-- **When the keys are found.** -/
theorem finds_iff (and : DecodedAnd) : and.Finds ↔ and.Keyed := by
  constructor
  · intro h hentries res hres e he hsame hkind
    obtain ⟨m, hm⟩ := decodes_iff.mpr hentries
    obtain ⟨c, hc⟩ := exists_complete (hentries e he)
    obtain ⟨k, hmem⟩ := (stores_iff hm).mpr ⟨e, he, hc⟩
    have halike : res.Alike c.decoded := by
      rw [← hc]
      exact alike_iff.mpr ⟨hsame.1 ▸ hentries e he, hsame, .inl hkind⟩
    obtain ⟨e', -, -, hget⟩ := h m hm res hres (c, k) hmem halike
    obtain ⟨c', rfl, hfound⟩ := get_eq_ok.mp hget
    exact (stores_iff hm).mp (stores_of_get hfound)
  · intro h m hm res hres e he halike
    obtain ⟨ha, hsame, hkind⟩ := alike_iff.mp halike
    obtain ⟨c, rfl⟩ := exists_complete ha
    have hstored : ∃ e' ∈ and.entries, e'.1 = c.decoded := by
      obtain ⟨e', he', heq⟩ := (stores_iff hm).mp ⟨e.2, he⟩
      rw [← heq] at hsame hkind
      rcases hkind with hccd | hk
      · exact h (decodes_iff.mp ⟨m, hm⟩) _ hres e' he' hsame hccd
      · exact ⟨e', he', (hsame.eq hk).symm⟩
    obtain ⟨e', he', rfl, hget⟩ := get_of_stores ((stores_iff hm).mpr hstored)
    refine ⟨e', he', ?_, get_eq_ok.mpr ⟨e'.1, rfl, hget⟩⟩
    exact alike_iff.mpr ⟨ha, ⟨rfl, rfl, rfl⟩, .inr rfl⟩

end DecodedAnd

/-- **When responses can be keys of a map**: equality is always transitive, the rest of the contract
holds without mixed pairs, and in a clause the stored keys are found when there is no mixed pair of
a response and a stored one, or the response is stored itself. -/
theorem equals_contract_iff (S : Set DecodedResponses) (and : DecodedAnd) :
    (Lawful S ↔ Unmixed S) ∧ (and.Finds ↔ and.Keyed) :=
  ⟨lawful_iff, and.finds_iff⟩

/-! ### A mixed pair -/

def sampleCCD : DecodedResponses := ⟨.ccd, ⟨some 2, some 3⟩, 5, 7⟩

def sampleCCE : Responses := ⟨.cce, ⟨2, some 3⟩, 5, 7⟩

/-- The key is stored under the one, and looked up with the other. -/
def mixedAnd : DecodedAnd where
  entries := [(sampleCCE.decoded, ⟨9, 23, 5, none⟩)]
  responses := [sampleCCD]

/-- **Equal one way only**, with other hashes; and the key is not found. -/
theorem mixed_pair_breaks : sampleCCD.equals sampleCCE.decoded = .ok true ∧
    sampleCCE.decoded.equals sampleCCD = .ok false ∧
    sampleCCD.hashCode ≠ sampleCCE.decoded.hashCode ∧
    (mixedAnd.rK >>= fun m => DecodedAnd.get m sampleCCD) = .ok none ∧
    ¬ Lawful {sampleCCD, sampleCCE.decoded} ∧ ¬ mixedAnd.Finds := by
  have hequal : sampleCCD.equals sampleCCE.decoded = .ok true := by decide
  have hback : sampleCCE.decoded.equals sampleCCD = .ok false := by decide
  have hget : (mixedAnd.rK >>= fun m => DecodedAnd.get m sampleCCD) = .ok none := by decide +kernel
  refine ⟨hequal, hback, by decide +kernel, hget, fun h => ?_, fun h => ?_⟩
  · have hsymm := (h.symm sampleCCD (by simp) sampleCCE.decoded (by simp)).mp hequal
    rw [hback] at hsymm
    exact absurd hsymm (by decide)
  · obtain ⟨m, hm, hnone⟩ := bind_eq_ok.mp hget
    obtain ⟨k, hmem⟩ := (DecodedAnd.stores_iff hm).mpr ⟨_, List.mem_cons_self, rfl⟩
    obtain ⟨e', -, -, hfound⟩ := h m hm sampleCCD List.mem_cons_self _ hmem (.inl hequal)
    rw [hnone] at hfound
    cases hfound

end SXP.Sigma
