import SXP.Sigma.Completeness

/-!
# The contract and the finalization test

A contract is finalized when it holds a signature of every party, either on its
own data or on its data followed by a round: the second form is what Trent
hands out.  The test walks through the parties and carries one flag.  It
returns true at the first party whose signature on the data itself is
accepted, and a party whose signature is accepted on a round raises the flag
for the whole walk.

What the walk sees of a party is its `Standing`, and the answer is a function
of the list of standings (`isFinalized_iff`).  Comparing it with the list of
all parties' signatures gives exactly the contents on which the test is right
(`isFinalized_right_iff`).
-/

namespace SXP.Sigma

open SXP.Lib SXP.Lib.Java SXP.Lib.BigInteger SXP.Lib.Text

inductive Status where
  | nowhere
  | signing
  | finalized
  | cancelled
  | resolving
deriving DecidableEq, Repr

inductive Wish where
  | neutral
  | accept
  | refuse
deriving DecidableEq, Repr

/-- `signatures` is the hash map from keys to signatures; keys are compared by
`equals`, whose hash is the one of the public key. -/
structure SigmaContract where
  parties : List ElGamalKey
  clauses : List String
  trentK : Option ElGamalKey
  signatures : ElGamalKey → Option SigmaSignature
  status : Status
  wish : Wish

namespace SigmaContract

/-! ### Data to be signed -/

def clausesData (c : SigmaContract) : List UInt8 := getBytes (String.join c.clauses)

def getHashableData (c : SigmaContract) : List UInt8 :=
  getBytes (decimal (c.parties.map ElGamalKey.publicKey).sum) ++ c.clausesData

def clearData (c : SigmaContract) : List UInt8 := getBytes (newString c.getHashableData)

def roundData (c : SigmaContract) (round : ℤ) : List UInt8 :=
  getBytes (newString c.getHashableData ++ decimal round)

/-- The rounds a signature from Trent may be on. -/
def rounds (c : SigmaContract) : List ℤ := (List.range' 1 (c.parties.length + 1)).map Int.ofNat

theorem getHashableData_eq (c : SigmaContract) : c.getHashableData
    = getBytes (decimal (c.parties.map ElGamalKey.publicKey).sum ++ String.join c.clauses) := by
  rw [getHashableData, clausesData, getBytes_append]

theorem getHashableData_congr {c c' : SigmaContract} (hparties : c'.parties = c.parties)
    (hclauses : c'.clauses = c.clauses) : c'.getHashableData = c.getHashableData := by
  rw [getHashableData_eq, getHashableData_eq, hparties, hclauses]

theorem clearData_eq (c : SigmaContract) : c.clearData = c.getHashableData := by
  rw [clearData, getHashableData_eq, newString_getBytes]

theorem mem_rounds {c : SigmaContract} {round : ℤ} :
    round ∈ c.rounds ↔ 1 ≤ round ∧ round ≤ c.parties.length + 1 := by
  rw [rounds, List.mem_map]
  constructor
  · rintro ⟨n, hn, rfl⟩
    rw [List.mem_range'_1] at hn
    exact ⟨by have := hn.1; simpa using this, by have := hn.2; simp; omega⟩
  · rintro ⟨h1, h2⟩
    refine ⟨round.toNat, List.mem_range'_1.mpr ⟨by omega, by omega⟩, ?_⟩
    exact Int.toNat_of_nonneg (by omega)

/-! ### The test -/

variable (hash : List UInt8 → Digest)

def signer (c : SigmaContract) (k : ElGamalKey) : SigmaSigner := ⟨c.trentK, some k⟩

def verifiesClear (c : SigmaContract) (k : ElGamalKey) (sign : SigmaSignature) : Java Bool :=
  (c.signer k).verify hash c.clearData sign

def verifiesRound (c : SigmaContract) (k : ElGamalKey) (sign : SigmaSignature) (round : ℤ) :
    Java Bool :=
  (c.signer k).verify hash (c.roundData round) sign

/-- The walk through the parties; `result` is carried from one to the next. -/
def finalizedLoop (c : SigmaContract) : Bool → List ElGamalKey → Java Bool
  | result, [] => pure result
  | result, k :: ks =>
      match c.signatures k with
      | none => pure false
      | some sign => do
          if ← c.verifiesClear hash k sign then pure true
          else do
            let found ← Java.any (c.verifiesRound hash k sign) c.rounds
            finalizedLoop c (found || result) ks

def isFinalized (c : SigmaContract) : Java Bool :=
  match c.trentK with
  | none => pure false
  | some _ => c.finalizedLoop hash false c.parties

def putSignature (c : SigmaContract) (k : ElGamalKey) (s : SigmaSignature) : SigmaContract :=
  { c with signatures := fun k' => if k.equals k' then some s else c.signatures k' }

/-- The signature is stored before the test runs, also when the test throws. -/
def addSignature (c : SigmaContract) (k : Option ElGamalKey) (s : SigmaSignature) :
    Java Unit × SigmaContract :=
  match k with
  | none => (throw (.runtime "invalid key"), c)
  | some k =>
      if c.parties.any k.equals then
        let c' := c.putSignature k s
        match c'.isFinalized hash with
        | .ok true => (pure (), { c' with status := .finalized })
        | .ok false => (pure (), c')
        | .error e => (throw e, c')
      else (throw (.runtime "invalid key"), c)

/-- What adding a signature can write. -/
theorem addSignature_eq (c : SigmaContract) (k : Option ElGamalKey) (s : SigmaSignature) :
    ∃ signatures status, (c.addSignature hash k s).2
        = { c with signatures := signatures, status := status } ∧
      (status = c.status ∨ status = .finalized) := by
  unfold addSignature
  cases k with
  | none => exact ⟨_, _, rfl, Or.inl rfl⟩
  | some k =>
    by_cases hk : c.parties.any k.equals = true
    · simp only [hk, if_true]
      rcases (c.putSignature k s).isFinalized hash with e | _ | _
      · exact ⟨_, _, rfl, Or.inl rfl⟩
      · exact ⟨_, _, rfl, Or.inl rfl⟩
      · exact ⟨_, _, rfl, Or.inr rfl⟩
    · simp only [hk]
      exact ⟨_, _, rfl, Or.inl rfl⟩

/-- The test is decided by what is stored, also when adding throws or sets the status. -/
theorem addSignature_of_mem {c : SigmaContract} {k : ElGamalKey} (hk : k ∈ c.parties)
    (s : SigmaSignature) : c.addSignature hash (some k) s =
      match (c.putSignature k s).isFinalized hash with
      | .ok true => (.ok (), { c.putSignature k s with status := .finalized })
      | .ok false => (.ok (), c.putSignature k s)
      | .error e => (.error e, c.putSignature k s) := by
  have hany : c.parties.any k.equals = true :=
    List.any_eq_true.mpr ⟨k, hk, ElGamalKey.equals_refl k⟩
  unfold addSignature
  simp only [hany, if_true]
  rcases (c.putSignature k s).isFinalized hash with e | _ | _ <;> rfl

/-! ### Standings -/

/-- How the stored signature of one party fares. -/
inductive Standing where
  | missing
  | clear
  | promised
  | rejected
  | faulty
deriving DecidableEq, Repr

def standing (c : SigmaContract) (k : ElGamalKey) : Standing :=
  match c.signatures k with
  | none => .missing
  | some sign =>
      match c.verifiesClear hash k sign with
      | .ok true => .clear
      | .error _ => .faulty
      | .ok false =>
          match Java.any (c.verifiesRound hash k sign) c.rounds with
          | .ok true => .promised
          | .ok false => .rejected
          | .error _ => .faulty

def standings (c : SigmaContract) : List Standing := c.parties.map (c.standing hash)

/-- The walk comes to a party whose signature on the data is accepted. -/
def ReachesClear (l : List Standing) : Prop :=
  ∃ pre post, l = pre ++ .clear :: post ∧ ∀ s ∈ pre, s = .promised ∨ s = .rejected

theorem reachesClear_cons {s : Standing} {l : List Standing} : ReachesClear (s :: l) ↔
    s = .clear ∨ ((s = .promised ∨ s = .rejected) ∧ ReachesClear l) := by
  constructor
  · rintro ⟨pre, post, heq, hpre⟩
    cases pre with
    | nil => exact Or.inl (List.cons.inj heq).1
    | cons s' pre =>
      obtain ⟨rfl, rfl⟩ := List.cons.inj heq
      exact Or.inr ⟨hpre _ List.mem_cons_self, pre, post, rfl,
        fun s hs => hpre s (List.mem_cons_of_mem _ hs)⟩
  · rintro (rfl | ⟨hs, pre, post, rfl, hpre⟩)
    · exact ⟨[], l, rfl, by simp⟩
    · exact ⟨s :: pre, post, rfl, List.forall_mem_cons.mpr ⟨hs, hpre⟩⟩

/-- The walk comes to its end with the flag raised. -/
def EndsPromised (l : List Standing) : Prop :=
  (∀ s ∈ l, s = .promised ∨ s = .rejected) ∧ .promised ∈ l

def Signed (c : SigmaContract) (k : ElGamalKey) : Prop :=
  ∃ sign, c.signatures k = some sign ∧ (c.verifiesClear hash k sign = .ok true ∨
    ∃ round : ℤ, 1 ≤ round ∧ round ≤ c.parties.length + 1 ∧
      c.verifiesRound hash k sign round = .ok true)

def AllSigned (c : SigmaContract) : Prop := ∀ k ∈ c.parties, c.Signed hash k

/-- If the walk comes to a signature on the data, every party has signed; and if
it comes to its end, either no party has signed or all have. -/
def Sound (l : List Standing) : Prop :=
  (ReachesClear l → ∀ s ∈ l, s = .clear ∨ s = .promised) ∧ (EndsPromised l → .rejected ∉ l)

/-- **A party has signed exactly when its standing says so**: a signature that is
accepted on some message throws on none. -/
theorem signed_iff {c : SigmaContract} {k : ElGamalKey} :
    c.Signed hash k ↔ c.standing hash k = .clear ∨ c.standing hash k = .promised := by
  constructor
  · rintro ⟨sign, hs, hv⟩
    simp only [standing, hs]
    rcases hv with hclear | ⟨round, h1, h2, hround⟩
    · rw [hclear]
      exact Or.inl rfl
    · -- the signature is accepted on a round, so every other check of it returns
      have htotal := SigmaSigner.verify_of_accepted hash hround
      rw [show c.verifiesClear hash k sign = _ from htotal c.clearData]
      cases hc : verifiesChallenges hash c.clearData sign.pcs.a sign.pcs.challenges with
      | true => exact Or.inl rfl
      | false =>
        have hany := any_of_total (p := c.verifiesRound hash k sign) (l := c.rounds)
          (fun r _ => htotal (c.roundData r))
        have hmem : c.rounds.any (fun r => verifiesChallenges hash (c.roundData r) sign.pcs.a
            sign.pcs.challenges) = true := by
          refine List.any_eq_true.mpr ⟨round, mem_rounds.mpr ⟨h1, h2⟩, ?_⟩
          have hround' := htotal (c.roundData round)
          exact Except.ok.inj (hround'.symm.trans hround)
        rw [hany, hmem]
        exact Or.inr rfl
  · intro h
    simp only [standing] at h
    cases hs : c.signatures k with
    | none => simp [hs] at h
    | some sign =>
      refine ⟨sign, hs, ?_⟩
      simp only [hs] at h
      rcases hc : c.verifiesClear hash k sign with e | b
      · simp [hc] at h
      · cases b with
        | true => exact Or.inl rfl
        | false =>
          simp only [hc] at h
          rcases ha : Java.any (c.verifiesRound hash k sign) c.rounds with e | b
          · simp [ha] at h
          · cases b with
            | false => simp [ha] at h
            | true =>
              obtain ⟨round, hmem, hr⟩ := exists_of_any ha
              exact Or.inr ⟨round, (mem_rounds.mp hmem).1, (mem_rounds.mp hmem).2, hr⟩

theorem allSigned_iff {c : SigmaContract} :
    c.AllSigned hash ↔ ∀ s ∈ c.standings hash, s = .clear ∨ s = .promised := by
  rw [AllSigned, standings, List.forall_mem_map]
  exact forall₂_congr fun k _ => signed_iff hash

/-! ### The walk -/

theorem finalizedLoop_cons {c : SigmaContract} {result : Bool} {k : ElGamalKey}
    {ks : List ElGamalKey} :
    c.finalizedLoop hash result (k :: ks) = .ok true ↔
      c.standing hash k = .clear ∨
      (c.standing hash k = .promised ∧ c.finalizedLoop hash true ks = .ok true) ∨
      (c.standing hash k = .rejected ∧ c.finalizedLoop hash result ks = .ok true) := by
  rw [finalizedLoop, standing]
  cases c.signatures k with
  | none => simp
  | some sign =>
    rcases hc : c.verifiesClear hash k sign with e | _ | _
    · simp [hc]
    · rcases ha : Java.any (c.verifiesRound hash k sign) c.rounds with e | _ | _ <;> simp [hc, ha]
    · simp [hc]

theorem finalizedLoop_iff {c : SigmaContract} : ∀ (ks : List ElGamalKey) (result : Bool),
    c.finalizedLoop hash result ks = .ok true ↔
      ReachesClear (ks.map (c.standing hash)) ∨
      ((∀ s ∈ ks.map (c.standing hash), s = .promised ∨ s = .rejected) ∧
        (result = true ∨ .promised ∈ ks.map (c.standing hash))) := by
  intro ks
  induction ks with
  | nil =>
    intro result
    simp [finalizedLoop, ReachesClear]
  | cons k ks ih =>
    intro result
    rw [finalizedLoop_cons, ih true, ih result, List.map_cons, reachesClear_cons]
    cases c.standing hash k <;> simp

/-- **The test in terms of the standings.** -/
theorem isFinalized_iff {c : SigmaContract} {t : ElGamalKey} (ht : c.trentK = some t) :
    c.isFinalized hash = .ok true ↔
      ReachesClear (c.standings hash) ∨ EndsPromised (c.standings hash) := by
  have h := finalizedLoop_iff hash (c := c) c.parties false
  rw [isFinalized, ht]
  simpa [standings, EndsPromised] using h

/-- The walk ends at the first party when this has not signed, or has signed the data. -/
theorem isFinalized_of_none {c : SigmaContract} {k : ElGamalKey} {ks : List ElGamalKey}
    (hp : c.parties = k :: ks) (hk : c.signatures k = none) : c.isFinalized hash = .ok false := by
  unfold isFinalized
  cases c.trentK with
  | none => rfl
  | some t => simp only [hp, finalizedLoop, hk, pure_eq]

theorem isFinalized_of_clear {c : SigmaContract} {t k : ElGamalKey} {ks : List ElGamalKey}
    {sign : SigmaSignature} (ht : c.trentK = some t) (hp : c.parties = k :: ks)
    (hk : c.signatures k = some sign) (hv : c.verifiesClear hash k sign = .ok true) :
    c.isFinalized hash = .ok true := by
  unfold isFinalized
  simp only [ht, hp, finalizedLoop, hk, hv, ok_bind, if_true, pure_eq]

@[simp] theorem putSignature_self (c : SigmaContract) (k : ElGamalKey) (s : SigmaSignature) :
    (c.putSignature k s).signatures k = some s := if_pos (ElGamalKey.equals_refl k)

theorem walk_of_all {l : List Standing} (hl : l ≠ [])
    (h : ∀ s ∈ l, s = .clear ∨ s = .promised) : ReachesClear l ∨ EndsPromised l := by
  induction l with
  | nil => exact absurd rfl hl
  | cons s l ih =>
    rw [reachesClear_cons]
    rcases h s List.mem_cons_self with rfl | rfl
    · exact Or.inl (Or.inl rfl)
    · by_cases hnil : l = []
      · subst hnil
        exact Or.inr ⟨by simp, by simp⟩
      · rcases ih hnil (fun s hs => h s (List.mem_cons_of_mem _ hs)) with hr | he
        · exact Or.inl (Or.inr ⟨Or.inl rfl, hr⟩)
        · refine Or.inr ⟨?_, List.mem_cons_self⟩
          intro s hs
          rcases List.mem_cons.mp hs with rfl | hs
          · exact Or.inl rfl
          · exact he.1 s hs

theorem sound_iff {l : List Standing} (hl : l ≠ []) :
    ((ReachesClear l ∨ EndsPromised l) ↔ ∀ s ∈ l, s = .clear ∨ s = .promised) ↔ Sound l := by
  constructor
  · intro h
    refine ⟨fun hr => h.mp (Or.inl hr), ?_⟩
    intro he hrej
    rcases h.mp (Or.inr he) _ hrej with h' | h' <;> exact absurd h' (by decide)
  · rintro ⟨hr, he⟩
    refine ⟨?_, walk_of_all hl⟩
    rintro (hreach | hends)
    · exact hr hreach
    · intro s hs
      rcases hends.1 s hs with rfl | rfl
      · exact Or.inr rfl
      · exact absurd hs (he hends)

theorem isFinalized_status {c : SigmaContract} (st : Status) :
    ({ c with status := st } : SigmaContract).isFinalized hash = c.isFinalized hash := by
  have hloop : ∀ (ks : List ElGamalKey) (result : Bool),
      ({ c with status := st } : SigmaContract).finalizedLoop hash result ks
        = c.finalizedLoop hash result ks := by
    intro ks
    induction ks with
    | nil => intro result; rfl
    | cons k ks ih =>
      intro result
      rw [finalizedLoop, finalizedLoop]
      simp only [ih]
      rfl
  rw [isFinalized, isFinalized]
  dsimp only
  split
  · rfl
  · exact hloop _ _

/-- Adding a signature for a party finalizes the contract when the test says so. -/
theorem addSignature_status {c : SigmaContract} {k : ElGamalKey} {s : SigmaSignature}
    (hk : c.parties.any k.equals = true) (hst : c.status ≠ .finalized) :
    (c.addSignature hash (some k) s).2.status = .finalized ↔
      (c.putSignature k s).isFinalized hash = .ok true := by
  have hput : (c.putSignature k s).status ≠ .finalized := hst
  simp only [addSignature, hk, if_true]
  rcases hf : (c.putSignature k s).isFinalized hash with e | _ | _ <;> simp [hput]

theorem addSignature_standings {c : SigmaContract} {k : ElGamalKey} {s : SigmaSignature}
    (hk : c.parties.any k.equals = true) :
    (c.addSignature hash (some k) s).2.standings hash = (c.putSignature k s).standings hash := by
  simp only [addSignature, hk, if_true]
  rcases hf : (c.putSignature k s).isFinalized hash with e | _ | _ <;> rfl

def sampleContract : SigmaContract where
  parties := [(sampleKey 1000).getPublicKeys, (sampleKey 1001).getPublicKeys]
  clauses := ["clause"]
  trentK := some (sampleKey 1002).getPublicKeys
  signatures := fun _ => none
  status := .signing
  wish := .accept

/-- **The finalization test is right exactly on the sound contents** of the
signatures map, and so is the status that `addSignature` sets. -/
theorem isFinalized_right_iff (c : SigmaContract) (t : ElGamalKey) (ht : c.trentK = some t)
    (hN : c.parties ≠ []) :
    ((c.isFinalized hash = .ok true ↔ c.AllSigned hash) ↔ Sound (c.standings hash)) ∧
    ∀ (k : ElGamalKey) (s : SigmaSignature), c.parties.any k.equals = true →
      c.status ≠ .finalized →
      (((c.addSignature hash (some k) s).2.status = .finalized →
          (c.addSignature hash (some k) s).2.AllSigned hash) ↔
        Sound ((c.addSignature hash (some k) s).2.standings hash)) := by
  have hne : ∀ c' : SigmaContract, c'.parties = c.parties → c'.standings hash ≠ [] := by
    intro c' hp hnil
    rw [standings, hp] at hnil
    exact hN (List.map_eq_nil_iff.mp hnil)
  refine ⟨?_, ?_⟩
  · rw [isFinalized_iff hash ht, allSigned_iff, sound_iff (hne c rfl)]
  · intro k s hk hst
    have ht' : (c.putSignature k s).trentK = some t := ht
    rw [addSignature_status hash hk hst, allSigned_iff, addSignature_standings hash hk,
      isFinalized_iff hash ht', ← sound_iff (hne (c.putSignature k s) rfl)]
    exact ⟨fun h => ⟨h, walk_of_all (hne (c.putSignature k s) rfl)⟩, fun h => h.mp⟩

/-- The contract of two with the first party's signature, to which the second adds its own. -/
theorem isFinalized_right_sample : ∃ s0 s1,
    SigmaSigner.sign sha256
      ⟨some (sampleKey 1002).getPublicKeys, some (sampleKey 1001).getPublicKeys⟩ (sampleKey 1000)
      sampleContract.getHashableData 7 8 ⟨1, 2, 3, 4, 5, 6⟩ = .ok s0 ∧
    SigmaSigner.sign sha256
      ⟨some (sampleKey 1002).getPublicKeys, some (sampleKey 1000).getPublicKeys⟩ (sampleKey 1001)
      sampleContract.getHashableData 7 8 ⟨1, 2, 3, 4, 5, 6⟩ = .ok s1 ∧
    (((sampleContract.putSignature (sampleKey 1000) s0).isFinalized sha256 = .ok true ↔
        (sampleContract.putSignature (sampleKey 1000) s0).AllSigned sha256) ↔
      Sound ((sampleContract.putSignature (sampleKey 1000) s0).standings sha256)) ∧
    ((((sampleContract.putSignature (sampleKey 1000) s0).addSignature sha256
          (some (sampleKey 1001)) s1).2.status = .finalized →
        ((sampleContract.putSignature (sampleKey 1000) s0).addSignature sha256
          (some (sampleKey 1001)) s1).2.AllSigned sha256) ↔
      Sound (((sampleContract.putSignature (sampleKey 1000) s0).addSignature sha256
        (some (sampleKey 1001)) s1).2.standings sha256)) := by
  obtain ⟨s0, hs0, -⟩ := sign_accepted sha256
    (sampleKey_registered (x := 1000) 1002 (by decide +kernel)) (sampleKey_owned 1000)
    (sampleKey_valid 1001) sampleContract.getHashableData 7 8 ⟨1, 2, 3, 4, 5, 6⟩
  obtain ⟨s1, hs1, -⟩ := sign_accepted sha256
    (sampleKey_registered (x := 1001) 1002 (by decide +kernel)) (sampleKey_owned 1001)
    (sampleKey_valid 1000) sampleContract.getHashableData 7 8 ⟨1, 2, 3, 4, 5, 6⟩
  have hright := isFinalized_right_iff sha256 (sampleContract.putSignature (sampleKey 1000) s0)
    (sampleKey 1002).getPublicKeys rfl (List.cons_ne_nil _ _)
  have hparty : sampleContract.parties.any (sampleKey 1001).equals = true := by decide +kernel
  have hsigning : sampleContract.status ≠ .finalized := by decide
  exact ⟨s0, s1, hs0, hs1, hright.1, hright.2 (sampleKey 1001) s1 hparty hsigning⟩

/-! ### A contract that is finalized too early -/

/-- The first party's own signature finalizes the contract of two. -/
theorem finalized_with_one_signature : ∃ sign,
    SigmaSigner.sign sha256
      ⟨some (sampleKey 1002).getPublicKeys, some (sampleKey 1001).getPublicKeys⟩ (sampleKey 1000)
      sampleContract.getHashableData 7 8 ⟨1, 2, 3, 4, 5, 6⟩ = .ok sign ∧
    (sampleContract.addSignature sha256 (some (sampleKey 1000)) sign).1 = .ok () ∧
    (sampleContract.addSignature sha256 (some (sampleKey 1000)) sign).2.status = .finalized ∧
    (sampleContract.putSignature (sampleKey 1000) sign).isFinalized sha256 = .ok true ∧
    ¬ (sampleContract.putSignature (sampleKey 1000) sign).AllSigned sha256 := by
  obtain ⟨sign, hsign, hacc⟩ := sign_accepted sha256
    (sampleKey_registered (x := 1000) 1002 (by decide +kernel)) (sampleKey_owned 1000)
    (sampleKey_valid 1001) sampleContract.getHashableData 7 8 ⟨1, 2, 3, 4, 5, 6⟩
  have hk : sampleContract.parties.any (sampleKey 1000).equals = true := by decide +kernel
  have hother : (sampleKey 1000).equals (sampleKey 1001).getPublicKeys = false := by decide +kernel
  have hstored : (sampleContract.putSignature (sampleKey 1000) sign).signatures
      (sampleKey 1000).getPublicKeys = some sign := if_pos (ElGamalKey.equals_iff.mpr ⟨rfl, rfl, rfl⟩)
  have hv : (sampleContract.putSignature (sampleKey 1000) sign).verifiesClear sha256
      (sampleKey 1000).getPublicKeys sign = .ok true := by
    rw [verifiesClear, clearData_eq]
    refine hacc _ ⟨?_, ?_⟩ <;> rintro r ⟨⟩ <;> rfl
  have hfin : (sampleContract.putSignature (sampleKey 1000) sign).isFinalized sha256 = .ok true :=
    isFinalized_of_clear sha256 rfl rfl hstored hv
  refine ⟨sign, hsign, ?_, ?_, hfin, ?_⟩
  · simp only [addSignature, hk, if_true, hfin]
    rfl
  · exact (addSignature_status sha256 hk (by decide)).mpr hfin
  · intro hall
    obtain ⟨sign', hs, -⟩ := hall (sampleKey 1001).getPublicKeys
      (List.mem_cons_of_mem _ List.mem_cons_self)
    have hnone : (sampleContract.putSignature (sampleKey 1000) sign).signatures
        (sampleKey 1001).getPublicKeys = none := if_neg (by rw [hother]; decide)
    exact Option.some_ne_none _ (hs.symm.trans hnone)

end SigmaContract

end SXP.Sigma
