import SXP.Controller.Contracts

/-!
# The copies of a contract

An edit goes by the title, as the database compares titles, and leaves out the copies whose party has
answered already.  So it may change copies of another contract, and it may change some copies of a
contract and not the others.

`copies_equal_iff` says that nothing else can go wrong: the copies stay equal, and edits stay within
their contract, as long as every edit that is stored finds all copies of its contract or changes
nothing of them, and no copies of another one.
-/

namespace SXP.Controller

open SXP.Lib SXP.Lib.Java SXP.Model
open SXP.Sigma (Wish Status)

namespace Contracts

variable {C : Collation} {valid : ContractEntity → Bool}

/-! ### Equal copies -/

/-- The copies that one `add` has made have the same clauses and the same parties. -/
def CopiesEqual (db : Database) : Prop := ∀ r ∈ db.rows, ∀ r' ∈ db.rows, r.origin = r'.origin →
  r.entity.clauses = r'.entity.clauses ∧ r.entity.parties = r'.entity.parties

def Numbered (db : Database) : Prop := ∀ r ∈ db.rows, r.origin < db.adds

def SameTerms (r r' : Row) : Prop := r'.origin = r.origin ∧
  r'.entity.clauses = r.entity.clauses ∧ r'.entity.parties = r.entity.parties

theorem Numbered.map {db : Database} (h : Numbered db) {f : Row → Row}
    (hf : ∀ r, (f r).origin = r.origin) : Numbered { db with rows := db.rows.map f } := by
  intro r₁ h₁
  obtain ⟨r, hr, rfl⟩ := List.mem_map.mp h₁
  rw [hf]
  exact h r hr

theorem Numbered.update {db : Database} (h : Numbered db) (id : Option String)
    (f : ContractEntity → ContractEntity) : Numbered (update id f db) := by
  refine h.map fun r => ?_
  split <;> rfl

theorem CopiesEqual.map {db : Database} (h : CopiesEqual db) {f : Row → Row}
    (hf : ∀ r, SameTerms r (f r)) : CopiesEqual { db with rows := db.rows.map f } := by
  intro r₁ h₁ r₂ h₂ horigin
  obtain ⟨r, hr, rfl⟩ := List.mem_map.mp h₁
  obtain ⟨r', hr', rfl⟩ := List.mem_map.mp h₂
  obtain ⟨ho, hc, hp⟩ := hf r
  obtain ⟨ho', hc', hp'⟩ := hf r'
  obtain ⟨hclauses, hparties⟩ := h r hr r' hr' (ho.symm.trans (horigin.trans ho'))
  exact ⟨hc.trans (hclauses.trans hc'.symm), hp.trans (hparties.trans hp'.symm)⟩

theorem CopiesEqual.update {db : Database} (h : CopiesEqual db) (id : Option String)
    {f : ContractEntity → ContractEntity}
    (hf : ∀ c, (f c).clauses = c.clauses ∧ (f c).parties = c.parties) :
    CopiesEqual (update id f db) := by
  refine h.map fun r => ?_
  split
  · exact ⟨rfl, hf r.entity⟩
  · exact ⟨rfl, rfl, rfl⟩

/-! ### What an edit does -/

/-- The contract has the title, the user of the request is a party of it, and its own party has not
answered. -/
def selects (C : Collation) (c contract : ContractEntity) : Bool :=
  hasTitle C c contract && contract.parties.any (fun parties => c.userid.any parties.contains) &&
    contract.wish == some .neutral

def changed (C : Collation) (c : ContractEntity) (names : List (String × Option String)) (r : Row) :
    Row :=
  if selects C c r.entity then { r with entity := edited c names r.entity } else r

theorem changed_origin (C : Collation) (c : ContractEntity) (names : List (String × Option String)) (r : Row) :
    (changed C c names r).origin = r.origin := by
  unfold changed
  split <;> rfl

theorem editRow_ok {c : ContractEntity} {names : List (String × Option String)} {r r' : Row}
    (h : editRow C c names r = .ok r') : r' = changed C c names r := by
  unfold editRow at h
  unfold changed selects
  split at h
  · next htitle =>
    obtain ⟨contract, hone, heq⟩ := bind_eq_ok.mp h
    obtain rfl := Except.ok.inj heq
    unfold editOne at hone
    obtain ⟨parties, hparties, hone⟩ := bind_eq_ok.mp hone
    rw [htitle, nonNull_eq_ok.mp hparties, Option.any_some, Bool.true_and]
    split at hone
    · next hmem =>
      obtain ⟨wish, hwish, heq⟩ := bind_eq_ok.mp hone
      rw [hmem, nonNull_eq_ok.mp hwish, Bool.true_and, ← Except.ok.inj heq]
      cases wish <;> rfl
    · next hmem =>
      rw [Bool.eq_false_iff.mpr hmem, ← Except.ok.inj hone]
      rfl
  · next htitle =>
    rw [Bool.eq_false_iff.mpr htitle, ← Except.ok.inj h]
    rfl

theorem hasTitle_changed (C : Collation) (c : ContractEntity) (names : List (String × Option String))
    (r : Row) : hasTitle C c (changed C c names r).entity = hasTitle C c r.entity := by
  unfold changed
  split
  · next h =>
    have htitle : hasTitle C c r.entity = true := by
      rw [selects, Bool.and_assoc] at h
      exact (Bool.and_eq_true_iff.mp h).1
    rw [htitle]
    exact Collation.holds_value htitle
  · rfl

/-- No round throws, the rows that are held are valid, and the commit does not throw. -/
structure Stored (C : Collation) (valid : ContractEntity → Bool) (db : Database) (c : ContractEntity)
    (nick : String → Java (Option String)) (commitThrows : Bool)
    (names : List (String × Option String)) : Prop where
  named : editNames c nick = .ok names
  returns : ∀ r ∈ db.rows, ∃ r', editRow C c names r = .ok r'
  held : ∀ r ∈ db.rows, hasTitle C c r.entity = true → valid (changed C c names r).entity = true
  commits : commitThrows = false

theorem collect_editRow {c : ContractEntity} {names : List (String × Option String)}
    {rows rows' : List Row} (h : collect (editRow C c names) rows = .ok rows') :
    rows' = rows.map (changed C c names) := by
  have hall := collect_eq_ok.mp h
  clear h
  induction hall with
  | nil => rfl
  | cons hr _ ih => rw [List.map_cons, ← editRow_ok hr, ← ih]

theorem held_valid_iff {db : Database} {c : ContractEntity}
    {names : List (String × Option String)} :
    (((db.rows.map (changed C c names)).map Row.entity).filter (hasTitle C c)).all valid = true ↔
      ∀ r ∈ db.rows, hasTitle C c r.entity = true → valid (changed C c names r).entity = true := by
  simp only [List.all_eq_true, List.mem_filter, List.mem_map]
  constructor
  · intro h r hr htitle
    exact h _ ⟨⟨_, ⟨r, hr, rfl⟩, rfl⟩, (hasTitle_changed C c names r).trans htitle⟩
  · rintro h _ ⟨⟨_, ⟨r, hr, rfl⟩, rfl⟩, htitle⟩
    exact h r hr ((hasTitle_changed C c names r).symm.trans htitle)

theorem edit_of_stored {db : Database} {c : ContractEntity} {nick : String → Java (Option String)}
    {commitThrows : Bool} {names : List (String × Option String)}
    (h : Stored C valid db c nick commitThrows names) :
    (edit C valid c nick commitThrows db).2 = { db with rows := db.rows.map (changed C c names) } := by
  obtain ⟨rows, hrows⟩ := collect_total h.returns
  have hheld := held_valid_iff.mpr h.held
  rw [← collect_editRow hrows] at hheld
  unfold edit
  rw [h.named, ok_bind, hrows]
  dsimp only
  rw [end_, hheld, h.commits, ← collect_editRow hrows]
  rfl

theorem edit_of_not_stored {db : Database} {c : ContractEntity}
    {nick : String → Java (Option String)} {commitThrows : Bool}
    (h : ∀ names, ¬ Stored C valid db c nick commitThrows names) :
    (edit C valid c nick commitThrows db).2 = db := by
  unfold edit
  rcases hnames : editNames c nick with e | names
  · rfl
  · rw [ok_bind]
    rcases hrows : collect (editRow C c names) db.rows with e | rows
    · rfl
    · dsimp only
      rw [end_, if_neg]
      intro hend
      obtain ⟨hheld, hcommit⟩ := Bool.and_eq_true_iff.mp hend
      rw [collect_editRow hrows] at hheld
      refine h names ⟨hnames, fun r hr => exists_of_collect hrows hr, held_valid_iff.mp hheld, ?_⟩
      simpa using hcommit

/-! ### What an edit should do -/

def Own (db : Database) (c : ContractEntity) (r : Row) : Prop :=
  ∃ r' ∈ db.rows, r'.entity.id = c.id ∧ r'.origin = r.origin

/-- Only copies of the contract with the id of the request are not what they were. -/
def EditsOwn (C : Collation) (valid : ContractEntity → Bool) (db : Database) : Request → Prop
  | .edit c nick commitThrows => List.Forall₂ (fun r r' => r' = r ∨ Own db c r) db.rows
      (edit C valid c nick commitThrows db).2.rows
  | _ => True

/-- An edit that is stored changes only copies of its contract, and when it selects some copies of a
contract and not the others, it has the terms that they have. -/
structure Faithful (C : Collation) (db : Database) (c : ContractEntity)
    (names : List (String × Option String)) : Prop where
  own : ∀ r ∈ db.rows, selects C c r.entity = true → edited c names r.entity ≠ r.entity → Own db c r
  all : ∀ r ∈ db.rows, ∀ r' ∈ db.rows, r.origin = r'.origin → selects C c r.entity = true →
    selects C c r'.entity = false → r.entity.clauses = c.clauses ∧ r.entity.parties = c.parties

def FaithfulEdit (C : Collation) (valid : ContractEntity → Bool) (db : Database) : Request → Prop
  | .edit c nick commitThrows =>
      ∀ names, Stored C valid db c nick commitThrows names → Faithful C db c names
  | _ => True

theorem copiesEqual_changed_iff {db : Database} (h : CopiesEqual db) {c : ContractEntity}
    {names : List (String × Option String)} :
    CopiesEqual { db with rows := db.rows.map (changed C c names) } ↔
      ∀ r ∈ db.rows, ∀ r' ∈ db.rows, r.origin = r'.origin → selects C c r.entity = true →
        selects C c r'.entity = false →
          r.entity.clauses = c.clauses ∧ r.entity.parties = c.parties := by
  constructor
  · intro hnext r hr r' hr' horigin hsel hsel'
    have hchanged := hnext (changed C c names r) (List.mem_map_of_mem hr) (changed C c names r')
      (List.mem_map_of_mem hr')
    rw [changed, if_pos hsel, changed, if_neg (by rw [hsel']; simp)] at hchanged
    obtain ⟨hclauses, hparties⟩ := hchanged horigin
    obtain ⟨hclauses', hparties'⟩ := h r hr r' hr' horigin
    exact ⟨hclauses'.trans hclauses.symm, hparties'.trans hparties.symm⟩
  · intro hall r₁ h₁ r₂ h₂ horigin
    obtain ⟨r, hr, rfl⟩ := List.mem_map.mp h₁
    obtain ⟨r', hr', rfl⟩ := List.mem_map.mp h₂
    rw [changed_origin, changed_origin] at horigin
    obtain ⟨hclauses, hparties⟩ := h r hr r' hr' horigin
    unfold changed
    split
    · next hsel =>
      split
      · exact ⟨rfl, rfl⟩
      · next hsel' =>
        obtain ⟨hc, hp⟩ := hall r hr r' hr' horigin hsel (by simpa using hsel')
        exact ⟨hc.symm.trans hclauses, hp.symm.trans hparties⟩
    · next hsel =>
      split
      · next hsel' =>
        obtain ⟨hc, hp⟩ := hall r' hr' r hr horigin.symm hsel' (by simpa using hsel)
        exact ⟨hclauses.trans hc, hparties.trans hp⟩
      · exact ⟨hclauses, hparties⟩

theorem editsOwn_changed_iff {db : Database} {c : ContractEntity}
    {names : List (String × Option String)} :
    List.Forall₂ (fun r r' => r' = r ∨ Own db c r) db.rows (db.rows.map (changed C c names)) ↔
      ∀ r ∈ db.rows, selects C c r.entity = true → edited c names r.entity ≠ r.entity →
        Own db c r := by
  rw [List.forall₂_map_right_iff, List.forall₂_same]
  refine forall₂_congr fun r hr => ?_
  unfold changed
  constructor
  · intro h hsel hne
    rw [if_pos hsel] at h
    rcases h with h | h
    · exact absurd (congrArg Row.entity h) hne
    · exact h
  · intro h
    split
    · next hsel =>
      by_cases heq : edited c names r.entity = r.entity
      · exact Or.inl (by rw [heq])
      · exact Or.inr (h hsel heq)
    · exact Or.inl rfl

theorem edit_iff {db : Database} (h : CopiesEqual db) (c : ContractEntity)
    (nick : String → Java (Option String)) (commitThrows : Bool) :
    CopiesEqual (edit C valid c nick commitThrows db).2 ∧
        EditsOwn C valid db (.edit c nick commitThrows) ↔
      FaithfulEdit C valid db (.edit c nick commitThrows) := by
  unfold EditsOwn FaithfulEdit
  by_cases hstored : ∃ names, Stored C valid db c nick commitThrows names
  · obtain ⟨names, hstored⟩ := hstored
    dsimp only
    rw [edit_of_stored hstored, copiesEqual_changed_iff h, editsOwn_changed_iff]
    constructor
    · rintro ⟨hall, hown⟩ names' hstored'
      obtain rfl : names' = names :=
        Except.ok.inj (hstored'.named.symm.trans hstored.named)
      exact ⟨hown, hall⟩
    · intro hfaithful
      exact ⟨(hfaithful names hstored).all, (hfaithful names hstored).own⟩
  · have hnot : ∀ names, ¬ Stored C valid db c nick commitThrows names := by
      intro names hs
      exact hstored ⟨names, hs⟩
    dsimp only
    rw [edit_of_not_stored hnot]
    refine iff_of_true ⟨h, List.forall₂_same.mpr fun r _ => Or.inl rfl⟩ ?_
    exact fun names hs => absurd hs (hnot names)

/-! ### The other requests -/

theorem end_cases (held : List ContractEntity) (commitThrows : Bool) (db changed : Database) :
    end_ valid held commitThrows db changed = db ∨
      end_ valid held commitThrows db changed = changed := by
  unfold end_
  split
  · exact Or.inr rfl
  · exact Or.inl rfl

theorem copies_terms {contract : ContractEntity} {nick : String → Java (Option String)}
    {currentUser : Option String} {newId : ℕ → String} {entities : List ContractEntity}
    (h : copies contract nick currentUser newId = .ok entities) :
    ∀ c ∈ entities, c.clauses = contract.clauses ∧ c.parties = contract.parties := by
  unfold copies at h
  obtain ⟨parties, hparties, h⟩ := bind_eq_ok.mp h
  obtain ⟨names, -, h⟩ := bind_eq_ok.mp h
  obtain rfl : entities = parties.mapIdx fun k userid =>
      copyFor contract parties names (newId k) userid := by
    split at h
    · exact (Except.ok.inj h).symm
    · obtain ⟨_, -, h⟩ := bind_eq_ok.mp h
      exact (Except.ok.inj h).symm
  intro c hc
  obtain ⟨k, hk, rfl⟩ := List.mem_mapIdx.mp hc
  exact ⟨rfl, (nonNull_eq_ok.mp hparties).symm⟩

theorem add_cases (valid : ContractEntity → Bool) (contract : ContractEntity) (constant : Bool)
    (nick : String → Java (Option String)) (currentUser : Option String) (newId : ℕ → String)
    (commitThrows : Bool) (db : Database) :
    (add valid contract constant nick currentUser newId commitThrows db).2 = db ∨
      ∃ entities : List ContractEntity,
        (∀ c ∈ entities, c.clauses = (titled contract constant).clauses ∧
          c.parties = (titled contract constant).parties) ∧
        (add valid contract constant nick currentUser newId commitThrows db).2 =
          ⟨db.rows ++ entities.map fun c => ⟨c, db.adds⟩, db.adds + 1⟩ := by
  unfold add
  rcases hcopies : copies (titled contract constant) nick currentUser newId with e | entities
  · exact Or.inl rfl
  · exact (end_cases entities commitThrows db _).imp_right
      fun hend => ⟨entities, copies_terms hcopies, hend⟩

theorem sign_cases (C : Collation) (valid : ContractEntity → Bool) (id : String)
    (started : Java (Option Status)) (commitThrows : Bool) (db : Database) :
    (sign C valid id started commitThrows db).2 = db ∨
      ∃ found status,
        (sign C valid id started commitThrows db).2 = update found (accepted status) db := by
  unfold sign
  split
  · exact Or.inl rfl
  · next c _ =>
    split
    · exact Or.inl rfl
    · split
      · exact Or.inl rfl
      · next status =>
        exact (end_cases [accepted status c] commitThrows db _).imp_right
          fun hend => ⟨c.id, status, hend⟩
    · exact Or.inl rfl

theorem cancel_cases (C : Collation) (valid : ContractEntity → Bool) (id : String) (commitThrows : Bool)
    (db : Database) : (cancel C valid id commitThrows db).2 = db ∨
      ∃ found, (cancel C valid id commitThrows db).2 =
        update found (fun c => (cancelled c).2) db := by
  unfold cancel
  split
  · exact Or.inl rfl
  · next c _ =>
    exact (end_cases [(cancelled c).2] commitThrows db _).imp_right fun hend => ⟨c.id, hend⟩

theorem cancelled_terms (c : ContractEntity) :
    (cancelled c).2.clauses = c.clauses ∧ (cancelled c).2.parties = c.parties := by
  unfold cancelled
  split
  · exact ⟨rfl, rfl⟩
  · split <;> exact ⟨rfl, rfl⟩

theorem CopiesEqual.append {db : Database} (h : CopiesEqual db) (hn : Numbered db)
    {entities : List ContractEntity} {contract : ContractEntity}
    (hterms : ∀ c ∈ entities, c.clauses = contract.clauses ∧ c.parties = contract.parties) :
    CopiesEqual ⟨db.rows ++ entities.map fun c => ⟨c, db.adds⟩, db.adds + 1⟩ := by
  intro r hr r' hr' horigin
  rcases List.mem_append.mp hr with hr | hr <;> rcases List.mem_append.mp hr' with hr' | hr'
  · exact h r hr r' hr' horigin
  · obtain ⟨c, -, rfl⟩ := List.mem_map.mp hr'
    exact absurd horigin (hn r hr).ne
  · obtain ⟨c, -, rfl⟩ := List.mem_map.mp hr
    exact absurd horigin.symm (hn r' hr').ne
  · obtain ⟨c, hc, rfl⟩ := List.mem_map.mp hr
    obtain ⟨c', hc', rfl⟩ := List.mem_map.mp hr'
    obtain ⟨hclauses, hparties⟩ := hterms c hc
    obtain ⟨hclauses', hparties'⟩ := hterms c' hc'
    exact ⟨hclauses.trans hclauses'.symm, hparties.trans hparties'.symm⟩

theorem Numbered.append {db : Database} (h : Numbered db) (entities : List ContractEntity) :
    Numbered ⟨db.rows ++ entities.map fun c => ⟨c, db.adds⟩, db.adds + 1⟩ := by
  intro r hr
  rcases List.mem_append.mp hr with hr | hr
  · exact Nat.lt_succ_of_lt (h r hr)
  · obtain ⟨c, -, rfl⟩ := List.mem_map.mp hr
    exact Nat.lt_succ_self db.adds

/-- A request other than an edit leaves the rows, adds copies, or changes a row without its terms. -/
theorem next_of {I : Database → Prop} {db : Database} {request : Request}
    (h : ∀ c nick commitThrows, request ≠ .edit c nick commitThrows) (hsame : I db)
    (happend : ∀ (contract : ContractEntity) (entities : List ContractEntity),
      (∀ c ∈ entities, c.clauses = contract.clauses ∧ c.parties = contract.parties) →
        I ⟨db.rows ++ entities.map fun c => ⟨c, db.adds⟩, db.adds + 1⟩)
    (hupdate : ∀ id f, (∀ c : ContractEntity, (f c).clauses = c.clauses ∧
      (f c).parties = c.parties) → I (update id f db)) :
    I ((machine C valid).next db request) := by
  cases request with
  | add contract constant nick currentUser newId commitThrows =>
    simp only [Machine.next, machine]
    obtain heq | ⟨entities, hterms, heq⟩ := add_cases valid contract constant nick currentUser
      newId commitThrows db
    · rwa [heq]
    · rw [heq]
      exact happend _ entities hterms
  | edit c nick commitThrows => exact absurd rfl (h c nick commitThrows)
  | sign id started commitThrows =>
    simp only [Machine.next, machine]
    obtain heq | ⟨found, status, heq⟩ := sign_cases C valid id started commitThrows db
    · rwa [heq]
    · rw [heq]
      exact hupdate found _ fun c => ⟨rfl, rfl⟩
  | cancel id commitThrows =>
    simp only [Machine.next, machine]
    obtain heq | ⟨found, heq⟩ := cancel_cases C valid id commitThrows db
    · rwa [heq]
    · rw [heq]
      exact hupdate found _ cancelled_terms
  | stored id status =>
    exact hupdate (some id) (fun c => { c with status := status }) fun c => ⟨rfl, rfl⟩

theorem Numbered.next {db : Database} (h : Numbered db) (request : Request) :
    Numbered ((machine C valid).next db request) := by
  cases request with
  | edit c nick commitThrows =>
    simp only [Machine.next, machine]
    by_cases hstored : ∃ names, Stored C valid db c nick commitThrows names
    · obtain ⟨names, hstored⟩ := hstored
      rw [edit_of_stored hstored]
      exact h.map (changed_origin C c names)
    · rwa [edit_of_not_stored fun names hs => hstored ⟨names, hs⟩]
  | _ =>
    exact next_of (by simp) h (fun _ entities _ => h.append entities) fun id f _ => h.update id f

theorem step_iff {db : Database} (hn : Numbered db) (h : CopiesEqual db) (request : Request) :
    CopiesEqual ((machine C valid).next db request) ∧ EditsOwn C valid db request ↔
      FaithfulEdit C valid db request := by
  cases request with
  | edit c nick commitThrows => exact edit_iff h c nick commitThrows
  | _ =>
    refine iff_of_true ⟨?_, trivial⟩ trivial
    exact next_of (by simp) h (fun _ _ hterms => h.append hn hterms)
      fun id f hterms => h.update id hterms

/-- **When all copies of a contract stay equal**, and edits change no others: as long as every edit
that is stored is faithful. -/
theorem copies_equal_iff (C : Collation) (valid : ContractEntity → Bool)
    (requests : List Request) :
    (∀ pre, pre <+: requests → CopiesEqual ((machine C valid).run empty pre)) ∧
        (machine C valid).Along (fun _ => EditsOwn C valid) empty requests ↔
      (machine C valid).Along (fun _ => FaithfulEdit C valid) empty requests :=
  (machine C valid).invariant_iff (I := CopiesEqual) (J := Numbered)
    (fun _ hr => absurd hr List.not_mem_nil) (fun _ hr => absurd hr List.not_mem_nil)
    (fun _ request hn => hn.next request) (fun _ request hn h => step_iff hn h request) requests

/-! ### A copy that is left behind -/

/-- `userid`, `wish` and `status` are not null. -/
def sampleValid (c : ContractEntity) : Bool := c.userid.isSome && c.wish.isSome && c.status.isSome

def sampleNick (id : String) : Java (Option String) := .ok (some id)

def sampleRequests : List Request :=
  [.add { sampleContract with id := none } false sampleNick (some "ann")
      (fun k => if k = 0 then "c1" else "c2") false,
    .sign "c2" (.ok (some .nowhere)) false,
    .edit { sampleContract with clauses := some ["two bikes"] } sampleNick false]

theorem copy_left_behind :
    ¬ ((∀ pre, pre <+: sampleRequests → CopiesEqual ((machine .padded sampleValid).run empty pre)) ∧
      (machine .padded sampleValid).Along (fun _ => EditsOwn .padded sampleValid) empty sampleRequests) := by
  have hrows : ((machine .padded sampleValid).run empty sampleRequests).rows.map
      (fun r => (r.origin, r.entity.clauses)) =
        [(0, some ["two bikes"]), (0, some ["a bike"])] := by
    decide +kernel
  rintro ⟨hall, -⟩
  have h := hall sampleRequests List.prefix_rfl
  obtain ⟨r, hr, heq⟩ := List.mem_map.mp (hrows ▸ List.mem_cons_self)
  obtain ⟨r', hr', heq'⟩ := List.mem_map.mp (hrows ▸ List.mem_cons_of_mem _ List.mem_cons_self)
  have hclauses := (h r hr r' hr' (by rw [(Prod.mk.inj heq).1, (Prod.mk.inj heq').1])).1
  rw [(Prod.mk.inj heq).2, (Prod.mk.inj heq').2] at hclauses
  exact absurd hclauses (by decide)

end Contracts

end SXP.Controller
