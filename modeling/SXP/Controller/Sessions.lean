import SXP.Controller.Users

/-!
# Who is logged in

`Ideal` is what the requests are for: people with their passwords, and tokens.  It has no digests
and no transactions, and is only told what became of each.  It looks for names and ids as the
database does.

`sessions_refine` is the refinement: as long as the digests tell the passwords apart that occur,
every request is answered as `Ideal` does, and the user of every token is the same.
-/

namespace SXP.Controller.Users

open SXP.Lib SXP.Lib.Java SXP.Lib.Text SXP.Crypt SXP.Model

structure Person where
  id : String
  nick : String
  password : String
deriving DecidableEq, Repr

inductive Storing where
  | stored
  | refused
  | thrown (e : JavaException)
deriving DecidableEq, Repr

structure Ideal where
  people : List Person
  tokens : Tokens

namespace Ideal

variable (C : Collation)

def find (people : List Person) (username password : Option String) : Option Person :=
  people.find? fun p => C.holds (some p.nick) username ∧ some p.password = password

def issue (token : String) (login : Option String) (password : String) (ideal : Ideal) : Ideal :=
  { ideal with tokens := getToken ideal.tokens token login password }

def login (jsonCredentials token : String) : Act Ideal Reply := do
  let login ← Act.lift (credential jsonCredentials 0)
  let password ← Act.lift (credential jsonCredentials 1)
  let ideal ← get
  match find C ideal.people (some login) (some password) with
  | some p =>
      modify (issue token (some login) password)
      return .token token (some p.id)
  | none => return .error

def logout (token : Option String) : Act Ideal Reply := do
  modify fun ideal => { ideal with tokens := deleteToken ideal.tokens token }
  return .null

/-- There is a token in any case, unless something is thrown. -/
def subscribe (jsonCredentials : String) (d : Subscription) (o : Storing) : Act Ideal Reply := do
  let login ← Act.lift (credential jsonCredentials 0)
  let password ← Act.lift (credential jsonCredentials 1)
  match o with
  | .thrown e => Act.lift (.error e)
  | .stored =>
      modify fun ideal => { ideal with people := ideal.people ++ [⟨d.id, login, password⟩] }
      modify (issue d.token (some login) password)
      return .token d.token (if d.persistThrows then none else some d.id)
  | .refused =>
      modify (issue d.token (some login) password)
      return .token d.token (if d.persistThrows then none else some d.id)

def setPassword (id password : String) (people : List Person) : List Person :=
  people.map fun p => if p.id = id then { p with password := password } else p

def changePassword (token : Option String) (jsonCredentials : String) (d : Change) (o : Storing) :
    Act Ideal Reply := do
  let passwordOld ← Act.lift (credential jsonCredentials 0)
  let passwordNew ← Act.lift (credential jsonCredentials 1)
  let passwordNewConfirm ← Act.lift (credential jsonCredentials 2)
  if passwordNew ≠ passwordNewConfirm then return .error
  let ideal ← get
  match find C ideal.people (getLogin ideal.tokens token) (some passwordOld) with
  | some p =>
      modify (issue d.token (some p.nick) passwordNew)
      match o with
      | .thrown e => Act.lift (.error e)
      | .refused => return .null
      | .stored =>
          modify fun ideal => { ideal with people := setPassword p.id passwordNew ideal.people }
          return .token d.token (some p.id)
  | none => return .null

def delete (id : String) (token : Option String) (o : Storing) : Act Ideal Reply := do
  let ideal ← get
  match find C ideal.people (getLogin ideal.tokens token) (getPassword ideal.tokens token) with
  | some _ =>
      match o, ideal.people.find? (fun p => C.eq p.id id) with
      | .stored, some p =>
          modify fun ideal => { ideal with people := ideal.people.filter fun q => q.id ≠ p.id }
          return .deleted true
      | _, _ => return .deleted false
  | none => return .deleted false

def handle : Request × Storing → Act Ideal Reply
  | (.login jsonCredentials token, _) => login C jsonCredentials token
  | (.logout token, _) => logout token
  | (.subscribe jsonCredentials d, o) => subscribe jsonCredentials d o
  | (.changePassword token jsonCredentials d, o) => changePassword C token jsonCredentials d o
  | (.delete id token _ _, o) => delete C id token o

def machine : Machine Ideal (Request × Storing) (Java Reply) where
  step ideal request := (handle C request).exec ideal

def currentUser (ideal : Ideal) (token : Option String) : Option Person :=
  find C ideal.people (getLogin ideal.tokens token) (getPassword ideal.tokens token)

end Ideal

/-! ### What becomes of the transactions -/

/-- Of the answer of `end`, and whether the row was written. -/
def Storing.of (answer : Java Bool) (written : Bool) : Storing :=
  match answer with
  | .error e => .thrown e
  | .ok done => if done && written then .stored else .refused

section

variable (σ τ : Type) [EntityManager σ Unit Account] [EntityManager τ String Account]
  (C : Collation) (hash : List UInt8 → Digest) (z : Date.TimeZone) (valid : Account → Bool)

/-- The transaction of a request. -/
def storing (api : Api) : Request → Storing
  | .login _ _ | .logout _ => .refused
  | .subscribe jsonCredentials d =>
      match credential jsonCredentials 0, credential jsonCredentials 1 with
      | .ok login, .ok password =>
          let r := subscription σ hash z valid (newUser login password d) d
            (api.table.any fun row => C.eq row.id d.id)
          .of r.1 r.2.isSome
      | _, _ => .refused
  | .changePassword token jsonCredentials d =>
      let username := getLogin api.tokens token
      match credential jsonCredentials 0, credential jsonCredentials 1 with
      | .ok passwordOld, .ok passwordNew =>
          match getUser C hash api.table username (some passwordOld) with
          | .ok (some u) =>
              let others := (findAllByNick C api.table username).filter fun r => r.id ≠ u.id
              .of (change σ hash z valid (others.map Row.account) u.account passwordNew d).1 true
          | _ => .refused
      | _, _ => .refused
  | .delete id token removeThrows commitThrows =>
      let loaded := (findAllByNick C api.table (getLogin api.tokens token)).map Row.id
      .of (.ok (deletion τ valid api.table loaded (storedId C api.table id) removeThrows
        commitThrows).1) true

end

/-! ### Passwords that occur -/

/-- The digests with these salts are different texts for these passwords, and no password is one
of them. -/
structure Tells (hash : List UInt8 → Digest) (salts : Set (List UInt8)) (passwords : Set String) :
    Prop where
  apart : ∀ salt ∈ salts, ∀ p ∈ passwords, ∀ q ∈ passwords,
    newString (Session.getHash hash (some salt) (getBytes p)) =
      newString (Session.getHash hash (some salt) (getBytes q)) → p = q
  plain : ∀ salt ∈ salts, ∀ p ∈ passwords, ∀ q ∈ passwords,
    Session.getHash hash (some salt) (getBytes p) ≠ getBytes q

def Request.Within (salts : Set (List UInt8)) (passwords : Set String) : Request → Prop
  | .login jsonCredentials _ => ∀ p, credential jsonCredentials 1 = .ok p → p ∈ passwords
  | .logout _ => True
  | .subscribe jsonCredentials d =>
      d.salt ∈ salts ∧ ∀ p, credential jsonCredentials 1 = .ok p → p ∈ passwords
  | .changePassword _ jsonCredentials d =>
      d.salt ∈ salts ∧ (∀ p, credential jsonCredentials 0 = .ok p → p ∈ passwords) ∧
        ∀ p, credential jsonCredentials 1 = .ok p → p ∈ passwords
  | .delete _ _ _ _ => True

/-! ### The refinement -/

/-- A row of the person: its digest is that of the password. -/
structure Is (hash : List UInt8 → Digest) (salts : Set (List UInt8)) (passwords : Set String)
    (r : Row) (p : Person) : Prop where
  id : r.id = p.id
  password : p.password ∈ passwords
  bears : ∃ salt ∈ salts, Bears hash (some p.nick) salt p.password r.account

/-- The table has the rows of the people, in their order, and the tokens are the same. -/
structure Stands (hash : List UInt8 → Digest) (salts : Set (List UInt8)) (passwords : Set String)
    (api : Api) (ideal : Ideal) : Prop where
  people : List.Forall₂ (Is hash salts passwords) api.table ideal.people
  ids : (api.table.map Row.id).Nodup
  tokens : api.tokens = ideal.tokens
  known : ∀ token logins, api.tokens token = some logins → logins.password ∈ passwords

section

variable {σ τ : Type} [EntityManager σ Unit Account] [EntityManager τ String Account]
  {C : Collation} {hash : List UInt8 → Digest} {z : Date.TimeZone} {valid : Account → Bool}
  {salts : Set (List UInt8)} {passwords : Set String} {api : Api} {ideal : Ideal}

/-- **The comparison of the digests** is that of the passwords. -/
theorem Is.matchesPassword (htells : Tells hash salts passwords) {r : Row} {p : Person}
    (h : Is hash salts passwords r p) {password : String} (hp : password ∈ passwords) :
    Session.matchesPassword hash r.account (getBytes password) =
      .ok (decide (p.password = password)) := by
  obtain ⟨salt, hsalt, hnick, hsalted, hhashed⟩ := h.bears
  unfold Session.matchesPassword
  rw [hhashed, nonNull_some, ok_bind, hsalted, pure_eq]
  by_cases heq : p.password = password
  · rw [heq]
    simp
  · have hne := fun htext => heq (htells.apart salt hsalt p.password h.password password hp htext)
    rw [decide_eq_false heq, beq_eq_false_iff_ne.mpr hne]

theorem forall₂_find? {α β : Type} {R : α → β → Prop} {l : List α} {l' : List β}
    {p : α → Bool} {q : β → Bool} (hpq : ∀ a b, R a b → p a = q b) (h : List.Forall₂ R l l') :
    Option.Rel R (l.find? p) (l'.find? q) := by
  induction h with
  | nil => exact .none
  | @cons a b l l' hab hl ih =>
    rw [List.find?_cons, List.find?_cons, hpq a b hab]
    cases q b with
    | true => exact .some hab
    | false => exact ih

theorem exists_of_forall₂ {α β : Type} {R : α → β → Prop} {l : List α} {l' : List β}
    (h : List.Forall₂ R l l') {a : α} (ha : a ∈ l) : ∃ b ∈ l', R a b := by
  induction h with
  | nil => exact absurd ha List.not_mem_nil
  | @cons a' b l l' hab hl ih =>
    rcases List.mem_cons.mp ha with rfl | ha
    · exact ⟨b, List.mem_cons_self, hab⟩
    · obtain ⟨b', hb', h⟩ := ih ha
      exact ⟨b', List.mem_cons_of_mem b hb', h⟩

/-- **A user is found** where the person is. -/
theorem getUser_refines (htells : Tells hash salts passwords) {table : List Row}
    {people : List Person} (h : List.Forall₂ (Is hash salts passwords) table people)
    {username password : Option String} (hknown : ∀ p, password = some p → p ∈ passwords)
    (hboth : username.isSome = true → password.isSome = true) :
    ∃ o, getUser C hash table username password = .ok o ∧ (∀ r, o = some r → r ∈ table) ∧
      Option.Rel (Is hash salts passwords) o (Ideal.find C people username password) := by
  let test : Row → Java Bool := fun r => do
    Session.matchesPassword hash r.account (getBytes (← nonNull password))
  have hname : ∀ r p, Is hash salts passwords r p → r.account.user.nick = some p.nick := by
    intro r p hr
    obtain ⟨salt, -, hbears⟩ := hr.bears
    exact hbears.named
  have hanswer : ∀ r p, Is hash salts passwords r p → username.isSome = true →
      test r = .ok (decide (some p.password = password)) := by
    intro r p hr hu
    obtain ⟨text, rfl⟩ := Option.isSome_iff_exists.mp (hboth hu)
    show (do Session.matchesPassword hash r.account (getBytes (← nonNull (some text)))) = _
    rw [nonNull_some, ok_bind, hr.matchesPassword htells (hknown text rfl)]
    simp
  -- every row with the name has an answer
  have htotal : ∀ r ∈ findAllByNick C table username,
      test r = .ok ((test r).toOption.getD false) := by
    intro r hr
    obtain ⟨hmem, hnick⟩ := Collation.mem_select.mp hr
    obtain ⟨p, -, hp⟩ := exists_of_forall₂ h hmem
    rw [hanswer r p hp (Collation.isSome_of_holds hnick)]
    rfl
  refine ⟨_, find_of_total htotal, ?_, ?_⟩
  · intro r hr
    exact (List.mem_filter.mp (List.mem_of_find?_eq_some hr)).1
  · unfold findAllByNick Collation.select Ideal.find
    rw [List.find?_filter]
    refine forall₂_find? (fun r p hr => ?_) h
    simp only [hname r p hr]
    cases username with
    | none => simp [Collation.holds_none]
    | some u =>
      rw [hanswer r p hr rfl]
      simp [Except.toOption]

/-! ### One request -/

/-- The request is answered as in `Ideal`, and the states still belong together. -/
def Follows (hash : List UInt8 → Digest) (salts : Set (List UInt8)) (passwords : Set String)
    (r : Java Reply × Api) (r' : Java Reply × Ideal) : Prop :=
  r.1 = r'.1 ∧ Stands hash salts passwords r.2 r'.2

theorem Stands.issue (h : Stands hash salts passwords api ideal) {password : String}
    (hp : password ∈ passwords) (token : String) (login : Option String) :
    Stands hash salts passwords (Users.issue token login password api)
      (Ideal.issue token login password ideal) where
  people := h.people
  ids := h.ids
  tokens := congrArg (fun tokens => getToken tokens token login password) h.tokens
  known t logins ht := by
    have hget : Function.update api.tokens token (some ⟨login, password⟩) t = some logins := ht
    by_cases heq : t = token
    · subst heq
      rw [Function.update_self, Option.some.injEq] at hget
      exact hget ▸ hp
    · rw [Function.update_of_ne heq] at hget
      exact h.known t logins hget

theorem Stands.replace (h : Stands hash salts passwords api ideal) {table : List Row}
    {people : List Person} (hpeople : List.Forall₂ (Is hash salts passwords) table people)
    (hids : (table.map Row.id).Nodup) :
    Stands hash salts passwords { api with table := table } { ideal with people := people } :=
  ⟨hpeople, hids, h.tokens, h.known⟩

variable (C) in
theorem Stands.getUser (htells : Tells hash salts passwords)
    (h : Stands hash salts passwords api ideal) (username : Option String) {password : String}
    (hp : password ∈ passwords) :
    ∃ o, Users.getUser C hash api.table username (some password) = .ok o ∧
      (∀ r, o = some r → r ∈ api.table) ∧
      Option.Rel (Is hash salts passwords) o (Ideal.find C ideal.people username (some password)) :=
  getUser_refines htells h.people (fun _ heq => Option.some.inj heq ▸ hp) fun _ => rfl

variable (C) in
/-- **The user of a token** is the person of the token. -/
theorem Stands.currentUser (htells : Tells hash salts passwords)
    (h : Stands hash salts passwords api ideal) (token : Option String) :
    ∃ o, Users.currentUser C hash api token = .ok o ∧ (∀ r, o = some r → r ∈ api.table) ∧
      Option.Rel (Is hash salts passwords) o (Ideal.currentUser C ideal token) := by
  unfold Users.currentUser Ideal.currentUser
  rw [← h.tokens]
  refine getUser_refines htells h.people (fun p hp => ?_) fun hlogin => ?_
  · obtain ⟨logins, hlogins, rfl⟩ := Option.map_eq_some_iff.mp hp
    obtain ⟨t, -, ht⟩ := Option.bind_eq_some_iff.mp hlogins
    exact h.known t logins ht
  · obtain ⟨login, hlogin⟩ := Option.isSome_iff_exists.mp hlogin
    obtain ⟨logins, hlogins, -⟩ := Option.bind_eq_some_iff.mp hlogin
    rw [getPassword, hlogins]
    rfl

theorem login_follows (htells : Tells hash salts passwords)
    (h : Stands hash salts passwords api ideal) {jsonCredentials : String}
    (hw : ∀ p, credential jsonCredentials 1 = .ok p → p ∈ passwords) (token : String) :
    Follows hash salts passwords ((login C hash jsonCredentials token).exec api)
      ((Ideal.login C jsonCredentials token).exec ideal) := by
  unfold login Ideal.login
  cases hlogin : credential jsonCredentials 0 with
  | error e => exact ⟨rfl, h⟩
  | ok login =>
    cases hpassword : credential jsonCredentials 1 with
    | error e => exact ⟨rfl, h⟩
    | ok password =>
      have hp := hw password hpassword
      obtain ⟨o, ho, -, hrel⟩ := h.getUser C htells (some login) hp
      simp only [Act.exec_ok_bind, Act.exec_get_bind]
      rw [ho, Act.exec_ok_bind]
      generalize Ideal.find C ideal.people (some login) (some password) = person at hrel
      cases hrel with
      | none => exact ⟨rfl, h⟩
      | @some r p hr =>
        refine ⟨?_, h.issue hp token (some login)⟩
        show (.ok (.token token (some r.id)) : Java Reply) = .ok (.token token (some p.id))
        rw [hr.id]

theorem logout_follows (h : Stands hash salts passwords api ideal) (token : Option String) :
    Follows hash salts passwords ((logout token).exec api) ((Ideal.logout token).exec ideal) := by
  refine ⟨rfl, h.people, h.ids, congrArg (fun tokens => deleteToken tokens token) h.tokens, ?_⟩
  intro t logins ht
  cases token with
  | none => exact h.known t logins ht
  | some token =>
    have hget : Function.update api.tokens token none t = some logins := ht
    by_cases heq : t = token
    · subst heq
      rw [Function.update_self] at hget
      exact absurd hget (by simp)
    · rw [Function.update_of_ne heq] at hget
      exact h.known t logins hget

theorem subscribe_follows (h : Stands hash salts passwords api ideal) {jsonCredentials : String}
    {d : Subscription} (hw : (Request.subscribe jsonCredentials d).Within salts passwords) :
    Follows hash salts passwords ((subscribe σ C hash z valid jsonCredentials d).exec api)
      ((Ideal.subscribe jsonCredentials d
        (storing σ τ C hash z valid api (.subscribe jsonCredentials d))).exec ideal) := by
  unfold subscribe Ideal.subscribe
  cases hlogin : credential jsonCredentials 0 with
  | error e => exact ⟨rfl, h⟩
  | ok login =>
    cases hpassword : credential jsonCredentials 1 with
    | error e => exact ⟨rfl, h⟩
    | ok password =>
      have hp := hw.2 password hpassword
      simp only [Act.exec_ok_bind, Act.exec_get_bind, Act.exec_modify_bind, storing, hlogin,
        hpassword]
      have hspec := subscription_spec σ hash z valid login password d
        (api.table.any fun row => C.eq row.id d.id)
      generalize subscription σ hash z valid (newUser login password d) d
        (api.table.any fun row => C.eq row.id d.id) = r at hspec
      obtain ⟨answer, row⟩ := r
      rcases hspec with hnone | ⟨hok, htaken, a, hrow, hbears⟩
      · -- the table is as it was
        dsimp only at hnone
        subst hnone
        have hsame : { api with table := api.table ++ (Option.map (Row.mk d.id) none).toList } =
            api := by
          rw [Option.map_none, Option.toList_none, List.append_nil]
        dsimp only
        rw [hsame]
        cases answer with
        | error e => exact ⟨rfl, h⟩
        | ok done =>
          have hof : Storing.of (.ok done) (none : Option Account).isSome = .refused := by
            cases done <;> rfl
          rw [hof]
          exact ⟨rfl, h.issue hp d.token (some login)⟩
      · dsimp only at hok hrow
        subst hok hrow
        have hreplaced : Stands hash salts passwords
            { api with table := api.table ++ [⟨d.id, a⟩] }
            { ideal with people := ideal.people ++ [⟨d.id, login, password⟩] } := by
          refine h.replace ?_ ?_
          · refine List.rel_append h.people (.cons ⟨rfl, hp, d.salt, hw.1, hbears⟩ .nil)
          · rw [List.map_append, List.nodup_append]
            refine ⟨h.ids, List.nodup_singleton _, ?_⟩
            intro id hid id' hid' heq
            obtain ⟨r, hr, rfl⟩ := List.mem_map.mp hid
            rw [List.map_singleton, List.mem_singleton] at hid'
            have hfree := List.any_eq_false.mp htaken r hr
            have hid : r.id = d.id := heq.trans hid'
            rw [hid] at hfree
            exact hfree (Collation.eq_self d.id)
        exact ⟨rfl, hreplaced.issue hp d.token (some login)⟩

theorem Stands.row_eq (h : Stands hash salts passwords api ideal) {r u : Row} (hr : r ∈ api.table)
    (hu : u ∈ api.table) (hid : r.id = u.id) : r = u :=
  List.inj_on_of_nodup_map h.ids hr hu hid

/-- **A new password** for a row, and for the person. -/
theorem Stands.setRow (h : Stands hash salts passwords api ideal) {u : Row} {p : Person}
    (hu : u ∈ api.table) (hup : Is hash salts passwords u p) {a : Account} {salt : List UInt8}
    (hsalt : salt ∈ salts) {password : String} (hp : password ∈ passwords)
    (ha : Bears hash u.account.user.nick salt password a) :
    Stands hash salts passwords { api with table := setRow u.id (some a) api.table }
      { ideal with people := Ideal.setPassword p.id password ideal.people } := by
  refine h.replace ?_ ?_
  · unfold Users.setRow Ideal.setPassword
    rw [List.forall₂_map_left_iff, List.forall₂_map_right_iff]
    have hmem : List.Forall₂ (fun r q => r ∈ api.table ∧ Is hash salts passwords r q) api.table
        ideal.people := (List.forall₂_and_left _ _).mpr ⟨fun _ hr => hr, h.people⟩
    refine hmem.imp ?_
    rintro r q ⟨hr, hrq⟩
    rw [← hrq.id, ← hup.id]
    by_cases hid : r.id = u.id
    · obtain rfl := h.row_eq hr hu hid
      obtain ⟨salt', -, hbears⟩ := hrq.bears
      rw [hbears.named] at ha
      rw [if_pos rfl, if_pos rfl]
      exact ⟨rfl, hp, salt, hsalt, ha⟩
    · rw [if_neg hid, if_neg hid]
      exact hrq
  · have hids : (Users.setRow u.id (some a) api.table).map Row.id = api.table.map Row.id := by
      unfold Users.setRow
      rw [List.map_map]
      refine List.map_congr_left fun r _ => ?_
      show (if r.id = u.id then _ else r : Row).id = r.id
      split
      · rfl
      · rfl
    rw [hids]
    exact h.ids

theorem setRow_self (h : Stands hash salts passwords api ideal) {u : Row} (hu : u ∈ api.table) :
    setRow u.id (some u.account) api.table = api.table := by
  unfold setRow
  conv_rhs => rw [← List.map_id api.table]
  refine List.map_congr_left fun r hr => ?_
  split
  · obtain rfl := h.row_eq hr hu ‹_›
    rfl
  · rfl

theorem changePassword_follows (htells : Tells hash salts passwords)
    (h : Stands hash salts passwords api ideal) {token : Option String} {jsonCredentials : String}
    {d : Change} (hw : (Request.changePassword token jsonCredentials d).Within salts passwords) :
    Follows hash salts passwords
      ((changePassword σ C hash z valid token jsonCredentials d).exec api)
      ((Ideal.changePassword C token jsonCredentials d
        (storing σ τ C hash z valid api (.changePassword token jsonCredentials d))).exec ideal) := by
  unfold changePassword Ideal.changePassword
  cases hold : credential jsonCredentials 0 with
  | error e => exact ⟨rfl, h⟩
  | ok passwordOld =>
    cases hnew : credential jsonCredentials 1 with
    | error e => exact ⟨rfl, h⟩
    | ok passwordNew =>
      cases credential jsonCredentials 2 with
      | error e => exact ⟨rfl, h⟩
      | ok passwordNewConfirm =>
        simp only [Act.exec_ok_bind]
        by_cases hconfirm : passwordNew ≠ passwordNewConfirm
        · rw [if_pos hconfirm, if_pos hconfirm]
          exact ⟨rfl, h⟩
        · rw [if_neg hconfirm, if_neg hconfirm]
          have hp := hw.2.2 passwordNew hnew
          obtain ⟨o, ho, hmem, hrel⟩ := h.getUser C htells (getLogin api.tokens token)
            (hw.2.1 passwordOld hold)
          simp only [Act.exec_get_bind, storing, hold, hnew, ho, Act.exec_ok_bind]
          rw [← h.tokens]
          generalize Ideal.find C ideal.people (getLogin api.tokens token) (some passwordOld) = person
            at hrel
          cases hrel with
          | none => exact ⟨rfl, h⟩
          | @some u p hup =>
            have hu := hmem u rfl
            have hissued := h.issue hp d.token u.account.user.nick
            obtain ⟨salt, hsalt, hbears⟩ := hup.bears
            have hother : u.account.user.passwordHash ≠ some (getBytes passwordNew) := by
              rw [hbears.hashed]
              exact fun heq =>
                htells.plain salt hsalt p.password hup.password passwordNew hp (Option.some.inj heq)
            have hspec := change_spec σ hash z valid
              (((findAllByNick C api.table (getLogin api.tokens token)).filter
                fun r => r.id ≠ u.id).map Row.account) d hother
            simp only [Act.exec_modify_bind]
            generalize change σ hash z valid
              (((findAllByNick C api.table (getLogin api.tokens token)).filter
                fun r => r.id ≠ u.id).map Row.account) u.account passwordNew d = r at hspec
            obtain ⟨answer, row⟩ := r
            rw [hbears.named] at hissued hspec
            rw [hbears.named]
            rcases hspec with ⟨hok, a, hrow, ha⟩ | ⟨hfalse, hrow⟩
            · dsimp only at hok hrow
              subst hok hrow
              rw [← hbears.named] at ha
              refine ⟨?_, hissued.setRow hu hup hw.1 hp ha⟩
              show (.ok (.token d.token (some u.id)) : Java Reply) =
                .ok (.token d.token (some p.id))
              rw [hup.id]
            · -- the row is as it was
              dsimp only at hfalse hrow
              subst hrow
              have hsame : setRow u.id (some u.account)
                  (Users.issue d.token (some p.nick) passwordNew api).table = api.table :=
                setRow_self h hu
              dsimp only
              rw [hsame]
              rcases answer with e | _ | _
              · exact ⟨rfl, hissued⟩
              · exact ⟨rfl, hissued⟩
              · exact absurd rfl hfalse

theorem isSome_rowsOf (table : List Row) (id : String) :
    (rowsOf table id).isSome = table.any fun r => r.id == id := by
  unfold rowsOf
  rw [Option.isSome_map, Bool.eq_iff_iff, List.find?_isSome, List.any_eq_true]

/-- The id of a row is that of the row which the database finds. -/
theorem found_of_stored {table : List Row} {id : String}
    (h : (rowsOf table (storedId C table id)).isSome = true) :
    ∃ u, table.find? (fun r => C.eq r.id id) = some u ∧ storedId C table id = u.id := by
  unfold storedId at h ⊢
  cases hfound : table.find? fun r => C.eq r.id id with
  | some u => exact ⟨u, rfl, rfl⟩
  | none =>
    rw [hfound, Option.map_none, Option.getD_none, isSome_rowsOf] at h
    obtain ⟨r, hr, hid⟩ := List.any_eq_true.mp h
    obtain rfl := beq_iff_eq.mp hid
    exact absurd (Collation.eq_self r.id) (List.find?_eq_none.mp hfound r hr)

theorem delete_follows (htells : Tells hash salts passwords)
    (h : Stands hash salts passwords api ideal) (id : String) (token : Option String)
    (removeThrows commitThrows : Bool) :
    Follows hash salts passwords
      ((delete τ C hash valid id token removeThrows commitThrows).exec api)
      ((Ideal.delete C id token
        (storing σ τ C hash z valid api (.delete id token removeThrows commitThrows))).exec
          ideal) := by
  obtain ⟨o, ho, -, hrel⟩ := h.currentUser C htells token
  unfold Users.currentUser at ho
  unfold Ideal.currentUser at hrel
  have hstoring : storing σ τ C hash z valid api (.delete id token removeThrows commitThrows) =
      .of (.ok (deletion τ valid api.table
        ((findAllByNick C api.table (getLogin api.tokens token)).map Row.id)
        (storedId C api.table id) removeThrows commitThrows).1) true := rfl
  rw [hstoring]
  unfold delete Ideal.delete
  simp only [Act.exec_get_bind, ho, Act.exec_ok_bind]
  generalize Ideal.find C ideal.people (getLogin ideal.tokens token)
    (getPassword ideal.tokens token) = person at hrel
  cases hrel with
  | none => exact ⟨rfl, h⟩
  | @some u p hup =>
    dsimp only
    have hspec := deletion_spec τ valid api.table
      ((findAllByNick C api.table (getLogin api.tokens token)).map Row.id)
      (storedId C api.table id) removeThrows commitThrows
    generalize deletion τ valid api.table
      ((findAllByNick C api.table (getLogin api.tokens token)).map Row.id)
      (storedId C api.table id) removeThrows commitThrows = r at hspec
    obtain ⟨answer, rows⟩ := r
    have hthere : ∀ r ∈ api.table, (rowsOf api.table r.id).isSome = true := by
      intro r hr
      rw [isSome_rowsOf]
      exact List.any_eq_true.mpr ⟨r, hr, beq_self_eq_true _⟩
    rcases hspec with ⟨hdone, hid, hrows⟩ | ⟨hfalse, hrows⟩
    · dsimp only at hdone hrows
      subst hdone
      obtain ⟨v, hv, hstored⟩ := found_of_stored hid
      -- the person of that row is the one that is found
      have hfound : Option.Rel (Is hash salts passwords)
          (api.table.find? fun r => C.eq r.id id) (ideal.people.find? fun p => C.eq p.id id) :=
        forall₂_find? (fun r q hrq => by rw [hrq.id]) h.people
      rw [hv] at hfound
      generalize ideal.people.find? (fun p => C.eq p.id id) = removed at hfound
      cases hfound with
      | @some _ q hvq =>
        have hkeep : api.table.filter (fun r => (rows r.id).isSome) =
            api.table.filter fun r => r.id ≠ v.id := by
          refine List.filter_congr fun r hr => ?_
          rw [hrows, hstored]
          by_cases heq : r.id = v.id
          · simp [heq]
          · simp [heq, hthere r hr]
        refine ⟨rfl, ?_⟩
        show Stands hash salts passwords
          { api with table := api.table.filter fun r => (rows r.id).isSome }
          { ideal with people := ideal.people.filter fun p => p.id ≠ q.id }
        rw [hkeep]
        refine h.replace ?_ ?_
        · exact List.rel_filter (fun r p' hrp => by simp [hrp.id, hvq.id]) h.people
        · exact h.ids.sublist (List.filter_sublist.map Row.id)
    · dsimp only at hfalse hrows
      subst hfalse hrows
      have hall : api.table.filter (fun r => (rowsOf api.table r.id).isSome) = api.table :=
        List.filter_eq_self.mpr hthere
      refine ⟨rfl, ?_⟩
      show Stands hash salts passwords
        { api with table := api.table.filter fun r => (rowsOf api.table r.id).isSome } ideal
      rw [hall]
      exact h

/-- **A request** is answered as in `Ideal`. -/
theorem handle_follows (htells : Tells hash salts passwords)
    (h : Stands hash salts passwords api ideal) {request : Request}
    (hw : request.Within salts passwords) :
    Follows hash salts passwords ((machine σ τ C hash z valid).step api request)
      ((Ideal.machine C).step ideal (request, storing σ τ C hash z valid api request)) := by
  cases request with
  | login jsonCredentials token => exact login_follows htells h hw token
  | logout token => exact logout_follows h token
  | subscribe jsonCredentials d => exact subscribe_follows h hw
  | changePassword token jsonCredentials d => exact changePassword_follows htells h hw
  | delete id token removeThrows commitThrows =>
    exact delete_follows htells h id token removeThrows commitThrows

/-! ### Runs -/

variable (σ τ C hash z valid) in
def told (api : Api) (requests : List Request) : List (Request × Storing) :=
  (machine σ τ C hash z valid).image
    (fun api request => some (request, storing σ τ C hash z valid api request)) api requests

variable (σ τ) in
/-- **The digests do not matter.**  In every run whose digests tell the passwords apart, every
request is answered as in `Ideal`, and after every request the user of every token is the person
of the token. -/
theorem sessions_refine (htells : Tells hash salts passwords)
    (h : Stands hash salts passwords api ideal) (requests : List Request)
    (hw : ∀ request ∈ requests, request.Within salts passwords) :
    (∀ pre request post, requests = pre ++ request :: post →
      (machine σ τ C hash z valid).out ((machine σ τ C hash z valid).run api pre) request =
        (Ideal.machine C).out ((Ideal.machine C).run ideal (told σ τ C hash z valid api pre))
          (request, storing σ τ C hash z valid ((machine σ τ C hash z valid).run api pre) request)) ∧
    ∀ token, ∃ o, currentUser C hash ((machine σ τ C hash z valid).run api requests) token = .ok o ∧
      o.map Row.id = (Ideal.currentUser C
        ((Ideal.machine C).run ideal (told σ τ C hash z valid api requests)) token).map Person.id := by
  have hrun : ∀ pre, (∀ request ∈ pre, request.Within salts passwords) →
      Stands hash salts passwords ((machine σ τ C hash z valid).run api pre)
        ((Ideal.machine C).run ideal (told σ τ C hash z valid api pre)) := by
    intro pre hpre
    refine Machine.run_image (M := machine σ τ C hash z valid) (R := Stands hash salts passwords)
      (Ideal.machine C) (fun request hrequest s t hst => ?_) h
    exact (handle_follows htells hst (hpre request hrequest)).2
  constructor
  · intro pre request post heq
    have hpre : ∀ r ∈ pre, r.Within salts passwords :=
      fun r hr => hw r (heq ▸ List.mem_append_left _ hr)
    have hrequest : request.Within salts passwords :=
      hw request (heq ▸ List.mem_append_right _ List.mem_cons_self)
    exact (handle_follows htells (hrun pre hpre) hrequest).1
  · intro token
    obtain ⟨o, ho, -, hrel⟩ := (hrun requests hw).currentUser C htells token
    refine ⟨o, ho, ?_⟩
    generalize Ideal.currentUser C _ token = person at hrel
    cases hrel with
    | none => rfl
    | some hrp => exact congrArg some hrp.id

end

/-! ### A user with a new password -/

def sampleSubscription : Subscription where
  id := "1"
  salt := [7]
  createdAt := 0
  key := ⟨some 5, "key"⟩
  privateKey := some 3
  draw := ⟨5, by decide +kernel⟩
  persistThrows := false
  commitThrows := false
  token := "t1"

/-- Ann subscribes, and logs in with a blank behind her name; with her new password the second token
is nobody's. -/
def sampleRequests : List Request :=
  [.subscribe "login=ann&password=one" sampleSubscription,
    .login "login=ann &password=one" "t2",
    .changePassword (some "t2") "old=one&new=two&confirm=two"
      ⟨[8], ⟨5, by decide +kernel⟩, false, "t3"⟩]

theorem sampleTells : Tells sha256 {[7], [8]} {"one", "two"} := by
  constructor
  · rintro salt (rfl | rfl) p (rfl | rfl) q (rfl | rfl)
    all_goals decide +kernel
  · rintro salt (rfl | rfl) p (rfl | rfl) q (rfl | rfl)
    all_goals decide +kernel

theorem within_of_credential {jsonCredentials : String} {k : ℕ} (password : String)
    {passwords : Set String} (h : credential jsonCredentials k = .ok password)
    (hp : password ∈ passwords) : ∀ p, credential jsonCredentials k = .ok p → p ∈ passwords := by
  intro p hcredential
  obtain rfl := Except.ok.inj (h.symm.trans hcredential)
  exact hp

theorem sampleWithin :
    ∀ request ∈ sampleRequests, request.Within {[7], [8]} {"one", "two"} := by
  have hone : "one" ∈ ({"one", "two"} : Set String) := Or.inl rfl
  have htwo : "two" ∈ ({"one", "two"} : Set String) := Or.inr rfl
  intro request hrequest
  rcases List.mem_cons.mp hrequest with rfl | hrequest
  · exact ⟨Or.inl rfl, within_of_credential "one" (by decide +kernel) hone⟩
  rcases List.mem_cons.mp hrequest with rfl | hrequest
  · exact within_of_credential "one" (by decide +kernel) hone
  · obtain rfl := List.mem_singleton.mp hrequest
    exact ⟨Or.inr rfl, within_of_credential "one" (by decide +kernel) hone,
      within_of_credential "two" (by decide +kernel) htwo⟩

def sampleMachine : Machine Api Request (Java Reply) :=
  machine (UnitOfWork Unit Account) (UnitOfWork String Account) .padded sha256 .utc fun _ => true

theorem sessions_refine_sample :
    ∃ o, currentUser .padded sha256 (sampleMachine.run ⟨[], fun _ => none⟩ sampleRequests)
      (some "t3") = .ok o ∧ o.map Row.id = some "1" := by
  have hstands : Stands sha256 {[7], [8]} {"one", "two"} ⟨[], fun _ => none⟩
      ⟨[], fun _ => none⟩ := ⟨.nil, List.nodup_nil, rfl, by simp⟩
  obtain ⟨o, ho, hid⟩ :=
    (sessions_refine (UnitOfWork Unit Account) (UnitOfWork String Account) (C := .padded)
      sampleTells hstands sampleRequests sampleWithin).2 (some "t3")
  exact ⟨o, ho, hid.trans (by decide +kernel)⟩

/-- Ann's first tokens are nobody's any more. -/
example : [some "t1", some "t2", some "t3"].map (fun token =>
    (currentUser .padded sha256 (sampleMachine.run ⟨[], fun _ => none⟩ sampleRequests)
      token).map (Option.map Row.id)) = [.ok none, .ok none, .ok (some "1")] := by
  decide +kernel

end SXP.Controller.Users
