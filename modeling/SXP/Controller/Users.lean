import SXP.Lib.Act
import SXP.Model.UserSyncManager

/-!
# Users and tokens

A request has a form in its body or a token in its header.  A token stands for a name and a
password in plain, and the user of a token is looked up in the table at every request; names and ids
are compared by the database.  What a
transaction may change is said once for a new user (`subscription_spec`), for a new password
(`change_spec`) and for a removed row (`deletion_spec`).
-/

namespace SXP.Controller.Users

open SXP.Lib SXP.Lib.Java SXP.Lib.Text SXP.Crypt SXP.Model

open EntityManager (snapshot)

/-! ### Forms -/

/-- `jsonCredentials.split("&")[k].split("=")[1]`. -/
def credential (jsonCredentials : String) (k : ℕ) : Java String := do
  let field ← element (split '&' jsonCredentials) k
  element (split '=' field) 1

def form (fields : List (List Char × List Char)) : String :=
  String.ofList (['&'].intercalate (fields.map fun f => ['='].intercalate [f.1, f.2]))

structure Plain (f : List Char × List Char) : Prop where
  name : '&' ∉ f.1 ∧ '=' ∉ f.1
  value : '&' ∉ f.2 ∧ '=' ∉ f.2
  nonempty : f.2 ≠ []

theorem pair_eq (name value : List Char) :
    ['='].intercalate [name, value] = name ++ '=' :: value := by
  rw [List.intercalate_cons_cons, List.intercalate_singleton, List.append_assoc,
    List.singleton_append]

/-- **The values of a form are read again.** -/
theorem credential_form {fields : List (List Char × List Char)} (h : ∀ f ∈ fields, Plain f) {k : ℕ}
    {f : List Char × List Char} (hf : fields[k]? = some f) :
    credential (form fields) k = .ok (String.ofList f.2) := by
  have hsplit : split '&' (form fields) =
      (fields.map fun f => ['='].intercalate [f.1, f.2]).map String.ofList := by
    rcases List.eq_nil_or_concat fields with rfl | ⟨rest, last, rfl⟩
    · exact absurd hf (by simp)
    · rw [List.concat_eq_append] at h
      unfold form
      rw [List.concat_eq_append, List.map_append, List.map_singleton]
      refine split_intercalate ?_ fun part hpart => ?_
      · rw [pair_eq]
        exact List.append_ne_nil_of_right_ne_nil _ (List.cons_ne_nil _ _)
      · have hmap : (rest ++ [last]).map (fun f => ['='].intercalate [f.1, f.2]) =
            rest.map (fun f => ['='].intercalate [f.1, f.2]) ++
              [['='].intercalate [last.1, last.2]] := by
          rw [List.map_append, List.map_singleton]
        rw [← hmap] at hpart
        obtain ⟨g, hg, rfl⟩ := List.mem_map.mp hpart
        have hplain := h g hg
        rw [pair_eq, List.mem_append, List.mem_cons]
        rintro (hc | hc | hc)
        · exact hplain.name.1 hc
        · exact absurd hc (by decide)
        · exact hplain.value.1 hc
  have hmem := List.mem_of_getElem? hf
  have hfield : element (split '&' (form fields)) k =
      .ok (String.ofList (['='].intercalate ([f.1] ++ [f.2]))) := by
    rw [element_eq_ok, hsplit, List.getElem?_map, List.getElem?_map, hf]
    rfl
  have hparts : ∀ part ∈ [f.1] ++ [f.2], '=' ∉ part := by
    intro part hpart
    rcases List.mem_append.mp hpart with hpart | hpart
    · rw [List.mem_singleton.mp hpart]
      exact (h f hmem).name.2
    · rw [List.mem_singleton.mp hpart]
      exact (h f hmem).value.2
  unfold credential
  rw [hfield, ok_bind, split_intercalate (h f hmem).nonempty hparts, element_eq_ok]
  rfl

/-- A value that is empty is none. -/
example : credential "login=ann&password=" 0 = .ok "ann" ∧
    credential "login=ann&password=" 1 = .error .indexOutOfBounds := by decide +kernel

/-! ### Tokens -/

structure Logins where
  login : Option String
  password : String
deriving DecidableEq, Repr

/-- The map of `SimpleAuthentifier`. -/
abbrev Tokens : Type := String → Option Logins

/-- The `token` is the first drawn one that is not in use. -/
def getToken (tokens : Tokens) (token : String) (username : Option String) (password : String) :
    Tokens :=
  Function.update tokens token (some ⟨username, password⟩)

def getLogin (tokens : Tokens) (token : Option String) : Option String :=
  (token.bind tokens).bind Logins.login

def getPassword (tokens : Tokens) (token : Option String) : Option String :=
  (token.bind tokens).map Logins.password

def deleteToken (tokens : Tokens) (token : Option String) : Tokens :=
  token.elim tokens fun t => Function.update tokens t none

/-! ### The table -/

structure Row where
  id : String
  account : Account
deriving DecidableEq

section

variable (C : Collation)

def findAllByNick (table : List Row) (username : Option String) : List Row :=
  C.select table (fun r => r.account.user.nick) username

def storedId (table : List Row) (id : String) : String :=
  ((table.find? fun r => C.eq r.id id).map Row.id).getD id

/-- `UserSyncManagerImpl.getUser`, where the name and the password may be null. -/
def getUser (hash : List UInt8 → Digest) (table : List Row) (username password : Option String) :
    Java (Option Row) :=
  find (fun r => do Session.matchesPassword hash r.account (getBytes (← nonNull password)))
    (findAllByNick C table username)

end

theorem find_map {α β : Type} (f : α → β) (p : β → Java Bool) (l : List α) :
    (find (fun a => p (f a)) l).map (Option.map f) = find p (l.map f) := by
  induction l with
  | nil => rfl
  | cons a l ih =>
    rw [find, List.map_cons, find, ← ih]
    rcases p (f a) with e | _ | _
    · rfl
    · rfl
    · rfl

/-- With a name and a password it is the search among the accounts. -/
theorem getUser_accounts (C : Collation) (hash : List UInt8 → Digest) (table : List Row)
    (username password : String) :
    (getUser C hash table (some username) (some password)).map (Option.map Row.account) =
      UserSyncManager.getUser C hash (table.map Row.account) username password := by
  unfold getUser UserSyncManager.getUser
  simp only [nonNull_some, ok_bind]
  rw [find_map Row.account fun a => Session.matchesPassword hash a (getBytes password),
    UserSyncManager.findAllByAttribute, Collation.select, List.filter_map]
  rfl

/-! ### Transactions -/

/-- What is drawn for a new user, and what the provider throws. -/
structure Subscription where
  id : String
  salt : List UInt8
  createdAt : ℤ
  key : KeyField
  privateKey : Option ℤ
  draw : Draw
  persistThrows : Bool
  commitThrows : Bool
  token : String

structure Change where
  salt : List UInt8
  draw : Draw
  commitThrows : Bool
  token : String

def newUser (login password : String) (d : Subscription) : Account where
  user := ⟨some login, some d.salt, some (getBytes password), some d.createdAt, some d.key,
    some ⟨none, none⟩⟩
  privateKey := d.privateKey

section

variable (σ τ : Type) [EntityManager σ Unit Account] [EntityManager τ String Account]
  (hash : List UInt8 → Digest) (z : Date.TimeZone) (valid : Account → Bool)

/-- What `end` answers, and the row of the new user then.  The id is `taken` when another row
has it. -/
def subscription (u : Account) (d : Subscription) (taken : Bool) : Java Bool × Option Account :=
  let s := (Session.machine hash z valid).run
    (⟨u, EntityManager.open_ fun _ => none⟩ : Session σ) [.begin_, .persist d.persistThrows]
  let r := Session.end_ hash z valid s d.draw (d.commitThrows || taken)
  (r.1, (snapshot r.2.manager).rows ())

/-- What `end` answers, and the row of the user then.  The users of the same name were loaded by
`getUser`, and are checked with it. -/
def change (others : List Account) (u : Account) (password : String) (d : Change) :
    Java Bool × Option Account :=
  let check := fun a => valid a && others.all valid
  let s := (Session.machine hash z check).run
    (⟨u, EntityManager.find (EntityManager.open_ fun _ => some u) ()⟩ : Session σ)
    [.begin_, .setSalt (some d.salt), .setPasswordHash (getBytes password)]
  let r := Session.end_ hash z check s d.draw d.commitThrows
  (r.1, (snapshot r.2.manager).rows ())

def rowsOf (table : List Row) (id : String) : Option Account :=
  (table.find? fun r => r.id == id).map Row.account

/-- The users `loaded` by `getUser` are still managed; a row that is missing cannot be removed. -/
def deletion (table : List Row) (loaded : List String) (id : String)
    (removeThrows commitThrows : Bool) : Bool × (String → Option Account) :=
  let u := (AbstractSyncManager.machine valid).run (EntityManager.open_ (rowsOf table) : τ)
    (loaded.map .findOneById ++ [.begin_, .findOneById id])
  if !(snapshot u).contains id then (false, (snapshot u).rows)
  else
    let removed := AbstractSyncManager.remove u id removeThrows
    if !removed.1 then (false, (snapshot removed.2).rows)
    else
      let r := AbstractSyncManager.end_ valid removed.2 commitThrows
      (r.1, (snapshot r.2).rows)

end

/-! ### Requests -/

structure Api where
  table : List Row
  tokens : Tokens

inductive Request where
  | login (jsonCredentials token : String)
  | logout (token : Option String)
  | subscribe (jsonCredentials : String) (d : Subscription)
  | changePassword (token : Option String) (jsonCredentials : String) (d : Change)
  | delete (id : String) (token : Option String) (removeThrows commitThrows : Bool)

inductive Reply where
  | error
  | null
  | token (token : String) (userid : Option String)
  | deleted (done : Bool)
deriving DecidableEq, Repr

def issue (token : String) (login : Option String) (password : String) (api : Api) : Api :=
  { api with tokens := getToken api.tokens token login password }

def setRow (id : String) (a : Option Account) (table : List Row) : List Row :=
  table.map fun r => if r.id = id then { r with account := a.getD r.account } else r

section

variable (σ τ : Type) [EntityManager σ Unit Account] [EntityManager τ String Account]
  (C : Collation) (hash : List UInt8 → Digest) (z : Date.TimeZone) (valid : Account → Bool)

def login (jsonCredentials token : String) : Act Api Reply := do
  let login ← Act.lift (credential jsonCredentials 0)
  let password ← Act.lift (credential jsonCredentials 1)
  let api ← get
  match ← Act.lift (getUser C hash api.table (some login) (some password)) with
  | some u =>
      modify (issue token (some login) password)
      return .token token (some u.id)
  | none => return .error

def logout (token : Option String) : Act Api Reply := do
  modify fun api => { api with tokens := deleteToken api.tokens token }
  return .null

def subscribe (jsonCredentials : String) (d : Subscription) : Act Api Reply := do
  let login ← Act.lift (credential jsonCredentials 0)
  let password ← Act.lift (credential jsonCredentials 1)
  let api ← get
  let r := subscription σ hash z valid (newUser login password d) d
    (api.table.any fun row => C.eq row.id d.id)
  modify fun api => { api with table := api.table ++ (r.2.map (Row.mk d.id)).toList }
  let _ ← Act.lift r.1
  modify (issue d.token (some login) password)
  return .token d.token (if d.persistThrows then none else some d.id)

/-- The new token is there before the transaction ends. -/
def changePassword (token : Option String) (jsonCredentials : String) (d : Change) :
    Act Api Reply := do
  let passwordOld ← Act.lift (credential jsonCredentials 0)
  let passwordNew ← Act.lift (credential jsonCredentials 1)
  let passwordNewConfirm ← Act.lift (credential jsonCredentials 2)
  if passwordNew ≠ passwordNewConfirm then return .error
  let api ← get
  let username := getLogin api.tokens token
  match ← Act.lift (getUser C hash api.table username (some passwordOld)) with
  | some u =>
      modify (issue d.token u.account.user.nick passwordNew)
      let others := (findAllByNick C api.table username).filter fun r => r.id ≠ u.id
      let r := change σ hash z valid (others.map Row.account) u.account passwordNew d
      modify fun api => { api with table := setRow u.id r.2 api.table }
      if ← Act.lift r.1 then return .token d.token (some u.id)
      return .null
  | none => return .null

/-- Whoever is logged in may delete any user. -/
def delete (id : String) (token : Option String) (removeThrows commitThrows : Bool) :
    Act Api Reply := do
  let api ← get
  let username := getLogin api.tokens token
  match ← Act.lift (getUser C hash api.table username (getPassword api.tokens token)) with
  | some _ =>
      let loaded := (findAllByNick C api.table username).map Row.id
      let r := deletion τ valid api.table loaded (storedId C api.table id) removeThrows commitThrows
      modify fun api => { api with table := api.table.filter fun row => (r.2 row.id).isSome }
      return .deleted r.1
  | none => return .deleted false

def handle : Request → Act Api Reply
  | .login jsonCredentials token => login C hash jsonCredentials token
  | .logout token => logout token
  | .subscribe jsonCredentials d => subscribe σ C hash z valid jsonCredentials d
  | .changePassword token jsonCredentials d =>
      changePassword σ C hash z valid token jsonCredentials d
  | .delete id token removeThrows commitThrows =>
      delete τ C hash valid id token removeThrows commitThrows

def machine : Machine Api Request (Java Reply) where
  step api request := (handle σ τ C hash z valid request).exec api

def currentUser (api : Api) (token : Option String) : Java (Option Row) :=
  getUser C hash api.table (getLogin api.tokens token) (getPassword api.tokens token)

end

/-! ### What a transaction leaves -/

section

variable {σ τ : Type} [EntityManager σ Unit Account] [EntityManager τ String Account]
  {hash : List UInt8 → Digest} {z : Date.TimeZone} {valid : Account → Bool}

/-- The manager holds the user of the decorator, who was read from this row, and nothing has
failed. -/
structure Held (o : Option Account) (s : Session σ) : Prop where
  clone : (snapshot s.manager).clone? () = some ⟨o, s.account, false⟩
  mark : (snapshot s.manager).rollbackOnly = false

theorem Held.set {o : Option Account} {s : Session σ} (h : Held o s) (f : Account → Account) :
    Held o (s.set f) := by
  have hedit : snapshot (s.set f).manager = _ := EntityManager.edit_managed h.clone
  refine ⟨?_, ?_⟩
  · rw [hedit]
    exact Snapshot.clone?_put
  · rw [hedit]
    exact h.mark

theorem set_rows (s : Session σ) (f : Account → Account) :
    (snapshot (s.set f).manager).rows = (snapshot s.manager).rows :=
  (EntityManager.edit_local s.manager () f).rows

def Kept (s : Session σ) (commitThrows : Bool) (r : Java Bool × Session σ) : Prop :=
  (r.1 = .ok true ∧ commitThrows = false ∧
      (snapshot r.2.manager).rows () = some r.2.account) ∨
    (r.1 ≠ .ok true ∧ (snapshot r.2.manager).rows () = (snapshot s.manager).rows ())

variable (valid) in
theorem superEnd_kept {o : Option Account} {s : Session σ} (h : Held o s) (commitThrows : Bool) :
    Kept s commitThrows (Session.superEnd valid s commitThrows) := by
  unfold Kept Session.superEnd
  dsimp only
  rcases AbstractSyncManager.end_of_unmarked valid commitThrows h.mark with
    ⟨hdone, hcommit, hrows⟩ | ⟨hfalse, hrows⟩
  · rw [hdone, hrows, Snapshot.view, h.clone]
    exact Or.inl ⟨rfl, hcommit, rfl⟩
  · rw [hfalse, hrows]
    exact Or.inr ⟨by simp, rfl⟩

variable (hash z valid) in
/-- **The row after `end`.** -/
theorem end_kept {o : Option Account} {s : Session σ} (h : Held o s) (draw : Draw)
    (commitThrows : Bool) :
    Kept s commitThrows (Session.end_ hash z valid s draw commitThrows) := by
  unfold Session.end_
  split
  · cases hhashed : Session.hasherFields hash s.account with
    | error exception => exact Or.inr ⟨by simp, rfl⟩
    | ok hashed =>
      dsimp only
      cases hsigned : Session.signeFields hash z hashed draw with
      | error exception => exact Or.inr ⟨by simp, congrFun (set_rows s _) ()⟩
      | ok signed =>
        have hkept := superEnd_kept valid (h.set fun _ => signed) commitThrows
        unfold Kept at hkept
        rw [set_rows] at hkept
        exact hkept
  · exact superEnd_kept valid h commitThrows

theorem end_nick (s : Session σ) (draw : Draw) (commitThrows : Bool) :
    (Session.end_ hash z valid s draw commitThrows).2.account.user.nick =
      s.account.user.nick := by
  unfold Session.end_
  split
  · cases hhashed : Session.hasherFields hash s.account with
    | error exception => rfl
    | ok hashed =>
      have hnick : hashed.user.nick = s.account.user.nick := by
        unfold Session.hasherFields at hhashed
        simp only [bind_eq_ok, pure_eq, Except.ok.injEq] at hhashed
        obtain ⟨message, -, rfl⟩ := hhashed
        rfl
      dsimp only
      cases hsigned : Session.signeFields hash z hashed draw with
      | error exception => exact hnick
      | ok signed =>
        unfold Session.signeFields at hsigned
        simp only [bind_eq_ok, pure_eq, Except.ok.injEq] at hsigned
        obtain ⟨key, -, σ, -, rfl⟩ := hsigned
        exact hnick
  · rfl

theorem Held.changed {o : Option Account} {s : Session σ} (h : Held o s)
    (ho : o ≠ some s.account) : s.changed = true := by
  have hchange : ((), s.account) ∈ EntityManager.changesInWatchlist s.manager :=
    EntityManager.mem_changesInWatchlist.mpr ⟨_, h.clone, rfl, ho⟩
  unfold Session.changed
  rw [List.isEmpty_eq_false_iff_exists_mem.mpr ⟨_, hchange⟩]
  rfl

structure Bears (hash : List UInt8 → Digest) (nick : Option String) (salt : List UInt8)
    (password : String) (a : Account) : Prop where
  named : a.user.nick = nick
  salted : a.user.salt = some salt
  hashed : a.user.passwordHash = some (Session.getHash hash (some salt) (getBytes password))

/-- A password in plain that is stored is stored as its digest. -/
theorem end_bears {s : Session σ} {salt : List UInt8} {password : String}
    (hchanged : s.changed = true) (hsalt : s.account.user.salt = some salt)
    (hpassword : s.account.user.passwordHash = some (getBytes password)) (draw : Draw)
    (commitThrows : Bool) : Bears hash s.account.user.nick salt password
      (Session.end_ hash z valid s draw commitThrows).2.account := by
  obtain ⟨hsalt', hhash⟩ := Session.end_account hash z valid s draw commitThrows
  rw [hchanged, if_pos rfl, hpassword, hsalt, Option.map_some] at hhash
  exact ⟨end_nick s draw commitThrows, hsalt'.trans hsalt, hhash⟩

variable (σ) in
theorem snapshot_begun (rows : Unit → Option Account) :
    snapshot (AbstractSyncManager.begin_ (EntityManager.open_ rows : σ)).2 =
      ⟨rows, fun _ => none, true, false⟩ := by
  have hopen : snapshot (EntityManager.open_ rows : σ) = _ := EntityManager.snapshot_open rows
  have hinactive : (snapshot (EntityManager.open_ rows : σ)).active = false := by rw [hopen]
  rw [AbstractSyncManager.begin_, hinactive, if_neg Bool.false_ne_true,
    EntityManager.snapshot_begin hinactive, hopen]

variable (hash z valid) in
theorem end_idle {s : Session σ} (h : (snapshot s.manager).clone? = fun _ => none) (draw : Draw)
    (commitThrows : Bool) :
    (snapshot (Session.end_ hash z valid s draw commitThrows).2.manager).rows =
      (snapshot s.manager).rows := by
  have hchanged : s.changed = false := by
    rw [Session.changed, EntityManager.changesInWatchlist_of_none h]
    rfl
  rw [Session.end_, hchanged, if_neg Bool.false_ne_true, Session.superEnd]
  dsimp only
  rw [AbstractSyncManager.end_rows]
  split
  · funext i
    rw [Snapshot.view, h]
  · rfl

variable (σ) in
theorem snapshot_refused (u : Account) : snapshot (AbstractSyncManager.persist
    (AbstractSyncManager.begin_ (EntityManager.open_ fun _ => none : σ)).2 () u true).2 =
      ⟨fun _ => none, fun _ => none, true, true⟩ := by
  rw [AbstractSyncManager.persist, if_pos rfl, EntityManager.snapshot_setRollbackOnly,
    snapshot_begun]

variable (σ) in
theorem snapshot_persisted (u : Account) : snapshot (AbstractSyncManager.persist
    (AbstractSyncManager.begin_ (EntityManager.open_ fun _ => none : σ)).2 () u false).2 =
      Snapshot.put ⟨fun _ => none, fun _ => none, true, false⟩ () (some ⟨none, u, false⟩) := by
  have hbegun := snapshot_begun σ fun _ => none
  rw [AbstractSyncManager.persist, if_neg Bool.false_ne_true, EntityManager.persist_new, hbegun]
  rw [hbegun]

variable (σ) in
theorem snapshot_loaded (u : Account) : snapshot (AbstractSyncManager.begin_
    (EntityManager.find (EntityManager.open_ fun _ => some u : σ) ())).2 =
      Snapshot.put ⟨fun _ => some u, fun _ => none, true, false⟩ () (some (.fresh u)) := by
  have hopen : snapshot (EntityManager.open_ fun _ => some u : σ) = _ :=
    EntityManager.snapshot_open _
  have hfind : snapshot (EntityManager.find (EntityManager.open_ fun _ => some u : σ) ()) =
      Snapshot.put ⟨fun _ => some u, fun _ => none, false, false⟩ () (some (.fresh u)) := by
    rw [← hopen]
    refine EntityManager.find_row ?_ ?_
    · rw [hopen]
    · rw [hopen]
  have hinactive := congrArg Snapshot.active hfind
  rw [AbstractSyncManager.begin_, hinactive]
  exact (EntityManager.snapshot_begin hinactive).trans (by rw [hfind]; rfl)

variable (σ) in
/-- **A new user** is stored with the digest of the password and an id of its own, or not at
all. -/
theorem subscription_spec (hash : List UInt8 → Digest) (z : Date.TimeZone) (valid : Account → Bool)
    (login password : String) (d : Subscription) (taken : Bool) :
    (subscription σ hash z valid (newUser login password d) d taken).2 = none ∨
    ((subscription σ hash z valid (newUser login password d) d taken).1 = .ok true ∧
      taken = false ∧
      ∃ a, (subscription σ hash z valid (newUser login password d) d taken).2 = some a ∧
        Bears hash (some login) d.salt password a) := by
  unfold subscription
  dsimp only
  cases hthrows : d.persistThrows with
  | true =>
    -- nothing is managed
    have hrefused := snapshot_refused σ (newUser login password d)
    refine Or.inl ((congrFun (end_idle hash z valid ?_ d.draw _) ()).trans ?_)
    · exact congrArg Snapshot.clone? hrefused
    · exact congrFun (congrArg Snapshot.rows hrefused) ()
  | false =>
    have hpersisted := snapshot_persisted σ (newUser login password d)
    have hheld : Held none ((Session.machine hash z valid).run
        (⟨newUser login password d, EntityManager.open_ fun _ => none⟩ : Session σ)
        [.begin_, .persist false]) := by
      refine ⟨?_, congrArg Snapshot.rollbackOnly hpersisted⟩
      exact (congrFun (congrArg Snapshot.clone? hpersisted) ()).trans Snapshot.clone?_put
    rcases end_kept hash z valid hheld d.draw (d.commitThrows || taken) with
      ⟨hok, hcommit, hrows⟩ | ⟨-, hrows⟩
    · refine Or.inr ⟨hok, (Bool.or_eq_false_iff.mp hcommit).2, _, hrows, ?_⟩
      exact end_bears (hheld.changed (Option.some_ne_none _).symm) rfl rfl d.draw _
    · exact Or.inl (hrows.trans (congrFun (congrArg Snapshot.rows hpersisted) ()))

variable (σ) in
/-- **A new password** is stored as its digest when `end` answers with true, and at no other
time; it has to be another text than the digest that is there. -/
theorem change_spec (hash : List UInt8 → Digest) (z : Date.TimeZone) (valid : Account → Bool)
    (others : List Account) {u : Account} {password : String} (d : Change)
    (hother : u.user.passwordHash ≠ some (getBytes password)) :
    ((change σ hash z valid others u password d).1 = .ok true ∧
      ∃ a, (change σ hash z valid others u password d).2 = some a ∧
        Bears hash u.user.nick d.salt password a) ∨
    ((change σ hash z valid others u password d).1 ≠ .ok true ∧
      (change σ hash z valid others u password d).2 = some u) := by
  have hloaded := snapshot_loaded σ u
  have hbegun : Held (some u) (⟨u, (AbstractSyncManager.begin_
      (EntityManager.find (EntityManager.open_ fun _ => some u : σ) ())).2⟩ : Session σ) := by
    refine ⟨?_, congrArg Snapshot.rollbackOnly hloaded⟩
    exact (congrFun (congrArg Snapshot.clone? hloaded) ()).trans Snapshot.clone?_put
  have hheld : Held (some u) ((Session.machine hash z fun a => valid a && others.all valid).run
      (⟨u, EntityManager.find (EntityManager.open_ fun _ => some u) ()⟩ : Session σ)
      [.begin_, .setSalt (some d.salt), .setPasswordHash (getBytes password)]) :=
    (hbegun.set fun a => { a with user := { a.user with salt := some d.salt } }).set
      fun a => { a with user := { a.user with passwordHash := some (getBytes password) } }
  unfold change
  dsimp only
  rcases end_kept hash z (fun a => valid a && others.all valid) hheld d.draw d.commitThrows with
    ⟨hok, -, hrows⟩ | ⟨hfalse, hrows⟩
  · refine Or.inl ⟨hok, _, hrows, ?_⟩
    refine end_bears (hheld.changed fun hsame => hother ?_) rfl rfl d.draw _
    exact congrArg (fun a => a.user.passwordHash) (Option.some.inj hsame)
  · refine Or.inr ⟨hfalse, hrows.trans ?_⟩
    refine (congrFun ((set_rows _ _).trans (set_rows _ _)) ()).trans ?_
    exact congrFun (congrArg Snapshot.rows hloaded) ()

structure Loaded (rows : String → Option Account) (u : τ) : Prop where
  rows : (snapshot u).rows = rows
  synced : (snapshot u).Synced
  clean : ∀ i, ¬ (snapshot u).Dirty i
  mark : (snapshot u).rollbackOnly = false

theorem Loaded.find {rows : String → Option Account} {u : τ} (h : Loaded rows u) (i : String) :
    Loaded rows (EntityManager.find u i) where
  rows := (EntityManager.find_local u i).rows.trans h.rows
  synced := EntityManager.synced_find h.synced i
  clean j hj := h.clean j ((EntityManager.find_quiet u i).dirty j hj)
  mark := (EntityManager.find_local u i).rollbackOnly.trans h.mark

theorem loaded_open (rows : String → Option Account) :
    Loaded rows (EntityManager.open_ rows : τ) := by
  have hopen : snapshot (EntityManager.open_ rows : τ) = _ := EntityManager.snapshot_open rows
  refine ⟨?_, EntityManager.synced_open rows, fun i => ?_, ?_⟩
  · rw [hopen]
  · rw [hopen]
    exact Snapshot.not_dirty_of_none rfl
  · rw [hopen]

theorem loaded_begin {rows : String → Option Account} {u : τ} (h : Loaded rows u) :
    Loaded rows (AbstractSyncManager.begin_ u).2 := by
  unfold AbstractSyncManager.begin_
  cases hactive : (snapshot u).active with
  | true => exact h
  | false =>
    rw [if_neg Bool.false_ne_true]
    have hbegin := EntityManager.snapshot_begin hactive
    refine ⟨?_, ?_, ?_, ?_⟩
    · rw [hbegin]
      exact h.rows
    · rw [hbegin]
      exact h.synced
    · rw [hbegin]
      exact h.clean
    · rw [hbegin]

variable (valid) in
theorem run_loads {rows : String → Option Account} {u : τ} (h : Loaded rows u)
    (loaded : List String) :
    Loaded rows ((AbstractSyncManager.machine valid).run u (loaded.map .findOneById)) := by
  induction loaded generalizing u with
  | nil => exact h
  | cons i loaded ih => exact ih (h.find i)

theorem clone_of_contains {rows : String → Option Account} {u : τ} (h : Loaded rows u)
    {i : String} (hi : (snapshot u).contains i = true) :
    ∃ v, (snapshot u).clone? i = some (.fresh v) ∧ rows i = some v := by
  obtain ⟨⟨row, v, removed⟩, hc, hremoved⟩ := Snapshot.contains_iff.mp hi
  dsimp only at hremoved
  subst hremoved
  have hclean : Clone.Clean ⟨row, v, false⟩ := not_not.mp fun hdirty => h.clean i ⟨_, hc, hdirty⟩
  have hrow : some v = row := hclean
  subst hrow
  exact ⟨v, hc, h.rows ▸ h.synced i _ hc⟩

theorem view_remove {rows : String → Option Account} {u : τ} (h : Loaded rows u) {i : String}
    (hi : (snapshot u).contains i = true) (j : String) :
    (snapshot (EntityManager.remove u i)).view j = if j = i then none else rows j := by
  by_cases hj : j = i
  · subst hj
    obtain ⟨v, hc, -⟩ := clone_of_contains h hi
    rw [if_pos rfl, EntityManager.remove_managed hc (Option.some_ne_none v), Snapshot.view,
      Snapshot.clone?_put]
    rfl
  · have hlocal := EntityManager.remove_local u i
    have hclean : ¬ (snapshot (EntityManager.remove u i)).Dirty j :=
      fun hdirty => h.clean j ((hlocal.dirty hj).mp hdirty)
    rw [if_neg hj, (EntityManager.synced_remove h.synced i).view hclean, hlocal.rows, h.rows]

variable (τ) in
/-- **A removed row**: the answer is true when it was there and is gone, and otherwise no row is
gone. -/
theorem deletion_spec (valid : Account → Bool) (table : List Row) (loaded : List String)
    (id : String) (removeThrows commitThrows : Bool) :
    ((deletion τ valid table loaded id removeThrows commitThrows).1 = true ∧
      (rowsOf table id).isSome = true ∧
      ∀ i, (deletion τ valid table loaded id removeThrows commitThrows).2 i =
        if i = id then none else rowsOf table i) ∨
    ((deletion τ valid table loaded id removeThrows commitThrows).1 = false ∧
      (deletion τ valid table loaded id removeThrows commitThrows).2 = rowsOf table) := by
  unfold deletion
  rw [Machine.run_append]
  have hloads := run_loads valid (loaded_open (rowsOf table) : Loaded _ (_ : τ)) loaded
  generalize (AbstractSyncManager.machine valid).run (EntityManager.open_ (rowsOf table) : τ)
    (loaded.map .findOneById) = u at hloads
  have hfound : Loaded (rowsOf table) ((AbstractSyncManager.machine valid).run u
      [.begin_, .findOneById id]) := (loaded_begin hloads).find id
  generalize (AbstractSyncManager.machine valid).run u [.begin_, .findOneById id] = u' at hfound
  dsimp only
  cases hcontains : (snapshot u').contains id with
  | false => exact Or.inr ⟨rfl, hfound.rows⟩
  | true =>
    cases removeThrows with
    | true =>
      refine Or.inr ⟨rfl, ?_⟩
      exact (congrArg Snapshot.rows (EntityManager.snapshot_setRollbackOnly u')).trans hfound.rows
    | false =>
      have hlocal := EntityManager.remove_local u' id
      have hrows : (snapshot (EntityManager.remove u' id)).rows = rowsOf table :=
        hlocal.rows.trans hfound.rows
      simp only [AbstractSyncManager.remove, Bool.not_true, Bool.false_eq_true, if_false]
      rcases AbstractSyncManager.end_of_unmarked valid commitThrows
        (hlocal.rollbackOnly.trans hfound.mark) with ⟨hdone, -, hview⟩ | ⟨hfalse, hsame⟩
      · obtain ⟨v, -, hrow⟩ := clone_of_contains hfound hcontains
        refine Or.inl ⟨hdone, Option.isSome_of_eq_some hrow, fun i => ?_⟩
        rw [hview]
        exact view_remove hfound hcontains i
      · exact Or.inr ⟨hfalse, hsame.trans hrows⟩

end

end SXP.Controller.Users
