import SXP.Crypt.CryptoParser
import SXP.Model.SyncManager

/-!
# Passwords

A user is given a new password in plain, in the field of its hash.  The manager hashes it where it
stands when the transaction ends: whenever anything of the user was changed.

`hashed_once` follows the field through a run: where every `end` hashes if and only if there is a
plain password, it leaves the hash of the last one.
-/

namespace SXP.Controller

open SXP.Lib SXP.Lib.Java SXP.Lib.Text SXP.Model SXP.Crypt

structure Account where
  user : User
  privateKey : Option ℤ
deriving DecidableEq

abbrev OtherEdit : Type := {f : Account → Account //
  ∀ a, (f a).user.passwordHash = a.user.passwordHash ∧ (f a).user.salt = a.user.salt}

inductive UserCall where
  | begin_
  | persist (throws : Bool)
  | setPasswordHash (password : List UInt8)
  | setSalt (salt : Option (List UInt8))
  | edit (f : OtherEdit)
  | queryThrows
  | end_ (draw : Draw) (commitThrows : Bool)

/-- The user of the decorator, and the manager under it. -/
structure Session (σ : Type) where
  account : Account
  manager : σ

namespace Session

variable {σ : Type} [EntityManager σ Unit Account]

section

variable (hash : List UInt8 → Digest) (z : Date.TimeZone) (valid : Account → Bool)

/-- The default hasher: the salt, if there is one, and then the message. -/
def getHash (salt : Option (List UInt8)) (message : List UInt8) : List UInt8 :=
  (hash (salt.getD [] ++ message)).val

/-- `HasherAction`: the field is replaced by its hash. -/
def hasherFields (a : Account) : Java Account := do
  let message ← nonNull a.user.passwordHash
  return { a with user := { a.user with passwordHash := some (getHash hash a.user.salt message) } }

def signeFields (a : Account) (draw : Draw) : Java Account := do
  let key ← nonNull a.user.keys
  let σ ← sign hash ⟨key.publicKey, a.privateKey⟩ (a.user.entity.signedBytes z User.annotation) draw
  return { a with user := { a.user with signature := some σ } }

/-- The fields of the user are set; the manager holds the same object, or none. -/
def set (s : Session σ) (f : Account → Account) : Session σ :=
  ⟨f s.account, EntityManager.edit s.manager () f⟩

def superEnd (s : Session σ) (commitThrows : Bool) : Java Bool × Session σ :=
  let ended := AbstractSyncManager.end_ valid s.manager commitThrows
  (.ok ended.1, { s with manager := ended.2 })

def changed (s : Session σ) : Bool := !(EntityManager.changesInWatchlist s.manager).isEmpty

/-- Every action writes to the fields of the user before the next one. -/
def end_ (s : Session σ) (draw : Draw) (commitThrows : Bool) : Java Bool × Session σ :=
  if s.changed then
    match hasherFields hash s.account with
    | .error exception => (.error exception, s)
    | .ok hashed =>
        match signeFields hash z hashed draw with
        | .error exception => (.error exception, s.set fun _ => hashed)
        | .ok signed => superEnd valid (s.set fun _ => signed) commitThrows
  else superEnd valid s commitThrows

def ofManager (s : Session σ) (r : Bool × σ) : Java Bool × Session σ :=
  (.ok r.1, { s with manager := r.2 })

def machine : Machine (Session σ) UserCall (Java Bool) where
  step s
    | .begin_ => s.ofManager (AbstractSyncManager.begin_ s.manager)
    | .persist throws => s.ofManager (AbstractSyncManager.persist s.manager () s.account throws)
    | .setPasswordHash password => (.ok true,
        s.set fun a => { a with user := { a.user with passwordHash := some password } })
    | .setSalt salt => (.ok true, s.set fun a => { a with user := { a.user with salt := salt } })
    | .edit f => (.ok true, s.set f.val)
    | .queryThrows => (.ok true, { s with manager := EntityManager.setRollbackOnly s.manager })
    | .end_ draw commitThrows => end_ hash z valid s draw commitThrows

/-- The test of `getUser`: the two hashes are compared as strings. -/
def matchesPassword (a : Account) (password : List UInt8) : Java Bool := do
  let stored ← nonNull a.user.passwordHash
  return newString stored == newString (getHash hash a.user.salt password)

end

/-! ### One call -/

section

variable {hash : List UInt8 → Digest} {z : Date.TimeZone} {valid : Account → Bool}

theorem hasherFields_some (hash : List UInt8 → Digest) {a : Account} {message : List UInt8}
    (h : a.user.passwordHash = some message) : ∃ a', hasherFields hash a = .ok a' ∧
      a'.user.passwordHash = some (getHash hash a.user.salt message) ∧
      a'.user.salt = a.user.salt := by
  unfold hasherFields
  rw [h]
  exact ⟨_, rfl, rfl, rfl⟩

theorem signeFields_password {a a' : Account} {draw : Draw}
    (h : signeFields hash z a draw = .ok a') :
    a'.user.passwordHash = a.user.passwordHash ∧ a'.user.salt = a.user.salt := by
  unfold signeFields at h
  simp only [bind_eq_ok, pure_eq, Except.ok.injEq] at h
  obtain ⟨key, -, σ, -, rfl⟩ := h
  exact ⟨rfl, rfl⟩

/-- **What `end` does to the field**: it is hashed if anything was changed. -/
theorem end_account (hash : List UInt8 → Digest) (z : Date.TimeZone) (valid : Account → Bool)
    (s : Session σ) (draw : Draw) (commitThrows : Bool) :
    (end_ hash z valid s draw commitThrows).2.account.user.salt = s.account.user.salt ∧
    (end_ hash z valid s draw commitThrows).2.account.user.passwordHash =
      if s.changed then s.account.user.passwordHash.map (getHash hash s.account.user.salt)
      else s.account.user.passwordHash := by
  unfold end_
  cases hchanged : s.changed with
  | false => exact ⟨rfl, rfl⟩
  | true =>
    rw [if_pos rfl, if_pos rfl]
    cases hfield : s.account.user.passwordHash with
    | none =>
      have herror : hasherFields hash s.account = .error .nullPointer := by
        rw [hasherFields, hfield]
        rfl
      rw [herror]
      exact ⟨rfl, hfield⟩
    | some message =>
      obtain ⟨hashed, hhashed, hpassword, hsalt⟩ := hasherFields_some hash hfield
      rw [hhashed]
      dsimp only
      cases hsigned : signeFields hash z hashed draw with
      | error exception => exact ⟨hsalt, hpassword⟩
      | ok signed =>
        obtain ⟨hpassword', hsalt'⟩ := signeFields_password hsigned
        exact ⟨hsalt'.trans hsalt, hpassword'.trans hpassword⟩

/-! ### What the caller has done -/

/-- The last password in plain, whether it has been hashed since, and the salt of that. -/
structure Memory where
  password : Option (List UInt8)
  plain : Bool
  salt : Option (List UInt8)

def record (s : Session σ) (c : UserCall) (m : Memory) : Memory :=
  match c with
  | .setPasswordHash password => { m with password := some password, plain := true }
  | .end_ _ _ =>
      if s.changed && s.account.user.passwordHash.isSome then
        { m with plain := false, salt := s.account.user.salt }
      else m
  | _ => m

variable (hash z valid) in
def remembering : Machine (Session σ × Memory) UserCall (Java Bool) :=
  (machine hash z valid).traced record

inductive Starts (hash : List UInt8 → Digest) : Session σ × Memory → Prop where
  | new (a : Account) : Starts hash
      (⟨a, EntityManager.open_ fun _ => none⟩, ⟨none, false, a.user.salt⟩)
  | loaded (a : Account) (password : List UInt8) :
      a.user.passwordHash = some (getHash hash a.user.salt password) →
      Starts hash (⟨a, EntityManager.find (EntityManager.open_ fun _ => some a) ()⟩,
        ⟨some password, false, a.user.salt⟩)

/-- What is changed is a password in plain; without a change, there is none and the salt is that
of the hash. -/
def Once (t : Session σ × Memory) : Prop :=
  t.2.password = none ∨
    if t.1.changed then t.2.plain = true
    else t.2.plain = false ∧ t.1.account.user.salt = t.2.salt

instance (t : Session σ × Memory) : Decidable (Once t) := inferInstanceAs (Decidable (_ ∨ ite _ _ _))

/-- The field has the hash of the last password, and the password is accepted. -/
def Hashed (hash : List UInt8 → Digest) (t : Session σ × Memory) : Prop :=
  ∀ password, t.2.password = some password →
    t.1.account.user.passwordHash = some (getHash hash t.1.account.user.salt password) ∧
    matchesPassword hash t.1.account password = .ok true

def AtEnd (P : Session σ × Memory → Prop) (t : Session σ × Memory) : UserCall → Prop
  | .end_ _ _ => P t
  | _ => True

instance (P : Session σ × Memory → Prop) [DecidablePred P] (t : Session σ × Memory) :
    (c : UserCall) → Decidable (AtEnd P t c)
  | .end_ _ _ => inferInstanceAs (Decidable (P t))
  | .begin_ | .persist _ | .setPasswordHash _ | .setSalt _ | .edit _ | .queryThrows =>
      isTrue trivial

/-! ### Runs -/

/-- The field has the last password in plain, or its hash with the salt of that time. -/
def Holds (hash : List UInt8 → Digest) (t : Session σ × Memory) : Prop :=
  t.1.account.user.passwordHash = t.2.password.map
      (if t.2.plain then id else getHash hash t.2.salt) ∨ t.2.password = none

theorem Starts.holds {t : Session σ × Memory} (h : Starts hash t) : Holds hash t := by
  cases h with
  | new a => exact Or.inr rfl
  | loaded a password h => exact Or.inl h

omit [EntityManager σ Unit Account] in
theorem hashed_iff {t : Session σ × Memory} : Hashed hash t ↔ ∀ password,
    t.2.password = some password →
      t.1.account.user.passwordHash = some (getHash hash t.1.account.user.salt password) := by
  refine forall₂_congr fun password _ => and_iff_left_of_imp fun h => ?_
  rw [matchesPassword, h, nonNull_some, ok_bind, beq_self_eq_true, pure_eq]

theorem end_step {t : Session σ × Memory} (h : Holds hash t) (honce : Once t) (draw : Draw)
    (commitThrows : Bool) :
    Hashed hash ((remembering hash z valid).next t (.end_ draw commitThrows)) ∧
    Holds hash ((remembering hash z valid).next t (.end_ draw commitThrows)) := by
  obtain ⟨s, m⟩ := t
  obtain ⟨hsalt, hpassword⟩ := end_account hash z valid s draw commitThrows
  have hnext : (remembering hash z valid).next (s, m) (.end_ draw commitThrows) =
      ((end_ hash z valid s draw commitThrows).2, record s (.end_ draw commitThrows) m) := rfl
  rw [hnext, hashed_iff]
  rcases hmemory : m.password with _ | password
  · -- no password was set
    have hnone : (record s (.end_ draw commitThrows) m).password = none := by
      rw [record]
      split
      · exact hmemory
      · exact hmemory
    exact ⟨fun password hp => absurd (hnone.symm.trans hp) (by simp), Or.inr hnone⟩
  · have honce := honce.resolve_left (by simp [hmemory])
    have hfield := h.resolve_right (by simp [hmemory])
    dsimp only at honce hfield
    rw [hmemory] at hfield
    cases hchanged : s.changed with
    | true =>
      -- the password in plain becomes its hash
      rw [hchanged, if_pos rfl] at honce
      rw [honce, if_pos rfl, Option.map_id, id] at hfield
      rw [hchanged, if_pos rfl, hfield, Option.map_some] at hpassword
      have hrecord : record s (.end_ draw commitThrows) m =
          { m with plain := false, salt := s.account.user.salt } := by
        rw [record, hchanged, hfield]
        rfl
      rw [hrecord]
      refine ⟨fun password' hp => ?_, Or.inl ?_⟩
      · obtain rfl := Option.some.inj (hmemory.symm.trans hp)
        rw [hpassword, hsalt]
      · change _ = m.password.map (getHash hash s.account.user.salt)
        rw [hpassword, hmemory]
        rfl
    | false =>
      rw [hchanged, if_neg Bool.false_ne_true] at honce hpassword
      rw [honce.1, if_neg Bool.false_ne_true, Option.map_some] at hfield
      have hrecord : record s (.end_ draw commitThrows) m = m := by
        rw [record, hchanged]
        rfl
      rw [hrecord]
      refine ⟨fun password' hp => ?_, Or.inl ?_⟩
      · obtain rfl := Option.some.inj (hmemory.symm.trans hp)
        rw [hpassword, hfield, hsalt, honce.2]
      · change _ = m.password.map (if m.plain then id else getHash hash m.salt)
        rw [hpassword, hfield, honce.1, hmemory]
        rfl

theorem holds_step {t : Session σ × Memory} {c : UserCall} (h : Holds hash t)
    (honce : AtEnd Once t c) : Holds hash ((remembering hash z valid).next t c) := by
  cases c with
  | begin_ => exact h
  | persist throws => exact h
  | queryThrows => exact h
  | setPasswordHash password => exact Or.inl rfl
  | setSalt salt => exact h
  | edit f =>
    have hfield : (f.val t.1.account).user.passwordHash = t.1.account.user.passwordHash :=
      (f.property t.1.account).1
    exact h.imp_left hfield.trans
  | end_ draw commitThrows => exact (end_step h honce draw commitThrows).2

/-- **A password is hashed once** in a run in which every `end` finds a change if and only if the
password is in plain, and otherwise the salt of the hash: after every `end` the field has the hash
of the last password. -/
theorem hashed_once (hash : List UInt8 → Digest) (z : Date.TimeZone) (valid : Account → Bool)
    {t : Session σ × Memory} (ht : Starts hash t) (calls : List UserCall)
    (h : (remembering hash z valid).Along (fun _ => AtEnd Once) t calls) :
    (remembering hash z valid).Along (fun _ t c => AtEnd (fun _ => Hashed hash
      ((remembering hash z valid).next t c)) t c) t calls := by
  intro pre c post heq
  have hbefore : (remembering hash z valid).Along (fun _ => AtEnd Once) t pre :=
    h.of_prefix ⟨c :: post, heq.symm⟩
  have hholds : Holds hash ((remembering hash z valid).run t pre) :=
    (remembering hash z valid).invariant_along ht.holds
      (fun _ _ _ ht hc => holds_step ht hc) pre hbefore
  have honce := h pre c post heq
  cases c with
  | end_ draw commitThrows => exact (end_step hholds honce draw commitThrows).1
  | _ => trivial

/-- After a change, what was in the field has to have the hash of the last password. -/
theorem digest_of_hashed {t : Session σ × Memory} {password message : List UInt8} {draw : Draw}
    {commitThrows : Bool} (hchanged : t.1.changed = true) (hpassword : t.2.password = some password)
    (hfield : t.1.account.user.passwordHash = some message)
    (h : Hashed hash ((remembering hash z valid).next t (.end_ draw commitThrows))) :
    getHash hash t.1.account.user.salt message = getHash hash t.1.account.user.salt password := by
  obtain ⟨hsalt, hhash⟩ := end_account hash z valid t.1 draw commitThrows
  have hmemory : (record t.1 (.end_ draw commitThrows) t.2).password = some password := by
    rw [record]
    split
    · exact hpassword
    · exact hpassword
  have hhashed : (end_ hash z valid t.1 draw commitThrows).2.account.user.passwordHash =
      some (getHash hash (end_ hash z valid t.1 draw commitThrows).2.account.user.salt password) :=
    (h password hmemory).1
  rw [hhash, hsalt, hchanged, if_pos rfl, hfield, Option.map_some] at hhashed
  exact Option.some.inj hhashed

/-! ### A new password, and a new name -/

def sampleAccount : Account where
  user := ⟨some "ann", some [7], none, some 0, some ⟨some 5, "key"⟩, none⟩
  privateKey := some 3

def newSession : Session (UnitOfWork Unit Account) × Memory :=
  (⟨sampleAccount, EntityManager.open_ fun _ => none⟩, ⟨none, false, some [7]⟩)

/-- A user subscribes and changes the password. -/
theorem hashed_once_sample : Starts sha256 newSession ∧
    (remembering sha256 .utc fun _ => true).Along (fun _ t c => AtEnd (fun _ => Hashed sha256
      ((remembering sha256 .utc fun _ => true).next t c)) t c) newSession
      [.setPasswordHash [1], .begin_, .persist false, .end_ ⟨2, by decide +kernel⟩ false,
        .begin_, .setPasswordHash [4], .end_ ⟨2, by decide +kernel⟩ false] :=
  ⟨.new sampleAccount, hashed_once sha256 .utc _ (.new sampleAccount) _ (by decide +kernel)⟩

def loadedAccount : Account :=
  { sampleAccount with user :=
    { sampleAccount.user with passwordHash := some (getHash sha256 (some [7]) [1]) } }

def renamed : OtherEdit :=
  ⟨fun a => { a with user := { a.user with nick := some "bob" } }, fun _ => ⟨rfl, rfl⟩⟩

def loadedSession : Session (UnitOfWork Unit Account) × Memory :=
  (⟨loadedAccount, EntityManager.find (EntityManager.open_ fun _ => some loadedAccount) ()⟩,
    ⟨some [1], false, some [7]⟩)

/-- With a new name, the hash is hashed. -/
theorem renamed_hashed_twice : Starts sha256 loadedSession ∧
    ¬ (remembering sha256 .utc fun _ => true).Along
      (fun _ t c => AtEnd (fun _ => Hashed sha256
        ((remembering sha256 .utc fun _ => true).next t c)) t c) loadedSession
      [.begin_, .edit renamed, .end_ ⟨2, by decide +kernel⟩ false] := by
  refine ⟨.loaded loadedAccount [1] rfl, fun h => ?_⟩
  have hhashed := h [.begin_, .edit renamed] _ [] rfl
  have htwice : getHash sha256 (some [7]) (getHash sha256 (some [7]) [1]) =
      getHash sha256 (some [7]) [1] :=
    digest_of_hashed (by decide +kernel) rfl rfl hhashed
  exact absurd htwice (by decide +kernel)

end

end Session

end SXP.Controller
