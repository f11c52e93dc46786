import SXP.Controller.Passwords
import SXP.Lib.Collation

/-!
# The login

The manager of users looks for the users with a name, and returns the first one whose hash is the
digest of the password.  The two are compared as texts, and bytes that are no text are all decoded
to the same character; so the digest of another password may do.  The names are compared by the
database alone, so the user may have another name (`getUser_exact_iff`).
-/

namespace SXP.Model.UserSyncManager

open SXP.Lib SXP.Lib.Java SXP.Lib.Text SXP.Crypt
open SXP.Controller (Account)
open SXP.Controller.Session

section

variable (C : Collation)

def findAllByAttribute (table : List Account) (field : Account → Option String)
    (value : String) : List Account :=
  C.select table field (some value)

def nick (a : Account) : Option String := a.user.nick

/-- `UserSyncManagerImpl.getUser`. -/
def getUser (hash : List UInt8 → Digest) (table : List Account) (username password : String) :
    Java (Option Account) :=
  find (fun a => matchesPassword hash a (getBytes password))
    (findAllByAttribute C table nick username)

end

section

variable {C : Collation} {hash : List UInt8 → Digest} {table : List Account}
  {username password : String}

theorem mem_findAllByAttribute {a : Account} : a ∈ findAllByAttribute C table nick username ↔
    a ∈ table ∧ C.holds a.user.nick (some username) = true :=
  Collation.mem_select

/-! ### One user -/

def digest (hash : List UInt8 → Digest) (a : Account) (password : String) : List UInt8 :=
  getHash hash a.user.salt (getBytes password)

def Owns (hash : List UInt8 → Digest) (table : List Account) (username password : String)
    (a : Account) : Prop :=
  a ∈ table ∧ a.user.nick = some username ∧ a.user.passwordHash = some (digest hash a password)

theorem matchesPassword_eq_ok {a : Account} {b : Bool} :
    matchesPassword hash a (getBytes password) = .ok b ↔ ∃ stored,
      a.user.passwordHash = some stored ∧
        (newString stored == newString (digest hash a password)) = b := by
  unfold matchesPassword digest
  simp only [bind_eq_ok, nonNull_eq_ok, pure_eq, Except.ok.injEq]

theorem matchesPassword_of_digest {a : Account}
    (h : a.user.passwordHash = some (digest hash a password)) :
    matchesPassword hash a (getBytes password) = .ok true :=
  matchesPassword_eq_ok.mpr ⟨_, h, beq_self_eq_true _⟩

/-! ### The table -/

/-- The login returns a user only with the digest of the password, and null only when there is
none. -/
structure Exact (C : Collation) (hash : List UInt8 → Digest) (table : List Account)
    (username password : String) : Prop where
  found : ∀ a, getUser C hash table username password = .ok (some a) →
    Owns hash table username password a
  missing : getUser C hash table username password = .ok none →
    ∀ a, ¬ Owns hash table username password a

def Differs (hash : List UInt8 → Digest) (password : String) (a : Account) : Prop :=
  ∃ stored, a.user.passwordHash = some stored ∧
    newString stored ≠ newString (digest hash a password)

/-- Of the users that the database finds for the name, look at one in front of which every user has a
hash with another text than its digest: where its own hash has the text of its digest, it has the
bytes, too, and the user has the name. -/
def TextsTell (C : Collation) (hash : List UInt8 → Digest) (table : List Account)
    (username password : String) : Prop :=
  ∀ pre a post, findAllByAttribute C table nick username = pre ++ a :: post →
    (∀ b ∈ pre, Differs hash password b) →
    ∀ stored, a.user.passwordHash = some stored →
      newString stored = newString (digest hash a password) →
        a.user.nick = some username ∧ stored = digest hash a password

/-- **A missing user** is none in the table. -/
theorem getUser_missing (h : getUser C hash table username password = .ok none) (a : Account) :
    ¬ Owns hash table username password a := by
  rintro ⟨hmem, hnick, hhash⟩
  have hfound : a ∈ findAllByAttribute C table nick username :=
    Collation.mem_select_of_eq hmem hnick
  have hfalse := find_eq_none.mp h a hfound
  rw [matchesPassword_of_digest hhash] at hfalse
  exact absurd (Except.ok.inj hfalse) (by decide)

/-- **What is found**: the first user with the text of the digest. -/
theorem getUser_eq_some {a : Account} :
    getUser C hash table username password = .ok (some a) ↔ ∃ pre post,
      findAllByAttribute C table nick username = pre ++ a :: post ∧
      (∀ b ∈ pre, Differs hash password b) ∧
      ∃ stored, a.user.passwordHash = some stored ∧
        newString stored = newString (digest hash a password) := by
  unfold getUser Differs
  simp only [find_eq_some, matchesPassword_eq_ok, beq_iff_eq, beq_eq_false_iff_ne]

theorem mem_table_of_split {pre post : List Account} {a : Account}
    (h : findAllByAttribute C table nick username = pre ++ a :: post) :
    a ∈ table ∧ C.holds a.user.nick (some username) = true := by
  rw [← mem_findAllByAttribute, h]
  exact List.mem_append_right _ List.mem_cons_self

/-- **Login compares digests exactly** when the text of the first hash that has the text of the
digest tells its bytes, and the user has the name that is asked for. -/
theorem getUser_exact_iff (C : Collation) (hash : List UInt8 → Digest) (table : List Account)
    (username password : String) :
    Exact C hash table username password ↔ TextsTell C hash table username password := by
  constructor
  · intro h pre a post hrows hpre stored hstored htext
    have howns := h.found a (getUser_eq_some.mpr ⟨pre, post, hrows, hpre, stored, hstored, htext⟩)
    exact ⟨howns.2.1, Option.some.inj (hstored.symm.trans howns.2.2)⟩
  · intro h
    refine ⟨fun a ha => ?_, getUser_missing⟩
    obtain ⟨pre, post, hrows, hpre, stored, hstored, htext⟩ := getUser_eq_some.mp ha
    obtain ⟨htable, -⟩ := mem_table_of_split hrows
    obtain ⟨hnick, hbytes⟩ := h pre a post hrows hpre stored hstored htext
    exact ⟨htable, hnick, hbytes ▸ hstored⟩

end

/-! ### Bytes that are no text -/

/-- The hash differs in its first byte from the digest of the password `secret`. -/
def sampleHash : List UInt8 :=
  [140, 208, 252, 17, 4, 51, 255, 208, 90, 222, 169, 191, 83, 22, 149, 47, 78, 139, 100, 114, 8, 156,
    76, 230, 115, 15, 50, 52, 114, 55, 120, 32]

def sampleUser : Account where
  user := ⟨some "ann", some [7], some sampleHash, some 0, none, none⟩
  privateKey := none

/-- **Another digest is accepted.** -/
theorem getUser_other_digest :
    getUser .padded sha256 [sampleUser] "ann" "secret" = .ok (some sampleUser) ∧
      ¬ Exact .padded sha256 [sampleUser] "ann" "secret" := by
  have hfound : getUser .padded sha256 [sampleUser] "ann" "secret" = .ok (some sampleUser) := by
    refine getUser_eq_some.mpr ⟨[], [], by decide, by simp, sampleHash, rfl, ?_⟩
    decide +kernel
  refine ⟨hfound, fun h => ?_⟩
  have hhash := (h.found sampleUser hfound).2.2
  exact absurd hhash (by decide +kernel)

/-- A user of another name, who is found for the password. -/
example : (getUser .padded sha256
    [⟨⟨some "ann ", some [7], some (sha256 ([7] ++ getBytes "secret")).1, some 0, none, none⟩, none⟩]
    "ann" "secret").map (Option.map nick) = .ok (some (some "ann ")) := by decide +kernel

end SXP.Model.UserSyncManager
