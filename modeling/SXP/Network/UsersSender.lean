import SXP.Crypt.Entities
import SXP.Lib.Collation
import SXP.Lib.Numeral
import Mathlib.Logic.Function.Basic

/-!
# Requests for users

A peer asks the others for the users with a name, and may ask for an id or for a public key as well.
The argument is packed in a text, and the peer that answers looks in its table for what it reads
there.  The public key is written in decimal and read with the base `16`.

`requests_answered_iff` follows a request to the table and says when the answer has exactly the users
that were asked for.  The name is compared by the database alone, so no user of another name may be
equal to it there; and a key must have one digit, or there may be no user for either of the two
numbers.
-/

namespace SXP.Network

open SXP.Lib SXP.Lib.Java SXP.Lib.Text SXP.Crypt

/-! ### Messages -/

structure RequestUserMessage where
  sourceUri : Option String
  nick : Option String
  attribute_ : Option String
  type : Option String
  who : Option String

namespace RequestUserMessage

def getMessage (m : RequestUserMessage) (name : String) : Java (Option String) :=
  if name = "WHO" then pure m.who
  else if name = "source" then pure m.sourceUri
  else if name = "nick" then pure m.nick
  else if name = "attribute" then pure m.attribute_
  else if name = "type" then pure m.type
  else throw (.runtime "field doesn't exist !")

def getNames : List String := ["source", "nick", "attribute", "type", "WHO"]

end RequestUserMessage

abbrev JxtaMessage : Type := List (String × List UInt8)

/-- The fields of a message that was received. -/
abbrev MessagesGeneric : Type := String → Option String

namespace MessagesGeneric

def empty : MessagesGeneric := fun _ => none

def addField (m : MessagesGeneric) (name : String) (value : Option String) : MessagesGeneric :=
  Function.update m name value

def setWho (m : MessagesGeneric) (who : Option String) : MessagesGeneric := m.addField "WHO" who

def getWho (m : MessagesGeneric) : Option String := m "WHO"

end MessagesGeneric

/-- A field that is null cannot be sent. -/
def toJxtaMessage (m : RequestUserMessage) : Java JxtaMessage :=
  collect (fun name => do
    let value ← m.getMessage name
    let value ← nonNull value
    return (name, getBytes value)) RequestUserMessage.getNames

def toMessages (m : JxtaMessage) : MessagesGeneric :=
  m.foldl (fun msg e =>
    if e.1 = "WHO" then msg.setWho (some (newString e.2))
    else msg.addField e.1 (some (newString e.2))) .empty

/-! ### The service -/

structure StoredUser where
  id : String
  user : User
deriving DecidableEq

def StoredUser.publicKey (u : StoredUser) : Option ℤ := u.user.keys.bind KeyField.publicKey

section

variable (C : Collation)

def findAllByNick (table : List StoredUser) (nick : Option String) : List StoredUser :=
  C.select table (fun u => u.user.nick) nick

namespace JxtaUsersSenderService

def request (type : String) (peerUri nick attribute_ who : Option String) : RequestUserMessage where
  sourceUri := peerUri
  nick := nick
  attribute_ := attribute_
  type := some type
  who := who

def sendRequest (peerUri nick who : Option String) : RequestUserMessage :=
  request "request" peerUri nick (some "") who

def sendRequestById (peerUri id nick who : Option String) : RequestUserMessage :=
  request "requestById" peerUri nick id who

/-- `sendRequest(nick, pbkey, who)`: the key is printed. -/
def sendRequestByPbkey (peerUri nick : Option String) (pbkey : Option ℤ) (who : Option String) :
    RequestUserMessage :=
  request "requestByPbkey" peerUri nick (some (valueOf (pbkey.map decimal))) who

def hasKey (attribute_ : Option String) (user : StoredUser) : Java Bool := do
  let key ← nonNull user.user.keys
  let attribute_ ← nonNull attribute_
  let pbkey ← Numeral.ofHex attribute_
  let publicKey ← nonNull key.publicKey
  return publicKey == pbkey

/-- The users that a message asks for. -/
def resultat (table : List StoredUser) (msg : MessagesGeneric) : Java (List StoredUser) := do
  let type ← nonNull (msg "type")
  if type = "request" then return findAllByNick C table (msg "nick")
  else if type = "requestById" then
    return (findAllByNick C table (msg "nick")).filter fun user => some user.id == msg "attribute"
  else if type = "requestByPbkey" then do
    let user ← find (hasKey (msg "attribute")) (findAllByNick C table (msg "nick"))
    return user.toList
  else return []

def getResponseMessage (toJson : List StoredUser → String) (table : List StoredUser)
    (msg : MessagesGeneric) : Java MessagesGeneric := do
  let m := MessagesGeneric.empty.setWho msg.getWho
  let m := m.addField "type" (some "response")
  let users ← resultat C table msg
  return m.addField "users" (some (toJson users))

end JxtaUsersSenderService

end

/-! ### Requests and answers -/

open JxtaUsersSenderService

inductive UserRequest where
  | byNick (nick : Option String)
  | byId (id nick : Option String)
  | byPbkey (nick : Option String) (pbkey : Option ℤ)
deriving DecidableEq

namespace UserRequest

def message (peerUri who : Option String) : UserRequest → RequestUserMessage
  | byNick nick => sendRequest peerUri nick who
  | byId id nick => sendRequestById peerUri id nick who
  | byPbkey nick pbkey => sendRequestByPbkey peerUri nick pbkey who

theorem message_ends (r : UserRequest) (peerUri who : Option String) :
    (r.message peerUri who).sourceUri = peerUri ∧ (r.message peerUri who).who = who := by
  cases r <;> exact ⟨rfl, rfl⟩

def Matches (u : StoredUser) : UserRequest → Prop
  | byNick nick => u.user.nick = nick
  | byId id nick => u.user.nick = nick ∧ some u.id = id
  | byPbkey nick pbkey => u.user.nick = nick ∧ ∃ key, pbkey = some key ∧ u.publicKey = some key

/-- All users that are meant, each as often as it is in the table; or, with a key, one of them. -/
def Exactly (table : List StoredUser) (l : List StoredUser) : UserRequest → Prop
  | byPbkey nick pbkey =>
      ((∃ u ∈ table, Matches u (byPbkey nick pbkey)) →
        ∃ u ∈ table, Matches u (byPbkey nick pbkey) ∧ l = [u]) ∧
      ((∀ u ∈ table, ¬ Matches u (byPbkey nick pbkey)) → l = [])
  | r => ∀ u, (Matches u r → l.count u = table.count u) ∧ (¬ Matches u r → u ∉ l)

/-- If the request can be sent, it is answered with the users that are meant. -/
def Answered (C : Collation) (table : List StoredUser) (peerUri who : Option String)
    (r : UserRequest) : Prop :=
  ∀ message, toJxtaMessage (r.message peerUri who) = .ok message → ∃ l, Exactly table l r ∧
    ∀ toJson, ∃ response, getResponseMessage C toJson table (toMessages message) = .ok response ∧
      response "users" = some (toJson l)

/-- The key of a request is a number and has one digit, or there is no user of the name for either
of the two numbers; a user without a key comes behind one with the number that is read; and the first
one with it has the name. -/
structure KeyRead (C : Collation) (table : List StoredUser) (nick : Option String)
    (pbkey : Option ℤ) : Prop where
  number : pbkey = none → findAllByNick C table nick = []
  same : ∀ key, pbkey = some key → (-10 < key ∧ key < 10) ∨
    ∀ u ∈ findAllByNick C table nick, u.publicKey ≠ some (Numeral.asHex key) ∧
      (u.user.nick = nick → u.publicKey ≠ some key)
  keyed : ∀ key, pbkey = some key → ∀ pre u post,
    findAllByNick C table nick = pre ++ u :: post → u.publicKey = none →
      ∃ v ∈ pre, v.publicKey = some (Numeral.asHex key)
  named : ∀ key, pbkey = some key → ∀ pre u post,
    findAllByNick C table nick = pre ++ u :: post → u.publicKey = some (Numeral.asHex key) →
      (∀ v ∈ pre, v.publicKey ≠ some (Numeral.asHex key)) → u.user.nick = nick

/-- A request is understood: the users that the database finds for the name have it, as far as they
are returned, and a key is read as it was written. -/
def Understood (C : Collation) (table : List StoredUser) : UserRequest → Prop
  | byNick nick => ∀ u ∈ findAllByNick C table nick, u.user.nick = nick
  | byId id nick => ∀ u ∈ findAllByNick C table nick, some u.id = id → u.user.nick = nick
  | byPbkey nick pbkey => KeyRead C table nick pbkey

end UserRequest

open UserRequest

section

variable {C : Collation} {table : List StoredUser} {u : StoredUser}

theorem mem_findAllByNick {nick : Option String} :
    u ∈ findAllByNick C table nick ↔ u ∈ table ∧ C.holds u.user.nick nick = true :=
  Collation.mem_select

theorem findAllByNick_none : findAllByNick C table none = [] :=
  List.filter_eq_nil_iff.mpr fun _ _ h => Bool.false_ne_true (Collation.holds_none.symm.trans h)

/-! ### The wire -/

/-- **Only what is complete can be sent.** -/
theorem sent_iff {m : RequestUserMessage} : (∃ message, toJxtaMessage m = .ok message) ↔
    m.sourceUri ≠ none ∧ m.nick ≠ none ∧ m.attribute_ ≠ none ∧ m.type ≠ none ∧ m.who ≠ none := by
  have helements : (∃ message, toJxtaMessage m = .ok message) ↔
      ∀ name ∈ RequestUserMessage.getNames, ∃ value, m.getMessage name = .ok (some value) := by
    constructor
    · rintro ⟨message, h⟩ name hname
      obtain ⟨element, helement⟩ := exists_of_collect h hname
      obtain ⟨value, hvalue, hrest⟩ := bind_eq_ok.mp helement
      obtain ⟨text, htext, -⟩ := bind_eq_ok.mp hrest
      exact ⟨text, by rw [hvalue, nonNull_eq_ok.mp htext]⟩
    · intro h
      refine collect_total fun name hname => ?_
      obtain ⟨value, hvalue⟩ := h name hname
      exact ⟨(name, getBytes value), by rw [hvalue]; rfl⟩
  rw [helements]
  simp [RequestUserMessage.getNames, RequestUserMessage.getMessage, Option.ne_none_iff_exists']

/-- **What is sent is received.** -/
theorem toMessages_of_sent {m : RequestUserMessage} {message : JxtaMessage}
    (h : toJxtaMessage m = .ok message) : toMessages message "type" = m.type ∧
      toMessages message "nick" = m.nick ∧ toMessages message "attribute" = m.attribute_ := by
  obtain ⟨sourceUri, nick, attribute_, type, who⟩ := m
  obtain ⟨hsource, hnick, hattribute, htype, hwho⟩ := sent_iff.mp ⟨message, h⟩
  obtain ⟨sourceUri, rfl⟩ := Option.ne_none_iff_exists'.mp hsource
  obtain ⟨nick, rfl⟩ := Option.ne_none_iff_exists'.mp hnick
  obtain ⟨attribute_, rfl⟩ := Option.ne_none_iff_exists'.mp hattribute
  obtain ⟨type, rfl⟩ := Option.ne_none_iff_exists'.mp htype
  obtain ⟨who, rfl⟩ := Option.ne_none_iff_exists'.mp hwho
  have hmessage : toJxtaMessage ⟨some sourceUri, some nick, some attribute_, some type, some who⟩ =
      .ok [("source", getBytes sourceUri), ("nick", getBytes nick), ("attribute", getBytes attribute_),
        ("type", getBytes type), ("WHO", getBytes who)] := rfl
  obtain rfl := Except.ok.inj (hmessage.symm.trans h)
  simp [toMessages, MessagesGeneric.setWho, MessagesGeneric.addField, Function.update]

/-- The answer has the users that were found, however they are printed. -/
theorem response_iff {msg : MessagesGeneric} {l : List StoredUser} :
    (∀ toJson, ∃ response, getResponseMessage C toJson table msg = .ok response ∧
      response "users" = some (toJson l)) ↔ resultat C table msg = .ok l := by
  constructor
  · intro h
    -- a text that only this list is printed as
    obtain ⟨response, hok, husers⟩ := h fun l' => if l' = l then "l" else ""
    obtain ⟨l', hl', hresponse⟩ := bind_eq_ok.mp hok
    obtain rfl := Except.ok.inj hresponse
    by_cases heq : l' = l
    · rw [← heq]
      exact hl'
    · simp [MessagesGeneric.addField, heq] at husers
  · intro h toJson
    refine ⟨_, bind_eq_ok.mpr ⟨l, h, rfl⟩, ?_⟩
    simp [MessagesGeneric.addField]

/-! ### Requests without a key -/

/-- The rows that the query finds and a test keeps are exactly what is meant, if they have the
name. -/
theorem exactly_filter (C : Collation) (table : List StoredUser) {nick : String}
    (p : StoredUser → Bool) (Meant : StoredUser → Prop)
    (hmeant : ∀ u, Meant u ↔ u.user.nick = some nick ∧ p u = true) :
    (∀ u, (Meant u → ((findAllByNick C table (some nick)).filter p).count u = table.count u) ∧
        (¬ Meant u → u ∉ (findAllByNick C table (some nick)).filter p)) ↔
      ∀ u ∈ findAllByNick C table (some nick), p u = true → u.user.nick = some nick := by
  constructor
  · intro h u hu hp
    by_contra hnick
    exact (h u).2 (fun hm => hnick ((hmeant u).mp hm).1) (List.mem_filter.mpr ⟨hu, hp⟩)
  · intro h u
    constructor
    · intro hm
      obtain ⟨hnick, hp⟩ := (hmeant u).mp hm
      rw [List.count_filter hp]
      refine List.count_filter ?_
      show C.holds u.user.nick (some nick) = true
      rw [hnick]
      exact Collation.holds_self nick
    · intro hno hmem
      obtain ⟨hu, hp⟩ := List.mem_filter.mp hmem
      exact hno ((hmeant u).mpr ⟨h u hu hp, hp⟩)

theorem exactly_byNick_iff (nick : String) :
    Exactly table (findAllByNick C table (some nick)) (.byNick (some nick)) ↔
      Understood C table (.byNick (some nick)) := by
  have h := exactly_filter C table (fun _ => true) (fun u => Matches u (.byNick (some nick)))
    fun u => (and_iff_left rfl).symm
  rw [List.filter_true] at h
  exact h.trans (forall₂_congr fun u _ => imp_iff_right rfl)

theorem exactly_byId_iff (id nick : String) : Exactly table
    ((findAllByNick C table (some nick)).filter fun user => some user.id == some id)
    (.byId (some id) (some nick)) ↔ Understood C table (.byId (some id) (some nick)) := by
  refine (exactly_filter C table (fun user => some user.id == some id)
    (fun u => Matches u (.byId (some id) (some nick)))
    fun u => and_congr_right fun _ => beq_iff_eq.symm).trans ?_
  exact forall₂_congr fun u _ => imp_congr_left beq_iff_eq

/-! ### Requests with a key -/

def findByPbkey (C : Collation) (table : List StoredUser) (nick : String) (pbkey : Option ℤ) :
    Java (Option StoredUser) :=
  find (hasKey (some (valueOf (pbkey.map decimal)))) (findAllByNick C table (some nick))

variable {nick : String} {key : ℤ}

theorem hasKey_decimal {b : Bool} : hasKey (some (decimal key)) u = .ok b ↔
    ∃ k, u.publicKey = some k ∧ (k == Numeral.asHex key) = b := by
  unfold hasKey StoredUser.publicKey
  cases u.user.keys with
  | none => simp
  | some k => simp [Numeral.ofHex_decimal, bind_eq_ok, nonNull_eq_ok]

theorem hasKey_null {b : Bool} : hasKey (some "null") u ≠ .ok b := by
  have hread : Numeral.ofHex "null" = .error .numberFormat := by decide +kernel
  unfold hasKey
  cases u.user.keys <;> simp [hread]

/-- The users in front have keys, and other ones than the one that is read. -/
def Passed (key : ℤ) (l : List StoredUser) : Prop :=
  ∀ v ∈ l, ∃ k, v.publicKey = some k ∧ k ≠ Numeral.asHex key

theorem found_iff : findByPbkey C table nick (some key) = .ok (some u) ↔ ∃ pre post,
    findAllByNick C table (some nick) = pre ++ u :: post ∧ Passed key pre ∧
      u.publicKey = some (Numeral.asHex key) := by
  unfold findByPbkey Passed
  simp only [find_eq_some, Option.map_some, valueOf, hasKey_decimal, beq_eq_false_iff_ne, beq_iff_eq,
    exists_eq_right]

theorem missing_iff : findByPbkey C table nick (some key) = .ok none ↔
    Passed key (findAllByNick C table (some nick)) := by
  unfold findByPbkey Passed
  simp only [find_eq_none, Option.map_some, valueOf, hasKey_decimal, beq_eq_false_iff_ne]

theorem Passed.ne {l : List StoredUser} (h : Passed key l) :
    ∀ v ∈ l, v.publicKey ≠ some (Numeral.asHex key) := by
  intro v hv hkey
  obtain ⟨k, hk, hne⟩ := h v hv
  exact hne (Option.some.inj (hk.symm.trans hkey))

/-- Who comes behind nobody with the number that is read has been passed. -/
theorem passed_of_split {l : List StoredUser}
    (hkeyed : ∀ pre v post, l = pre ++ v :: post → v.publicKey = none →
      ∃ w ∈ pre, w.publicKey = some (Numeral.asHex key))
    (hnone : ∀ v ∈ l, v.publicKey ≠ some (Numeral.asHex key)) : Passed key l := by
  intro v hv
  cases hk : v.publicKey with
  | none =>
    obtain ⟨pre, post, rfl⟩ := List.mem_iff_append.mp hv
    obtain ⟨w, hw, hkey⟩ := hkeyed pre v post rfl hk
    exact absurd hkey (hnone w (List.mem_append_left _ hw))
  | some k =>
    refine ⟨k, rfl, fun heq => hnone v hv ?_⟩
    rw [hk, heq]

/-- What is neither in front of `u` nor `u` itself is behind it. -/
theorem mem_front {α : Type} {pre post p q : List α} {u w : α} (h : pre ++ u :: post = p ++ w :: q)
    (hpre : w ∉ pre) (hne : u ≠ w) : u ∈ p := by
  rcases List.append_eq_append_iff.mp h with ⟨l, rfl, hl⟩ | ⟨l, rfl, hl⟩
  · cases l with
    | nil => exact absurd (List.cons.inj hl).1 hne
    | cons first l =>
      obtain ⟨rfl, -⟩ := List.cons.inj hl
      exact List.mem_append_right _ List.mem_cons_self
  · cases l with
    | nil => exact absurd (List.cons.inj hl).1.symm hne
    | cons first l =>
      obtain ⟨rfl, -⟩ := List.cons.inj hl
      exact absurd (List.mem_append_right _ List.mem_cons_self) hpre

/-- Two entries with a property that nothing in front of them has are one entry. -/
theorem first_eq {α : Type} {P : α → Prop} {pre post p q : List α} {u w : α}
    (h : pre ++ u :: post = p ++ w :: q) (hu : P u) (hw : P w) (hpre : ∀ v ∈ pre, ¬ P v)
    (hp : ∀ v ∈ p, ¬ P v) : u = w := by
  by_contra hne
  exact hp u (mem_front h (fun hmem => hpre w hmem hw) hne) hu

theorem keyRead_some : KeyRead C table (some nick) (some key) ↔
    ((-10 < key ∧ key < 10) ∨ ∀ u ∈ findAllByNick C table (some nick),
      u.publicKey ≠ some (Numeral.asHex key) ∧
        (u.user.nick = some nick → u.publicKey ≠ some key)) ∧
    (∀ pre u post, findAllByNick C table (some nick) = pre ++ u :: post → u.publicKey = none →
      ∃ v ∈ pre, v.publicKey = some (Numeral.asHex key)) ∧
    ∀ pre u post, findAllByNick C table (some nick) = pre ++ u :: post →
      u.publicKey = some (Numeral.asHex key) →
      (∀ v ∈ pre, v.publicKey ≠ some (Numeral.asHex key)) → u.user.nick = some nick := by
  constructor
  · exact fun h => ⟨h.same key rfl, h.keyed key rfl, h.named key rfl⟩
  · rintro ⟨hsame, hkeyed, hnamed⟩
    refine ⟨fun h => absurd h (Option.some_ne_none key), fun k hk => ?_, fun k hk => ?_,
      fun k hk => ?_⟩
    · exact Option.some.inj hk ▸ hsame
    · exact Option.some.inj hk ▸ hkeyed
    · exact Option.some.inj hk ▸ hnamed

theorem found_of_matches {pbkey : Option ℤ} (htable : u ∈ table)
    (h : Matches u (.byPbkey (some nick) pbkey)) : u ∈ findAllByNick C table (some nick) :=
  Collation.mem_select_of_eq htable h.1

/-- **When the key is read as it was written**, the search returns what is meant. -/
theorem exactly_of_keyRead (h : KeyRead C table (some nick) (some key)) :
    ∃ found, findByPbkey C table nick (some key) = .ok found ∧
      Exactly table found.toList (.byPbkey (some nick) (some key)) := by
  obtain ⟨hright, hkeyed, hnamed⟩ := keyRead_some.mp h
  cases hfirst : (findAllByNick C table (some nick)).find?
      fun u => u.publicKey == some (Numeral.asHex key) with
  | some u =>
    obtain ⟨hu, pre, post, hrows, hpre⟩ := List.find?_eq_some_iff_append.mp hfirst
    have hkey : u.publicKey = some (Numeral.asHex key) := beq_iff_eq.mp hu
    have hother : ∀ v ∈ pre, v.publicKey ≠ some (Numeral.asHex key) :=
      fun v hv => by simpa using hpre v hv
    have hmem : u ∈ findAllByNick C table (some nick) := by
      rw [hrows]
      exact List.mem_append_right _ List.mem_cons_self
    have hpassed : Passed key pre := by
      refine passed_of_split (fun p v q hsplit => hkeyed p v (q ++ u :: post) ?_) hother
      rw [hrows, hsplit, List.append_assoc, List.cons_append]
    -- a user for the number that is read is there, so it is the right number
    have hsame : Numeral.asHex key = key := by
      rcases hright with hdigit | hnone
      · exact Numeral.asHex_eq_iff.mpr hdigit
      · exact absurd hkey (hnone u hmem).1
    have hmatches : Matches u (.byPbkey (some nick) (some key)) :=
      ⟨hnamed pre u post hrows hkey hother, key, rfl, hsame ▸ hkey⟩
    have htable := (mem_findAllByNick.mp hmem).1
    exact ⟨some u, found_iff.mpr ⟨pre, post, hrows, hpassed, hkey⟩,
      fun _ => ⟨u, htable, hmatches, rfl⟩, fun hno => absurd hmatches (hno u htable)⟩
  | none =>
    have hnone : ∀ u ∈ findAllByNick C table (some nick), u.publicKey ≠ some (Numeral.asHex key) :=
      fun u hu => by simpa using List.find?_eq_none.mp hfirst u hu
    refine ⟨none, missing_iff.mpr (passed_of_split hkeyed hnone), ?_, fun _ => rfl⟩
    rintro ⟨u, htable, hmatches⟩
    have hmem := found_of_matches (C := C) htable hmatches
    obtain ⟨hnick, k, hk, hkey⟩ := hmatches
    obtain rfl := Option.some.inj hk
    rcases hright with hdigit | hno
    · have hsame : Numeral.asHex key = key := Numeral.asHex_eq_iff.mpr hdigit
      exact absurd (hkey.trans (congrArg some hsame.symm)) (hnone u hmem)
    · exact absurd hkey ((hno u hmem).2 hnick)

/-- **When the search returns what is meant**, the key is read as it was written. -/
theorem keyRead_of_exactly {found : Option StoredUser}
    (hfind : findByPbkey C table nick (some key) = .ok found)
    (hexact : Exactly table found.toList (.byPbkey (some nick) (some key))) :
    KeyRead C table (some nick) (some key) := by
  obtain ⟨hsome, hnone⟩ := hexact
  cases found with
  | some u =>
    obtain ⟨pre, post, hrows, hpassed, hkey⟩ := found_iff.mp hfind
    have hmeant : ∃ v ∈ table, Matches v (.byPbkey (some nick) (some key)) := by
      by_contra hno
      exact absurd (hnone fun v hv hm => hno ⟨v, hv, hm⟩) (List.cons_ne_nil u [])
    obtain ⟨v, hv, hmatches, heq⟩ := hsome hmeant
    obtain rfl : u = v := List.singleton_inj.mp heq
    obtain ⟨hnick, k, hk, hright⟩ := hmatches
    obtain rfl := Option.some.inj hk
    have hsame : Numeral.asHex key = key := Option.some.inj (hkey.symm.trans hright)
    refine keyRead_some.mpr ⟨.inl (Numeral.asHex_eq_iff.mp hsame), fun p w q hsplit hw => ?_,
      fun p w q hsplit hw hp => ?_⟩
    · -- a user without a key has not been passed, and it is not the one that is returned
      refine ⟨u, mem_front (hrows.symm.trans hsplit) (fun hmem => ?_) ?_, hkey⟩
      · obtain ⟨k, hk', -⟩ := hpassed w hmem
        exact absurd (hk'.symm.trans hw) (Option.some_ne_none k)
      · rintro rfl
        exact absurd (hkey.symm.trans hw) (Option.some_ne_none _)
    · -- the first user with the number is the one that is returned
      obtain rfl := first_eq (P := fun v => v.publicKey = some (Numeral.asHex key))
        (hrows.symm.trans hsplit) hkey hw hpassed.ne hp
      exact hnick
  | none =>
    have hpassed := missing_iff.mp hfind
    refine keyRead_some.mpr ⟨.inr fun u hu => ⟨hpassed.ne u hu, fun hnick hkey => ?_⟩,
      fun p w q hsplit hw => ?_, fun p w q hsplit hw _ => ?_⟩
    · obtain ⟨v, -, -, heq⟩ :=
        hsome ⟨u, (mem_findAllByNick.mp hu).1, hnick, key, rfl, hkey⟩
      cases heq
    · have hmem : w ∈ findAllByNick C table (some nick) := by
        rw [hsplit]
        exact List.mem_append_right _ List.mem_cons_self
      obtain ⟨k, hk, -⟩ := hpassed w hmem
      exact absurd (hk.symm.trans hw) (Option.some_ne_none k)
    · have hmem : w ∈ findAllByNick C table (some nick) := by
        rw [hsplit]
        exact List.mem_append_right _ List.mem_cons_self
      exact absurd hw (hpassed.ne w hmem)

/-- Without a number, nobody is meant, and the first user of the name ends the search. -/
theorem null_key_iff : (∃ found, findByPbkey C table nick none = .ok found ∧
    Exactly table found.toList (.byPbkey (some nick) none)) ↔ KeyRead C table (some nick) none := by
  constructor
  · rintro ⟨found, hfind, -⟩
    refine ⟨fun _ => ?_, fun k hk => absurd hk.symm (Option.some_ne_none k),
      fun k hk => absurd hk.symm (Option.some_ne_none k),
      fun k hk => absurd hk.symm (Option.some_ne_none k)⟩
    unfold findByPbkey at hfind
    cases hrows : findAllByNick C table (some nick) with
    | nil => rfl
    | cons u rows =>
      rw [hrows, find, bind_eq_ok] at hfind
      obtain ⟨b, hb, -⟩ := hfind
      exact absurd hb hasKey_null
  · intro h
    refine ⟨none, ?_, ?_, fun _ => rfl⟩
    · rw [findByPbkey, h.number rfl]
      rfl
    · rintro ⟨u, htable, -, k, hk, -⟩
      cases hk

theorem findByPbkey_iff {pbkey : Option ℤ} : (∃ found, findByPbkey C table nick pbkey = .ok found ∧
    Exactly table found.toList (.byPbkey (some nick) pbkey)) ↔
      KeyRead C table (some nick) pbkey := by
  cases pbkey with
  | none => exact null_key_iff
  | some key =>
    exact ⟨fun ⟨found, hfind, hexact⟩ => keyRead_of_exactly hfind hexact, exactly_of_keyRead⟩

/-! ### From the request to the answer -/

theorem answered_eq {peerUri who : Option String} {r : UserRequest} :
    Answered C table peerUri who r ↔ ∀ message,
      toJxtaMessage (r.message peerUri who) = .ok message →
        ∃ l, Exactly table l r ∧ resultat C table (toMessages message) = .ok l := by
  unfold Answered
  simp only [response_iff]

theorem exists_exactly_iff {l : List StoredUser} {r : UserRequest} {msg : MessagesGeneric}
    (h : resultat C table msg = .ok l) :
    (∃ l', Exactly table l' r ∧ resultat C table msg = .ok l') ↔ Exactly table l r := by
  constructor
  · rintro ⟨l', hexact, hok⟩
    exact Except.ok.inj (h.symm.trans hok) ▸ hexact
  · exact fun hexact => ⟨l, hexact, h⟩

theorem keyRead_null {pbkey : Option ℤ} : KeyRead C table none pbkey := by
  have hnobody : ∀ {pre post : List StoredUser} {u : StoredUser},
      findAllByNick C table none ≠ pre ++ u :: post := by
    intro pre post u h
    rw [findAllByNick_none] at h
    exact List.append_ne_nil_of_right_ne_nil pre (List.cons_ne_nil u post) h.symm
  refine ⟨fun _ => findAllByNick_none, fun _ _ => .inr fun u hu => ?_,
    fun _ _ _ _ _ h => absurd h hnobody, fun _ _ _ _ _ h => absurd h hnobody⟩
  rw [findAllByNick_none] at hu
  exact absurd hu List.not_mem_nil

/-- A request that cannot be sent for a name or an id that is null asks for nobody. -/
theorem understood_of_unsent {peerUri who : Option String} {r : UserRequest}
    (hpeer : peerUri ≠ none) (hwho : who ≠ none)
    (h : ¬ ∃ message, toJxtaMessage (r.message peerUri who) = .ok message) :
    Understood C table r := by
  rw [sent_iff] at h
  cases r with
  | byNick nick =>
    cases nick with
    | none =>
      intro u hu
      rw [findAllByNick_none] at hu
      exact absurd hu List.not_mem_nil
    | some nick =>
      exact absurd ⟨hpeer, Option.some_ne_none _, Option.some_ne_none _, Option.some_ne_none _, hwho⟩ h
  | byId id nick =>
    cases nick with
    | none =>
      intro u hu
      rw [findAllByNick_none] at hu
      exact absurd hu List.not_mem_nil
    | some nick =>
      cases id with
      | none => exact fun u _ hid => absurd hid (Option.some_ne_none u.id)
      | some id =>
        exact absurd ⟨hpeer, Option.some_ne_none _, Option.some_ne_none _, Option.some_ne_none _, hwho⟩
          h
  | byPbkey nick pbkey =>
    cases nick with
    | none => exact keyRead_null
    | some nick =>
      exact absurd ⟨hpeer, Option.some_ne_none _, Option.some_ne_none _, Option.some_ne_none _, hwho⟩ h

theorem answer_iff {peerUri who : Option String} {r : UserRequest} {message : JxtaMessage}
    (hsent : toJxtaMessage (r.message peerUri who) = .ok message) :
    (∃ l, Exactly table l r ∧ resultat C table (toMessages message) = .ok l) ↔
      Understood C table r := by
  obtain ⟨-, hnick, hattribute, -⟩ := sent_iff.mp ⟨message, hsent⟩
  obtain ⟨htype, hname, hargument⟩ := toMessages_of_sent hsent
  cases r with
  | byNick nick =>
    obtain ⟨nick, rfl⟩ := Option.ne_none_iff_exists'.mp hnick
    have hresultat : resultat C table (toMessages message) =
        .ok (findAllByNick C table (some nick)) := by
      unfold resultat
      rw [htype, hname]
      rfl
    rw [exists_exactly_iff hresultat, exactly_byNick_iff]
  | byId id nick =>
    obtain ⟨nick, rfl⟩ := Option.ne_none_iff_exists'.mp hnick
    obtain ⟨id, rfl⟩ := Option.ne_none_iff_exists'.mp hattribute
    have hresultat : resultat C table (toMessages message) =
        .ok ((findAllByNick C table (some nick)).filter fun user => some user.id == some id) := by
      unfold resultat
      rw [htype, hname, hargument]
      rfl
    rw [exists_exactly_iff hresultat, exactly_byId_iff]
  | byPbkey nick pbkey =>
    obtain ⟨nick, rfl⟩ := Option.ne_none_iff_exists'.mp hnick
    have hresultat : resultat C table (toMessages message) =
        findByPbkey C table nick pbkey >>= fun user => pure user.toList := by
      unfold resultat
      rw [htype, hname, hargument]
      rfl
    rw [hresultat]
    refine Iff.trans ?_ findByPbkey_iff
    constructor
    · rintro ⟨l, hexact, hok⟩
      obtain ⟨found, hfind, hl⟩ := bind_eq_ok.mp hok
      exact ⟨found, hfind, Except.ok.inj hl ▸ hexact⟩
    · rintro ⟨found, hfind, hexact⟩
      exact ⟨found.toList, hexact, bind_eq_ok.mpr ⟨found, hfind, rfl⟩⟩

/-- **Requests are answered with the users that are meant** when they are understood.  One that has a
text that is null cannot be sent. -/
theorem requests_answered_iff (C : Collation) (table : List StoredUser) (peerUri who : Option String)
    (r : UserRequest) : Answered C table peerUri who r ↔
      (peerUri ≠ none → who ≠ none → Understood C table r) := by
  rw [answered_eq]
  by_cases hsendable : ∃ message, toJxtaMessage (r.message peerUri who) = .ok message
  · obtain ⟨message, hsent⟩ := hsendable
    constructor
    · exact fun h _ _ => (answer_iff hsent).mp (h message hsent)
    · intro h message' hsent'
      obtain ⟨hpeer, -, -, -, hwho⟩ := sent_iff.mp ⟨message, hsent⟩
      obtain ⟨hsource, hself⟩ := r.message_ends peerUri who
      exact (answer_iff hsent').mpr (h (hsource ▸ hpeer) (hself ▸ hwho))
  · constructor
    · exact fun _ hpeer hwho => understood_of_unsent hpeer hwho hsendable
    · exact fun _ message hsent => absurd ⟨message, hsent⟩ hsendable

end

/-! ### A key of two digits -/

def sampleUser : StoredUser := ⟨"7c", ⟨some "ann", none, none, none, some ⟨some 10, ""⟩, none⟩⟩

def sampleRequest : RequestUserMessage :=
  sendRequestByPbkey (some "urn:jxta:a") (some "ann") (some 10) (some "test")

/-- **The key `10` is looked for as `16`.** -/
theorem key_read_with_other_base :
    (toJxtaMessage sampleRequest >>= fun message => resultat .padded [sampleUser] (toMessages message)) =
      .ok [] ∧
    ¬ Answered .padded [sampleUser] (some "urn:jxta:a") (some "test")
      (.byPbkey (some "ann") (some 10)) := by
  have hempty : (toJxtaMessage sampleRequest >>= fun message =>
      resultat .padded [sampleUser] (toMessages message)) = .ok [] := by decide +kernel
  refine ⟨hempty, fun h => ?_⟩
  obtain ⟨message, hsent, hresultat⟩ := bind_eq_ok.mp hempty
  obtain ⟨l, ⟨hsome, -⟩, hok⟩ := answered_eq.mp h message hsent
  obtain rfl := Except.ok.inj (hok.symm.trans hresultat)
  obtain ⟨u, -, -, hl⟩ := hsome ⟨sampleUser, List.mem_cons_self, rfl, 10, rfl, rfl⟩
  cases hl

/-- A request by name that a user of another name answers. -/
example : resultat .padded [⟨"7d", ⟨some "ann ", none, none, none, none, none⟩⟩]
    ((MessagesGeneric.empty.addField "type" (some "request")).addField "nick" (some "ann")) =
      .ok [⟨"7d", ⟨some "ann ", none, none, none, none, none⟩⟩] := by decide +kernel

end SXP.Network
