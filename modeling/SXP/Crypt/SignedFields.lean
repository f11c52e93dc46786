import SXP.Crypt.CryptoParser

/-!
# What a signature of an entity binds

The signed text has the values of the fields one after the other, without anything between
them.  A signature of one entity is one of another with the same text.

`signature_binds_iff` says for which two entities of a class the same text means the same
fields.  It fails where the end of one field is the beginning of the next, and where two values
print alike: null and the text `null`, byte arrays that are no UTF-8, instants in one second.
-/

namespace SXP.Crypt

open SXP.Lib SXP.Lib.Java SXP.Lib.Text SXP.Lib.Date

namespace FieldValue

/-- Two values of a field of one class. -/
inductive Alike : FieldValue → FieldValue → Prop where
  | string (s s' : Option String) : Alike (of .string s) (of .string s')
  | bytes (b b' : Option (List UInt8)) : Alike (of .bytes b) (of .bytes b')
  | bigInteger (n n' : Option ℤ) : Alike (of .bigInteger n) (of .bigInteger n')
  | date (t t' : Option ℤ) : Alike (of .date t) (of .date t')

/-- What two texts of one field do not confuse. -/
def Legible (z z' : TimeZone) : FieldValue → FieldValue → Prop
  | .string s, .null => s ≠ "null"
  | .null, .string s => s ≠ "null"
  | .bytes b, .null => newString b ≠ "null"
  | .null, .bytes b => newString b ≠ "null"
  | .bytes b, .bytes b' => newString b = newString b' → b = b'
  | .date t, .date t' => printed z t = printed z' t' → t = t'
  | _, _ => True

/-- **A legible text says which value it is of.** -/
theorem legible_iff {z z' : TimeZone} {v v' : FieldValue} (h : Alike v v') :
    (v.text z = v'.text z' → v = v') ↔ Legible z z' v v' := by
  -- what prints as a null reference does, against one
  have hnull : ∀ {v : FieldValue} {s : String}, v ≠ .null →
      ((s = "null" → v = .null) ↔ s ≠ "null") ∧ (("null" = s → .null = v) ↔ s ≠ "null") :=
    fun hv => ⟨imp_iff_not hv, (imp_iff_not (Ne.symm hv)).trans ne_comm⟩
  cases h with
  | string s s' =>
    rcases s with _ | s <;> rcases s' with _ | s'
    · exact iff_of_true (fun _ => rfl) trivial
    · exact (hnull (v := .string s') (by simp)).2
    · exact (hnull (v := .string s) (by simp)).1
    · exact iff_of_true (fun h => congrArg FieldValue.string h) trivial
  | bytes b b' =>
    rcases b with _ | b <;> rcases b' with _ | b'
    · exact iff_of_true (fun _ => rfl) trivial
    · exact (hnull (v := .bytes b') (by simp)).2
    · exact (hnull (v := .bytes b) (by simp)).1
    · exact imp_congr_right fun _ => FieldValue.bytes.injEq b b' ▸ Iff.rfl
  | bigInteger n n' =>
    rcases n with _ | n <;> rcases n' with _ | n'
    · exact iff_of_true (fun _ => rfl) trivial
    · exact iff_of_true (fun h => absurd h.symm (decimal_ne_null n')) trivial
    · exact iff_of_true (fun h => absurd h (decimal_ne_null n)) trivial
    · exact iff_of_true (fun h => congrArg FieldValue.bigInteger (decimal_injective h)) trivial
  | date t t' =>
    rcases t with _ | t <;> rcases t' with _ | t'
    · exact iff_of_true (fun _ => rfl) trivial
    · exact iff_of_true (fun h => absurd h.symm (toString_ne_null z' t')) trivial
    · exact iff_of_true (fun h => absurd h (toString_ne_null z t)) trivial
    · exact imp_congr toString_inj (FieldValue.date.injEq t t' ▸ Iff.rfl)

/-- The value prints the same in every zone. -/
def ZoneFree (v : FieldValue) : Prop := ∀ z z', v.text z = v.text z'

end FieldValue

open FieldValue

/-- The texts are different; or they are cut at the same places, and every field is legible. -/
def Apart (z z' : TimeZone) (l l' : List FieldValue) : Prop :=
  String.join (l.map (text z)) ≠ String.join (l'.map (text z')) ∨
  ((l.map (text z)).map String.length = (l'.map (text z')).map String.length ∧
    List.Forall₂ (Legible z z') l l')

theorem join_text_iff {z z' : TimeZone} (front back : List FieldValue) {v v' : FieldValue}
    (hfront : ∀ v ∈ front, v.ZoneFree) (hback : ∀ v ∈ back, v.ZoneFree) :
    String.join ((front ++ v :: back).map (text z)) =
      String.join ((front ++ v' :: back).map (text z')) ↔ v.text z = v'.text z' := by
  have hf : front.map (text z) = front.map (text z') :=
    List.map_congr_left fun v hv => hfront v hv z z'
  have hb : back.map (text z) = back.map (text z') :=
    List.map_congr_left fun v hv => hback v hv z z'
  rw [List.map_append, List.map_append, List.map_cons, List.map_cons, hf, hb,
    String.join_append, String.join_append, String.join_cons, String.join_cons,
    String.append_right_inj, String.append_left_inj]

theorem text_congr {z z' : TimeZone} {front back : List FieldValue} (v : FieldValue)
    (hfront : ∀ v ∈ front, v.ZoneFree) (hback : ∀ v ∈ back, v.ZoneFree)
    (h : String.join ((front ++ v :: back).map (text z)) =
      String.join ((front ++ v :: back).map (text z'))) :
    (front ++ v :: back).map (text z) = (front ++ v :: back).map (text z') := by
  have hv := (join_text_iff front back hfront hback).mp h
  refine List.map_congr_left fun w hw => ?_
  rcases List.mem_append.mp hw with hw | hw
  · exact hfront w hw z z'
  · rcases List.mem_cons.mp hw with rfl | hw
    · exact hv
    · exact hback w hw z z'

/-- **Equal texts mean equal values** for exactly the lists that are apart. -/
theorem apart_iff {z z' : TimeZone} {l l' : List FieldValue} (halike : List.Forall₂ Alike l l')
    (hzone : String.join (l.map (text z)) = String.join (l.map (text z')) →
      l.map (text z) = l.map (text z')) :
    (String.join (l.map (text z)) = String.join (l'.map (text z')) → l = l') ↔
      Apart z z' l l' := by
  constructor
  · intro h
    refine or_iff_not_imp_left.mpr fun heq => ?_
    obtain rfl := h (not_not.mp heq)
    rw [hzone (not_not.mp heq)]
    refine ⟨rfl, List.forall₂_same.mpr fun v hv => ?_⟩
    exact (legible_iff (List.forall₂_same.mp halike v hv)).mp fun _ => rfl
  · rintro (hne | ⟨hlen, hlegible⟩) heq
    · exact absurd heq hne
    · have htexts := (join_inj hlen).mp heq
      clear hlen heq hzone
      induction hlegible with
      | nil => rfl
      | cons hv _ ih =>
        obtain ⟨hva, hrest⟩ := List.forall₂_cons.mp halike
        rw [List.map_cons, List.map_cons] at htexts
        obtain ⟨hhead, htail⟩ := List.cons.inj htexts
        rw [(legible_iff hva).mpr hv hhead, ih hrest htail]

/-! ### Entities -/

def SameKey (a : CryptSigneAnnotation) (e e' : Entity) : Prop :=
  ∃ y, (e.getDeclaredField a.checkByKey >>= checkKey) = .ok (some y) ∧
    (e'.getDeclaredField a.checkByKey >>= checkKey) = .ok (some y)

/-- What is signed for `e` is not what is checked for `e'`, unless they agree on the fields. -/
def Binds (z z' : TimeZone) (a : CryptSigneAnnotation) (e e' : Entity) : Prop :=
  SameKey a e e' → e.signedBytes z a = e'.signedBytes z' a →
    ∀ name ∈ a.signeWithFields, e.getDeclaredField name = e'.getDeclaredField name

def Entity.Values (e : Entity) (a : CryptSigneAnnotation) (l : List FieldValue) : Prop :=
  a.signeWithFields.map e.getDeclaredField = l.map .ok

theorem Entity.Values.signedText {e : Entity} {a : CryptSigneAnnotation} {l : List FieldValue}
    (h : e.Values a l) (z : TimeZone) :
    e.signedText z a = String.join (l.map (text z)) := by
  unfold Entity.Values at h
  unfold Entity.signedText
  refine congrArg String.join ?_
  generalize a.signeWithFields = names at h ⊢
  induction names generalizing l with
  | nil =>
    obtain rfl := List.map_eq_nil_iff.mp h.symm
    rfl
  | cons name names ih =>
    cases l with
    | nil => exact absurd h (by simp)
    | cons v l =>
      obtain ⟨hv, hrest⟩ := List.cons.inj h
      rw [List.map_cons, List.map_cons, hv, ih hrest]

theorem Entity.Values.agree_iff {e e' : Entity} {a : CryptSigneAnnotation} {l l' : List FieldValue}
    (h : e.Values a l) (h' : e'.Values a l') :
    (∀ name ∈ a.signeWithFields, e.getDeclaredField name = e'.getDeclaredField name) ↔
      l = l' := by
  rw [← List.map_inj_left, h, h']
  exact (List.map_injective_iff.mpr fun _ _ => Except.ok.inj).eq_iff

/-- **Two entities of a class** with one date at most. -/
theorem binds_iff {z z' : TimeZone} {a : CryptSigneAnnotation} {e e' : Entity}
    {l' : List FieldValue} (front back : List FieldValue) {v : FieldValue}
    (h : e.Values a (front ++ v :: back)) (h' : e'.Values a l')
    (halike : List.Forall₂ Alike (front ++ v :: back) l')
    (hfront : ∀ v ∈ front, v.ZoneFree) (hback : ∀ v ∈ back, v.ZoneFree) :
    Binds z z' a e e' ↔ (SameKey a e e' → Apart z z' (front ++ v :: back) l') := by
  refine imp_congr_right fun _ => ?_
  rw [← apart_iff halike (text_congr v hfront hback), ← h.agree_iff h', Entity.signedBytes,
    Entity.signedBytes, getBytes_injective.eq_iff, h.signedText, h'.signedText]

/-! ### The three classes -/

def Item.signedValues (i : Item) : List FieldValue :=
  [.of .string i.title, .of .string i.description, .of .date i.createdAt,
    .of .string i.username, .of .string i.userid, .of .bigInteger i.pbkey]

def Message.signedValues (m : Message) : List FieldValue :=
  [.of .date m.sendingDate, .of .string m.senderId, .of .string m.senderName,
    .of .string m.receiverId, .of .string m.receiverName, .of .bigInteger m.pbkey,
    .of .string m.messageContent]

def User.signedValues (u : User) : List FieldValue :=
  [.of .string u.nick, .of .date u.createdAt, .of .bytes u.passwordHash, .of .bytes u.salt]

theorem Item.values (i : Item) : i.entity.Values Item.annotation i.signedValues := rfl

theorem Message.values (m : Message) : m.entity.Values Message.annotation m.signedValues := rfl

theorem User.values (u : User) : u.entity.Values User.annotation u.signedValues := rfl

theorem zoneFree_string (s : Option String) : (of .string s).ZoneFree := by
  cases s <;> exact fun _ _ => rfl

theorem zoneFree_bytes (b : Option (List UInt8)) : (of .bytes b).ZoneFree := by
  cases b <;> exact fun _ _ => rfl

theorem zoneFree_bigInteger (n : Option ℤ) : (of .bigInteger n).ZoneFree := by
  cases n <;> exact fun _ _ => rfl

theorem Item.binds_iff {z z' : TimeZone} (i i' : Item) :
    Binds z z' Item.annotation i.entity i'.entity ↔
      (SameKey Item.annotation i.entity i'.entity → Apart z z' i.signedValues i'.signedValues) := by
  refine Crypt.binds_iff [_, _] [_, _, _] i.values i'.values ?_ ?_ ?_
  · exact .cons (.string _ _) (.cons (.string _ _) (.cons (.date _ _) (.cons (.string _ _)
      (.cons (.string _ _) (.cons (.bigInteger _ _) .nil)))))
  · simp [zoneFree_string]
  · simp [zoneFree_string, zoneFree_bigInteger]

theorem Message.binds_iff {z z' : TimeZone} (m m' : Message) :
    Binds z z' Message.annotation m.entity m'.entity ↔
      (SameKey Message.annotation m.entity m'.entity →
        Apart z z' m.signedValues m'.signedValues) := by
  refine Crypt.binds_iff [] [_, _, _, _, _, _] m.values m'.values ?_ ?_ ?_
  · exact .cons (.date _ _) (.cons (.string _ _) (.cons (.string _ _) (.cons (.string _ _)
      (.cons (.string _ _) (.cons (.bigInteger _ _) (.cons (.string _ _) .nil))))))
  · simp
  · simp [zoneFree_string, zoneFree_bigInteger]

theorem User.binds_iff {z z' : TimeZone} (u u' : User) :
    Binds z z' User.annotation u.entity u'.entity ↔
      (SameKey User.annotation u.entity u'.entity → Apart z z' u.signedValues u'.signedValues) := by
  refine Crypt.binds_iff [_] [_, _] u.values u'.values ?_ ?_ ?_
  · exact .cons (.string _ _) (.cons (.date _ _) (.cons (.bytes _ _) (.cons (.bytes _ _) .nil)))
  · simp [zoneFree_string]
  · simp [zoneFree_bytes]

/-- **A signature binds every signed field** of exactly the pairs of entities that have different
keys or are apart, in each of the three classes. -/
theorem signature_binds_iff (z z' : TimeZone) :
    (∀ i i' : Item, Binds z z' Item.annotation i.entity i'.entity ↔
      (SameKey Item.annotation i.entity i'.entity →
        Apart z z' i.signedValues i'.signedValues)) ∧
    (∀ m m' : Message, Binds z z' Message.annotation m.entity m'.entity ↔
      (SameKey Message.annotation m.entity m'.entity →
        Apart z z' m.signedValues m'.signedValues)) ∧
    ∀ u u' : User, Binds z z' User.annotation u.entity u'.entity ↔
      (SameKey User.annotation u.entity u'.entity →
        Apart z z' u.signedValues u'.signedValues) :=
  ⟨Item.binds_iff, Message.binds_iff, User.binds_iff⟩

/-! ### Entities with one text -/

def sampleMessage : Message where
  sendingDate := some 0
  senderId := some "1"
  senderName := some "ann"
  receiverId := some "2"
  receiverName := some "bob"
  messageContent := some "hello"
  pbkey := some 5
  signature := none

def sampleUser : User where
  nick := some "ann"
  salt := some [0xFE]
  passwordHash := some [0x61]
  createdAt := some 0
  keys := some ⟨some 5, "key"⟩
  signature := none

/-- A boundary that is moved, a millisecond, and bytes that are no text. -/
theorem fields_not_bound :
    ¬ Binds .utc .utc Item.annotation sampleItem.entity
      { sampleItem with title := some "bikealmost", description := some " new" }.entity ∧
    ¬ Binds .utc .utc Message.annotation sampleMessage.entity
      { sampleMessage with sendingDate := some 1 }.entity ∧
    ¬ Binds .utc .utc User.annotation sampleUser.entity
      { sampleUser with salt := some [0xFF] }.entity := by
  refine ⟨fun h => ?_, fun h => ?_, fun h => ?_⟩
  · exact absurd (h ⟨5, rfl, rfl⟩ (by decide +kernel) "title" (by decide)) (by decide)
  · exact absurd (h ⟨5, rfl, rfl⟩ (by decide +kernel) "sendingDate" (by decide)) (by decide)
  · exact absurd (h ⟨5, rfl, rfl⟩ (by decide +kernel) "salt" (by decide)) (by decide)

end SXP.Crypt
