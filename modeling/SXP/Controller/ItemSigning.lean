import SXP.Crypt.Transport
import SXP.Sigma.TrentSolver

/-!
# Signing changed items

At the end of a transaction the manager of items signs those of its user.  Whose an item is, it
decides by comparing the two identifiers as objects.

`resigned_iff` gives the changed items of a user that carry a signature of the user after that:
those that hold the same object as the user and are reached by the loop, and those that had one
before.
-/

namespace SXP.Controller

open SXP.Lib SXP.Lib.Java SXP.Crypt
open SXP.Sigma (StringRef)
open SXP.Crypt.ElGamalAsymKeyFactory

/-- `==` of two references. -/
def sameObject : Option StringRef → Option StringRef → Bool
  | some a, some b => a.ref == b.ref
  | none, none => true
  | _, _ => false

/-- An item as it was loaded: `userid` is an object. -/
structure LoadedItem where
  item : Item
  userid : Option StringRef
  loaded : item.userid = userid.map StringRef.value

/-- The user of the manager, with a pair of keys. -/
structure Owner where
  id : Option StringRef
  keys : KeyPair

section

variable (hash : List UInt8 → Digest) (z : Date.TimeZone)

def LoadedItem.signe (key : Option Crypt.ElGamalKey) (draw : Draw) (i : LoadedItem) :
    Java LoadedItem := do
  let k ← nonNull key
  let σ ← sign hash ⟨none, k.privateKey⟩ (i.item.entity.signedBytes z Item.annotation) draw
  return { i with item := { i.item with signature := some σ } }

/-- The loop of `end`, up to the first exception.  Every signature takes a number that is drawn. -/
def signChanged (user : Owner) :
    (ℕ → Draw) → List LoadedItem → Java Unit × List LoadedItem
  | _, [] => (.ok (), [])
  | draws, i :: rest =>
      if sameObject i.userid user.id then
        match i.signe hash z (some user.keys.key) (draws 0) with
        | .error exception => (.error exception, i :: rest)
        | .ok i' =>
            let r := signChanged user (fun n => draws (n + 1)) rest
            (r.1, i' :: r.2)
      else
        let r := signChanged user draws rest
        (r.1, i :: r.2)

end

/-! ### What the loop does to an item -/

section

variable {hash : List UInt8 → Digest} {z : Date.TimeZone} {user : Owner}

theorem signe_entity (key : Option Crypt.ElGamalKey) (draws : ℕ → Draw) (i : LoadedItem) :
    (i.signe hash z key (draws 0)).map (fun i' => i'.item.entity) =
      (i.item.parser key).signeFields hash z draws := by
  change _ = signLoop hash z key (Shared.item i.item).entity.signedFields draws _
  rw [Shared.signedFields_entity, signLoop, LoadedItem.signe]
  change _ = nonNull key >>= fun k =>
    sign hash ⟨none, k.privateKey⟩ (i.item.entity.signedBytes z Item.annotation) (draws 0) >>=
      fun σ => pure ((Shared.item i.item).entity.setField "signature" (.signature σ))
  simp only [Shared.setField_entity]
  cases key with
  | none => rfl
  | some k =>
    rw [nonNull_some, ok_bind, ok_bind]
    cases sign hash ⟨none, k.privateKey⟩ (i.item.entity.signedBytes z Item.annotation)
      (draws 0) <;> rfl

variable (user) in
/-- How many items are signed before the one with this number. -/
def before (items : List LoadedItem) (n : ℕ) : ℕ :=
  (items.take n).countP fun i => sameObject i.userid user.id

theorem before_cons (first : LoadedItem) (rest : List LoadedItem) (n : ℕ) :
    before user (first :: rest) (n + 1) =
      before user rest n + if sameObject first.userid user.id then 1 else 0 := by
  rw [before, List.take_succ_cons, List.countP_cons, before]

/-- The numbers that are drawn have inverses, so far. -/
def Invertible (draws : ℕ → Draw) (n : ℕ) : Prop :=
  ∀ m ≤ n, Int.gcd (draws m).val ((P : ℤ) - 1) = 1

theorem signe_ok (hash : List UInt8 → Digest) (z : Date.TimeZone) (user : Owner)
    (i : LoadedItem) {draw : Draw} (h : Int.gcd draw.val ((P : ℤ) - 1) = 1) :
    ∃ σ, sign hash ⟨none, some user.keys.x⟩ (i.item.entity.signedBytes z Item.annotation) draw =
      .ok σ ∧ i.signe hash z (some user.keys.key) draw =
        .ok { i with item := { i.item with signature := some σ } } := by
  obtain ⟨σ, hσ⟩ :=
    (sign_total hash user.keys.x (i.item.entity.signedBytes z Item.annotation)).mpr h
  refine ⟨σ, hσ, ?_⟩
  change (sign hash ⟨none, some user.keys.x⟩ _ draw >>= fun σ => _) = _
  rw [hσ]
  rfl

theorem signe_error (hash : List UInt8 → Digest) (z : Date.TimeZone) (user : Owner)
    (i : LoadedItem) {draw : Draw} (h : ¬ Int.gcd draw.val ((P : ℤ) - 1) = 1) :
    ∃ exception, i.signe hash z (some user.keys.key) draw = .error exception := by
  change ∃ exception, (sign hash ⟨none, some user.keys.x⟩ _ draw >>= fun σ => _) = _
  cases hσ : sign hash ⟨none, some user.keys.x⟩ (i.item.entity.signedBytes z Item.annotation)
    draw with
  | error exception => exact ⟨exception, rfl⟩
  | ok σ => exact absurd ((sign_total hash user.keys.x _).mp ⟨σ, hσ⟩) h

/-- An item of the same object that the loop reaches is signed; another one is as it was. -/
inductive After (hash : List UInt8 → Digest) (z : Date.TimeZone) (user : Owner)
    (draws : ℕ → Draw) (n : ℕ) (i : LoadedItem) : LoadedItem → Prop where
  | signed (σ : ElGamalSignature) : sameObject i.userid user.id = true → Invertible draws n →
      sign hash ⟨none, some user.keys.x⟩ (i.item.entity.signedBytes z Item.annotation) (draws n) =
        .ok σ → After hash z user draws n i { i with item := { i.item with signature := some σ } }
  | same : ¬ (sameObject i.userid user.id = true ∧ Invertible draws n) →
      After hash z user draws n i i

theorem invertible_succ {draws : ℕ → Draw} {n : ℕ} : Invertible draws (n + 1) ↔
    Int.gcd (draws 0).val ((P : ℤ) - 1) = 1 ∧ Invertible (fun m => draws (m + 1)) n := by
  constructor
  · exact fun h => ⟨h 0 (Nat.zero_le _), fun m hm => h (m + 1) (Nat.succ_le_succ hm)⟩
  · rintro ⟨h0, h⟩ m hm
    cases m with
    | zero => exact h0
    | succ m => exact h m (Nat.succ_le_succ_iff.mp hm)

theorem After.succ {draws : ℕ → Draw} {n : ℕ} {i i' : LoadedItem}
    (h0 : Int.gcd (draws 0).val ((P : ℤ) - 1) = 1)
    (h : After hash z user (fun m => draws (m + 1)) n i i') :
    After hash z user draws (n + 1) i i' := by
  cases h with
  | signed σ hsame hdraws hσ => exact .signed σ hsame (invertible_succ.mpr ⟨h0, hdraws⟩) hσ
  | same hnot => exact .same fun h => hnot ⟨h.1, (invertible_succ.mp h.2).2⟩

theorem signChanged_after (hash : List UInt8 → Digest) (z : Date.TimeZone) (user : Owner)
    (draws : ℕ → Draw) {items : List LoadedItem} {n : ℕ} {i : LoadedItem}
    (h : items[n]? = some i) : ∃ i', (signChanged hash z user draws items).2[n]? = some i' ∧
      After hash z user draws (before user items n) i i' := by
  induction items generalizing draws n with
  | nil => exact absurd h (by simp)
  | cons first rest ih =>
    rw [signChanged]
    by_cases hsame : sameObject first.userid user.id = true
    · rw [if_pos hsame]
      by_cases hdraw : Int.gcd (draws 0).val ((P : ℤ) - 1) = 1
      · obtain ⟨σ, hσ, hok⟩ := signe_ok hash z user first hdraw
        rw [hok]
        cases n with
        | zero =>
          obtain rfl := Option.some.inj h
          refine ⟨_, rfl, .signed σ hsame (fun m hm => ?_) hσ⟩
          obtain rfl := Nat.le_zero.mp hm
          exact hdraw
        | succ n =>
          obtain ⟨i', hi', hafter⟩ := ih (fun m => draws (m + 1)) (n := n) h
          refine ⟨i', hi', ?_⟩
          rw [before_cons, if_pos hsame]
          exact hafter.succ hdraw
      · -- the loop ends here
        obtain ⟨exception, herror⟩ := signe_error hash z user first hdraw
        rw [herror]
        exact ⟨i, h, .same fun hnot => hdraw (hnot.2 0 (Nat.zero_le _))⟩
    · rw [if_neg hsame]
      cases n with
      | zero =>
        obtain rfl := Option.some.inj h
        exact ⟨_, rfl, .same fun hnot => hsame hnot.1⟩
      | succ n =>
        obtain ⟨i', hi', hafter⟩ := ih draws (n := n) h
        refine ⟨i', hi', ?_⟩
        rw [before_cons, if_neg hsame]
        exact hafter

/-! ### Whose items are signed -/

def Owns (user : Owner) (i : LoadedItem) : Prop :=
  (∃ a b, i.userid = some a ∧ user.id = some b ∧ a.value = b.value) ∧
    i.item.pbkey = some user.keys.y

variable (hash z) in
def Accepted (i : LoadedItem) : Prop :=
  i.item.signature ≠ none ∧
    (i.item.parser none).checkSignature hash z = some i.item.entity

variable (hash z) in
/-- **The changed items of the user are signed again.** -/
def Resigned (user : Owner) (draws : ℕ → Draw) (items : List LoadedItem) : Prop :=
  ∀ (n : ℕ) (i i' : LoadedItem), items[n]? = some i →
    (signChanged hash z user draws items).2[n]? = some i' → Owns user i → Accepted hash z i'

theorem item_fields (i : Item) : i.entity.signedFields = [("signature", Item.annotation)] :=
  Shared.signedFields_entity (.item i)

theorem check_item {i : Item} {y : ℤ} (hkey : i.pbkey = some y) (σ : ElGamalSignature) :
    { i with signature := some σ }.entity.check hash z ("signature", Item.annotation) =
      verify hash ⟨some y, none⟩ (i.entity.signedBytes z Item.annotation) σ := by
  obtain ⟨title, description, createdAt, pbkey, username, userid, signature⟩ := i
  obtain rfl : pbkey = some y := hkey
  rfl

theorem checkSignature_iff (i : Item) : (i.parser none).checkSignature hash z = some i.entity ↔
    i.entity.check hash z ("signature", Item.annotation) ≠ .ok false := by
  have hparser : (i.parser none).entity = i.entity := rfl
  rcases (i.parser none).checkSignature_cases hash z with ⟨heq, hall⟩ | ⟨heq, f, hf, hfalse⟩
  · rw [hparser, item_fields] at hall
    exact iff_of_true heq (hall _ (List.mem_singleton_self _))
  · rw [hparser, item_fields, List.mem_singleton] at hf
    rw [heq, ← hf]
    exact iff_of_false (by simp) fun h => h hfalse

theorem accepted_of_signed {i : LoadedItem} {draw : Draw} {σ : ElGamalSignature}
    (howns : Owns user i) (hσ : sign hash ⟨none, some user.keys.x⟩
      (i.item.entity.signedBytes z Item.annotation) draw = .ok σ) :
    Accepted hash z { i with item := { i.item with signature := some σ } } := by
  refine ⟨by simp, (checkSignature_iff _).mpr ?_⟩
  have hverify := (verify_sign user.keys.fits hσ).trans (congrArg Except.ok (decide_eq_true rfl))
  rw [check_item howns.2, hverify]
  simp

/-- **Which changed items are signed again**: those that hold the object that the user holds, up to
the first number without an inverse, and those with a signature that was accepted before. -/
theorem resigned_iff (hash : List UInt8 → Digest) (z : Date.TimeZone) (user : Owner)
    (draws : ℕ → Draw) (items : List LoadedItem) :
    Resigned hash z user draws items ↔ ∀ n i, items[n]? = some i → Owns user i →
      (sameObject i.userid user.id = true ∧ Invertible draws (before user items n)) ∨
      Accepted hash z i := by
  constructor
  · intro h n i hi howns
    obtain ⟨i', hi', hafter⟩ := signChanged_after hash z user draws hi
    have haccepted := h n i i' hi hi' howns
    cases hafter with
    | signed σ hsame hdraws hσ => exact Or.inl ⟨hsame, hdraws⟩
    | same hnot => exact Or.inr haccepted
  · intro h n i i' hi hi' howns
    obtain ⟨i'', hi'', hafter⟩ := signChanged_after hash z user draws hi
    obtain rfl := Option.some.inj (hi'.symm.trans hi'')
    cases hafter with
    | signed σ hsame hdraws hσ => exact accepted_of_signed howns hσ
    | same hnot => exact (h n i hi howns).resolve_left hnot

end

/-! ### An item from another manager -/

/-- The user and the item have two strings with one character. -/
def sampleOwner : Owner := ⟨some ⟨0, "1"⟩, sampleKey⟩

def editedItem : LoadedItem :=
  ⟨{ datedItem 0 with signature := some ⟨some 1, some 1⟩ }, some ⟨1, "1"⟩, rfl⟩

/-- The signature is the old one, and it does not fit. -/
theorem edited_not_resigned :
    ¬ Resigned sha256 .utc sampleOwner (fun _ => sampleDraw) [editedItem] := by
  intro h
  have howns : Owns sampleOwner editedItem := ⟨⟨_, _, rfl, rfl, rfl⟩, rfl⟩
  have haccepted := (h 0 editedItem editedItem rfl rfl howns).2
  have hcheck : editedItem.item.entity.check sha256 .utc ("signature", Item.annotation) =
      verify sha256 ⟨some sampleKey.y, none⟩
        ((datedItem 0).entity.signedBytes .utc Item.annotation) ⟨some 1, some 1⟩ :=
    check_item rfl _
  rw [datedItem_signedBytes] at hcheck
  exact (checkSignature_iff _).mp haccepted (hcheck.trans (by decide +kernel))

end SXP.Controller
