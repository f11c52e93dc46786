import SXP.Lib.BigInteger
import Mathlib.Data.List.DropRight

/-!
# Strings, bytes and decimal numerals

Strings become bytes and bytes become strings in the default charset, UTF-8:
`getBytes` encodes, `newString` decodes and replaces what is malformed.
Decoding inverts encoding (`newString_getBytes`), and a decimal numeral
is one byte a digit, so the number its bytes spell can be bounded from both
sides (`ofBytes_digits`).
-/

namespace SXP.Lib.Text

open Java BigInteger

/-! ### The charset -/

def getBytes (s : String) : List UInt8 := s.toList.flatMap String.utf8EncodeChar

/-- The byte may continue a sequence whose first byte is `lead`, as its second byte.  That of a
surrogate may: such a sequence is read to its end. -/
def secondByteOk (lead b : UInt8) : Bool :=
  if lead = 0xE0 then 0xA0 ≤ b && b ≤ 0xBF
  else if lead = 0xF0 then 0x90 ≤ b && b ≤ 0xBF
  else if lead = 0xF4 then 0x80 ≤ b && b ≤ 0x8F
  else 0x80 ≤ b && b ≤ 0xBF

/-- The number of continuation bytes the leading byte announces; none for a
byte that cannot lead. -/
def announced (lead : UInt8) : Option ℕ :=
  if lead < 0x80 then some 0
  else if 0xC2 ≤ lead && lead ≤ 0xDF then some 1
  else if 0xE0 ≤ lead && lead ≤ 0xEF then some 2
  else if 0xF0 ≤ lead && lead ≤ 0xF4 then some 3
  else none

/-- The continuation bytes that are there, at most `n` of them. -/
def continuation (lead : UInt8) : ℕ → List UInt8 → List UInt8
  | 0, _ => []
  | _ + 1, [] => []
  | n + 1, b :: bs =>
      if secondByteOk lead b then b :: (bs.takeWhile (fun c => 0x80 ≤ c && c ≤ 0xBF)).take n else []

/-- The character a complete sequence encodes; a surrogate is none. -/
def assemble (lead : UInt8) (cs : List UInt8) : Char :=
  let keep := match cs.length with
    | 0 => lead.toNat
    | 1 => lead.toNat % 32
    | 2 => lead.toNat % 16
    | _ => lead.toNat % 8
  let n := cs.foldl (fun n c => 64 * n + c.toNat % 64) keep
  if n.isValidChar then Char.ofNat n else '\uFFFD'

/-- Decoding with replacement: the longest prefix of a sequence that breaks
off becomes one replacement character. -/
def decodeReplacing : ℕ → List UInt8 → List Char
  | 0, _ => []
  | _ + 1, [] => []
  | fuel + 1, lead :: bs =>
      match announced lead with
      | none => '\uFFFD' :: decodeReplacing fuel bs
      | some n =>
          let cs := continuation lead n bs
          (if cs.length = n then assemble lead cs else '\uFFFD')
            :: decodeReplacing fuel (bs.drop cs.length)

/-- `new String(bytes)`. -/
def newString (bytes : List UInt8) : String :=
  match String.fromUTF8? bytes.toByteArray with
  | some s => s
  | none => String.ofList (decodeReplacing bytes.length bytes)

/-- A surrogate in three bytes is one replacement character; bytes that break off are one as far
as they go. -/
example : newString [0xED, 0xA0, 0x80] = "\uFFFD" ∧ newString [0xED, 0xA0, 0x41] = "\uFFFDA" ∧
    newString [0xE0, 0x80, 0x80] = "\uFFFD\uFFFD\uFFFD" ∧
    newString [0xF0, 0x9F, 0x98] = "\uFFFD" := by decide +kernel

theorem toByteArray_getBytes (s : String) : (getBytes s).toByteArray = s.toByteArray := by
  rw [← String.utf8Encode_toList]
  rfl

/-- **Decoding inverts encoding.** -/
@[simp] theorem newString_getBytes (s : String) : newString (getBytes s) = s := by
  have h : String.fromUTF8? (getBytes s).toByteArray = some s := by
    rw [toByteArray_getBytes, String.fromUTF8?, dif_pos s.isValidUTF8]
    rfl
  rw [newString, h]

@[simp] theorem getBytes_append (s t : String) : getBytes (s ++ t) = getBytes s ++ getBytes t := by
  rw [getBytes, String.toList_append, List.flatMap_append]
  rfl

theorem getBytes_injective : Function.Injective getBytes :=
  Function.LeftInverse.injective newString_getBytes

/-- **Texts of the same lengths can be told apart in a row.** -/
theorem join_inj {l l' : List String} (hlen : l.map String.length = l'.map String.length) :
    String.join l = String.join l' ↔ l = l' := by
  have hflat : ∀ l : List String, (String.join l).toList = (l.map String.toList).flatten :=
    fun l => by rw [String.toList_join, List.flatMap_def]
  have hlength : ∀ l : List String, (l.map String.toList).map List.length = l.map String.length :=
    fun l => by simp [String.length_toList]
  constructor
  · intro h
    have hlists : l.map String.toList = l'.map String.toList := by
      refine List.eq_iff_flatten_eq.mpr ⟨?_, by rw [hlength, hlength, hlen]⟩
      rw [← hflat, ← hflat, h]
    exact (List.map_injective_iff.mpr fun _ _ => String.toList_inj.mp) hlists
  · rintro rfl
    rfl

/-- Texts of the same lengths can be told apart in front of another one. -/
theorem join_append_inj {l l' : List String} (hlen : l.map String.length = l'.map String.length)
    {s s' : String} : String.join l ++ s = String.join l' ++ s' ↔ l = l' ∧ s = s' := by
  constructor
  · intro h
    have hlist := congrArg String.toList h
    rw [String.toList_append, String.toList_append] at hlist
    have hlength : ∀ l : List String,
        (String.join l).toList.length = (l.map String.length).sum := by
      intro l
      rw [String.toList_join, List.length_flatMap]
      simp only [String.length_toList]
    obtain ⟨hjoin, hs⟩ := List.append_inj hlist (by rw [hlength, hlength, hlen])
    exact ⟨(join_inj hlen).mp (String.toList_inj.mp hjoin), String.toList_inj.mp hs⟩
  · rintro ⟨rfl, rfl⟩
    rfl

theorem append_cons_inj {α : Type*} {a : α} {x x' y y' : List α} (hy : a ∉ y) (hy' : a ∉ y') :
    x ++ a :: y = x' ++ a :: y' ↔ x = x' ∧ y = y' := by
  constructor
  · intro h
    rcases List.append_eq_append_iff.mp h with ⟨u, rfl, hu⟩ | ⟨u, rfl, hu⟩
    · cases u with
      | nil => exact ⟨(List.append_nil _).symm, (List.cons.inj hu).2⟩
      | cons b u =>
        obtain ⟨rfl, rfl⟩ := List.cons.inj hu
        exact absurd (List.mem_append_right _ List.mem_cons_self) hy
    · cases u with
      | nil => exact ⟨List.append_nil _, (List.cons.inj hu).2.symm⟩
      | cons b u =>
        obtain ⟨rfl, rfl⟩ := List.cons.inj hu
        exact absurd (List.mem_append_right _ List.mem_cons_self) hy'
  · rintro ⟨rfl, rfl⟩
    rfl

/-! ### Parts between separators -/

theorem separator_notMem {α : Type*} {p : α → Bool} {l part : List α} (h : part ∈ l.splitOnP p) :
    ∀ a ∈ part, p a = false := by
  induction l generalizing part with
  | nil =>
    rw [List.splitOnP_nil, List.mem_singleton] at h
    rw [h]
    exact fun a ha => absurd ha List.not_mem_nil
  | cons b l ih =>
    rw [List.splitOnP_cons_eq_if_modifyHead] at h
    split at h
    · rcases List.mem_cons.mp h with rfl | h
      · exact fun a ha => absurd ha List.not_mem_nil
      · exact ih h
    · rename_i hb
      cases hparts : l.splitOnP p with
      | nil => exact absurd hparts (List.splitOnP_ne_nil p l)
      | cons first rest =>
        rw [hparts] at h ih
        rcases List.mem_cons.mp h with rfl | h
        · exact List.forall_mem_cons.mpr ⟨Bool.not_eq_true _ ▸ hb, ih List.mem_cons_self⟩
        · exact ih (List.mem_cons_of_mem _ h)

/-- **What is joined is split again** where no part has a separator. -/
theorem splitOnP_intercalate {α : Type*} {p : α → Bool} {sep : α} (hsep : p sep = true)
    {parts : List (List α)} (hne : parts ≠ []) (h : ∀ part ∈ parts, ∀ a ∈ part, p a = false) :
    ([sep].intercalate parts).splitOnP p = parts := by
  induction parts with
  | nil => exact absurd rfl hne
  | cons part parts ih =>
    obtain ⟨hpart, hparts⟩ := List.forall_mem_cons.mp h
    cases parts with
    | nil =>
      rw [List.intercalate_singleton]
      exact List.splitOnP_eq_singleton hpart
    | cons next parts =>
      rw [List.intercalate_cons_cons, List.append_assoc, List.singleton_append,
        List.splitOnP_append_cons_of_forall_mem hpart sep hsep, ih (List.cons_ne_nil _ _) hparts]

/-- `s.split(sep)`: empty parts at the end are dropped, and a text without the separator is
its only part. -/
def split (sep : Char) (s : String) : List String :=
  if sep ∈ s.toList then
    ((s.toList.splitOnP (· == sep)).rdropWhile List.isEmpty).map String.ofList
  else [s]

/-- **What is joined is split again** where the last part is not empty. -/
theorem split_intercalate {sep : Char} {parts : List (List Char)} {last : List Char}
    (hlast : last ≠ []) (h : ∀ part ∈ parts ++ [last], sep ∉ part) :
    split sep (String.ofList ([sep].intercalate (parts ++ [last]))) =
      (parts ++ [last]).map String.ofList := by
  have hsplit : ([sep].intercalate (parts ++ [last])).splitOnP (· == sep) = parts ++ [last] := by
    have hparts : parts ++ [last] ≠ [] := by simp
    have hclean : ∀ part ∈ parts ++ [last], ∀ c ∈ part, (fun x => x == sep) c = false := by
      intro part hpart c hc
      exact beq_eq_false_iff_ne.mpr fun heq => h part hpart (heq ▸ hc)
    exact splitOnP_intercalate (p := fun x => x == sep) (beq_self_eq_true sep) hparts hclean
  unfold split
  rw [String.toList_ofList, hsplit]
  split
  · have hne : ¬ last.isEmpty = true := by simpa using hlast
    rw [List.rdropWhile_concat_neg _ _ _ hne]
  · rename_i hnone
    rcases parts with _ | ⟨part, parts⟩
    · rw [List.nil_append, List.intercalate_singleton]
      rfl
    · refine absurd ?_ hnone
      rw [List.cons_append, List.intercalate_cons_of_ne_nil (by simp)]
      simp

/-- A reference to a text as it is printed. -/
def valueOf : Option String → String
  | none => "null"
  | some s => s

/-! ### Decimal numerals -/

/-- `n.toString()`. -/
def decimal (n : ℤ) : String := toString n

/-- `s.substring(0, n)`. -/
def substring (s : String) (n : ℕ) : Java String :=
  if s.length < n then throw .stringIndexOutOfBounds else pure (String.ofList (s.toList.take n))

theorem decimal_toList {n : ℤ} (h : 0 ≤ n) : (decimal n).toList = Nat.toDigits 10 n.toNat := by
  rw [decimal, Int.toString_eq_repr, Int.repr_eq_if, if_pos h, Nat.repr_eq_ofList_toDigits,
    String.toList_ofList]

theorem decimal_toList_neg {n : ℤ} (h : n < 0) :
    (decimal n).toList = '-' :: Nat.toDigits 10 (-n).toNat := by
  rw [decimal, Int.toString_eq_repr, Int.repr_eq_if, if_neg (not_le.mpr h), String.toList_append,
    Nat.repr_eq_ofList_toDigits, String.toList_ofList, String.toList_ofList]
  rfl

theorem toDigits_injective : Function.Injective (Nat.toDigits 10) := by
  have h : Function.LeftInverse (fun l => Nat.ofDigitChars 10 l 0) (Nat.toDigits 10) :=
    fun _ => Nat.ofDigitChars_ten_toDigits
  exact h.injective

theorem toDigits_ne_sign {m : ℕ} {l : List Char} : Nat.toDigits 10 m ≠ '-' :: l := by
  intro h
  have hdigit := Nat.isDigit_of_mem_toDigits (n := m) (by decide) (by decide)
    (h ▸ List.mem_cons_self)
  exact absurd hdigit (by decide)

/-- **A numeral spells one number.** -/
theorem decimal_injective : Function.Injective decimal := by
  intro n m h
  have hlist := congrArg String.toList h
  rcases le_or_gt 0 n with hn | hn <;> rcases le_or_gt 0 m with hm | hm
  · rw [decimal_toList hn, decimal_toList hm] at hlist
    have := toDigits_injective hlist
    omega
  · rw [decimal_toList hn, decimal_toList_neg hm] at hlist
    exact absurd hlist toDigits_ne_sign
  · rw [decimal_toList_neg hn, decimal_toList hm] at hlist
    exact absurd hlist.symm toDigits_ne_sign
  · rw [decimal_toList_neg hn, decimal_toList_neg hm] at hlist
    have := toDigits_injective (List.cons.inj hlist).2
    omega

theorem mem_decimal {n : ℤ} {c : Char} (h : c ∈ (decimal n).toList) :
    c.isDigit = true ∨ c = '-' := by
  have hdigit : ∀ m : ℕ, c ∈ Nat.toDigits 10 m → c.isDigit = true :=
    fun m hm => Nat.isDigit_of_mem_toDigits (by decide) (by decide) hm
  rcases le_or_gt 0 n with h0 | h0
  · rw [decimal_toList h0] at h
    exact Or.inl (hdigit _ h)
  · rw [decimal_toList_neg h0] at h
    rcases List.mem_cons.mp h with h | h
    · exact Or.inr h
    · exact Or.inl (hdigit _ h)

theorem space_notMem_decimal (n : ℤ) : ' ' ∉ (decimal n).toList := by
  intro h
  rcases mem_decimal h with h | h <;> exact absurd h (by decide)

theorem decimal_ne_null (n : ℤ) : decimal n ≠ "null" := by
  intro h
  have hn : 'n' ∈ (decimal n).toList := by
    rw [h]
    decide
  rcases mem_decimal hn with h | h <;> exact absurd h (by decide)

theorem length_decimal {n : ℤ} (h : 0 ≤ n) : (decimal n).length = (Nat.toDigits 10 n.toNat).length := by
  rw [← String.length_toList, decimal_toList h]

/-- A number has more than `k` digits when it is at least `10 ^ k`. -/
theorem lt_length_decimal_iff {n : ℤ} {k : ℕ} (hn : 0 ≤ n) (hk : 0 < k) :
    k < (decimal n).length ↔ 10 ^ k ≤ n := by
  have hle := Nat.length_toDigits_le_iff (n := n.toNat) (by decide : 1 < 10) hk
  have hc : ((10 ^ k : ℕ) : ℤ) = 10 ^ k := by push_cast; rfl
  rw [length_decimal hn]
  constructor
  · intro h
    by_contra hlt
    have := hle.mpr (by omega)
    omega
  · intro h
    by_contra hlt
    have := hle.mp (by omega)
    omega

theorem encode_ascii {c : Char} (h : c.toNat < 128) : String.utf8EncodeChar c = [c.val.toUInt8] := by
  have h1 : c.utf8Size = 1 := by
    rw [Char.utf8Size_eq_one_iff, UInt32.le_iff_toNat_le]
    exact Nat.le_of_lt_succ h
  rw [String.utf8EncodeChar_eq_singleton h1]

theorem encode_digit {c : Char} (h : c.isDigit) : String.utf8EncodeChar c = [c.val.toUInt8] := by
  have hc := (Char.isDigit_iff_toNat).mp h
  have h2 : c.toNat ≤ 57 := hc.2
  exact encode_ascii (by omega)

/-- A text that begins with an ASCII character spells a number without sign. -/
theorem ofBytes_ascii {c : Char} (h : c.toNat < 128) (l : List Char) :
    ∃ n : ℕ, ofBytes (getBytes (String.ofList (c :: l))) = .ok n := by
  rw [getBytes, String.toList_ofList, List.flatMap_cons, encode_ascii h, List.singleton_append]
  have hb : c.val.toUInt8.toNat < 128 := by
    have h' : c.val.toNat < 128 := h
    rw [UInt32.toNat_toUInt8, Nat.mod_eq_of_lt (by omega)]
    exact h'
  exact ⟨_, ofBytes_cons hb _⟩

theorem decimal_ascii {n : ℤ} {c : Char} {l : List Char} (h : (decimal n).toList = c :: l) :
    c.toNat < 128 := by
  have hdigit : ∀ {m : ℕ} {d : Char}, d ∈ Nat.toDigits 10 m → d.toNat < 128 := by
    intro m d hd
    have hc := (Char.isDigit_iff_toNat).mp (Nat.isDigit_of_mem_toDigits (by decide) (by decide) hd)
    have h2 : d.toNat ≤ 57 := hc.2
    omega
  by_cases h0 : 0 ≤ n
  · rw [decimal_toList h0] at h
    exact hdigit (h ▸ List.mem_cons_self)
  · rw [decimal, Int.toString_eq_repr, Int.repr_eq_if, if_neg h0, String.toList_append] at h
    obtain ⟨rfl, -⟩ := List.cons.inj h
    decide

theorem digit_byte {c : Char} (h : c.isDigit) :
    48 ≤ c.val.toUInt8.toNat ∧ c.val.toUInt8.toNat < 58 := by
  have hc := (Char.isDigit_iff_toNat).mp h
  have h1 : 48 ≤ c.val.toNat := hc.1
  have h2 : c.val.toNat ≤ 57 := hc.2
  rw [UInt32.toNat_toUInt8, Nat.mod_eq_of_lt (by omega)]
  omega

theorem getBytes_digits {l : List Char} (h : ∀ c ∈ l, c.isDigit) :
    getBytes (String.ofList l) = l.map (fun c => c.val.toUInt8) := by
  rw [getBytes, String.toList_ofList]
  induction l with
  | nil => rfl
  | cons c r ih =>
    rw [List.flatMap_cons, encode_digit (h c List.mem_cons_self),
      ih (fun d hd => h d (List.mem_cons_of_mem c hd))]
    rfl

/-- **The number a run of digits spells as bytes** is positive and has as many
bytes as there are digits, the first of them at least `48`. -/
theorem ofBytes_digits {l : List Char} (h : ∀ c ∈ l, c.isDigit) (hl : l ≠ []) :
    ∃ n : ℕ, ofBytes (getBytes (String.ofList l)) = .ok n ∧
      magnitude (getBytes (String.ofList l)) = n ∧
      48 * 256 ^ (l.length - 1) ≤ n ∧ n < 256 ^ l.length := by
  obtain ⟨c, r, rfl⟩ := List.exists_cons_of_ne_nil hl
  have hc := digit_byte (h c List.mem_cons_self)
  rw [getBytes_digits h, List.map_cons]
  refine ⟨magnitude (c.val.toUInt8 :: r.map (fun c => c.val.toUInt8)), ?_, rfl, ?_, ?_⟩
  · exact ofBytes_cons (by omega) _
  · have := le_magnitude_cons c.val.toUInt8 (r.map (fun c => c.val.toUInt8))
    rw [List.length_map] at this
    rw [List.length_cons, Nat.add_sub_cancel]
    exact le_trans (Nat.mul_le_mul_right _ hc.1) this
  · have := magnitude_lt (c.val.toUInt8 :: r.map (fun c => c.val.toUInt8))
    rwa [List.length_cons, List.length_map, ← List.length_cons (a := c)] at this

end SXP.Lib.Text
