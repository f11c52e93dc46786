import SXP.Lib.Text

/-!
# Hexadecimal texts

Bytes are written with two digits each, numbers with as many as they need.  A text of bytes is
twice as long as they are, so only the empty text is its own (`bytesToHex_getBytes_iff`).
-/

namespace SXP.Lib.Hex

open SXP.Lib.Text

/-! ### Bytes -/

def hexArray : List Char := "0123456789ABCDEF".toList

def hexDigit (v : ℕ) : Char := hexArray.getD v '0'

def bytesToHex (bytes : List UInt8) : String :=
  String.ofList (bytes.flatMap fun b => [hexDigit (b.toNat / 16), hexDigit (b.toNat % 16)])

theorem length_bytesToHex (bytes : List UInt8) :
    (bytesToHex bytes).length = 2 * bytes.length := by
  rw [bytesToHex, String.length_ofList]
  induction bytes with
  | nil => rfl
  | cons b rest ih =>
    rw [List.flatMap_cons, List.length_append, ih, List.length_cons, List.length_cons,
      List.length_cons, List.length_nil]
    omega

theorem hexDigit_mem (v : ℕ) : hexDigit v ∈ hexArray := by
  rw [hexDigit, List.getD_eq_getElem?_getD]
  cases h : hexArray[v]? with
  | none => exact List.mem_cons_self
  | some c => exact List.mem_of_getElem? h

theorem mem_hexArray {bytes : List UInt8} {c : Char} (h : c ∈ (bytesToHex bytes).toList) :
    c ∈ hexArray := by
  rw [bytesToHex, String.toList_ofList, List.mem_flatMap] at h
  obtain ⟨b, -, hc⟩ := h
  rcases List.mem_cons.mp hc with rfl | hc
  · exact hexDigit_mem _
  · exact List.mem_singleton.mp hc ▸ hexDigit_mem _

theorem length_le_getBytes (s : String) : s.length ≤ (getBytes s).length := by
  rw [getBytes, ← String.length_toList]
  induction s.toList with
  | nil => simp
  | cons c rest ih =>
    have hpos : 0 < (String.utf8EncodeChar c).length := by
      rw [String.length_utf8EncodeChar]
      exact c.utf8Size_pos
    rw [List.flatMap_cons, List.length_append, List.length_cons]
    omega

/-- **Only the empty text is the hexadecimal text of its bytes.** -/
theorem bytesToHex_getBytes_iff {s : String} : bytesToHex (getBytes s) = s ↔ s = "" := by
  constructor
  · intro h
    have hlength := length_bytesToHex (getBytes s)
    have hle := length_le_getBytes s
    rw [h] at hlength
    exact String.length_eq_zero_iff.mp (by omega)
  · rintro rfl
    rfl

/-! ### Numbers -/

/-- `n.toString(16)`. -/
def hexadecimal (n : ℤ) : String :=
  if n < 0 then "-" ++ String.ofList (Nat.toDigits 16 (-n).toNat)
  else String.ofList (Nat.toDigits 16 n.toNat)

theorem digitChar_inj : ∀ {a b : Fin 16}, Nat.digitChar a = Nat.digitChar b → a = b := by
  decide

theorem digitChar_ne : ∀ a : Fin 16, Nat.digitChar a ≠ '-' := by
  decide

theorem digitChar_mod_inj {n m : ℕ} (h : Nat.digitChar (n % 16) = Nat.digitChar (m % 16)) :
    n % 16 = m % 16 :=
  Fin.val_eq_of_eq (digitChar_inj (a := ⟨n % 16, by omega⟩) (b := ⟨m % 16, by omega⟩) h)

theorem toDigits_last (n : ℕ) : ∃ l, Nat.toDigits 16 n = l ++ [Nat.digitChar (n % 16)] ∧
    (l = [] ∧ n < 16 ∨ l = Nat.toDigits 16 (n / 16) ∧ 16 ≤ n) := by
  rw [Nat.toDigits_eq_if (by decide)]
  split
  · next h => exact ⟨[], by rw [Nat.mod_eq_of_lt h]; rfl, Or.inl ⟨rfl, h⟩⟩
  · next h => exact ⟨_, rfl, Or.inr ⟨rfl, not_lt.mp h⟩⟩

theorem toDigits_injective : Function.Injective (Nat.toDigits 16) := by
  intro n
  induction n using Nat.strongRecOn with
  | ind n ih =>
    intro m h
    obtain ⟨l, hl, hcase⟩ := toDigits_last n
    obtain ⟨l', hl', hcase'⟩ := toDigits_last m
    rw [hl, hl'] at h
    obtain ⟨hinit, hlast⟩ := List.append_inj' h rfl
    have hmod := digitChar_mod_inj (List.singleton_inj.mp hlast)
    rcases hcase with ⟨rfl, hn⟩ | ⟨rfl, hn⟩ <;> rcases hcase' with ⟨rfl, hm⟩ | ⟨rfl, hm⟩
    · omega
    · exact absurd hinit.symm Nat.toDigits_ne_nil
    · exact absurd hinit Nat.toDigits_ne_nil
    · have hdiv := ih (n / 16) (by omega) hinit
      omega

theorem toDigits_mem {n : ℕ} {c : Char} (h : c ∈ Nat.toDigits 16 n) : c ≠ '-' := by
  induction n using Nat.strongRecOn with
  | ind n ih =>
    obtain ⟨l, hl, hcase⟩ := toDigits_last n
    rw [hl] at h
    rcases List.mem_append.mp h with hc | hc
    · rcases hcase with ⟨rfl, -⟩ | ⟨rfl, hn⟩
      · exact absurd hc List.not_mem_nil
      · exact ih (n / 16) (by omega) hc
    · rw [List.mem_singleton.mp hc]
      exact digitChar_ne ⟨n % 16, by omega⟩

theorem hexadecimal_toList (n : ℤ) : (hexadecimal n).toList =
    if n < 0 then '-' :: Nat.toDigits 16 (-n).toNat else Nat.toDigits 16 n.toNat := by
  rw [hexadecimal]
  split
  · rw [String.toList_append, String.toList_ofList, String.toList_ofList]
    rfl
  · rw [String.toList_ofList]

/-- **A numeral spells one number.** -/
theorem hexadecimal_injective : Function.Injective hexadecimal := by
  intro n m h
  have hlist := congrArg String.toList h
  rw [hexadecimal_toList, hexadecimal_toList] at hlist
  split at hlist <;> split at hlist
  · have := toDigits_injective (List.cons.inj hlist).2
    omega
  · exact absurd rfl (toDigits_mem (hlist ▸ List.mem_cons_self))
  · exact absurd rfl (toDigits_mem (hlist.symm ▸ List.mem_cons_self))
  · have := toDigits_injective hlist
    omega

end SXP.Lib.Hex
