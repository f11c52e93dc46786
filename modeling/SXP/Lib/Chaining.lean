import Mathlib.Data.List.OfFn
import Mathlib.Data.List.GetD
import Mathlib.Logic.Function.Basic
import Mathlib.Tactic.Cases

/-!
# Block chaining

A cipher of blocks becomes one of lists of blocks: each block is mixed with the code of the one
before it.  A text is cut into blocks of one length, the last of which is filled up.
-/

namespace SXP.Lib.Chaining

/-! ### Chains -/

section

variable {β : Type*} (mix : β → β → β)

/-- The codes of the blocks, after the code `previous`. -/
def encode (e : β → β) : β → List β → List β
  | _, [] => []
  | previous, b :: bs => e (mix previous b) :: encode e (e (mix previous b)) bs

def decode (d : β → β) (previous : β) (cs : List β) : List β :=
  List.zipWith (fun c' c => mix (d c) c') (previous :: cs) cs

theorem length_encode (e : β → β) (previous : β) (bs : List β) :
    (encode mix e previous bs).length = bs.length := by
  induction bs generalizing previous with
  | nil => rfl
  | cons b bs ih => rw [encode, List.length_cons, List.length_cons, ih]

/-- **A chain can be read back** when the cipher can, and mixing twice changes nothing. -/
theorem decode_encode {e d : β → β} (hd : Function.LeftInverse d e)
    (hmix : ∀ a b, mix (mix a b) a = b) (previous : β) (bs : List β) :
    decode mix d previous (encode mix e previous bs) = bs := by
  induction bs generalizing previous with
  | nil => rfl
  | cons b bs ih =>
    have hrest := ih (e (mix previous b))
    rw [decode] at hrest ⊢
    rw [encode, List.zipWith_cons_cons, hrest, hd, hmix]

end

/-! ### Blocks -/

section

variable {α : Type*} {n : ℕ} (pad : α)

/-- The block with the number `i`; what is missing is filled up. -/
def getBlock (n i : ℕ) (l : List α) : Fin n → α := fun k => l.getD (i * n + k) pad

def join (bs : List (Fin n → α)) : List α := bs.flatMap List.ofFn

theorem length_join (bs : List (Fin n → α)) : (join bs).length = bs.length * n := by
  simp only [join, List.length_flatMap, List.length_ofFn, List.map_const', List.sum_replicate_nat]

theorem getBlock_join (bs : List (Fin n → α)) (rest : List α) {i : ℕ} (hi : i < bs.length) :
    getBlock pad n i (join bs ++ rest) = bs[i] := by
  induction bs generalizing i with
  | nil => exact absurd hi (Nat.not_lt_zero i)
  | cons b bs ih =>
    funext k
    rw [join, List.flatMap_cons, List.append_assoc, getBlock]
    cases i with
    | zero =>
      rw [Nat.zero_mul, Nat.zero_add, List.getD_append _ _ _ _ (by simp)]
      simp
    | succ i =>
      have hle : n ≤ (i + 1) * n + k := by
        rw [Nat.succ_mul]
        omega
      rw [List.getD_append_right _ _ _ _ (by simpa using hle), List.length_ofFn,
        show (i + 1) * n + k - n = i * n + k by rw [Nat.succ_mul]; omega]
      exact congrFun (ih (Nat.lt_of_succ_lt_succ hi)) k

/-- **A text is made of its blocks**, up to what was filled in. -/
theorem take_join_getBlock (l : List α) {m : ℕ} (hm : l.length ≤ m * n) :
    (join ((List.range m).map fun i => getBlock pad n i l)).take l.length = l := by
  have hlength : (join ((List.range m).map fun i => getBlock pad n i l)).length = m * n := by
    rw [length_join, List.length_map, List.length_range]
  refine List.ext_getElem (by rw [List.length_take, hlength]; omega) fun k hk hk' => ?_
  have hn : 0 < n := by
    by_contra hn
    rw [Nat.eq_zero_of_not_pos hn, Nat.mul_zero] at hm
    omega
  have hdiv : k / n < m := Nat.div_lt_of_lt_mul (by rw [Nat.mul_comm]; omega)
  -- the entry is in the block `k / n`
  have hblock := congrFun (getBlock_join pad ((List.range m).map fun i => getBlock pad n i l) []
    (i := k / n) (by simpa using hdiv)) ⟨k % n, Nat.mod_lt k hn⟩
  rw [List.append_nil, getBlock, Nat.div_add_mod'] at hblock
  rw [List.getElem_take, ← List.getD_eq_getElem _ pad, hblock]
  simp only [List.getElem_map, List.getElem_range, getBlock, Nat.div_add_mod']
  exact List.getD_eq_getElem _ _ _

end

/-- **What is decoded of joined codes**, block by block. -/
theorem decode_getBlock {α : Type*} {n : ℕ} (pad : α)
    (mix : (Fin n → α) → (Fin n → α) → Fin n → α) (d : (Fin n → α) → Fin n → α)
    (previous : Fin n → α) (cs : List (Fin n → α)) (rest : List α) :
    ((List.range cs.length).map fun i =>
      mix (d (getBlock pad n (i + 1) (join (previous :: cs) ++ rest)))
        (getBlock pad n i (join (previous :: cs) ++ rest))) = decode mix d previous cs := by
  refine List.ext_getElem (by simp [decode]) fun i hi hi' => ?_
  rw [List.length_map, List.length_range] at hi
  rw [List.getElem_map, List.getElem_range, getBlock_join _ _ _ (by simp; omega),
    getBlock_join _ _ _ (by simp; omega)]
  simp [decode]

end SXP.Lib.Chaining
