import Mathlib.Data.List.Basic
import Mathlib.Data.List.Perm.Basic
import SXP.BlockChain.Contract

/-!
# The order of the parties

The check of a deployed contract looks for the first address among the parties, and for the second
one behind the place where the first search ended.  So it says whether the two addresses stand in
this order (`verif_eq_true`).

An address of the chain has a prefix, and what it is compared with has none.  So it is that of no
party, and the order makes no difference (`verif_order`).
-/

namespace SXP.BlockChain.BlockChainContract

open SXP.Lib SXP.Lib.Java SXP.Lib.Hex

/-! ### Two searches with one index -/

theorem pair_sublist_iff {α : Type} {a b : α} {l : List α} :
    [a, b].Sublist l ↔ ∃ i j : ℕ, i < j ∧ l[i]? = some a ∧ l[j]? = some b := by
  have hpairwise : (¬ [a, b].Sublist l) ↔ l.Pairwise fun x y => ¬ (x = a ∧ y = b) := by
    rw [List.pairwise_iff_forall_sublist]
    constructor
    · rintro hnone x y hsub ⟨rfl, rfl⟩
      exact hnone hsub
    · intro h hsub
      exact h hsub ⟨rfl, rfl⟩
  rw [← not_iff_not, hpairwise, List.pairwise_iff_getElem]
  constructor
  · rintro h ⟨i, j, hij, hi, hj⟩
    obtain ⟨hlti, rfl⟩ := List.getElem?_eq_some_iff.mp hi
    obtain ⟨hltj, rfl⟩ := List.getElem?_eq_some_iff.mp hj
    exact h i j hlti hltj hij ⟨rfl, rfl⟩
  · rintro h i j hi hj hij ⟨rfl, rfl⟩
    exact h ⟨i, j, hij, List.getElem?_eq_getElem hi, List.getElem?_eq_getElem hj⟩

/-- The second search starts where the first one ended. -/
def search {α β : Type} [BEq β] (f : α → β) (a b : β) (l : List α) : Bool :=
  match l.dropWhile fun x => f x != a with
  | [] => false
  | _ :: rest => rest.any fun x => f x == b

theorem search_eq_true {α β : Type} [BEq β] [LawfulBEq β] (f : α → β) (a b : β) (l : List α) :
    search f a b l = true ↔ [a, b].Sublist (l.map f) := by
  rw [search]
  induction l with
  | nil => simp
  | cons x l ih =>
    by_cases hx : f x = a
    · rw [List.dropWhile_cons, if_neg (by simpa using hx), List.map_cons, hx,
        List.cons_sublist_cons, List.singleton_sublist]
      simp
    · rw [List.dropWhile_cons, if_pos (by simpa using hx), ih, List.map_cons]
      constructor
      · exact fun h => h.trans (List.sublist_cons_self _ _)
      · intro h
        rcases List.cons_sublist_cons'.mp h with h | ⟨heq, -⟩
        · exact h
        · exact absurd heq.symm hx

/-! ### The check -/

def address (k : EthereumKey) : String := bytesToHex (bigIntegerToBytes k.publicKey)

/-- The address belongs to the party at this place. -/
def Stands (c : BlockChainContract) (i : ℕ) (a : Address) : Prop :=
  (c.parties.map address)[i]? = some a.text

def InOrder (t : Terms) (c : BlockChainContract) : Prop :=
  ∃ i j, i < j ∧ c.Stands i t.addr1 ∧ c.Stands j t.addr2

/-- Both clauses of the deployed contract are clauses here. -/
def HasClauses (t : Terms) (c : BlockChainContract) : Prop :=
  ∃ clauses, c.clauses = some clauses ∧ t.clause1 ∈ clauses ∧ t.clause2 ∈ clauses

/-- The addresses are those of two parties, and both clauses are here. -/
def Agrees (t : Terms) (c : BlockChainContract) : Prop :=
  (∃ i j, i ≠ j ∧ c.Stands i t.addr1 ∧ c.Stands j t.addr2) ∧ c.HasClauses t

theorem inOrder_iff {t : Terms} {c : BlockChainContract} :
    c.InOrder t ↔ [t.addr1.text, t.addr2.text].Sublist (c.parties.map address) :=
  pair_sublist_iff.symm

/-- The answer of the two searches, and of the clauses once the addresses are found. -/
theorem verif_eq (t : Terms) (c : BlockChainContract) :
    c.verif t = if search address t.addr1.text t.addr2.text c.parties then
      nonNull c.clauses >>= fun clauses =>
        pure (clauses.contains t.clause1 && clauses.contains t.clause2)
    else .ok false := by
  unfold verif search address
  dsimp only
  cases c.parties.dropWhile fun k => bytesToHex (bigIntegerToBytes k.publicKey) != t.addr1.text with
  | nil => rfl
  | cons k rest => rfl

theorem verif_of_inOrder {t : Terms} {c : BlockChainContract} (h : c.InOrder t) :
    c.verif t = (nonNull c.clauses >>= fun clauses =>
      pure (clauses.contains t.clause1 && clauses.contains t.clause2)) := by
  have hsearch := (search_eq_true address t.addr1.text t.addr2.text c.parties).mpr (inOrder_iff.mp h)
  rw [verif_eq, if_pos hsearch]

theorem verif_of_not_inOrder {t : Terms} {c : BlockChainContract} (h : ¬ c.InOrder t) :
    c.verif t = .ok false := by
  rw [verif_eq, if_neg]
  exact mt (search_eq_true address t.addr1.text t.addr2.text c.parties).mp (mt inOrder_iff.mpr h)

theorem clauses_eq_true {t : Terms} {c : BlockChainContract} :
    (nonNull c.clauses >>= fun clauses =>
      (pure (clauses.contains t.clause1 && clauses.contains t.clause2) : Java Bool)) = .ok true ↔
      c.HasClauses t := by
  simp only [bind_eq_ok, nonNull_eq_ok, pure_eq, Except.ok.injEq, Bool.and_eq_true,
    List.contains_iff_mem]
  rfl

/-- **What the check says.** -/
theorem verif_eq_true {t : Terms} {c : BlockChainContract} :
    c.verif t = .ok true ↔ c.InOrder t ∧ c.HasClauses t := by
  by_cases h : c.InOrder t
  · rw [verif_of_inOrder h, clauses_eq_true, and_iff_right h]
  · rw [verif_of_not_inOrder h]
    simp [h]

/-! ### Addresses and keys -/

/-- **No address is that of a party**: the prefix is nowhere in the text of a key. -/
theorem address_ne (k : EthereumKey) (a : Address) : address k ≠ a.text := by
  intro h
  obtain ⟨digits, htext, -⟩ := a.form
  have hprefix : 'x' ∈ (address k).toList := by
    rw [h, htext]
    exact List.mem_cons_of_mem _ List.mem_cons_self
  exact absurd (mem_hexArray hprefix) (by decide)

theorem not_stands (c : BlockChainContract) (i : ℕ) (a : Address) : ¬ c.Stands i a := by
  intro h
  obtain ⟨k, -, hk⟩ := List.mem_map.mp (List.mem_of_getElem? h)
  exact address_ne k a hk

theorem not_inOrder (t : Terms) (c : BlockChainContract) : ¬ c.InOrder t :=
  fun ⟨i, _, _, hi, _⟩ => not_stands c i t.addr1 hi

/-- The contract with other parties, or with the same ones in another order. -/
def withParties (c : BlockChainContract) (parties : List EthereumKey) : BlockChainContract :=
  { c with parties := parties }

/-- **The order of the parties** makes no difference: the check says yes when two parties have the
addresses and both clauses are here, which is never so (`address_ne`), and every order gets the same
answer. -/
theorem verif_order (t : Terms) (c : BlockChainContract) :
    (c.verif t = .ok true ↔ c.Agrees t) ∧
      ∀ parties, parties.Perm c.parties → (c.withParties parties).verif t = c.verif t := by
  constructor
  · rw [verif_eq_true]
    constructor
    · exact fun h => absurd h.1 (not_inOrder t c)
    · rintro ⟨⟨i, _, _, hi, _⟩, _⟩
      exact absurd hi (not_stands c i t.addr1)
  · intro parties _
    rw [verif_of_not_inOrder (not_inOrder t _), verif_of_not_inOrder (not_inOrder t c)]

end SXP.BlockChain.BlockChainContract
