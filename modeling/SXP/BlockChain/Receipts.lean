import SXP.BlockChain.Contract

/-!
# Waiting for a receipt

The receipt of a transaction is asked for once, and then again as long as there is none and
attempts are left.  The test of the loop takes an attempt also when it ends the loop, and after the
loop a counter that is used up counts as a failure: a receipt that comes with the last attempt or
with the one before is thrown away.

`awaitReceipt_eq_ok` says what the counter is after the loop, and `prompt_iff` which sequences of
polls are answered as they should be.
-/

namespace SXP.BlockChain

open SXP.Lib SXP.Lib.Java

namespace EthereumTransactionUtils

/-- What the polls come to, one after the other, each with the sleep in front of it. -/
abbrev Polls : Type := ℕ → Java (Option TransactionReceipt)

def Polls.rest (polls : Polls) : Polls := fun k => polls (k + 1)

/-- `EthereumConstants.CONFIRMATION_ATTEMPTS`. -/
def confirmationAttempts : ℕ := 40

/-- The loop: the counter behind it, and the last receipt. -/
def awaitReceipt (polls : Polls) : ℕ → Option TransactionReceipt →
    Java (ℤ × Option TransactionReceipt)
  | 0, receipt => pure (-1, receipt)
  | attempts + 1, receipt =>
      if receipt.isSome then pure (attempts, receipt)
      else do
        let receipt ← polls 0
        awaitReceipt polls.rest attempts receipt

def waitForReceipt (attempts : ℕ) (polls : Polls) : Java TransactionReceipt := do
  let receipt ← polls 0
  let (attempts, receipt) ← awaitReceipt polls.rest attempts receipt
  if attempts ≤ 0 then throw (.runtime "No Tx receipt received")
  else
    match receipt with
    | some receipt => pure receipt
    | none => throw (.runtime "No value present")

def FirstReceipt (polls : Polls) (k : ℕ) (receipt : TransactionReceipt) : Prop :=
  (∀ j < k, polls j = .ok none) ∧ polls k = .ok (some receipt)

/-- The first receipt of the `attempts + 1` polls is returned, and nothing else; and an exception
means that there is none. -/
structure Prompt (attempts : ℕ) (polls : Polls) : Prop where
  returned : ∀ receipt, waitForReceipt attempts polls = .ok receipt ↔
    ∃ k ≤ attempts, FirstReceipt polls k receipt
  thrown : ∀ e, waitForReceipt attempts polls = .error e →
    ∀ k ≤ attempts, ∀ receipt, ¬ FirstReceipt polls k receipt

variable {polls : Polls} {attempts k : ℕ} {receipt : TransactionReceipt}

/-! ### The first receipt -/

theorem firstReceipt_zero : FirstReceipt polls 0 receipt ↔ polls 0 = .ok (some receipt) :=
  ⟨And.right, fun h => ⟨fun j hj => absurd hj (Nat.not_lt_zero j), h⟩⟩

theorem firstReceipt_succ : FirstReceipt polls (k + 1) receipt ↔
    polls 0 = .ok none ∧ FirstReceipt polls.rest k receipt := by
  constructor
  · rintro ⟨hnone, hsome⟩
    exact ⟨hnone 0 (Nat.succ_pos k), fun j hj => hnone (j + 1) (Nat.succ_lt_succ hj), hsome⟩
  · rintro ⟨hfirst, hnone, hsome⟩
    refine ⟨fun j hj => ?_, hsome⟩
    cases j with
    | zero => exact hfirst
    | succ j => exact hnone j (Nat.lt_of_succ_lt_succ hj)

theorem FirstReceipt.unique {k' : ℕ} {receipt' : TransactionReceipt}
    (h : FirstReceipt polls k receipt) (h' : FirstReceipt polls k' receipt') :
    k = k' ∧ receipt = receipt' := by
  rcases Nat.lt_trichotomy k k' with hlt | rfl | hlt
  · exact absurd (h.2.symm.trans (h'.1 k hlt)) (by simp)
  · exact ⟨rfl, Option.some.inj (Except.ok.inj (h.2.symm.trans h'.2))⟩
  · exact absurd (h'.2.symm.trans (h.1 k' hlt)) (by simp)

/-! ### The loop -/

theorem awaitReceipt_some (polls : Polls) (attempts : ℕ) (receipt : TransactionReceipt) :
    awaitReceipt polls attempts (some receipt) = .ok (attempts - 1, some receipt) := by
  cases attempts with
  | zero => rfl
  | succ attempts =>
    rw [awaitReceipt, Option.isSome_some, if_pos rfl, pure_eq, Nat.cast_succ, add_sub_cancel_right]

/-- **After the loop**: the retry with the receipt has cost an attempt, and so has the test that
ends the loop. -/
theorem awaitReceipt_eq_ok {left : ℤ} :
    awaitReceipt polls attempts none = .ok (left, some receipt) ↔
      ∃ k < attempts, FirstReceipt polls k receipt ∧ left = attempts - k - 2 := by
  induction attempts generalizing polls with
  | zero =>
    rw [awaitReceipt]
    refine iff_of_false (by simp) ?_
    rintro ⟨k, hk, -⟩
    exact absurd hk (Nat.not_lt_zero k)
  | succ attempts ih =>
    have hstep : awaitReceipt polls (attempts + 1) none =
        polls 0 >>= fun receipt => awaitReceipt polls.rest attempts receipt := rfl
    rw [hstep, bind_eq_ok]
    constructor
    · rintro ⟨next, hpoll, hloop⟩
      cases next with
      | some r =>
        rw [awaitReceipt_some, Except.ok.injEq, Prod.mk.injEq] at hloop
        obtain ⟨hleft, hr⟩ := hloop
        exact ⟨0, Nat.succ_pos _, firstReceipt_zero.mpr (hr ▸ hpoll), by omega⟩
      | none =>
        obtain ⟨k, hk, hfirst, hleft⟩ := ih.mp hloop
        exact ⟨k + 1, Nat.succ_lt_succ hk, firstReceipt_succ.mpr ⟨hpoll, hfirst⟩, by omega⟩
    · rintro ⟨k, hk, hfirst, hleft⟩
      cases k with
      | zero =>
        refine ⟨some receipt, firstReceipt_zero.mp hfirst, ?_⟩
        rw [awaitReceipt_some, Except.ok.injEq, Prod.mk.injEq]
        exact ⟨by omega, rfl⟩
      | succ k =>
        obtain ⟨hpoll, hrest⟩ := firstReceipt_succ.mp hfirst
        exact ⟨none, hpoll, ih.mpr ⟨k, Nat.lt_of_succ_lt_succ hk, hrest, by omega⟩⟩

/-! ### The wait -/

/-- **What is returned**: a receipt that leaves at least one attempt when it comes. -/
theorem waitForReceipt_eq_ok : waitForReceipt attempts polls = .ok receipt ↔
    ∃ k, k + 2 ≤ attempts ∧ FirstReceipt polls k receipt := by
  unfold waitForReceipt
  rw [bind_eq_ok]
  constructor
  · rintro ⟨first, hpoll, hrest⟩
    obtain ⟨⟨left, last⟩, hloop, hend⟩ := bind_eq_ok.mp hrest
    dsimp only at hend
    split at hend
    · cases hend
    · rename_i hleft
      cases last with
      | none => cases hend
      | some r =>
        obtain rfl := Except.ok.inj hend
        cases first with
        | some r' =>
          rw [awaitReceipt_some, Except.ok.injEq, Prod.mk.injEq] at hloop
          obtain ⟨rfl, hr⟩ := hloop
          exact ⟨0, by omega, firstReceipt_zero.mpr (hr ▸ hpoll)⟩
        | none =>
          obtain ⟨k, -, hfirst, rfl⟩ := awaitReceipt_eq_ok.mp hloop
          exact ⟨k + 1, by omega, firstReceipt_succ.mpr ⟨hpoll, hfirst⟩⟩
  · rintro ⟨k, hk, hfirst⟩
    cases k with
    | zero =>
      refine ⟨some receipt, firstReceipt_zero.mp hfirst, ?_⟩
      rw [awaitReceipt_some, ok_bind]
      exact if_neg (by omega)
    | succ k =>
      obtain ⟨hpoll, hrest⟩ := firstReceipt_succ.mp hfirst
      refine ⟨none, hpoll, ?_⟩
      rw [awaitReceipt_eq_ok.mpr ⟨k, by omega, hrest, rfl⟩, ok_bind]
      exact if_neg (by omega)

/-- **Which sequences are answered as they should be**: those whose first receipt does not come
with the last two polls. -/
theorem prompt_iff (attempts : ℕ) (polls : Polls) : Prompt attempts polls ↔
    ∀ k receipt, FirstReceipt polls k receipt → k + 2 ≤ attempts ∨ attempts < k := by
  constructor
  · intro h k receipt hfirst
    rcases Nat.lt_or_ge attempts k with hlt | hle
    · exact .inr hlt
    · have hreturned := (h.returned receipt).mpr ⟨k, hle, hfirst⟩
      obtain ⟨k', hk', hfirst'⟩ := waitForReceipt_eq_ok.mp hreturned
      obtain ⟨rfl, -⟩ := hfirst.unique hfirst'
      exact .inl hk'
  · intro h
    have hreturned : ∀ receipt, waitForReceipt attempts polls = .ok receipt ↔
        ∃ k ≤ attempts, FirstReceipt polls k receipt := by
      intro receipt
      rw [waitForReceipt_eq_ok]
      constructor
      · rintro ⟨k, hk, hfirst⟩
        exact ⟨k, by omega, hfirst⟩
      · rintro ⟨k, hk, hfirst⟩
        have hcase := h k receipt hfirst
        exact ⟨k, by omega, hfirst⟩
    refine ⟨hreturned, fun e he k hk receipt hfirst => ?_⟩
    have hok := (hreturned receipt).mpr ⟨k, hk, hfirst⟩
    rw [he] at hok
    cases hok

/-! ### The last attempts -/

def sampleReceipt : TransactionReceipt where
  transactionHash := some "0x5a"
  sender := some "0x1f"
  blockHash := some "0xb7"
  recipient := some "0xc4"
  gasUsed := some "0x5208"
  contractAddress := none

/-- There is a receipt from the last but one of the forty retries on. -/
def latePolls : Polls := fun k => .ok (if k < 39 then none else some sampleReceipt)

/-- **A receipt in time is thrown away.** -/
theorem late_receipt_refused : waitForReceipt confirmationAttempts latePolls =
      .error (.runtime "No Tx receipt received") ∧
    FirstReceipt latePolls 39 sampleReceipt ∧ ¬ Prompt confirmationAttempts latePolls := by
  have hthrown : waitForReceipt confirmationAttempts latePolls =
      .error (.runtime "No Tx receipt received") := by decide +kernel
  have hfirst : FirstReceipt latePolls 39 sampleReceipt :=
    ⟨fun j hj => by rw [latePolls, if_pos hj], by rw [latePolls, if_neg (by decide)]⟩
  refine ⟨hthrown, hfirst, fun h => ?_⟩
  exact h.thrown _ hthrown 39 (by decide) _ hfirst

end EthereumTransactionUtils

end SXP.BlockChain
