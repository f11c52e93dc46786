import SXP.Lib.Machine
import Mathlib.Algebra.GroupWithZero.Nat
import Mathlib.Data.Fintype.Basic
import Mathlib.Data.Finset.Max

/-!
# The exchange

What the signing step is for, without data: `n` members go through the rounds
`1, …, n + 2` together.  A member sends its promise in the first `n + 1` rounds
and its signature in the last, enters a round when it has all promises of the
round before, and is finalized as soon as it has the signature of the first
member.  A signature that arrives at a member that is finalized, or becomes so,
is the last thing this member listens to.

So a signature has to complete the set when it finalizes, and if every one
that arrives does, the exchange comes to its end in every order of deliveries
(`completed_iff`).
-/

namespace SXP.Sigma.Exchange

open SXP.Lib

/-- A message is named by its sender and its number, from `0`; `δ` is what an event draws. -/
inductive Event (n : ℕ) (δ : Type) where
  | start (j : Fin n) (d : δ)
  | deliver (i j : Fin n) (m : ℕ) (d : δ)

/-- `got r k` is the promise of `k` for round `r`. -/
structure Member (n : ℕ) where
  started : Bool
  round : ℕ
  got : ℕ → Fin n → Bool
  signed : Fin n → Bool
  listening : Bool
  finalized : Bool

namespace Member

variable {n : ℕ}

def initial : Member n := ⟨false, 1, fun _ _ => false, fun _ => false, true, false⟩

def sent (p : Member n) : ℕ := if p.started then p.round else 0

def promise (p : Member n) (r : ℕ) (k : Fin n) : Member n :=
  { p with got := fun r' k' => decide (r' = r ∧ k' = k) || p.got r' k' }

def complete (p : Member n) : Bool := decide (∀ k, p.got p.round k = true)

variable [NeZero n]

def sign (p : Member n) (k : Fin n) : Member n :=
  { p with
    signed := fun k' => decide (k' = k) || p.signed k'
    finalized := p.finalized || decide (0 = k) || p.signed 0 }

def send (p : Member n) (own : Fin n) : Member n :=
  if p.round = n + 2 then p.sign own else p.promise p.round own

def store (p : Member n) (own i : Fin n) (r : ℕ) : Member n :=
  if i = own then p
  else if r = n + 2 then { p.sign i with listening := !(p.sign i).signed 0 && p.listening }
  else p.promise r i

def advance (own : Fin n) : ℕ → Member n → Member n
  | 0, p => p
  | left + 1, p =>
      if p.round ≤ n + 1 ∧ p.complete = true ∧ p.finalized = false then
        advance own left (send { p with round := p.round + 1 } own)
      else p

def receive (p : Member n) (own i : Fin n) (r : ℕ) : Member n :=
  if p.listening then advance own (n + 2 - (p.store own i r).round) (p.store own i r) else p

def start (p : Member n) (own : Fin n) : Member n :=
  if p.started then p else send { p with started := true } own

end Member

open Member

variable {n : ℕ} [NeZero n] {δ : Type}

def machine (n : ℕ) [NeZero n] (δ : Type) : Machine (Fin n → Member n) (Event n δ) Unit where
  step s e := ((), match e with
    | .start j _ => Function.update s j ((s j).start j)
    | .deliver i j m _ =>
        if m < (s i).sent then Function.update s j ((s j).receive j i (m + 1)) else s)

/-! ### One member -/

/-- A member that has not started is in the first round and cannot leave it. -/
def Idle (own : Fin n) (p : Member n) : Prop :=
  p.started = false → p.round = 1 ∧ p.got 1 own = false

/-- What holds of a member as long as every signature that finalizes it completes the
set. -/
structure Sane (own : Fin n) (p : Member n) : Prop where
  low : 1 ≤ p.round
  high : p.round ≤ n + 2
  idle : Idle own p
  mine : p.started = true → ∀ r, 1 ≤ r → r ≤ p.round → r ≤ n + 1 → p.got r own = true
  clear : p.signed own = true ↔ p.round = n + 2
  first : p.finalized = p.signed 0
  final : p.finalized = true → p.round = n + 2
  deaf : p.listening = false → ∀ k, p.signed k = true

theorem initial_sane (own : Fin n) : Sane own Member.initial where
  low := le_refl _
  high := by simp [Member.initial]
  idle _ := ⟨rfl, rfl⟩
  mine h := absurd h (by simp [Member.initial])
  clear := by simp [Member.initial]
  first := rfl
  final h := absurd h (by simp [Member.initial])
  deaf h := absurd h (by simp [Member.initial])

omit [NeZero n] in
@[simp] theorem promise_got {p : Member n} {r r' : ℕ} {k k' : Fin n} :
    (p.promise r k).got r' k' = true ↔ (r' = r ∧ k' = k) ∨ p.got r' k' = true := by
  simp [promise]

omit [NeZero n] in
theorem promise_of_got {p : Member n} {r : ℕ} {k : Fin n} (h : p.got r k = true) :
    p.promise r k = p := by
  have hgot : (p.promise r k).got = p.got := by
    funext r' k'
    rw [Bool.eq_iff_iff, promise_got]
    refine or_iff_right_of_imp ?_
    rintro ⟨rfl, rfl⟩
    exact h
  unfold Member.promise at hgot ⊢
  dsimp only at hgot
  rw [hgot]

@[simp] theorem sign_signed {p : Member n} {k k' : Fin n} :
    (p.sign k).signed k' = true ↔ k' = k ∨ p.signed k' = true := by
  simp [sign]

@[simp] theorem sign_finalized {p : Member n} {k : Fin n} :
    (p.sign k).finalized = true ↔ p.finalized = true ∨ 0 = k ∨ p.signed 0 = true := by
  simp [sign, or_assoc]

omit [NeZero n] in
theorem complete_iff {p : Member n} : p.complete = true ↔ ∀ k, p.got p.round k = true :=
  decide_eq_true_iff

omit [NeZero n] in
theorem sent_of_started {p : Member n} (h : p.started = true) : p.sent = p.round := if_pos h

theorem store_sent (p : Member n) (own i : Fin n) (r : ℕ) : (p.store own i r).sent = p.sent := by
  unfold Member.store
  split
  · rfl
  · split <;> rfl

theorem send_round (p : Member n) (own : Fin n) : (p.send own).round = p.round := by
  unfold Member.send
  split <;> rfl

omit [NeZero n] in
/-- A member that has all promises of its round has sent its own. -/
theorem Idle.started {own : Fin n} {p : Member n} (hp : Idle own p) (hc : p.complete = true) :
    p.started = true := by
  by_contra hs
  obtain ⟨hr, hgot⟩ := hp (by simpa using hs)
  have h := complete_iff.mp hc own
  rw [hr, hgot] at h
  exact absurd h (by decide)

theorem Sane.send {own : Fin n} {p : Member n} (hlow : 1 ≤ p.round) (hhigh : p.round ≤ n + 2)
    (hs : p.started = true) (hmine : ∀ r, 1 ≤ r → r < p.round → r ≤ n + 1 → p.got r own = true)
    (hclear : p.signed own = false) (hfirst : p.finalized = p.signed 0)
    (hfinal : p.finalized = false) (hdeaf : p.listening = true) : Sane own (p.send own) := by
  unfold Member.send
  by_cases hr : p.round = n + 2
  · rw [if_pos hr]
    refine ⟨hlow, hhigh, fun h => absurd (hs.symm.trans h) (by decide), ?_, ?_, ?_, fun _ => hr,
      fun h => absurd (hdeaf.symm.trans h) (by decide)⟩
    · intro _ r h1 hle hn
      have hle' : r ≤ p.round := hle
      exact hmine r h1 (by omega) hn
    · exact iff_of_true (sign_signed.mpr (Or.inl rfl)) hr
    · rw [Bool.eq_iff_iff, sign_finalized, sign_signed, hfirst]
      tauto
  · rw [if_neg hr]
    refine ⟨hlow, hhigh, fun h => absurd (hs.symm.trans h) (by decide), ?_, ?_, hfirst,
      fun h => absurd (hfinal.symm.trans h) (by decide),
      fun h => absurd (hdeaf.symm.trans h) (by decide)⟩
    · intro _ r h1 hle hn
      have hle' : r ≤ p.round := hle
      rw [promise_got]
      by_cases hlt : r < p.round
      · exact Or.inr (hmine r h1 hlt hn)
      · exact Or.inl ⟨by omega, rfl⟩
    · exact iff_of_false (by rw [show (p.promise p.round own).signed own = _ from hclear]; decide) hr

theorem Sane.advance {own : Fin n} (left : ℕ) {p : Member n} (hp : Sane own p) :
    Sane own (p.advance own left) := by
  induction left generalizing p with
  | zero => exact hp
  | succ left ih =>
    rw [Member.advance]
    by_cases hc : p.round ≤ n + 1 ∧ p.complete = true ∧ p.finalized = false
    · rw [if_pos hc]
      obtain ⟨hr, hformed, hfin⟩ := hc
      have hs := hp.idle.started hformed
      have hclear : p.signed own = false := by
        rw [Bool.eq_false_iff, Ne, hp.clear]
        omega
      refine ih (Sane.send ?_ ?_ hs ?_ hclear hp.first hfin ?_)
      · exact Nat.le_add_left 1 p.round
      · exact Nat.succ_le_succ hr
      · intro r h1 hlt hn
        exact hp.mine hs r h1 (Nat.lt_succ_iff.mp hlt) hn
      · by_contra hl
        have hall := hp.deaf (by simpa using hl) own
        rw [hclear] at hall
        exact absurd hall (by decide)
    · rw [if_neg hc]
      exact hp

theorem advance_exit {own : Fin n} (left : ℕ) {p : Member n} (hl : n + 2 ≤ p.round + left) :
    ¬ ((p.advance own left).round ≤ n + 1 ∧ (p.advance own left).complete = true ∧
      (p.advance own left).finalized = false) := by
  induction left generalizing p with
  | zero =>
    intro h
    have hr : p.round ≤ n + 1 := h.1
    omega
  | succ left ih =>
    rw [Member.advance]
    by_cases hc : p.round ≤ n + 1 ∧ p.complete = true ∧ p.finalized = false
    · rw [if_pos hc]
      apply ih
      unfold Member.send
      split
      · show n + 2 ≤ p.round + 1 + left
        omega
      · show n + 2 ≤ p.round + 1 + left
        omega
    · rw [if_neg hc]
      exact hc

/-- A signature that arrives completes the set if it finalizes. -/
def Completing (p : Member n) (own i : Fin n) (r : ℕ) : Prop :=
  i ≠ own → r = n + 2 → p.listening = true → (i = 0 ∨ p.signed 0 = true) →
    ∀ k, k = i ∨ p.signed k = true

theorem Sane.store {own i : Fin n} {r : ℕ} {p : Member n} (hp : Sane own p)
    (hl : p.listening = true) (h : Completing p own i r) : Sane own (p.store own i r) := by
  unfold Member.store
  by_cases hi : i = own
  · rw [if_pos hi]
    exact hp
  rw [if_neg hi]
  by_cases hr : r = n + 2
  · rw [if_pos hr]
    have hall : (p.sign i).signed 0 = true → ∀ k, (p.sign i).signed k = true := by
      intro h0 k
      rw [sign_signed] at h0 ⊢
      exact h hi hr hl (h0.imp_left Eq.symm) k
    have hclear : (p.sign i).signed own = true ↔ p.round = n + 2 := by
      rw [sign_signed, ← hp.clear]
      exact or_iff_right fun h => hi h.symm
    refine ⟨hp.low, hp.high, hp.idle, hp.mine, hclear, ?_, ?_, ?_⟩
    · show (p.sign i).finalized = (p.sign i).signed 0
      rw [Bool.eq_iff_iff, sign_finalized, sign_signed, hp.first]
      tauto
    · intro hf
      rcases sign_finalized.mp hf with hf | hf
      · exact hp.final hf
      · exact hclear.mp (hall (sign_signed.mpr hf) own)
    · intro hdeaf
      refine hall ?_
      have hd : (!(p.sign i).signed 0 && p.listening) = false := hdeaf
      rw [hl, Bool.and_true, Bool.not_eq_false'] at hd
      exact hd
  · rw [if_neg hr]
    refine ⟨hp.low, hp.high, ?_, ?_, hp.clear, hp.first, hp.final, hp.deaf⟩
    · intro hs
      obtain ⟨h1, hgot⟩ := hp.idle hs
      refine ⟨h1, ?_⟩
      rw [Bool.eq_false_iff, Ne, promise_got]
      rintro (⟨-, hown⟩ | hgot')
      · exact hi hown.symm
      · rw [hgot] at hgot'
        exact absurd hgot' (by decide)
    · intro hs r' h1 hle hn
      exact promise_got.mpr (Or.inr (hp.mine hs r' h1 hle hn))

theorem Sane.receive {own i : Fin n} {r : ℕ} {p : Member n} (hp : Sane own p)
    (h : Completing p own i r) : Sane own (p.receive own i r) := by
  unfold Member.receive
  by_cases hl : p.listening = true
  · rw [if_pos hl]
    exact (hp.store hl h).advance _
  · rw [if_neg hl]
    exact hp

theorem Sane.start {own : Fin n} {p : Member n} (hp : Sane own p) : Sane own (p.start own) := by
  unfold Member.start
  cases hs : p.started with
  | true => exact hp
  | false =>
    obtain ⟨hr, -⟩ := hp.idle hs
    have hfin : p.finalized = false := by
      by_contra hf
      have hround := hp.final (by simpa using hf)
      omega
    have hclear : p.signed own = false := by
      rw [Bool.eq_false_iff, Ne, hp.clear]
      omega
    refine Sane.send hp.low hp.high rfl ?_ hclear hp.first hfin ?_
    · intro r h1 hlt
      have hlt' : r < p.round := hlt
      omega
    · by_contra hl
      have hall := hp.deaf (by simpa using hl) own
      rw [hclear] at hall
      exact absurd hall (by decide)

/-! ### What only grows -/

structure Grows (p p' : Member n) : Prop where
  started : p.started = true → p'.started = true
  round : p.round ≤ p'.round
  got : ∀ r k, p.got r k = true → p'.got r k = true
  signed : ∀ k, p.signed k = true → p'.signed k = true
  listening : p'.listening = true → p.listening = true

omit [NeZero n] in
theorem Grows.refl (p : Member n) : Grows p p := ⟨id, le_refl _, fun _ _ => id, fun _ => id, id⟩

omit [NeZero n] in
theorem Grows.trans {p p' p'' : Member n} (h : Grows p p') (h' : Grows p' p'') : Grows p p'' :=
  ⟨h'.started ∘ h.started, h.round.trans h'.round, fun r k => h'.got r k ∘ h.got r k,
    fun k => h'.signed k ∘ h.signed k, h.listening ∘ h'.listening⟩

omit [NeZero n] in
theorem Grows.sent {p p' : Member n} (h : Grows p p') : p.sent ≤ p'.sent := by
  unfold Member.sent
  cases hs : p.started with
  | false => simp
  | true =>
    rw [if_pos rfl, if_pos (h.started hs)]
    exact h.round

omit [NeZero n] in
theorem grows_promise (p : Member n) (r : ℕ) (k : Fin n) : Grows p (p.promise r k) :=
  ⟨id, le_refl _, fun _ _ h => promise_got.mpr (Or.inr h), fun _ => id, id⟩

theorem grows_sign (p : Member n) (k : Fin n) : Grows p (p.sign k) :=
  ⟨id, le_refl _, fun _ _ => id, fun _ h => sign_signed.mpr (Or.inr h), id⟩

theorem grows_send (p : Member n) (own : Fin n) : Grows p (p.send own) := by
  unfold Member.send
  split
  · exact grows_sign p own
  · exact grows_promise p p.round own

theorem grows_store (p : Member n) (own i : Fin n) (r : ℕ) : Grows p (p.store own i r) := by
  unfold Member.store
  split
  · exact Grows.refl p
  · split
    · refine (grows_sign p i).trans ⟨id, le_refl _, fun _ _ => id, fun _ => id, ?_⟩
      intro h
      exact (Bool.and_eq_true_iff.mp h).2
    · exact grows_promise p r i

theorem grows_advance (own : Fin n) (left : ℕ) (p : Member n) : Grows p (p.advance own left) := by
  induction left generalizing p with
  | zero => exact Grows.refl p
  | succ left ih =>
    rw [Member.advance]
    split
    · have hround : Grows p { p with round := p.round + 1 } :=
        ⟨id, Nat.le_succ _, fun _ _ => id, fun _ => id, id⟩
      exact (hround.trans (grows_send _ own)).trans (ih _)
    · exact Grows.refl p

theorem grows_receive (p : Member n) (own i : Fin n) (r : ℕ) : Grows p (p.receive own i r) := by
  unfold Member.receive
  split
  · exact (grows_store p own i r).trans (grows_advance own _ _)
  · exact Grows.refl p

theorem grows_start (p : Member n) (own : Fin n) : Grows p (p.start own) := by
  unfold Member.start
  split
  · exact Grows.refl p
  · have hs : Grows p { p with started := true } :=
      ⟨fun _ => rfl, le_refl _, fun _ _ => id, fun _ => id, id⟩
    exact hs.trans (grows_send _ own)

/-! ### All members -/

theorem next_start (s : Fin n → Member n) (j : Fin n) (d : δ) :
    (machine n δ).next s (.start j d) = Function.update s j ((s j).start j) := rfl

theorem next_deliver {s : Fin n → Member n} {i j : Fin n} {m : ℕ} (hm : m < (s i).sent) (d : δ) :
    (machine n δ).next s (.deliver i j m d) = Function.update s j ((s j).receive j i (m + 1)) :=
  if_pos hm

theorem next_unsent {s : Fin n → Member n} {i j : Fin n} {m : ℕ} (hm : ¬ m < (s i).sent) (d : δ) :
    (machine n δ).next s (.deliver i j m d) = s := if_neg hm

def Delivers (i j : Fin n) (m : ℕ) (s : Fin n → Member n) (e : Event n δ) : Prop :=
  (∃ d, e = .deliver i j m d) ∧ m < (s i).sent

instance (i j : Fin n) (m : ℕ) (s : Fin n → Member n) (e : Event n δ) :
    Decidable (Delivers i j m s e) :=
  match e with
  | .start _ _ => isFalse fun h => absurd h.1 (by simp)
  | .deliver i' j' m' d =>
      decidable_of_iff ((i' = i ∧ j' = j ∧ m' = m) ∧ m < (s i).sent) (by simp [Delivers])

def Delivered (es : List (Event n δ)) (i j : Fin n) (m : ℕ) : Prop :=
  (machine n δ).Happens (Delivers i j m) (fun _ => Member.initial) es

/-- Every signature that arrives completes the set if it finalizes. -/
def Good (s : Fin n → Member n) (e : Event n δ) : Prop :=
  ∀ i j m d, e = .deliver i j m d → m < (s i).sent → Completing (s j) j i (m + 1)

/-- **The invariant of good runs.**  What was delivered to a member that still listens is
there, and a member to which its own first message was delivered has done all it can. -/
structure Inv (es : List (Event n δ)) (s : Fin n → Member n) : Prop where
  sane : ∀ j, Sane j (s j)
  sent : ∀ i j m, Delivered es i j m → m < (s i).sent
  heard : ∀ i j m, Delivered es i j m → (s j).listening = true →
    (m + 1 ≤ n + 1 → (s j).got (m + 1) i = true) ∧ (m + 1 = n + 2 → (s j).signed i = true)
  settled : ∀ j, Delivered es j j 0 → ¬ ((s j).round ≤ n + 1 ∧ (s j).complete = true)

theorem initial_inv : Inv ([] : List (Event n δ)) fun _ => Member.initial where
  sane j := initial_sane j
  sent _ _ _ h := absurd h (Machine.not_happens_nil _ _ _)
  heard _ _ _ h := absurd h (Machine.not_happens_nil _ _ _)
  settled _ h := absurd h (Machine.not_happens_nil _ _ _)

/-- A step at one member, which makes the messages it delivers heard. -/
theorem Inv.update {es : List (Event n δ)} {s : Fin n → Member n} (hs : Inv es s) {e : Event n δ}
    {j : Fin n} {p : Member n} (hsane : Sane j p) (hgrows : Grows (s j) p)
    (hnew : ∀ i j' m, Delivered (es ++ [e]) i j' m → Delivered es i j' m ∨
      (j' = j ∧ m < (s i).sent ∧ (p.listening = true →
        (m + 1 ≤ n + 1 → p.got (m + 1) i = true) ∧ (m + 1 = n + 2 → p.signed i = true))))
    (hsettled : Delivered (es ++ [e]) j j 0 → ¬ (p.round ≤ n + 1 ∧ p.complete = true)) :
    Inv (es ++ [e]) (Function.update s j p) := by
  have hmono : ∀ i, Grows (s i) (Function.update s j p i) :=
    (Function.forall_update_iff s fun i q => Grows (s i) q).mpr
      ⟨hgrows, fun i _ => Grows.refl (s i)⟩
  refine ⟨?_, ?_, ?_, ?_⟩
  · exact (Function.forall_update_iff s Sane).mpr ⟨hsane, fun i _ => hs.sane i⟩
  · intro i j' m h
    rcases hnew i j' m h with h | ⟨-, hm, -⟩
    · exact lt_of_lt_of_le (hs.sent i j' m h) (hmono i).sent
    · exact lt_of_lt_of_le hm (hmono i).sent
  · intro i j' m h hl
    rcases hnew i j' m h with h | ⟨rfl, -, hheard⟩
    · obtain ⟨hgot, hsigned⟩ := hs.heard i j' m h ((hmono j').listening hl)
      exact ⟨fun hm => (hmono j').got _ _ (hgot hm), fun hm => (hmono j').signed _ (hsigned hm)⟩
    · rw [Function.update_self] at hl ⊢
      exact hheard hl
  · refine (Function.forall_update_iff s fun i q => Delivered (es ++ [e]) i i 0 →
      ¬ (q.round ≤ n + 1 ∧ q.complete = true)).mpr ⟨hsettled, ?_⟩
    intro i hi h
    rcases hnew i i 0 h with h | ⟨hij, -⟩
    · exact hs.settled i h
    · exact absurd hij hi

/-- A message that is delivered to a member that listens is stored. -/
theorem receive_heard {own i : Fin n} {m : ℕ} {p : Member n} (hp : Sane own p)
    (hm : i = own → m < p.sent) (hl : p.listening = true) :
    (m + 1 ≤ n + 1 → (p.receive own i (m + 1)).got (m + 1) i = true) ∧
      (m + 1 = n + 2 → (p.receive own i (m + 1)).signed i = true) := by
  have hgrows := grows_receive p own i (m + 1)
  by_cases hi : i = own
  · -- the member's own message: it stored what it sent
    subst hi
    have hsent := hm rfl
    unfold Member.sent at hsent
    cases hs : p.started with
    | false =>
      rw [hs, if_neg (by decide)] at hsent
      exact absurd hsent (Nat.not_lt_zero m)
    | true =>
      rw [hs, if_pos rfl] at hsent
      refine ⟨fun hle => hgrows.got _ _ (hp.mine hs (m + 1) (by omega) (by omega) hle), ?_⟩
      intro heq
      have hhigh := hp.high
      exact hgrows.signed _ (hp.clear.mpr (by omega))
  · have hadvance := grows_advance own (n + 2 - (p.store own i (m + 1)).round) (p.store own i (m + 1))
    unfold Member.receive
    rw [if_pos hl]
    refine ⟨fun hle => hadvance.got _ _ ?_, fun heq => hadvance.signed _ ?_⟩
    · unfold Member.store
      rw [if_neg hi, if_neg (by omega)]
      exact promise_got.mpr (Or.inl ⟨rfl, rfl⟩)
    · unfold Member.store
      rw [if_neg hi, if_pos heq]
      exact sign_signed.mpr (Or.inl rfl)

theorem receive_settled {own i : Fin n} {r : ℕ} {p : Member n} (hp : Sane own p)
    (h : Completing p own i r) :
    ¬ ((p.receive own i r).round ≤ n + 1 ∧ (p.receive own i r).complete = true) := by
  rintro ⟨hr, hc⟩
  have hsane := hp.receive h
  have hfin : (p.receive own i r).finalized = false := by
    by_contra hf
    have := hsane.final (by simpa using hf)
    omega
  unfold Member.receive at hr hc hfin
  by_cases hl : p.listening = true
  · rw [if_pos hl] at hr hc hfin
    exact advance_exit _ (by omega) ⟨hr, hc, hfin⟩
  · rw [if_neg hl] at hr
    have hround := hp.clear.mp (hp.deaf (by simpa using hl) own)
    omega

theorem next_inv {es : List (Event n δ)} {e : Event n δ}
    (hs : Inv es ((machine n δ).run (fun _ => Member.initial) es))
    (hgood : Good ((machine n δ).run (fun _ => Member.initial) es) e) :
    Inv (es ++ [e])
      ((machine n δ).next ((machine n δ).run (fun _ => Member.initial) es) e) := by
  have hconcat : ∀ i j m, Delivered (es ++ [e]) i j m ↔ Delivered es i j m ∨
      Delivers i j m ((machine n δ).run (fun _ => Member.initial) es) e :=
    fun i j m => Machine.happens_concat _
  generalize (machine n δ).run (fun _ => Member.initial) es = s at hs hgood hconcat ⊢
  cases e with
  | start j d =>
    have hold : ∀ i j' m, Delivered (es ++ [.start j d]) i j' m → Delivered es i j' m := by
      intro i j' m h
      rcases (hconcat i j' m).mp h with h | ⟨⟨d', h⟩, -⟩
      · exact h
      · exact absurd h (by simp)
    rw [next_start]
    refine hs.update (hs.sane j).start (grows_start _ j) (fun i j' m h => Or.inl (hold i j' m h)) ?_
    intro h
    have hsent := hs.sent j j 0 (hold j j 0 h)
    unfold Member.sent at hsent
    unfold Member.start
    cases hst : (s j).started with
    | true =>
      rw [if_pos rfl]
      exact hs.settled j (hold j j 0 h)
    | false =>
      rw [hst, if_neg (by decide)] at hsent
      exact absurd hsent (lt_irrefl 0)
  | deliver i j m d =>
    by_cases hm : m < (s i).sent
    · rw [next_deliver hm]
      have hcompleting := hgood i j m d rfl hm
      have hgrows := grows_receive (s j) j i (m + 1)
      refine hs.update ((hs.sane j).receive hcompleting) hgrows ?_
        fun _ => receive_settled (hs.sane j) hcompleting
      intro i' j' m' h
      rcases (hconcat i' j' m').mp h with h | ⟨⟨d', h⟩, hm'⟩
      · exact Or.inl h
      · obtain ⟨rfl, rfl, rfl, -⟩ := Event.deliver.inj h
        refine Or.inr ⟨rfl, hm, fun hl => ?_⟩
        exact receive_heard (hs.sane j) (fun hij => hij ▸ hm) (hgrows.listening hl)
    · rw [next_unsent hm]
      have hold : ∀ i' j' m', Delivered (es ++ [.deliver i j m d]) i' j' m' →
          Delivered es i' j' m' := by
        intro i' j' m' h
        rcases (hconcat i' j' m').mp h with h | ⟨⟨d', h⟩, hm'⟩
        · exact h
        · obtain ⟨rfl, rfl, rfl, -⟩ := Event.deliver.inj h
          exact absurd hm' hm
      exact ⟨hs.sane, fun i' j' m' h => hs.sent i' j' m' (hold i' j' m' h),
        fun i' j' m' h => hs.heard i' j' m' (hold i' j' m' h),
        fun j' h => hs.settled j' (hold j' j' 0 h)⟩

theorem run_inv (es : List (Event n δ))
    (h : (machine n δ).Along (fun _ => Good) (fun _ => Member.initial) es) :
    Inv es ((machine n δ).run (fun _ => Member.initial) es) :=
  (machine n δ).invariant_history (I := Inv) initial_inv (fun _ _ hs hg => next_inv hs hg) es h

/-! ### The end -/

/-- All members have started, and every message was delivered to every member. -/
def Quiescent (es : List (Event n δ)) : Prop :=
  (∀ j, ((machine n δ).run (fun _ => Member.initial) es j).started = true) ∧
  ∀ i j m, m < ((machine n δ).run (fun _ => Member.initial) es i).sent → Delivered es i j m

instance (es : List (Event n δ)) : Decidable (Quiescent es) :=
  have : ∀ i j m, Decidable (Delivered es i j m) :=
    fun i j m => (machine n δ).decidableHappens (Delivers i j m) _ es
  inferInstanceAs (Decidable (_ ∧ _))

structure Completed (p : Member n) : Prop where
  round : p.round = n + 2
  finalized : p.finalized = true
  signed : ∀ k, p.signed k = true

/-- **A good run ends with everybody completed.**  A member in the lowest round has the
promises of all others for it, so it cannot be in one of the first `n + 1`. -/
theorem completed_of_good {es : List (Event n δ)}
    (h : (machine n δ).Along (fun _ => Good) (fun _ => Member.initial) es) (hq : Quiescent es)
    (j : Fin n) : Completed ((machine n δ).run (fun _ => Member.initial) es j) := by
  have hs := run_inv es h
  obtain ⟨hstarted, hall⟩ := hq
  generalize (machine n δ).run (fun _ => Member.initial) es = s at hs hstarted hall ⊢
  have hround : ∀ i, n + 2 ≤ (s i).round := by
    obtain ⟨i₀, -, hmin⟩ := Finset.exists_min_image Finset.univ (fun i => (s i).round)
      ⟨0, Finset.mem_univ 0⟩
    replace hmin : ∀ i, (s i₀).round ≤ (s i).round := fun i => hmin i (Finset.mem_univ i)
    by_contra hlow
    push Not at hlow
    obtain ⟨i, hi⟩ := hlow
    have hi₀ : (s i₀).round ≤ n + 1 := by
      have := hmin i
      omega
    have hl : (s i₀).listening = true := by
      by_contra hl
      have hr := (hs.sane i₀).clear.mp ((hs.sane i₀).deaf (by simpa using hl) i₀)
      omega
    refine hs.settled i₀ (hall i₀ i₀ 0 ?_) ⟨hi₀, complete_iff.mpr fun k => ?_⟩
    · rw [sent_of_started (hstarted i₀)]
      exact (hs.sane i₀).low
    · have h1 := (hs.sane i₀).low
      have hk := hmin k
      have hd := hall k i₀ ((s i₀).round - 1) (by rw [sent_of_started (hstarted k)]; omega)
      have hgot := (hs.heard k i₀ _ hd hl).1 (by omega)
      rwa [Nat.sub_add_cancel h1] at hgot
  have hsigned : ∀ k, (s j).signed k = true := by
    intro k
    by_cases hl : (s j).listening = true
    · have hk := hround k
      have hd := hall k j (n + 1) (by rw [sent_of_started (hstarted k)]; omega)
      exact (hs.heard k j _ hd hl).2 rfl
    · exact (hs.sane j).deaf (by simpa using hl) k
  refine ⟨le_antisymm (hs.sane j).high (hround j), ?_, hsigned⟩
  rw [(hs.sane j).first]
  exact hsigned 0

/-! ### Runs that are not good -/

theorem Idle.store {own i : Fin n} {r : ℕ} {p : Member n} (hp : Idle own p) :
    Idle own (p.store own i r) := by
  unfold Member.store
  split
  · exact hp
  · rename_i hi
    split
    · exact hp
    · intro hs
      refine ⟨(hp hs).1, ?_⟩
      rw [Bool.eq_false_iff, Ne, promise_got]
      rintro (⟨-, hown⟩ | hgot)
      · exact hi hown.symm
      · rw [(hp hs).2] at hgot
        exact absurd hgot (by decide)

theorem Idle.receive {own : Fin n} {p : Member n} (hp : Idle own p) (i : Fin n) (r : ℕ) :
    Idle own (p.receive own i r) := by
  have hstore : Idle own (p.store own i r) := hp.store
  unfold Member.receive
  split
  · generalize p.store own i r = q at hstore
    generalize n + 2 - q.round = left
    intro hs
    have hqs : q.started = false := by
      by_contra hq
      have := (grows_advance own left q).started (by simpa using hq)
      rw [hs] at this
      exact absurd this (by decide)
    obtain ⟨hr, hgot⟩ := hstore hqs
    have hstay : q.advance own left = q := by
      cases left with
      | zero => rfl
      | succ left =>
        rw [Member.advance, if_neg]
        rintro ⟨-, hc, -⟩
        have h := complete_iff.mp hc own
        rw [hr, hgot] at h
        exact absurd h (by decide)
    rw [hstay]
    exact ⟨hr, hgot⟩
  · exact hp

theorem Idle.start {own : Fin n} {p : Member n} (hp : Idle own p) : Idle own (p.start own) := by
  unfold Member.start
  cases hs : p.started with
  | true => exact hp
  | false =>
    rw [if_neg (by decide)]
    unfold Member.send
    split <;> exact fun h => absurd h (by simp [sign, promise])

/-- A member that has stopped listening before it had all signatures. -/
structure Stuck (p : Member n) (k : Fin n) : Prop where
  listening : p.listening = false
  signed : p.signed k = false

theorem Stuck.receive {p : Member n} {k : Fin n} (hp : Stuck p k) (own i : Fin n) (r : ℕ) :
    Stuck (p.receive own i r) k := by
  unfold Member.receive
  rw [if_neg (by rw [hp.listening]; decide)]
  exact hp

theorem Stuck.start {own : Fin n} {p : Member n} {k : Fin n} (hp : Stuck p k) (hidle : Idle own p) :
    Stuck (p.start own) k := by
  unfold Member.start
  cases hs : p.started with
  | true => exact hp
  | false =>
    obtain ⟨hr, -⟩ := hidle hs
    rw [if_neg (by decide)]
    unfold Member.send
    rw [if_neg (show ¬ p.round = n + 2 by omega)]
    exact ⟨hp.listening, hp.signed⟩

theorem stuck_of_not_completing {own i : Fin n} {r : ℕ} {p : Member n}
    (h : ¬ Completing p own i r) : ∃ k, Stuck (p.receive own i r) k := by
  unfold Completing at h
  push Not at h
  obtain ⟨hi, hr, hl, h0, k, hk, hks⟩ := h
  have hsigned0 : (p.sign i).signed 0 = true := sign_signed.mpr (h0.imp_left Eq.symm)
  have hstore : p.store own i r = { p.sign i with listening := false } := by
    unfold Member.store
    rw [if_neg hi, if_pos hr, hsigned0]
    rfl
  have hstay : ∀ left, Member.advance own left { p.sign i with listening := false }
      = { p.sign i with listening := false } := by
    intro left
    cases left with
    | zero => rfl
    | succ left =>
      rw [Member.advance, if_neg]
      rintro ⟨-, -, hf⟩
      have hfin : (p.sign i).finalized = true :=
        sign_finalized.mpr (Or.inr (h0.imp_left Eq.symm))
      exact absurd (hfin.symm.trans hf) (by decide)
  refine ⟨k, ?_⟩
  unfold Member.receive
  rw [if_pos hl, hstore, hstay]
  refine ⟨rfl, ?_⟩
  show (p.sign i).signed k = false
  rw [Bool.eq_false_iff, Ne, sign_signed]
  rintro (rfl | h)
  · exact hk rfl
  · exact hks h

theorem next_idle {s : Fin n → Member n} (hs : ∀ j, Idle j (s j)) (e : Event n δ) (j : Fin n) :
    Idle j ((machine n δ).next s e j) := by
  have hupdate : ∀ (j' : Fin n) (p : Member n), Idle j' p → Idle j (Function.update s j' p j) :=
    fun j' p hp => (Function.forall_update_iff s Idle).mpr ⟨hp, fun i _ => hs i⟩ j
  cases e with
  | start j' d => exact hupdate j' _ (hs j').start
  | deliver i j' m d =>
    by_cases hm : m < (s i).sent
    · rw [next_deliver hm]
      exact hupdate j' _ ((hs j').receive i (m + 1))
    · rw [next_unsent hm]
      exact hs j

theorem next_stuck {s : Fin n → Member n} (hs : ∀ j, Idle j (s j)) {j k : Fin n}
    (h : Stuck (s j) k) (e : Event n δ) : Stuck ((machine n δ).next s e j) k := by
  cases e with
  | start j' d =>
    rw [next_start]
    by_cases hj : j = j'
    · subst hj
      rw [Function.update_self]
      exact h.start (hs j)
    · rw [Function.update_of_ne hj]
      exact h
  | deliver i j' m d =>
    by_cases hm : m < (s i).sent
    · rw [next_deliver hm]
      by_cases hj : j = j'
      · subst hj
        rw [Function.update_self]
        exact h.receive j i (m + 1)
      · rw [Function.update_of_ne hj]
        exact h
    · rw [next_unsent hm]
      exact h

/-- **The exchange comes to its end in exactly the good runs.** -/
theorem completed_iff {es : List (Event n δ)} (hq : Quiescent es) :
    (∀ j, Completed ((machine n δ).run (fun _ => Member.initial) es j)) ↔
      (machine n δ).Along (fun _ => Good) (fun _ => Member.initial) es := by
  refine ⟨?_, fun h j => completed_of_good h hq j⟩
  rintro h pre e post rfl i j m d rfl hm
  by_contra hbad
  obtain ⟨k, hk⟩ := stuck_of_not_completing hbad
  have hidle : ∀ j, Idle j ((machine n δ).run (fun _ => Member.initial) pre j) :=
    (machine n δ).invariant (I := fun s => ∀ j, Idle j (s j)) (fun _ _ => ⟨rfl, rfl⟩)
      (fun _ e hs => next_idle hs e) pre
  have hstuck : Stuck ((machine n δ).run (fun _ => Member.initial)
      (pre ++ .deliver i j m d :: post) j) k := by
    rw [Machine.run_append, Machine.run_cons]
    refine ((machine n δ).invariant (I := fun s => (∀ j, Idle j (s j)) ∧ Stuck (s j) k)
      ⟨next_idle hidle _, ?_⟩ ?_ post).2
    · rw [next_deliver hm, Function.update_self]
      exact hk
    · rintro s e ⟨hs, h⟩
      exact ⟨next_idle hs e, next_stuck hs h e⟩
  have hsigned := (h j).signed k
  rw [hstuck.signed] at hsigned
  exact absurd hsigned (by decide)

end SXP.Sigma.Exchange
