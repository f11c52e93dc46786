import SXP.Sigma.Trent

/-!
# Trent for many contracts

Trent listens under one title to everybody who asks about any contract, and tells its
answers to all, each under the title of its contract.  The solvers know nothing of each
other, so what is said about one contract is what would have been said if nobody had ever
asked about another one; and the verdicts on one contract are all the same, whoever asks,
how often, and whatever is asked in between (`verdicts_apart`).
-/

namespace SXP.Sigma

open SXP.Lib SXP.Lib.Java SXP.Lib.BigInteger SXP.Lib.Text

/-- The data of the contract as a string, which ends the titles of what is sent about it. -/
@[irreducible] def SigmaContract.contractId (c : SigmaContract) : String :=
  newString c.getHashableData

/-- What an answer says about a contract: its promises are opened, or it is cancelled. -/
inductive Verdict where
  | opened
  | cancelled
deriving DecidableEq, Repr

def Answer.verdict : Answer → Verdict
  | .resolved _ => .opened
  | .aborted _ _ => .cancelled
  | .honestyToken _ _ => .cancelled

def TrentMessage.verdict : TrentMessage → Option Verdict
  | .dishonest _ => none
  | .answer a _ _ => some a.verdict

/-! ### Verdicts of one solver -/

namespace TrentSolver

/-- The solver can give this verdict only. -/
def Inclined (st : TrentSolver) : Verdict → Prop
  | .opened => st.optimistic = false ∧ st.possiblyHonestClaims = []
  | .cancelled => st.possiblyHonestClaims ≠ []

theorem Inclined.unique {st : TrentSolver} {v v' : Verdict} (h : st.Inclined v)
    (h' : st.Inclined v') : v = v' := by
  cases v with
  | opened =>
    cases v' with
    | opened => rfl
    | cancelled => exact absurd h.2 h'
  | cancelled =>
    cases v' with
    | opened => exact absurd h'.2 h
    | cancelled => rfl

theorem Inclined.next {st : TrentSolver} {v : Verdict} (A : Arbiter) (hs : st.Settled)
    (h : st.Inclined v) (c : Call) : ((machine A).next st c).Inclined v := by
  cases v with
  | opened => exact run_opening A h.1 hs [c]
  | cancelled =>
    intro hnil
    have hlength := length_le_next A st c
    rw [hnil] at hlength
    exact h (List.length_eq_zero_iff.mp (Nat.le_zero.mp hlength))

/-- **A verdict is given by a solver that can give no other one.** -/
theorem inclined_of_answer {A : Arbiter} {st : TrentSolver} {c : Call} {a : Answer}
    (hs : st.Settled) (h : (machine A).out st c = .ok (some a)) :
    ((machine A).next st c).Inclined a.verdict := by
  cases a with
  | resolved sigs =>
    have hopt := (resolved_cases hs ⟨sigs, h⟩).2
    exact ⟨hopt, next_settled A st c hs hopt⟩
  | aborted m d => exact (aborted_cases ⟨m, d, h⟩).2
  | honestyToken m d =>
    have hclaims : st.Inclined .cancelled := accused_cases ⟨m, d, h⟩
    exact hclaims.next A hs c

theorem resolveToken_of_resolved {A : Arbiter} {st : TrentSolver} {c : Call}
    {sigs : List SigmaSignature} (h : (machine A).out st c = .ok (some (.resolved sigs))) :
    resolveToken A c = .ok sigs := by
  have hx := exit A st c
  rw [h] at hx
  generalize (machine A).next st c = st' at hx
  generalize ho : (Except.ok (some (Answer.resolved sigs)) : Java (Option Answer)) = o at hx
  cases hx with
  | opened h h' =>
    cases ht : resolveToken A c with
    | error e =>
      rw [ht] at ho
      exact absurd ho (by simp [Except.map])
    | ok token =>
      rw [ht] at ho
      obtain rfl := Answer.resolved.inj (Option.some.inj (Except.ok.inj ho))
      rfl
  | _ => simp [honestyToken, abortToken] at ho

theorem resolveToken_congr (T : TrentService) {c c' : SigmaContract} (h : c.parties = c'.parties)
    (call : Call) : resolveToken (T.arbiter c) call = resolveToken (T.arbiter c') call := by
  show collect _ (List.range c.parties.length) = collect _ (List.range c'.parties.length)
  rw [h]
  rfl

theorem resolveToken_unread {A : Arbiter} {c : Call} (hN : 0 < A.contract.parties.length)
    (hm : A.toOrs c.m = none) (sigs : List SigmaSignature) : resolveToken A c ≠ .ok sigs := by
  intro h
  rw [resolveToken, hm] at h
  obtain ⟨s, hs⟩ := exists_of_collect h (List.mem_range.mpr hN)
  rw [openPromise, nonNull_none] at hs
  exact absurd hs (by simp)

/-- **The first call** of a solver: an abort is answered, and a claim of the first round is
opened; any other claim is looked for in an empty list. -/
theorem out_initial (A : Arbiter) {c : Call} (hc : 0 ≤ c.round) : (machine A).out initial c =
    if c.round = 0 then .ok (some (initial.add 0 c.senderId c.m).abortToken)
    else if c.round = 1 then (resolveToken A c).map fun token => some (.resolved token)
    else .error .indexOutOfBounds := by
  have hempty : ∀ n, overtaken initial.possiblyHonestClaims c.senderId c.round n = none := by
    intro n
    refine List.findSome?_eq_none_iff.mpr fun k _ => ?_
    split <;> rfl
  show (resolveT A initial c).1 = _
  unfold resolveT
  by_cases h1 : 1 < c.round
  · obtain ⟨k, hk⟩ : ∃ k, (c.round - 1).toNat = k + 1 := ⟨(c.round - 1).toNat - 1, by omega⟩
    rw [hk, if_neg (by omega), if_neg (by omega)]
    rfl
  · have hk : (c.round - 1).toNat = 0 := by omega
    have hrepeats : repeats initial.possiblyHonestClaims c.senderId.value c.round = none := rfl
    rw [hk]
    dsimp only [accuses, pure_eq]
    rw [hrepeats, hempty]
    dsimp only
    by_cases h0 : c.round = 0
    · rw [if_neg (by rw [h0]; decide), if_pos ⟨hc, by rw [h0]; decide⟩, if_pos h0, h0]
      rfl
    · rw [if_pos (Or.inl ⟨rfl, by omega⟩), if_neg h0, if_pos (by omega)]
      cases resolveToken A c <;> rfl

end TrentSolver

/-! ### The listener of Trent -/

namespace TrentService

/-- What the listener is told: the content as it is read, the id of the sender, and what is
drawn for the answer. -/
structure Mail where
  content : Java (Option Request)
  senderId : ℤ
  draws : TrentDraws

structure Post where
  contractId : String
  message : TrentMessage

structure Office where
  solvers : Solvers
  sent : List Post

namespace Office

def initial : Office := ⟨fun _ => none, []⟩

/-- What concerns one contract: its solver, and what has been sent about it. -/
def about (o : Office) (id : String) : Option (SigmaContract × TrentSolver) × List TrentMessage :=
  (o.solvers id, (o.sent.filter fun post => post.contractId = id).map Post.message)

theorem mem_about {o : Office} {id : String} {m : TrentMessage} :
    m ∈ (o.about id).2 ↔ ⟨id, m⟩ ∈ o.sent := by
  unfold about
  simp only [List.mem_map, List.mem_filter, decide_eq_true_eq]
  constructor
  · rintro ⟨⟨id', m'⟩, ⟨hmem, rfl⟩, rfl⟩
    exact hmem
  · intro hmem
    exact ⟨⟨id, m⟩, ⟨hmem, rfl⟩, rfl⟩

end Office

def Mail.Names (mail : Mail) (id : String) : Prop :=
  ∃ request, mail.content = .ok (some request) ∧ request.contract.contractId = id

instance (mail : Mail) (id : String) : Decidable (mail.Names id) :=
  match h : mail.content with
  | .ok (some request) =>
      decidable_of_iff (request.contract.contractId = id) (by simp [Mail.Names, h])
  | .ok none => isFalse (by simp [Mail.Names, h])
  | .error _ => isFalse (by simp [Mail.Names, h])

variable (T : TrentService)

def posted (id : String) : Java (Option TrentMessage) → List Post
  | .ok (some message) => [⟨id, message⟩]
  | _ => []

/-- The key of the sender is made from its id. -/
def notify (o : Office) (mail : Mail) : Java Unit × Office :=
  match mail.content with
  | .error e => (.error e, o)
  | .ok none => (.ok (), o)
  | .ok (some request) =>
      let r := T.resolve o.solvers (.ok (some request)) (T.senderKey mail.senderId) mail.draws
      (r.sent.map fun _ => (), ⟨r.solvers, o.sent ++ posted request.contract.contractId r.sent⟩)

def office : Machine Office Mail (Java Unit) := ⟨T.notify⟩

/-! ### What one message does -/

variable {T}

def fileOf (solvers : Solvers) (request : Request) : SigmaContract × TrentSolver :=
  (solvers request.contract.contractId).getD (request.contract, TrentSolver.initial)

def callOf (request : Request) (senderK : ElGamalKey) (d : TrentDraws) : Call :=
  ⟨request.m, request.round, ⟨d.ref, decimal senderK.publicKey⟩, d.name, d.s⟩

inductive Says (T : TrentService) (request : Request) (mail : Mail) :
    Java (Option Answer) → List Post → Prop where
  | nothing (answer : Java (Option Answer)) : Says T request mail answer []
  | dishonest : Says T request mail (.ok none)
      [⟨request.contract.contractId, .dishonest mail.senderId⟩]
  | answer (a : Answer) (signatures : List (ℤ × SigmaSignature))
      (h : T.signAnswer request.contract (T.json a) mail.draws = .ok signatures) :
      Says T request mail (.ok (some a))
        [⟨request.contract.contractId, .answer a (T.json a) signatures⟩]

/-- A message changes nothing, or it is one call of the solver of the contract it names. -/
inductive Handles (T : TrentService) (o : Office) (mail : Mail) : Office → Prop where
  | ignored : Handles T o mail o
  | solved (request : Request) (hcontent : mail.content = .ok (some request))
      (hchecks : T.checks request (T.senderKey mail.senderId) = .ok true) (posts : List Post)
      (hwritten : Says T request mail ((TrentSolver.machine
        (T.arbiter (fileOf o.solvers request).1)).out (fileOf o.solvers request).2
          (callOf request (T.senderKey mail.senderId) mail.draws)) posts) :
      Handles T o mail ⟨fun id => if id = request.contract.contractId then
          some ((fileOf o.solvers request).1, (TrentSolver.machine
            (T.arbiter (fileOf o.solvers request).1)).next (fileOf o.solvers request).2
              (callOf request (T.senderKey mail.senderId) mail.draws))
        else o.solvers id, o.sent ++ posts⟩

theorem solve_eq (T : TrentService) (solvers : Solvers) (request : Request)
    (senderK : ElGamalKey) (d : TrentDraws) : T.solve solvers request senderK d =
      ((TrentSolver.machine (T.arbiter (fileOf solvers request).1)).out (fileOf solvers request).2
        (callOf request senderK d), fun id => if id = request.contract.contractId then
          some ((fileOf solvers request).1, (TrentSolver.machine
            (T.arbiter (fileOf solvers request).1)).next (fileOf solvers request).2
              (callOf request senderK d))
        else solvers id) := by
  unfold fileOf SigmaContract.contractId
  rfl

theorem says_posted {request : Request} {mail : Mail} (answer : Java (Option Answer)) :
    Says T request mail answer (posted request.contract.contractId (do
      match ← answer with
      | none => return some (.dishonest (T.senderKey mail.senderId).publicKey)
      | some a =>
          let text := T.json a
          let signatures ← T.signAnswer request.contract text mail.draws
          return some (.answer a text signatures))) := by
  rcases answer with e | _ | a
  · exact .nothing _
  · exact .dishonest
  · cases hsign : T.signAnswer request.contract (T.json a) mail.draws with
    | error e =>
      rw [ok_bind]
      dsimp only
      rw [hsign]
      exact .nothing _
    | ok signatures =>
      rw [ok_bind]
      dsimp only
      rw [hsign]
      exact .answer a signatures hsign

/-- **What one message does.** -/
theorem notify_handles (T : TrentService) (o : Office) (mail : Mail) :
    Handles T o mail (T.office.next o mail) := by
  show Handles T o mail (T.notify o mail).2
  have hsame : Handles T o mail ⟨o.solvers, o.sent ++ []⟩ := by
    rw [List.append_nil]
    exact .ignored
  unfold notify
  rcases hcontent : mail.content with e | _ | request
  · exact .ignored
  · exact .ignored
  · dsimp only
    rw [resolve]
    dsimp only
    rcases hchecks : T.checks request (T.senderKey mail.senderId) with e | _ | _
    · exact hsame
    · exact hsame
    · dsimp only
      rw [solve_eq]
      dsimp only
      exact .solved request hcontent hchecks _ (says_posted _)

def outOf (T : TrentService) (o : Office) (request : Request) (mail : Mail) : Java (Option Answer) :=
  (TrentSolver.machine (T.arbiter (fileOf o.solvers request).1)).out (fileOf o.solvers request).2
    (callOf request (T.senderKey mail.senderId) mail.draws)

theorem next_sent {o : Office} {mail : Mail} {request : Request}
    (hcontent : mail.content = .ok (some request))
    (hchecks : T.checks request (T.senderKey mail.senderId) = .ok true) :
    (T.office.next o mail).sent = o.sent ++ posted request.contract.contractId (do
      match ← outOf T o request mail with
      | none => return some (.dishonest (T.senderKey mail.senderId).publicKey)
      | some a =>
          let text := T.json a
          let signatures ← T.signAnswer request.contract text mail.draws
          return some (.answer a text signatures)) := by
  show (T.notify o mail).2.sent = _
  unfold notify
  rw [hcontent]
  dsimp only
  rw [resolve]
  dsimp only
  rw [hchecks]
  dsimp only
  rw [solve_eq]
  rfl

theorem sent_of_answer {o : Office} {mail : Mail} {request : Request}
    (hcontent : mail.content = .ok (some request))
    (hchecks : T.checks request (T.senderKey mail.senderId) = .ok true) {a : Answer}
    (hout : outOf T o request mail = .ok (some a)) {signatures : List (ℤ × SigmaSignature)}
    (hsign : T.signAnswer request.contract (T.json a) mail.draws = .ok signatures) :
    (T.office.next o mail).sent =
      o.sent ++ [⟨request.contract.contractId, .answer a (T.json a) signatures⟩] := by
  rw [next_sent hcontent hchecks, hout, ok_bind]
  dsimp only
  rw [hsign]
  rfl

theorem sent_of_error {o : Office} {mail : Mail} {request : Request}
    (hcontent : mail.content = .ok (some request))
    (hchecks : T.checks request (T.senderKey mail.senderId) = .ok true) {e : JavaException}
    (hout : outOf T o request mail = .error e) : (T.office.next o mail).sent = o.sent := by
  rw [next_sent hcontent hchecks, hout]
  exact List.append_nil _

/-! ### Contracts apart -/

theorem Says.contractId {request : Request} {mail : Mail} {answer : Java (Option Answer)}
    {posts : List Post} (h : Says T request mail answer posts) :
    ∀ post ∈ posts, post.contractId = request.contract.contractId := by
  cases h with
  | nothing => exact fun _ hpost => absurd hpost List.not_mem_nil
  | dishonest =>
    intro post hpost
    rw [List.mem_singleton.mp hpost]
  | answer a signatures h =>
    intro post hpost
    rw [List.mem_singleton.mp hpost]

theorem Says.id_eq {request : Request} {mail : Mail} {answer : Java (Option Answer)}
    {posts : List Post} (h : Says T request mail answer posts) {id : String}
    {message : TrentMessage} (hmem : ⟨id, message⟩ ∈ posts) : id = request.contract.contractId :=
  h.contractId _ hmem

/-- An answer that is sent is the one that the solver gave, signed for the parties. -/
theorem Says.answered {request : Request} {mail : Mail} {answer : Java (Option Answer)}
    {posts : List Post} (h : Says T request mail answer posts) {id : String} {a : Answer}
    {text : String} {signatures : List (ℤ × SigmaSignature)}
    (hmem : ⟨id, .answer a text signatures⟩ ∈ posts) :
    answer = .ok (some a) ∧ T.signAnswer request.contract text mail.draws = .ok signatures := by
  cases h with
  | nothing => exact absurd hmem List.not_mem_nil
  | dishonest =>
    obtain ⟨-, hmessage⟩ := Post.mk.inj (List.mem_singleton.mp hmem)
    exact absurd hmessage (by simp)
  | answer a' signatures' hsign =>
    obtain ⟨-, hmessage⟩ := Post.mk.inj (List.mem_singleton.mp hmem)
    obtain ⟨rfl, rfl, rfl⟩ := TrentMessage.answer.inj hmessage
    exact ⟨rfl, hsign⟩

/-- A message that does not name the contract changes nothing about it. -/
theorem about_next_of_not {mail : Mail} {id : String} (h : ¬ mail.Names id) (o : Office) :
    (T.office.next o mail).about id = o.about id := by
  have hhandles := notify_handles T o mail
  generalize T.office.next o mail = o' at hhandles ⊢
  cases hhandles with
  | ignored => rfl
  | solved request hcontent hchecks posts hwritten =>
    have hne : id ≠ request.contract.contractId := fun heq => h ⟨request, hcontent, heq.symm⟩
    have hposts : posts.filter (fun post => post.contractId = id) = [] := by
      refine List.filter_eq_nil_iff.mpr fun post hpost => ?_
      rw [hwritten.contractId post hpost, decide_eq_true_eq]
      exact hne.symm
    unfold Office.about
    dsimp only
    rw [if_neg hne, List.filter_append, hposts, List.append_nil]

theorem resolve_local {solvers solvers' : Solvers} {request : Request}
    (h : solvers request.contract.contractId = solvers' request.contract.contractId)
    (senderK : ElGamalKey) (d : TrentDraws) :
    (T.resolve solvers (.ok (some request)) senderK d).sent =
        (T.resolve solvers' (.ok (some request)) senderK d).sent ∧
      (T.resolve solvers (.ok (some request)) senderK d).solvers request.contract.contractId =
        (T.resolve solvers' (.ok (some request)) senderK d).solvers request.contract.contractId := by
  have hfile : fileOf solvers request = fileOf solvers' request := by rw [fileOf, fileOf, h]
  rw [resolve, resolve]
  dsimp only
  rcases T.checks request senderK with e | _ | _
  · exact ⟨rfl, h⟩
  · exact ⟨rfl, h⟩
  · dsimp only
    rw [solve_eq, solve_eq, hfile]
    dsimp only
    rw [if_pos rfl, if_pos rfl]
    exact ⟨rfl, rfl⟩

/-- A message that names the contract changes what is about it, whatever else there is. -/
theorem about_next {mail : Mail} {id : String} (h : mail.Names id) {o o' : Office}
    (hsame : o.about id = o'.about id) :
    (T.office.next o mail).about id = (T.office.next o' mail).about id := by
  obtain ⟨request, hcontent, rfl⟩ := h
  obtain ⟨hsolver, hsent⟩ := Prod.mk.inj hsame
  obtain ⟨hposted, hnext⟩ :=
    resolve_local (T := T) hsolver (T.senderKey mail.senderId) mail.draws
  show (T.notify o mail).2.about _ = (T.notify o' mail).2.about _
  unfold notify Office.about
  rw [hcontent]
  dsimp only
  rw [hposted, hnext, List.filter_append, List.filter_append, List.map_append, List.map_append,
    hsent]

/-- **What is about a contract is what the requests for it made.** -/
theorem about_run (T : TrentService) (o : Office) (mails : List Mail) (id : String) :
    (T.office.run o mails).about id =
      (T.office.run o (mails.filter fun mail => mail.Names id)).about id :=
  T.office.run_filter (R := fun o o' => o.about id = o'.about id)
    (fun s _ _ h hmail => (about_next_of_not hmail s).trans h)
    (fun _ _ _ h hmail => about_next hmail h) rfl mails

/-! ### The first request -/

theorem about_single {o : Office} {id : String} {message : TrentMessage}
    (h : o.sent = [⟨id, message⟩]) : (o.about id).2 = [message] := by
  unfold Office.about
  dsimp only
  rw [h, List.filter_cons_of_pos (by simp), List.filter_nil]
  rfl

/-- What is said about a contract when it is named for the first time. -/
theorem about_first {mails : List Mail} {mail : Mail} (request : Request)
    (hfirst : ∀ m ∈ mails, ¬ m.Names request.contract.contractId)
    (hcontent : mail.content = .ok (some request))
    (hchecks : T.checks request (T.senderKey mail.senderId) = .ok true) (hround : 0 ≤ request.round)
    (hopens : request.round = 1 → ∃ sigs, TrentSolver.resolveToken (T.arbiter request.contract)
      (callOf request (T.senderKey mail.senderId) mail.draws) = .ok sigs)
    (hsigns : ∀ text, ∃ signatures,
      T.signAnswer request.contract text mail.draws = .ok signatures) :
    ((T.office.run .initial (mails ++ [mail])).about request.contract.contractId).2.map
        TrentMessage.verdict =
      if request.round = 0 then [some .cancelled]
      else if request.round = 1 then [some .opened] else [] := by
  have hbefore : (T.office.run .initial mails).about request.contract.contractId =
      Office.initial.about request.contract.contractId := by
    rw [about_run, List.filter_eq_nil_iff.mpr fun m hm => by simpa using hfirst m hm]
    rfl
  have hout : outOf T .initial request mail = _ :=
    TrentSolver.out_initial (T.arbiter request.contract)
      (c := callOf request (T.senderKey mail.senderId) mail.draws) hround
  have hsaid : ∀ a, outOf T .initial request mail = .ok (some a) →
      ((T.office.next .initial mail).about request.contract.contractId).2.map
        TrentMessage.verdict = [some a.verdict] := by
    intro a ha
    obtain ⟨signatures, hsign⟩ := hsigns (T.json a)
    rw [about_single (sent_of_answer hcontent hchecks ha hsign)]
    rfl
  rw [Machine.run_concat, about_next ⟨request, hcontent, rfl⟩ hbefore]
  by_cases h0 : request.round = 0
  · rw [if_pos h0]
    exact hsaid _ (hout.trans (if_pos h0))
  · rw [if_neg h0]
    have hrest := hout.trans (if_neg h0)
    by_cases h1 : request.round = 1
    · obtain ⟨sigs, hsigs⟩ := hopens h1
      have hopened := hrest.trans (if_pos h1)
      rw [hsigs] at hopened
      rw [if_pos h1]
      exact hsaid _ hopened
    · have hnone := sent_of_error hcontent hchecks (hrest.trans (if_neg h1))
      rw [if_neg h1]
      unfold Office.about
      rw [hnone]
      rfl

/-! ### One verdict -/

/-- The solver of a contract is inclined to every verdict that was sent about it. -/
structure Office.Inv (o : Office) : Prop where
  settled : ∀ id c st, o.solvers id = some (c, st) → st.Settled
  inclined : ∀ id m v, ⟨id, m⟩ ∈ o.sent → m.verdict = some v →
    ∃ c st, o.solvers id = some (c, st) ∧ st.Inclined v

theorem Office.initial_inv : Office.initial.Inv where
  settled _ _ _ h := absurd h (by simp [Office.initial])
  inclined _ _ _ h := absurd h List.not_mem_nil

theorem fileOf_settled {o : Office} (ho : o.Inv) (request : Request) :
    (fileOf o.solvers request).2.Settled := by
  unfold fileOf
  cases hfile : o.solvers request.contract.contractId with
  | none => exact TrentSolver.initial_settled
  | some file => exact ho.settled _ file.1 file.2 hfile

theorem Office.Inv.next {o : Office} (ho : o.Inv) (T : TrentService) (mail : Mail) :
    (T.office.next o mail).Inv := by
  have hhandles := notify_handles T o mail
  generalize T.office.next o mail = o' at hhandles ⊢
  cases hhandles with
  | ignored => exact ho
  | solved request hcontent hchecks posts hwritten =>
    have hsettled := fileOf_settled ho request
    constructor
    · intro id c st hfile
      dsimp only at hfile
      split at hfile
      · obtain ⟨rfl, rfl⟩ := Prod.mk.inj (Option.some.inj hfile)
        exact TrentSolver.next_settled _ _ _ hsettled
      · exact ho.settled id c st hfile
    · intro id m v hmem hv
      dsimp only
      rcases List.mem_append.mp hmem with hold | hnew
      · obtain ⟨c, st, hfile, hinclined⟩ := ho.inclined id m v hold hv
        by_cases hid : id = request.contract.contractId
        · subst hid
          have hst : fileOf o.solvers request = (c, st) := by rw [fileOf, hfile, Option.getD_some]
          rw [if_pos rfl]
          refine ⟨_, _, rfl, ?_⟩
          rw [hst] at hsettled ⊢
          exact hinclined.next _ hsettled _
        · rw [if_neg hid]
          exact ⟨c, st, hfile, hinclined⟩
      · have hid : id = request.contract.contractId := hwritten.id_eq hnew
        rw [if_pos hid]
        refine ⟨_, _, rfl, ?_⟩
        generalize hanswer : (TrentSolver.machine _).out _ _ = answer at hwritten
        cases hwritten with
        | nothing => exact absurd hnew List.not_mem_nil
        | dishonest =>
          obtain ⟨-, rfl⟩ := Post.mk.inj (List.mem_singleton.mp hnew)
          exact absurd hv (by simp [TrentMessage.verdict])
        | answer a signatures hsign =>
          obtain ⟨-, rfl⟩ := Post.mk.inj (List.mem_singleton.mp hnew)
          obtain rfl := Option.some.inj hv
          exact TrentSolver.inclined_of_answer hsettled hanswer

theorem run_inv (T : TrentService) (mails : List Mail) : (T.office.run .initial mails).Inv :=
  T.office.invariant Office.initial_inv (fun _ mail h => h.next T mail) mails

theorem Office.Inv.unique {o : Office} (ho : o.Inv) {id : String} {m m' : TrentMessage}
    {v v' : Verdict} (hm : m ∈ (o.about id).2) (hm' : m' ∈ (o.about id).2)
    (hv : m.verdict = some v) (hv' : m'.verdict = some v') : v = v' := by
  obtain ⟨c, st, hfile, hinclined⟩ := ho.inclined id m v (Office.mem_about.mp hm) hv
  obtain ⟨c', st', hfile', hinclined'⟩ := ho.inclined id m' v' (Office.mem_about.mp hm') hv'
  obtain ⟨-, rfl⟩ := Prod.mk.inj (Option.some.inj (hfile.symm.trans hfile'))
  exact hinclined.unique hinclined'

/-- **Verdicts are given apart, and once.**  In every run, what has been sent about a contract
and where its solver is are the same as if only the requests for this contract had come; and
all verdicts that have been sent about it are one. -/
theorem verdicts_apart (T : TrentService) (mails : List Mail) (id : String) :
    (T.office.run .initial mails).about id =
      (T.office.run .initial (mails.filter fun mail => mail.Names id)).about id ∧
    ∃ v, ∀ m ∈ ((T.office.run .initial mails).about id).2, ∀ v', m.verdict = some v' → v' = v := by
  constructor
  · exact about_run T .initial mails id
  · by_cases h : ∃ m ∈ ((T.office.run .initial mails).about id).2, ∃ v, m.verdict = some v
    · obtain ⟨m, hm, v, hv⟩ := h
      exact ⟨v, fun m' hm' v' hv' => (run_inv T mails).unique hm' hm hv' hv⟩
    · exact ⟨.opened, fun m hm v' hv' => absurd ⟨m, hm, v', hv'⟩ h⟩

end TrentService

end SXP.Sigma
