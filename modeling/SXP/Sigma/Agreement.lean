import SXP.Sigma.ChooseTrent

/-!
# Agreement on Trent

A party announces a user once: the sum picks one when all numbers are noted, and
from then on no number is taken any more, or the party has started again and its
arrays are too short for a round to be complete.  Whoever calls `nextStep` has
noted an announcement of every party, and each of them was of the key it holds.
So all that have called it hold the key that any one party has announced
(`trent_agreed`), in every order of the deliveries and whatever is lost.
-/

namespace SXP.Sigma

open SXP.Lib SXP.Lib.Java

namespace ProtocolChooseTrent

theorem count_cases (j : ℕ) (number : ℤ) (c : ProtocolChooseTrent) :
    c.count j number = c ∨
      c.count j number = { c with finalNumber := c.finalNumber + number }.mark 1 j := by
  unfold count
  split
  · exact Or.inr rfl
  · exact Or.inl rfl

/-! ### One party -/

structure Consistent (candidates : List User) (c : ProtocolChooseTrent) : Prop where
  sized : c.Sized (c.N + 1) ∨ c.Sized c.N
  list : ∀ u ∈ c.list, u ∈ candidates
  chosen : ∀ pk, .trent pk ∈ c.sent → ∃ u ∈ candidates, u.key.publicKey = pk
  once : ∀ pk pk', .trent pk ∈ c.sent → .trent pk' ∈ c.sent → pk = pk'
  done : ∀ pk, .trent pk ∈ c.sent → c.Sized (c.N + 1) → c.awaits 1 = false ∧ c.trentKey ≠ none
  pending : ∀ u, .choice u ∈ c.pending → .trent u.key.publicKey ∈ c.sent

theorem not_both_sized {c : ProtocolChooseTrent} (h : c.Sized c.N) : ¬ c.Sized (c.N + 1) := by
  intro h'
  have := (h 0).symm.trans (h' 0)
  omega

theorem initial_consistent (parties : List ElGamalKey) (users : List User) (i : ℕ) (number : ℤ) :
    Consistent (Candidates.setup parties users) (initial parties users i number) where
  sized := Or.inl fun _ => List.length_replicate
  list _ hu := hu
  chosen _ h := absurd h List.not_mem_nil
  once _ _ h := absurd h List.not_mem_nil
  done _ h := absurd h List.not_mem_nil
  pending _ h := absurd h List.not_mem_nil

theorem Consistent.quiet {candidates : List User} {c c' : ProtocolChooseTrent}
    (h : Consistent candidates c) (hN : c'.N = c.N) (hsized : ∀ k, c'.Sized k ↔ c.Sized k)
    (hlist : ∀ u ∈ c'.list, u ∈ c.list)
    (hsent : ∀ pk, .trent pk ∈ c'.sent ↔ .trent pk ∈ c.sent)
    (hpending : ∀ u, .choice u ∈ c'.pending → .choice u ∈ c.pending)
    (hkey : c.trentKey ≠ none → c'.trentKey ≠ none)
    (hawaits : c.awaits 1 = false → c'.awaits 1 = false) : Consistent candidates c' where
  sized := by
    rw [hN, hsized, hsized]
    exact h.sized
  list u hu := h.list u (hlist u hu)
  chosen pk hpk := h.chosen pk ((hsent pk).mp hpk)
  once pk pk' hpk hpk' := h.once pk pk' ((hsent pk).mp hpk) ((hsent pk').mp hpk')
  done pk hpk hs := by
    rw [hN, hsized] at hs
    obtain ⟨hnone, htrent⟩ := h.done pk ((hsent pk).mp hpk) hs
    exact ⟨hawaits hnone, hkey htrent⟩
  pending u hu := (hsent _).mpr (h.pending u (hpending u hu))

theorem Consistent.mark {candidates : List User} {c : ProtocolChooseTrent}
    (h : Consistent candidates c) (r : Fin 3) (k : ℕ) : Consistent candidates (c.mark r k) :=
  h.quiet rfl (fun _ => sized_mark r k c) (fun _ hu => hu) (fun _ => Iff.rfl) (fun _ hu => hu) id
    awaits_mark

theorem Consistent.setList {candidates : List User} {c : ProtocolChooseTrent}
    (h : Consistent candidates c) {list : List User} (hlist : ∀ u ∈ list, u ∈ c.list) :
    Consistent candidates (c.setList list) :=
  h.quiet rfl (fun _ => Iff.rfl) hlist (fun _ => Iff.rfl) (fun _ hu => hu) id id

theorem Consistent.count {candidates : List User} {c : ProtocolChooseTrent}
    (h : Consistent candidates c) (j : ℕ) (number : ℤ) : Consistent candidates (c.count j number) := by
  rcases count_cases j number c with heq | heq
  · rwa [heq]
  · rw [heq]
    refine Consistent.mark ?_ 1 j
    exact h.quiet rfl (fun _ => Iff.rfl) (fun _ hu => hu) (fun _ => Iff.rfl) (fun _ hu => hu) id id

theorem Consistent.ask {candidates : List User} {c : ProtocolChooseTrent}
    (h : Consistent candidates c) : Consistent candidates c.ask := by
  refine h.quiet rfl (fun _ => Iff.rfl) (fun _ hu => hu) (fun pk => ?_) (fun u hu => ?_) id id
  · simp [ProtocolChooseTrent.ask, send, suspend]
  · simpa [ProtocolChooseTrent.ask, send, suspend] using hu

theorem Consistent.again {candidates : List User} {c : ProtocolChooseTrent}
    (h : Consistent candidates c) : Consistent candidates c.again := by
  refine Consistent.ask ⟨Or.inr (sized_reset c), h.list, h.chosen, h.once, ?_, h.pending⟩
  intro pk _ hs
  exact absurd hs (not_both_sized (sized_reset c))

theorem Consistent.resume {candidates : List User} {c : ProtocolChooseTrent}
    (h : Consistent candidates c) (k : ℕ) : Consistent candidates (c.resume k) :=
  h.quiet rfl (fun _ => Iff.rfl) (fun _ hu => hu) (fun _ => Iff.rfl)
    (fun _ hu => List.mem_of_mem_eraseIdx hu) id id

/-- **The choice is made once**: there was none before, and no number is awaited after it. -/
theorem Consistent.choose {candidates : List User} {c : ProtocolChooseTrent}
    (h : Consistent candidates c) (hcomplete : c.complete 1 = true) {trentUser : User}
    (huser : trentUser ∈ c.list) :
    Consistent candidates ((c.mark 1 c.N).choose trentUser) := by
  have hsized : c.Sized (c.N + 1) := by
    refine h.sized.resolve_right fun hs => ?_
    rw [not_complete_of_sized hs] at hcomplete
    exact Bool.false_ne_true hcomplete
  have hfirst : ∀ pk, .trent pk ∉ c.sent := by
    intro pk hpk
    have hawaits := awaits_of_complete hcomplete
    rw [(h.done pk hpk hsized).1] at hawaits
    exact Bool.false_ne_true hawaits
  have hsent : ∀ pk, .trent pk ∈ ((c.mark 1 c.N).choose trentUser).sent →
      pk = trentUser.key.publicKey := by
    intro pk hpk
    rcases List.mem_append.mp hpk with hpk | hpk
    · exact absurd hpk (hfirst pk)
    · exact ChooseMessage.trent.inj (List.mem_singleton.mp hpk)
  refine ⟨?_, h.list, ?_, ?_, ?_, ?_⟩
  · exact Or.inl ((sized_mark 1 c.N c).mpr hsized)
  · intro pk hpk
    exact ⟨trentUser, h.list trentUser huser, (hsent pk hpk).symm⟩
  · intro pk pk' hpk hpk'
    rw [hsent pk hpk, hsent pk' hpk']
  · intro pk _ _
    exact ⟨not_awaits_of_complete hsized hcomplete, Option.some_ne_none _⟩
  · intro u hu
    rcases List.mem_append.mp hu with hu | hu
    · exact absurd (h.pending u hu) (hfirst _)
    · obtain rfl := Continuation.choice.inj (List.mem_singleton.mp hu)
      exact List.mem_append_right _ (List.mem_singleton_self _)

theorem count_fields (j : ℕ) (number : ℤ) (c : ProtocolChooseTrent) :
    (c.count j number).parties = c.parties ∧ (c.count j number).senderKeyId = c.senderKeyId ∧
      (c.count j number).list = c.list ∧ (c.count j number).sent = c.sent ∧
      (c.count j number).stepped = c.stepped := by
  rcases count_cases j number c with heq | heq
  · rw [heq]
    exact ⟨rfl, rfl, rfl, rfl, rfl⟩
  · rw [heq]
    exact ⟨rfl, rfl, rfl, rfl, rfl⟩

theorem count_N (j : ℕ) (number : ℤ) (c : ProtocolChooseTrent) : (c.count j number).N = c.N := by
  rw [N, N, (count_fields j number c).1]

theorem Consistent.retain {candidates : List User} {c : ProtocolChooseTrent}
    (h : Consistent candidates c) {list list2 : List User}
    (hretain : Candidates.retain c.list list2 = (.ok (), list)) (j : ℕ) :
    Consistent candidates ((c.setList list).mark 0 j) := by
  have hsub := Candidates.retain_sublist c.list list2
  rw [hretain] at hsub
  exact (h.setList fun u hu => hsub.subset hu).mark 0 j

theorem Consistent.announce {candidates : List User} {c : ProtocolChooseTrent}
    (h : Consistent candidates c) : Consistent candidates c.announce := by
  have hsort : Consistent candidates ((c.mark 0 c.N).setList (Candidates.sort c.list)) :=
    (h.mark 0 c.N).setList fun u hu => Candidates.mem_sort.mp hu
  refine (hsort.mark 1 c.senderKeyId).quiet rfl (fun _ => Iff.rfl) (fun _ hu => hu) (fun pk => ?_)
    (fun _ hu => hu) id id
  simp [ProtocolChooseTrent.announce, send]

/-- **Every step keeps a party consistent.** -/
theorem Moves.consistent {candidates : List User} {c c' : ProtocolChooseTrent} {e : ChooseEvent}
    (hmoves : Moves c e c') (h : Consistent candidates c) : Consistent candidates c' := by
  cases hmoves with
  | stay => exact h
  | start => exact h.ask
  | thrown _ _ hlist => exact h.setList hlist
  | listed _ _ hretain => exact h.retain hretain _
  | announced _ _ hretain => exact (h.retain hretain _).announce
  | counted => exact h.count _ _
  | nobody => exact (h.count _ _).mark _ _
  | @chose _ number j _ trentUser hj hawaits hcomplete huser =>
    rw [← count_N j number c]
    exact (h.count j number).choose hcomplete (by rwa [(count_fields j number c).2.2.1])
  | adopted hj hawaits hkey =>
    refine Consistent.mark ?_ _ _
    exact h.quiet rfl (fun _ => Iff.rfl) (fun _ hu => hu) (fun _ => Iff.rfl) (fun _ hu => hu)
      (fun _ => Option.some_ne_none _) id
  | agreed => exact h.mark _ _
  | finished =>
    refine Consistent.quiet ((h.mark _ _).mark _ _) rfl (fun _ => Iff.rfl) (fun _ hu => hu)
      (fun _ => Iff.rfl) (fun _ hu => hu) id id
  | disagreed => exact h.again
  | resumed => exact (h.resume _).mark _ _
  | confirmed => exact (h.resume _).mark _ _
  | regretted => exact ((h.resume _).mark _ _).again

theorem Moves.static {c c' : ProtocolChooseTrent} {e : ChooseEvent} (hmoves : Moves c e c') :
    c'.parties = c.parties ∧ c'.senderKeyId = c.senderKeyId := by
  cases hmoves with
  | @counted _ number j =>
    obtain ⟨hparties, hid, -⟩ := count_fields j number c
    exact ⟨hparties, hid⟩
  | @nobody _ number j =>
    obtain ⟨hparties, hid, -⟩ := count_fields j number c
    rw [mark_parties, mark_senderKeyId]
    exact ⟨hparties, hid⟩
  | @chose _ number j _ trentUser =>
    obtain ⟨hparties, hid, -⟩ := count_fields j number c
    rw [choose_parties, choose_senderKeyId, mark_parties, mark_senderKeyId]
    exact ⟨hparties, hid⟩
  | @regretted k =>
    rw [again_parties, again_senderKeyId, mark_parties, mark_senderKeyId]
    exact ⟨rfl, rfl⟩
  | _ => exact ⟨rfl, rfl⟩

theorem Moves.sent {c c' : ProtocolChooseTrent} {e : ChooseEvent} (hmoves : Moves c e c') :
    ∃ messages, c'.sent = c.sent ++ messages := by
  cases hmoves with
  | start | announced | disagreed => exact ⟨_, rfl⟩
  | @counted _ number j =>
    obtain ⟨-, -, -, hsent, -⟩ := count_fields j number c
    exact ⟨[], hsent.trans (List.append_nil _).symm⟩
  | @nobody _ number j =>
    obtain ⟨-, -, -, hsent, -⟩ := count_fields j number c
    refine ⟨[], ?_⟩
    rw [List.append_nil, mark_sent, hsent]
  | @chose _ number j _ trentUser =>
    obtain ⟨-, -, -, hsent, -⟩ := count_fields j number c
    refine ⟨[.trent trentUser.key.publicKey], ?_⟩
    rw [choose_sent, mark_sent, hsent]
  | @regretted k trentUser =>
    refine ⟨[.list c.list], ?_⟩
    rw [again_sent, mark_sent]
    rfl
  | _ => exact ⟨[], (List.append_nil _).symm⟩

/-! ### What a party has heard -/

/-- `announced j pk` says that the party `j` has announced the key `pk`.  Whoever is noted
has announced the key that is held, and `nextStep` is called when all are noted. -/
structure Heard (announced : ℕ → ℤ → Prop) (c : ProtocolChooseTrent) : Prop where
  noted : c.Sized (c.N + 1) → ∀ j < c.N, (c.hasSent 2)[j]? = some true →
    ∃ key, c.trentKey = some key ∧ announced j key.publicKey
  stepped : c.stepped = true → c.Sized (c.N + 1) ∧ c.awaits 2 = false

theorem initial_heard (announced : ℕ → ℤ → Prop) (parties : List ElGamalKey) (users : List User)
    (i : ℕ) (number : ℤ) : Heard announced (initial parties users i number) where
  noted _ j _ h := by
    rw [initial, List.getElem?_replicate] at h
    split at h <;> simp at h
  stepped h := absurd h Bool.false_ne_true

theorem Heard.mono {announced announced' : ℕ → ℤ → Prop} {c : ProtocolChooseTrent}
    (h : Heard announced c) (hmono : ∀ j pk, announced j pk → announced' j pk) :
    Heard announced' c where
  noted hs j hj hsent := by
    obtain ⟨key, hkey, ha⟩ := h.noted hs j hj hsent
    exact ⟨key, hkey, hmono j _ ha⟩
  stepped := h.stepped

section

variable {announced : ℕ → ℤ → Prop} {c c' : ProtocolChooseTrent}

theorem Heard.quiet (h : Heard announced c) (hN : c'.N = c.N) (hsized : ∀ k, c'.Sized k ↔ c.Sized k)
    (hsent : c'.hasSent 2 = c.hasSent 2)
    (hkey : ∀ key, c.trentKey = some key → c'.trentKey = some key)
    (hstepped : c'.stepped = c.stepped) : Heard announced c' where
  noted := by
    rw [hN, hsized, hsent]
    intro hs j hj hmark
    obtain ⟨key, htrent, ha⟩ := h.noted hs j hj hmark
    exact ⟨key, hkey key htrent, ha⟩
  stepped := by
    rw [hN, hsized, hstepped, awaits, hsent]
    exact h.stepped

theorem Heard.mark (h : Heard announced c) {r : Fin 3} (hr : r ≠ 2) (k : ℕ) :
    Heard announced (c.mark r k) :=
  h.quiet rfl (fun _ => sized_mark r k c) (mark_ne hr.symm k c) (fun _ hkey => hkey) rfl

theorem Heard.count (h : Heard announced c) (j : ℕ) (number : ℤ) :
    Heard announced (c.count j number) := by
  rcases count_cases j number c with heq | heq
  · rwa [heq]
  · rw [heq]
    refine Heard.mark ?_ (by decide) j
    exact h.quiet rfl (fun _ => Iff.rfl) rfl (fun _ hkey => hkey) rfl

theorem Heard.setList (h : Heard announced c) (list : List User) :
    Heard announced (c.setList list) :=
  h.quiet rfl (fun _ => Iff.rfl) rfl (fun _ hkey => hkey) rfl

theorem Heard.send (h : Heard announced c) (m : ChooseMessage) : Heard announced (c.send m) :=
  h.quiet rfl (fun _ => Iff.rfl) rfl (fun _ hkey => hkey) rfl

theorem Heard.announce (h : Heard announced c) : Heard announced c.announce :=
  ((((h.mark (by decide) c.N).setList (Candidates.sort c.list)).mark (by decide) c.senderKeyId).send
    (.number c.randomNumber))

theorem Heard.note (h : Heard announced c) {key : ElGamalKey} (hkey : c.trentKey = some key) {j : ℕ}
    (ha : announced j key.publicKey) : Heard announced (c.mark 2 j) where
  noted hs j' hj' hsent := by
    rcases mark_kept hsent with hold | ⟨-, rfl⟩
    · exact h.noted ((sized_mark 2 j c).mp hs) j' hj' hold
    · exact ⟨key, hkey, ha⟩
  stepped hstepped := by
    obtain ⟨hs, hawaits⟩ := h.stepped hstepped
    exact ⟨(sized_mark 2 j c).mpr hs, awaits_mark hawaits⟩

theorem Heard.again (hstepped : c.stepped = false) : Heard announced c.again where
  noted hs := absurd hs (not_both_sized (sized_again c))
  stepped h := absurd (hstepped.symm.trans h) Bool.false_ne_true

theorem Heard.adopt (h : Heard announced c) (hnone : c.trentKey = none) (key : ElGamalKey) :
    Heard announced (c.setTrent (some key)) where
  noted hs j hj hsent := by
    obtain ⟨key', hkey', -⟩ := h.noted hs j hj hsent
    exact absurd (hnone.symm.trans hkey') (by simp)
  stepped := h.stepped

theorem Heard.finish (h : Heard announced c) (hsized : c.Sized (c.N + 1))
    (hcomplete : c.complete 2 = true) : Heard announced (c.mark 2 c.N).nextStep where
  noted hs j hj hsent := by
    have hmark : ((c.mark 2 c.N).hasSent 2)[j]? = some true := hsent
    rcases mark_kept hmark with hold | ⟨-, rfl⟩
    · exact h.noted hsized j hj hold
    · exact absurd hj (lt_irrefl _)
  stepped _ := ⟨(sized_mark 2 c.N c).mpr hsized, not_awaits_of_complete hsized hcomplete⟩

/-- A party that has called `nextStep` is noted itself: the key that it holds is the one it
announced. -/
theorem Heard.own (h : Heard announced c) (hstepped : c.stepped = true)
    (hlt : c.senderKeyId < c.N) :
    ∃ key, c.trentKey = some key ∧ announced c.senderKeyId key.publicKey := by
  obtain ⟨hs, hawaits⟩ := h.stepped hstepped
  have hlen : c.senderKeyId < (c.hasSent 2).length := by
    rw [hs 2]
    omega
  exact h.noted hs c.senderKeyId hlt (noted_of_not_awaits hawaits hlen)

/-- **Every step keeps what a party has heard**, if announcements come from those who have
made them. -/
theorem Moves.heard {candidates : List User} {e : ChooseEvent} (hmoves : Moves c e c')
    (hc : Consistent candidates c) (h : Heard announced c) (hlt : c.senderKeyId < c.N)
    (hown : ∀ pk, announced c.senderKeyId pk ↔ .trent pk ∈ c.sent)
    (hbrings : ∀ senderId pk created j, e = .receive senderId (.trent pk) created →
      indexOf c.parties senderId = .ok j → announced j pk) : Heard announced c' := by
  cases hmoves with
  | stay => exact h
  | start => exact h.quiet rfl (fun _ => Iff.rfl) rfl (fun _ hkey => hkey) rfl
  | thrown => exact h.setList _
  | listed => exact (h.setList _).mark (by decide) _
  | announced => exact ((h.setList _).mark (by decide) _).announce
  | counted => exact h.count _ _
  | nobody => exact (h.count _ _).mark (by decide) _
  | @chose _ number j _ trentUser =>
    refine ((h.count j number).mark (r := 1) (by decide) c.N).quiet rfl (fun _ => Iff.rfl) rfl ?_ rfl
    intro key hkey
    exact congrArg some (congrArg (fun k => k.getD trentUser.key) hkey)
  | adopted hj hawaits hkey =>
    exact (h.adopt hkey _).note rfl (hbrings _ _ _ _ rfl hj)
  | agreed hj hawaits hkey => exact h.note hkey (hbrings _ _ _ _ rfl hj)
  | @finished _ j _ key hj hawaits hkey hcomplete =>
    have hnoted := h.note hkey (hbrings _ _ _ _ rfl hj)
    refine hnoted.finish ?_ hcomplete
    refine ((hc.mark 2 j).sized).resolve_right fun hs => ?_
    rw [not_complete_of_sized hs] at hcomplete
    exact Bool.false_ne_true hcomplete
  | disagreed hj hawaits =>
    refine Heard.again (Bool.eq_false_of_not_eq_true fun hstepped => ?_)
    rw [(h.stepped hstepped).2] at hawaits
    exact Bool.false_ne_true hawaits
  | resumed =>
    refine Heard.mark ?_ (by decide) _
    exact h.quiet rfl (fun _ => Iff.rfl) rfl (fun _ hkey => hkey) rfl
  | @confirmed k trentUser hrest hkey =>
    have hsent := hc.pending trentUser (List.mem_of_getElem? hrest)
    cases htrent : c.trentKey with
    | none =>
      -- with arrays of full length there is a key since the choice
      have hshort : ¬ c.Sized (c.N + 1) := fun hs => (hc.done _ hsent hs).2 htrent
      exact ⟨fun hs => absurd ((sized_mark 2 _ _).mp hs) hshort,
        fun hstepped => absurd (h.stepped hstepped).1 hshort⟩
    | some key =>
      have hresume : Heard announced (c.resume k) :=
        h.quiet rfl (fun _ => Iff.rfl) rfl (fun _ hkey => hkey) rfl
      refine hresume.note htrent ?_
      rw [hkey key htrent]
      exact (hown _).mpr hsent
  | @regretted k trentUser key hrest hkey hne =>
    refine Heard.again (c := (c.resume k).mark 2 c.senderKeyId)
      (Bool.eq_false_of_not_eq_true fun hstepped => ?_)
    -- the key that it holds is the one that it announced
    have hsent := hc.pending trentUser (List.mem_of_getElem? hrest)
    obtain ⟨key', hkey', ha⟩ := h.own hstepped hlt
    obtain rfl : key = key' := Option.some.inj (hkey.symm.trans hkey')
    exact hne (hc.once _ _ ((hown _).mp ha) hsent)

end

end ProtocolChooseTrent

/-! ### All parties -/

open ProtocolChooseTrent

/-- The parties of one contract, with the users that each of them knows and the number that
it draws. -/
structure Choosing (n : ℕ) where
  keys : Fin n → ElGamalKey
  users : Fin n → List User
  randomNumber : Fin n → ℤ
  distinct : Function.Injective fun i => (keys i).publicKey

namespace Choosing

/-- A party starts or goes on with a call, or a message of one party reaches another. -/
inductive Event (n : ℕ) where
  | start (j : Fin n)
  | resume (j : Fin n) (k : ℕ)
  | deliver (i j : Fin n) (m : ℕ) (created : ElGamalKey)

variable {n : ℕ} (C : Choosing n)

def parties : List ElGamalKey := List.ofFn fun j => (C.keys j).getPublicKeys

def initial (i : Fin n) : ProtocolChooseTrent :=
  ProtocolChooseTrent.initial C.parties (C.users i) i (C.randomNumber i)

/-- What an event is for the party it happens at; the id of the sender is authentic. -/
def localEvent (s : Fin n → ProtocolChooseTrent) : Event n → Option (Fin n × ChooseEvent)
  | .start j => some (j, .start)
  | .resume j k => some (j, .resume k)
  | .deliver i j m created =>
      (s i).sent[m]?.map fun message => (j, .receive (C.keys i).publicKey message created)

def machine : Machine (Fin n → ProtocolChooseTrent) (Event n) (Java Unit) where
  step s e :=
    match C.localEvent s e with
    | none => (.ok (), s)
    | some (j, e) =>
        let (result, c) := ProtocolChooseTrent.machine.step (s j) e
        (result, Function.update s j c)

theorem indexOf_parties {senderId : ℤ} {k : ℕ} : indexOf C.parties senderId = .ok k ↔
    ∃ j : Fin n, j.val = k ∧ (C.keys j).publicKey = senderId := by
  rw [← ElGamalKey.findIdx?_publicKey C.distinct, indexOf, parties]
  cases (List.ofFn fun j => (C.keys j).getPublicKeys).findIdx? fun key => key.publicKey == senderId with
  | none => simp
  | some i => simp

theorem create_eq (i : Fin n) :
    create C.parties (C.users i) (C.keys i) (C.randomNumber i) = .ok (C.initial i) := by
  rw [create, C.indexOf_parties.mpr ⟨i, rfl, rfl⟩, ok_bind]
  rfl

def Announced (s : Fin n → ProtocolChooseTrent) (j : ℕ) (pk : ℤ) : Prop :=
  ∃ i : Fin n, i.val = j ∧ .trent pk ∈ (s i).sent

structure Inv (s : Fin n → ProtocolChooseTrent) : Prop where
  parties : ∀ i, (s i).parties = C.parties
  own : ∀ i, (s i).senderKeyId = i
  consistent : ∀ i, Consistent (C.initial i).list (s i)
  heard : ∀ i, Heard (Announced s) (s i)

variable {C}

theorem announced_iff {s : Fin n → ProtocolChooseTrent} {i : Fin n} {pk : ℤ} :
    Announced s i pk ↔ .trent pk ∈ (s i).sent := by
  constructor
  · rintro ⟨i', hi, h⟩
    rwa [Fin.ext hi] at h
  · exact fun h => ⟨i, rfl, h⟩

theorem next_of_none {s : Fin n → ProtocolChooseTrent} {e : Event n}
    (h : C.localEvent s e = none) : C.machine.next s e = s := by
  simp only [Machine.next, machine, h]

theorem next_of_some {s : Fin n → ProtocolChooseTrent} {e : Event n} {j : Fin n} {e' : ChooseEvent}
    (h : C.localEvent s e = some (j, e')) : C.machine.next s e =
      Function.update s j (ProtocolChooseTrent.machine.next (s j) e') := by
  simp only [Machine.next, machine, h]

theorem initial_inv : C.Inv C.initial where
  parties _ := rfl
  own _ := rfl
  consistent i := initial_consistent C.parties (C.users i) i (C.randomNumber i)
  heard i := initial_heard _ C.parties (C.users i) i (C.randomNumber i)

theorem Inv.N_eq {s : Fin n → ProtocolChooseTrent} (h : C.Inv s) (i : Fin n) : (s i).N = n := by
  rw [N, h.parties i, Choosing.parties, List.length_ofFn]

theorem announced_of_local {s : Fin n → ProtocolChooseTrent} {e : Event n} {j : Fin n}
    {senderId pk : ℤ} {created : ElGamalKey} {k : ℕ}
    (h : C.localEvent s e = some (j, .receive senderId (.trent pk) created))
    (hk : indexOf C.parties senderId = .ok k) : Announced s k pk := by
  cases e with
  | start => simp [localEvent] at h
  | resume => simp [localEvent] at h
  | deliver i j' m created' =>
    rw [localEvent, Option.map_eq_some_iff] at h
    obtain ⟨message, hmessage, h⟩ := h
    simp only [Prod.mk.injEq, ChooseEvent.receive.injEq] at h
    obtain ⟨-, rfl, rfl, -⟩ := h
    obtain ⟨i', rfl, hkey⟩ := C.indexOf_parties.mp hk
    rw [C.distinct hkey]
    exact announced_iff.mpr (List.mem_of_getElem? hmessage)

theorem next_inv {s : Fin n → ProtocolChooseTrent} (h : C.Inv s) (e : Event n) :
    C.Inv (C.machine.next s e) := by
  cases hlocal : C.localEvent s e with
  | none => rwa [next_of_none hlocal]
  | some je =>
    obtain ⟨j, e'⟩ := je
    have hmoves := moves_next (s j) e'
    obtain ⟨hparties, hid⟩ := hmoves.static
    obtain ⟨messages, hsent⟩ := hmoves.sent
    rw [next_of_some hlocal]
    generalize ProtocolChooseTrent.machine.next (s j) e' = c at hmoves hparties hid hsent ⊢
    have hgrows : ∀ k pk, Announced s k pk → Announced (Function.update s j c) k pk := by
      rintro k pk ⟨i, rfl, hmem⟩
      refine ⟨i, rfl, ?_⟩
      by_cases hi : i = j
      · subst hi
        rw [Function.update_self, hsent]
        exact List.mem_append_left _ hmem
      · rwa [Function.update_of_ne hi]
    have hlt : (s j).senderKeyId < (s j).N := by
      rw [h.own j, h.N_eq j]
      exact j.isLt
    have hown : ∀ pk, Announced s (s j).senderKeyId pk ↔ .trent pk ∈ (s j).sent := by
      intro pk
      rw [h.own j]
      exact announced_iff
    have hheard := hmoves.heard (h.consistent j) (h.heard j) hlt hown fun senderId pk created k he hk =>
      announced_of_local (hlocal.trans (by rw [he])) (by rwa [h.parties j] at hk)
    have hcases : ∀ P : Fin n → ProtocolChooseTrent → Prop, P j c → (∀ i, P i (s i)) →
        ∀ i, P i (Function.update s j c i) := by
      intro P hj hother
      exact (Function.forall_update_iff s fun i c => P i c).mpr ⟨hj, fun i _ => hother i⟩
    exact ⟨hcases (fun _ c => c.parties = C.parties) (hparties.trans (h.parties j)) h.parties,
      hcases (fun i c => c.senderKeyId = i) (hid.trans (h.own j)) h.own,
      hcases (fun i c => Consistent (C.initial i).list c) (hmoves.consistent (h.consistent j))
        h.consistent,
      hcases (fun _ c' => Heard (Announced (Function.update s j c)) c') (hheard.mono hgrows)
        fun i => (h.heard i).mono hgrows⟩

theorem run_inv (es : List (Event n)) : C.Inv (C.machine.run C.initial es) :=
  C.machine.invariant initial_inv (fun _ e h => next_inv h e) es

/-- A party that has called `nextStep` holds the key that every party has announced. -/
theorem Inv.unanimous {s : Fin n → ProtocolChooseTrent} (h : C.Inv s) {i : Fin n}
    (hstepped : (s i).stepped = true) :
    ∃ key, (s i).trentKey = some key ∧ ∀ j, .trent key.publicKey ∈ (s j).sent := by
  obtain ⟨hs, hawaits⟩ := (h.heard i).stepped hstepped
  have hall : ∀ j : Fin n, ∃ key, (s i).trentKey = some key ∧ .trent key.publicKey ∈ (s j).sent := by
    intro j
    have hlen : j.val < ((s i).hasSent 2).length := by
      rw [hs 2, h.N_eq i]
      exact j.isLt.trans (Nat.lt_succ_self n)
    have hlt : j.val < (s i).N := by
      rw [h.N_eq i]
      exact j.isLt
    obtain ⟨key, hkey, ha⟩ := (h.heard i).noted hs j hlt (noted_of_not_awaits hawaits hlen)
    exact ⟨key, hkey, announced_iff.mp ha⟩
  obtain ⟨key, hkey, -⟩ := hall i
  refine ⟨key, hkey, fun j => ?_⟩
  obtain ⟨key', hkey', hsent⟩ := hall j
  rwa [Option.some.inj (hkey.symm.trans hkey')]

/-- **All that have chosen have chosen the same Trent**, who is no party of the contract and
was a candidate for each of them. -/
theorem trent_agreed (C : Choosing n) (es : List (Event n)) {i j : Fin n}
    (hi : (C.machine.run C.initial es i).stepped = true)
    (hj : (C.machine.run C.initial es j).stepped = true) :
    ∃ ki kj, (C.machine.run C.initial es i).trentKey = some ki ∧
      (C.machine.run C.initial es j).trentKey = some kj ∧ ki.publicKey = kj.publicKey ∧
      (∀ k, (C.keys k).publicKey ≠ ki.publicKey) ∧
      (∃ u ∈ (C.initial i).list, u.key.publicKey = ki.publicKey) ∧
      ∃ u ∈ (C.initial j).list, u.key.publicKey = ki.publicKey := by
  have h := run_inv (C := C) es
  obtain ⟨ki, hki, halli⟩ := h.unanimous hi
  obtain ⟨kj, hkj, hallj⟩ := h.unanimous hj
  obtain ⟨u, hu, hkey⟩ := (h.consistent i).chosen _ (halli i)
  refine ⟨ki, kj, hki, hkj, (h.consistent i).once _ _ (halli i) (hallj i), fun k hk => ?_,
    ⟨u, hu, hkey⟩, (h.consistent j).chosen _ (halli j)⟩
  have hparty : (C.keys k).getPublicKeys ∈ C.parties := List.mem_ofFn.mpr ⟨k, rfl⟩
  exact (Candidates.mem_setup.mp hu).2 _ hparty (hk.trans hkey.symm)

/-! ### Two parties -/

def sampleUser (publicKey : ℤ) : User := ⟨⟨publicKey, 23, 5, none⟩⟩

theorem sampleKeys_distinct :
    Function.Injective fun i : Fin 2 => (⟨11 + i, 23, 5, none⟩ : ElGamalKey).publicKey := by
  decide

/-- Two parties that know each other and the users `17` and `19`. -/
def sampleChoosing : Choosing 2 where
  keys i := ⟨11 + i, 23, 5, none⟩
  users _ := [sampleUser 12, sampleUser 17, sampleUser 11, sampleUser 19]
  randomNumber i := 6 + i
  distinct := sampleKeys_distinct

def sampleDeliver (i j : Fin 2) (m : ℕ) : Event 2 := .deliver i j m ⟨1, 23, 5, some 1⟩

def sampleLists : List (Event 2) :=
  [.start 0, .resume 0 0, .start 1, .resume 1 0, sampleDeliver 0 1 0, sampleDeliver 1 0 0]

def sampleNumbers : List (Event 2) :=
  [sampleDeliver 0 1 1, .resume 1 0, sampleDeliver 1 0 1, .resume 0 0]

def sampleAnnouncements : List (Event 2) := [sampleDeliver 0 1 2, sampleDeliver 1 0 2]

/-- The numbers are `6` and `7`, so the second of the two users is chosen. -/
theorem trent_agreed_sample : ∃ ki kj,
    (sampleChoosing.machine.run sampleChoosing.initial
      (sampleLists ++ sampleNumbers ++ sampleAnnouncements) 0).trentKey = some ki ∧
    (sampleChoosing.machine.run sampleChoosing.initial
      (sampleLists ++ sampleNumbers ++ sampleAnnouncements) 1).trentKey = some kj ∧
    ki.publicKey = kj.publicKey ∧ ki.publicKey = 19 := by
  obtain ⟨ki, kj, hki, hkj, heq, -⟩ := trent_agreed sampleChoosing
    (sampleLists ++ sampleNumbers ++ sampleAnnouncements) (i := 0) (j := 1) (by decide +kernel)
    (by decide +kernel)
  refine ⟨ki, kj, hki, hkj, heq, ?_⟩
  have hrun : ((sampleChoosing.machine.run sampleChoosing.initial
      (sampleLists ++ sampleNumbers ++ sampleAnnouncements) 0).trentKey.map
        ElGamalKey.publicKey) = some 19 := by decide +kernel
  rw [hki] at hrun
  exact Option.some.inj hrun

end Choosing

end SXP.Sigma
