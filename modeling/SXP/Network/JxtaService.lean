import SXP.Lib.Java
import SXP.Lib.Machine
import Mathlib.Data.List.Basic

/-!
# Searches of a service

A service asks the network and remembers the listener of its last search.  The answers to all its
searches come to one method, which tells them to this listener (`delivered_iff`); and the listener
that the establisher makes for one contract hands on what it is told without a look at the title.

The platform calls the service with the answers to its searches, and every discovery listener that
it knows with all events, in any order.
-/

namespace SXP.Network

open SXP.Lib SXP.Lib.Java

/-! ### Advertisements -/

/-- What an advertisement has: that of the establisher, or that of another class. -/
inductive AdvertisementContent where
  | establisher (title contract key : Option String)
  | other (name : String)
deriving DecidableEq, Repr

structure Advertisement where
  content : AdvertisementContent
  sourceURI : Option String
deriving DecidableEq, Repr

/-- An advertisement of the network; one of another class is no bridge. -/
inductive JxtaAdvertisement where
  | bridge (adv : Advertisement)
  | foreign
deriving DecidableEq, Repr

structure DiscoveryEvent where
  source : String
  advertisements : List JxtaAdvertisement

def JxtaAdvertisement.getAdvertisement : JxtaAdvertisement → Java Advertisement
  | bridge adv => pure adv
  | foreign => throw .classCast

/-- `s.substring(n)`. -/
def substringFrom (s : String) (n : ℕ) : Java String :=
  if s.length < n then throw .stringIndexOutOfBounds
  else pure (String.ofList (s.toList.drop n))

/-- The advertisements of an event, with where they are from. -/
def DiscoveryEvent.getAdvertisements (event : DiscoveryEvent) : Java (List Advertisement) :=
  collect (fun a => do
    let fadv ← a.getAdvertisement
    let id ← substringFrom event.source 7
    return { fadv with sourceURI := some ("urn:jxta:" ++ id) }) event.advertisements

/-! ### Listeners -/

/-- An `EstablisherServiceListener`, as an object. -/
abbrev EstablisherListener : Type := ℕ

/-- A listener that was given to `search`, or one of those that `listens` makes. -/
inductive SearchListener where
  | given (ref : ℕ)
  | ofListens (ref : ℕ) (l : EstablisherListener)
deriving DecidableEq, Repr

/-- What `listens` makes for the events of the platform. -/
structure DiscoveryListener where
  ref : ℕ
  field : String
  value : String
  l : EstablisherListener
deriving DecidableEq, Repr

inductive Told where
  | search (sl : SearchListener) (advertisements : List Advertisement)
  | establisher (l : EstablisherListener) (title contract key : Option String)
deriving DecidableEq, Repr

abbrev Reaction : Type := List Told × Java Unit

/-- The listener of `listens` casts one advertisement after the other. -/
def tellAll (l : EstablisherListener) : List Advertisement → Reaction
  | [] => ([], .ok ())
  | adv :: adverts =>
      match adv.content with
      | .establisher title contract key =>
          (.establisher l title contract key :: (tellAll l adverts).1, (tellAll l adverts).2)
      | .other _ => ([], .error .classCast)

def SearchListener.notify (sl : SearchListener) (adverts : List Advertisement) : Reaction :=
  match sl with
  | given _ => ([.search sl adverts], .ok ())
  | ofListens _ l => (.search sl adverts :: (tellAll l adverts).1, (tellAll l adverts).2)

def accepts (field value : String) (title : Option String) : Java Bool :=
  if field ≠ "title" then pure true
  else do
    let title ← nonNull title
    return title == value

/-- One advertisement after the other is told, if it is one of the establisher and has the title. -/
def hear (field value : String) (l : EstablisherListener) : List JxtaAdvertisement → Reaction
  | [] => ([], .ok ())
  | .foreign :: _ => ([], .error .classCast)
  | .bridge adv :: adverts =>
      match adv.content with
      | .other _ => hear field value l adverts
      | .establisher title contract key =>
          match accepts field value title with
          | .error e => ([], .error e)
          | .ok false => hear field value l adverts
          | .ok true =>
              (.establisher l title contract key :: (hear field value l adverts).1,
                (hear field value l adverts).2)

/-! ### The service -/

structure Query where
  field : String
  value : String
  listener : SearchListener
deriving DecidableEq, Repr

/-- `queries` has the searches so far; an answer comes with the number of its search. -/
structure JxtaService where
  currentSl : Option SearchListener
  queries : List Query
  discoveryListeners : List DiscoveryListener
  advertisementListeners : List (String × DiscoveryListener)
  establisherServiceListeners : List (String × String × EstablisherListener)

inductive Input where
  | search (field value : String) (ref : ℕ)
  | listens (field value listenerId : String) (l : EstablisherListener)
      (localAdvertisements : Option (List JxtaAdvertisement))
  | removeListener (listenerId : String)
  | discoveryEvent (query : ℕ) (event : DiscoveryEvent)
  | discovered (ref : ℕ) (event : DiscoveryEvent)

namespace JxtaService

def initial : JxtaService := ⟨none, [], [], [], []⟩

/-- The field is set before the network is asked. -/
def search (s : JxtaService) (field value : String) (sl : SearchListener) : JxtaService :=
  { s with currentSl := some sl, queries := s.queries ++ [⟨field, value, sl⟩] }

def listens (s : JxtaService) (field value listenerId : String) (l : EstablisherListener)
    (localAdvertisements : Option (List JxtaAdvertisement)) : Reaction × JxtaService :=
  let ref := s.queries.length
  let dl : DiscoveryListener := ⟨ref, field, value, l⟩
  let s := { s with discoveryListeners := s.discoveryListeners ++ [dl] }
  let s := s.search field value (.ofListens ref l)
  let heard : Reaction := match localAdvertisements with
    | none => ([], .ok ())
    | some adverts => hear field value l adverts
  match heard.2 with
  | .error e => ((heard.1, .error e), s)
  | .ok () => (heard, { s with
      establisherServiceListeners :=
        (listenerId, value, l) :: s.establisherServiceListeners.filter fun e => e.1 != listenerId
      advertisementListeners :=
        (listenerId, dl) :: s.advertisementListeners.filter fun e => e.1 != listenerId })

def removeListener (s : JxtaService) (listenerId : String) : JxtaService :=
  { s with
    discoveryListeners := s.discoveryListeners.filter fun dl =>
      !s.advertisementListeners.contains (listenerId, dl)
    advertisementListeners := s.advertisementListeners.filter fun e => e.1 != listenerId
    establisherServiceListeners :=
      s.establisherServiceListeners.filter fun e => e.1 != listenerId }

/-- Whatever search is answered, the field is read. -/
def discoveryEvent (s : JxtaService) (event : DiscoveryEvent) : Reaction :=
  match event.getAdvertisements with
  | .error e => ([], .error e)
  | .ok advertisements =>
      match s.currentSl with
      | none => ([], .error .nullPointer)
      | some sl => sl.notify advertisements

def discovered (s : JxtaService) (ref : ℕ) (event : DiscoveryEvent) : Reaction :=
  match s.discoveryListeners.find? fun dl => dl.ref == ref with
  | none => ([], .ok ())
  | some dl => hear dl.field dl.value dl.l event.advertisements

def machine : Machine JxtaService Input Reaction where
  step s
    | .search field value ref => (([], .ok ()), s.search field value (.given ref))
    | .listens field value listenerId l localAdvertisements =>
        s.listens field value listenerId l localAdvertisements
    | .removeListener listenerId => (([], .ok ()), s.removeListener listenerId)
    | .discoveryEvent _ event => (s.discoveryEvent event, s)
    | .discovered ref event => (s.discovered ref event, s)

/-! ### What is told -/

theorem not_search_mem_tellAll {l : EstablisherListener} {sl : SearchListener}
    {adverts advs : List Advertisement} : Told.search sl advs ∉ (tellAll l adverts).1 := by
  induction adverts with
  | nil => exact List.not_mem_nil
  | cons adv adverts ih =>
    rw [tellAll]
    cases adv.content with
    | establisher title contract key =>
      intro h
      rcases List.mem_cons.mp h with h | h
      · cases h
      · exact ih h
    | other name => exact List.not_mem_nil

theorem search_mem_notify {sl sl' : SearchListener} {adverts advs : List Advertisement} :
    Told.search sl' advs ∈ (sl.notify adverts).1 ↔ sl' = sl ∧ advs = adverts := by
  cases sl with
  | given ref =>
    change _ ∈ [_] ↔ _
    rw [List.mem_singleton, Told.search.injEq]
  | ofListens ref l =>
    change _ ∈ _ :: _ ↔ _
    rw [List.mem_cons, Told.search.injEq, or_iff_left not_search_mem_tellAll]

/-- **What an event tells**: its advertisements, to the listener in the field. -/
theorem search_mem_discoveryEvent {s : JxtaService} {event : DiscoveryEvent} {sl : SearchListener}
    {advs : List Advertisement} : Told.search sl advs ∈ (s.discoveryEvent event).1 ↔
      event.getAdvertisements = .ok advs ∧ s.currentSl = some sl := by
  unfold discoveryEvent
  cases event.getAdvertisements with
  | error e => simp
  | ok adverts =>
    cases s.currentSl with
    | none => simp
    | some sl' =>
      change _ ∈ (sl'.notify adverts).1 ↔ _
      rw [search_mem_notify, Except.ok.injEq, Option.some_inj, and_comm, eq_comm, eq_comm (a := sl)]

/-! ### The field -/

def Remembers (s : JxtaService) : Prop := s.currentSl = s.queries.getLast?.map Query.listener

theorem search_remembers (s : JxtaService) (field value : String) (sl : SearchListener) :
    (s.search field value sl).Remembers := by
  rw [Remembers, search, List.getLast?_concat, Option.map_some]

theorem listens_fields (s : JxtaService) (field value listenerId : String) (l : EstablisherListener)
    (localAdvertisements : Option (List JxtaAdvertisement)) :
    (s.listens field value listenerId l localAdvertisements).2.currentSl =
        (s.search field value (.ofListens s.queries.length l)).currentSl ∧
      (s.listens field value listenerId l localAdvertisements).2.queries =
        (s.search field value (.ofListens s.queries.length l)).queries := by
  unfold listens
  dsimp only
  split
  · exact ⟨rfl, rfl⟩
  · exact ⟨rfl, rfl⟩

theorem next_remembers (s : JxtaService) (i : Input) (h : s.Remembers) :
    (machine.next s i).Remembers := by
  cases i with
  | search field value ref => exact search_remembers s field value _
  | listens field value listenerId l localAdvertisements =>
    obtain ⟨hcurrent, hqueries⟩ :=
      listens_fields s field value listenerId l localAdvertisements
    change (s.listens field value listenerId l localAdvertisements).2.Remembers
    rw [Remembers, hcurrent, hqueries]
    exact search_remembers s field value _
  | removeListener listenerId => exact h
  | discoveryEvent query event => exact h
  | discovered ref event => exact h

theorem run_remembers (is : List Input) : (machine.run initial is).Remembers :=
  machine.invariant (I := Remembers) (s := initial) rfl next_remembers is

/-! ### The searches that are answered -/

def listenerOf (s : JxtaService) (query : ℕ) : Option SearchListener :=
  (s.queries[query]?).map Query.listener

/-- Advertisements are only told to the listener of the search that is answered. -/
def Delivered (s : JxtaService) : Input → Prop
  | .discoveryEvent query event => ∀ sl advs, Told.search sl advs ∈ (s.discoveryEvent event).1 →
      advs ≠ [] → s.listenerOf query = some sl
  | _ => True

/-- What has advertisements that can be read answers a search with the listener of the last one. -/
def AnswersLast (s : JxtaService) : Input → Prop
  | .discoveryEvent query event => ∀ advs, event.getAdvertisements = .ok advs → advs ≠ [] →
      ∀ last, s.queries.getLast? = some last → s.listenerOf query = some last.listener
  | _ => True

theorem delivered_step {s : JxtaService} (h : s.Remembers) (i : Input) :
    s.Delivered i ↔ s.AnswersLast i := by
  cases i with
  | discoveryEvent query event =>
    unfold Delivered AnswersLast
    simp only [search_mem_discoveryEvent]
    rw [h]
    constructor
    · intro hdelivered advs hadvs hne last hlast
      exact hdelivered last.listener advs ⟨hadvs, by rw [hlast, Option.map_some]⟩ hne
    · rintro hlast sl advs ⟨hadvs, hcurrent⟩ hne
      obtain ⟨last, hmem, rfl⟩ := Option.map_eq_some_iff.mp hcurrent
      exact hlast advs hadvs hne last hmem
  | _ => exact Iff.rfl

/-- **Answers reach the search that asked** in exactly the runs in which every event with
advertisements answers a search with the listener of the last search before it. -/
theorem delivered_iff (is : List Input) :
    machine.Along (fun _ => Delivered) initial is ↔
      machine.Along (fun _ => AnswersLast) initial is :=
  forall₄_congr fun pre i _ _ => delivered_step (run_remembers pre) i

/-! ### Two contracts -/

def offer : DiscoveryEvent where
  source := "urn:id:peer"
  advertisements := [.bridge ⟨.establisher (some "first") (some "offer") (some "5"), none⟩]

/-- Two contracts are listened to, and then comes an answer about the first. -/
def crossed : List Input :=
  [.listens "title" "first" "1" 1 none, .listens "title" "second" "2" 2 none,
    .discoveryEvent 0 offer]

/-- **The listener of the second contract** is told about the first. -/
theorem crossed_delivered : ¬ machine.Along (fun _ => Delivered) initial crossed ∧
    Told.establisher 2 (some "first") (some "offer") (some "5") ∈
      (machine.out (machine.run initial (crossed.take 2)) (.discoveryEvent 0 offer)).1 := by
  refine ⟨fun h => ?_, by decide⟩
  have hdelivered := h (crossed.take 2) (.discoveryEvent 0 offer) [] rfl
  have hsl := hdelivered (.ofListens 1 2)
    [⟨.establisher (some "first") (some "offer") (some "5"), some "urn:jxta:peer"⟩]
    (by decide) (by decide)
  exact absurd hsl (by decide)

end JxtaService

end SXP.Network
