import SXP.Lib.Collation
import SXP.Lib.Machine
import SXP.Model.ContractEntity

/-!
# Requests on contracts

`add` makes a row for each party; `edit`, `sign` and `cancel` change the rows that are there.  Every
request has a manager of its own: what it changes is stored when `end` is reached and succeeds, and
not at all otherwise.

A row knows by which `add` it was made.  No request looks at that; it says which rows are the copies
of one contract.

Titles and ids are compared by the database, for which a text may be equal to another one.
-/

namespace SXP.Controller

open SXP.Lib SXP.Lib.Java SXP.Model
open SXP.Sigma (Wish Status)

structure Row where
  entity : ContractEntity
  origin : ℕ
deriving DecidableEq, Repr

/-- `adds` is the number of the next `add`. -/
structure Database where
  rows : List Row
  adds : ℕ
deriving DecidableEq, Repr

namespace Contracts

/-! ### The manager -/

variable (C : Collation) (valid : ContractEntity → Bool)

/-- `end`: of the rows that the manager holds none may be invalid, and the commit may throw. -/
def end_ (held : List ContractEntity) (commitThrows : Bool) (db changed : Database) : Database :=
  if held.all valid && !commitThrows then changed else db

/-! ### The requests -/

def partiesNames (nick : String → Java (Option String)) (parties : List String) :
    Java (List (String × Option String)) :=
  collect (fun id => do
    let name ← nick id
    return (id, name)) parties.dedup

def copyFor (contract : ContractEntity) (parties : List String)
    (names : List (String × Option String)) (id userid : String) : ContractEntity where
  id := some id
  userid := some userid
  title := contract.title
  clauses := contract.clauses
  parties := some parties
  partiesNames := some names
  wish := some .neutral
  status := some .nowhere

/-- The title is compared with the constant as an object. -/
def titled (contract : ContractEntity) (constant : Bool) : ContractEntity :=
  if contract.title == some "" && constant then
    { contract with title := some "Secure Exchange Protocol Contract" }
  else contract

/-- The copies, with the ids that the database gives them. -/
def copies (contract : ContractEntity) (nick : String → Java (Option String))
    (currentUser : Option String) (newId : ℕ → String) : Java (List ContractEntity) := do
  let parties ← nonNull contract.parties
  let names ← partiesNames nick parties
  let entities := parties.mapIdx fun k userid => copyFor contract parties names (newId k) userid
  if parties.isEmpty then return entities
  let _ ← nonNull currentUser
  return entities

def add (contract : ContractEntity) (constant : Bool) (nick : String → Java (Option String))
    (currentUser : Option String) (newId : ℕ → String) (commitThrows : Bool) (db : Database) :
    Java ContractEntity × Database :=
  match copies (titled contract constant) nick currentUser newId with
  | .error e => (.error e, db)
  | .ok entities =>
      (.ok ((entities.filter fun c => c.userid == currentUser).getLastD (titled contract constant)),
        end_ valid entities commitThrows db
          ⟨db.rows ++ entities.map fun c => ⟨c, db.adds⟩, db.adds + 1⟩)

def hasTitle (c contract : ContractEntity) : Bool := C.holds contract.title c.title

def edited (c : ContractEntity) (names : List (String × Option String))
    (contract : ContractEntity) : ContractEntity :=
  { contract with
    clauses := c.clauses
    parties := c.parties
    title := c.title
    partiesNames := some names }

/-- One round of the loop over the contracts that have the title. -/
def editOne (c : ContractEntity) (names : List (String × Option String))
    (contract : ContractEntity) : Java ContractEntity := do
  let parties ← nonNull contract.parties
  if c.userid.any parties.contains then
    let wish ← nonNull contract.wish
    return if wish == .neutral then edited c names contract else contract
  else return contract

def editRow (c : ContractEntity) (names : List (String × Option String)) (r : Row) : Java Row :=
  if hasTitle C c r.entity then do
    let contract ← editOne c names r.entity
    return { r with entity := contract }
  else return r

def editNames (c : ContractEntity) (nick : String → Java (Option String)) :
    Java (List (String × Option String)) :=
  match c.parties with
  | none => return []
  | some parties => partiesNames nick parties

def edit (c : ContractEntity) (nick : String → Java (Option String)) (commitThrows : Bool)
    (db : Database) : Java (Option ContractEntity) × Database :=
  match (do
    let names ← editNames c nick
    collect (editRow C c names) db.rows) with
  | .error e => (.error e, db)
  | .ok rows =>
      -- a contract that was edited has the title itself
      let found := (rows.map Row.entity).filter (hasTitle C c)
      (.ok (found.filter fun contract => contract.id == c.id).getLast?,
        end_ valid found commitThrows db { db with rows := rows })

def findOneById (id : String) (db : Database) : Option ContractEntity :=
  (db.rows.map Row.entity).find? fun c => C.holds c.id (some id)

def update (id : Option String) (f : ContractEntity → ContractEntity) (db : Database) : Database :=
  { db with
    rows := db.rows.map fun r =>
      if r.entity.id == id then { r with entity := f r.entity } else r }

def accepted (status : Option Status) (c : ContractEntity) : ContractEntity :=
  { c with wish := some .accept, status := status }

/-- `started` is what `initialize` and `start` of the establisher end with: an exception, or
the status that they leave. -/
def sign (id : String) (started : Java (Option Status)) (commitThrows : Bool) (db : Database) :
    Java Bool × Database :=
  match findOneById C id db with
  | none => (.error .nullPointer, db)
  | some c =>
      match c.status with
      | none => (.error .nullPointer, db)
      | some .nowhere =>
          match started with
          | .error e => (.error e, db)
          | .ok status =>
              (.ok true,
                end_ valid [accepted status c] commitThrows db (update c.id (accepted status) db))
      | some _ => (.ok false, db)

def cancelled (c : ContractEntity) : Bool × ContractEntity :=
  if c.status = some .nowhere then
    (true, { c with wish := some .refuse, status := some .cancelled })
  else if c.status = some .signing then (true, { c with wish := some .refuse })
  else (false, c)

def cancel (id : String) (commitThrows : Bool) (db : Database) : Java Bool × Database :=
  match findOneById C id db with
  | none => (.error .nullPointer, db)
  | some c =>
      (.ok (cancelled c).1,
        end_ valid [(cancelled c).2] commitThrows db
          (update c.id (fun c => (cancelled c).2) db))

/-! ### Runs -/

/-- A request with what the rest of the system has to do with it.  A protocol that runs stores
statuses in between. -/
inductive Request where
  | add (contract : ContractEntity) (constant : Bool) (nick : String → Java (Option String))
      (currentUser : Option String) (newId : ℕ → String) (commitThrows : Bool)
  | edit (c : ContractEntity) (nick : String → Java (Option String)) (commitThrows : Bool)
  | sign (id : String) (started : Java (Option Status)) (commitThrows : Bool)
  | cancel (id : String) (commitThrows : Bool)
  | stored (id : String) (status : Option Status)

inductive Answer where
  | contract (c : Option ContractEntity)
  | granted (b : Bool)
  | nothing

def machine : Machine Database Request (Java Answer) where
  step db
    | .add contract constant nick currentUser newId commitThrows =>
        let (answer, db') := add valid contract constant nick currentUser newId commitThrows db
        (answer.map fun c => .contract (some c), db')
    | .edit c nick commitThrows =>
        let (answer, db') := edit C valid c nick commitThrows db
        (answer.map .contract, db')
    | .sign id started commitThrows =>
        let (answer, db') := sign C valid id started commitThrows db
        (answer.map .granted, db')
    | .cancel id commitThrows =>
        let (answer, db') := cancel C valid id commitThrows db
        (answer.map .granted, db')
    | .stored id status => (.ok .nothing, update id (fun c => { c with status := status }) db)

def empty : Database := ⟨[], 0⟩

end Contracts

end SXP.Controller
