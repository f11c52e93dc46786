import SXP.Sigma.Contract

/-!
# Contracts in the database

Every party of a contract has a row of its own, with its own wish and status.
-/

namespace SXP.Model

open SXP.Sigma

structure ContractEntity where
  id : Option String
  userid : Option String
  title : Option String
  clauses : Option (List String)
  parties : Option (List String)
  partiesNames : Option (List (String × Option String))
  wish : Option Wish
  status : Option Status
deriving DecidableEq, Repr

def sampleContract : ContractEntity where
  id := some "c1"
  userid := some "ann"
  title := some "sale"
  clauses := some ["a bike"]
  parties := some ["ann", "bob"]
  partiesNames := some [("ann", some "Ann"), ("bob", some "Bob")]
  wish := some .neutral
  status := some .nowhere

end SXP.Model
