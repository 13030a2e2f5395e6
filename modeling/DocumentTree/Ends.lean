/-!
# Reading from both ends

A list can be read from either end, one request at a time, until nothing is
left. `readEnds` says what it answers to a sequence of requests; a
cursor over linked nodes answers the same without holding the list.
-/

namespace DocumentTree

/-- The end a request reads from. -/
inductive End where
  | front | back
  deriving DecidableEq, Repr, Inhabited

/-- What a list answers to requests at its ends, `none` once it is used
up. -/
def readEnds {α : Type} (l : List α) : List End → List (Option α)
  | [] => []
  | .front :: requests => l.head? :: readEnds l.tail requests
  | .back :: requests => l.getLast? :: readEnds l.dropLast requests

end DocumentTree
