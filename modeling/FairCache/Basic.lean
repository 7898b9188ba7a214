import Mathlib.Data.Int.Notation

/-!
# Clients, exceptions and the status of a put
-/

namespace FairCache

/-- A client. -/
abbrev ClientId := ℤ

/-- What the modelled code raises. -/
inductive PyError
  | exception (message : String)
  | assertionError (message : String)
  | keyError
  | stopIteration
  | indexError
  | valueError (message : String)
  | notImplementedError (message : String)
  | attributeError (message : String)
  | runtimeError (message : String)
  deriving DecidableEq, Repr

/-- Whether a put was accepted. -/
inductive PutStatus
  | legal
  | illegal
  deriving DecidableEq, Repr

end FairCache
