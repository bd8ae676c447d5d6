import LuaSugar.Index

/-!
# Fetching

Modules outside the project are fetched by their address. What answers is a `Fetcher`, a function
of the address, so that a build is determined by its inputs; why it may not answer is a
`FetchFault`.
-/

namespace LuaSugar

/-- Why a module was not fetched. -/
inductive FetchFault where
  /-- The request failed before there was an answer. -/
  | transport (message : String)
  /-- The answer says that it failed. -/
  | status (code : Nat)
  /-- The answer could not be read. -/
  | body (message : String)
deriving DecidableEq, Repr

/-- Wording of a fault of a request to an address. -/
def FetchFault.message (uri : String) : FetchFault → String
  | transport message => "request to " ++ uri ++ " failed: " ++ message
  | status code => uri ++ " answered with HTTP " ++ String.ofList (Nat.toDigits 10 code)
  | body message => "failed to read response from " ++ uri ++ ": " ++ message

/-- What is asked for: the text that a module is required with, and its address. -/
structure Request where
  specifier : String
  uri : String
deriving DecidableEq, Repr

/-- What answers requests. -/
structure Fetcher where
  fetch : String → Except FetchFault String
  /-- How many different modules all its answers together can require. -/
  reach : Nat

namespace Fetcher

/-- How many characters an answer has. A call of `require` has at least one. -/
def answerLength : Except FetchFault String → Nat
  | .ok source => source.length
  | .error _ => 0

-- the zero of the core library, whatever is imported beside it
attribute [local instance (high)] Zero.ofOfNat0

/-- The fetcher with given answers; for any other address there is none. -/
def ofAnswers (answers : Index String (Except FetchFault String)) : Fetcher where
  fetch uri := (answers.find? uri).getD (.error (.status 404))
  reach := (answers.values.map answerLength).sum

/-- The fetcher that reaches nothing. -/
def offline (message : String) : Fetcher := ⟨fun _ => .error (.transport message), 0⟩

end Fetcher

end LuaSugar
