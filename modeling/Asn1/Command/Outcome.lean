/-!
# `Asn1.Command.Outcome` — what a command prints
-/

namespace Asn1

namespace Command

/-- A line that a command prints. -/
inductive Line where
  /-- A line on standard output. -/
  | out (text : String)
  /-- A line on standard error, which makes the command fail. -/
  | err (text : String)
deriving DecidableEq

/-- What a command prints, and the code it exits with. -/
structure Outcome where
  stdout : String
  stderr : String
  code : UInt32
deriving DecidableEq

/-- The text of lines, each of them ended. -/
def joinLines (lines : List String) : String := String.join (lines.map (· ++ "\n"))

/-- The outcome of a command that prints the given lines. -/
def Outcome.ofLines (lines : List Line) : Outcome :=
  let out := lines.filterMap fun line => match line with | .out text => some text | .err _ => none
  let err := lines.filterMap fun line => match line with | .out _ => none | .err text => some text
  ⟨joinLines out, joinLines err, if err.isEmpty then 0 else 1⟩

end Command

end Asn1
