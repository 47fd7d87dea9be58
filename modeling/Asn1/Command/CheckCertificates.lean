import Asn1.Command.Outcome
import Asn1.Verification

/-!
# `Asn1.Command.CheckCertificates` — verifying certificate files

Each argument is the path of a certificate file, which is verified. What is known about a valid certificate
is printed; a file that cannot be read or verified is reported, and the command fails. The argument `--der`
switches to the strict rules for the paths after it.

## Contents
- **Arguments.** `paths` pairs each path with the mode in force.
- **Files.** `FileError` says why a file cannot be read, `report` gives the lines for a file.
- **Command.** `run` reports all files, given their contents.
-/

namespace Asn1

namespace Command

namespace CheckCertificates

/-- The paths among the arguments, with the rules in force for each of them. -/
def paths (mode : Mode) : List String → List (Mode × String)
  | [] => []
  | argument :: rest =>
    if argument = "--der" then paths .der rest else (mode, argument) :: paths mode rest

/-- Why a file cannot be read. -/
inductive FileError where
  /-- There is no such file. -/
  | notFound
  /-- The system refuses to read it, with a message and a number of its own. -/
  | refused (text : String) (code : Nat)
deriving DecidableEq

/-- The wording of a file error, with the number that the system gives it. -/
def FileError.message : FileError → String
  | notFound => "No such file or directory (os error 2)"
  | refused text code => text ++ " (os error " ++ toString code ++ ")"

/-- The lines about a certificate with a valid signature. -/
def describe (path : String) (info : VerifiedInfo) : List String :=
  let serialNumber :=
    match info.serialNumber with
    | some number => toString number.toInt
    | none => "(too large)"
  [path ++ ": signature valid",
   "  serial number: " ++ serialNumber,
   "  modulus: " ++ toString info.modulus.length ++ " octets",
   "  exponent: " ++ info.exponent.toHex] ++
    info.extensions.map fun ext => "  extension " ++ ext.id.text ++ ": " ++ ext.value.toHex

/-- The lines about a file with the given contents. -/
def report (mode : Mode) (path : String) (contents : Except FileError Octets) : List Line :=
  match contents with
  | .error error => [.err (path ++ ": " ++ error.message)]
  | .ok data =>
    match ({ mode } : Verifier).verify data with
    | .ok info => (describe path info).map .out
    | .error error => [.err (path ++ ": " ++ error.message)]

/-- Verifies the files that the arguments name. -/
def run (contents : String → Except FileError Octets) (arguments : List String) : Outcome :=
  .ofLines <| (paths .ber arguments).flatMap fun (mode, path) => report mode path (contents path)

end CheckCertificates

end Command

end Asn1
