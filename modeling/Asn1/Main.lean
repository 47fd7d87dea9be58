import Asn1.Command.CheckCertificates
import Asn1.Command.OidOctets

/-!
# `Asn1.Main` — the command line

The first argument names the command: `oid` lists the octets of object identifiers, `check` verifies
certificate files. The other arguments are those of the command.
-/

namespace Asn1.Command

/-- Prints the outcome of a command and returns its exit code. -/
def finish (outcome : Outcome) : IO UInt32 := do
  let stdout ← IO.getStdout
  let stderr ← IO.getStderr
  stdout.putStr outcome.stdout
  stderr.putStr outcome.stderr
  return outcome.code

/-- Reads the contents of a file. -/
def readContents (path : String) : IO (Except CheckCertificates.FileError Octets) := do
  try
    let contents ← IO.FS.readBinFile path
    return .ok contents.toList
  catch error =>
    match error with
    | .noFileOrDirectory _ _ _ => return .error .notFound
    | .permissionDenied _ code details => return .error (.refused details code.toNat)
    | .inappropriateType _ code details => return .error (.refused details code.toNat)
    | other => return .error (.refused (toString other) 0)

end Asn1.Command

open Asn1.Command

/-- Runs the command that the arguments name. -/
def main (arguments : List String) : IO UInt32 := do
  match arguments with
  | "oid" :: rest => finish (OidOctets.run rest)
  | "check" :: rest =>
    let files ← (CheckCertificates.paths .ber rest).mapM fun (_, path) =>
      return (path, ← readContents path)
    finish (CheckCertificates.run (fun path => (files.lookup path).getD (.error .notFound)) rest)
  | _ => finish (.ofLines [.err "usage: (oid IDENTIFIER... | check [--der] FILE...)"])
