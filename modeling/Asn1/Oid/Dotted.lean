import Asn1.Oid

/-!
# `Asn1.Oid.Dotted` — the dotted notation of object identifiers

## Contents
- **Writing.** `Oid.text` joins the components with dots.
- **Reading.** `Oid.ofDotted` takes decimal components of at most 32 bits. Each may have leading zeros
  and a plus sign. `DottedError` says what else can be wrong.
-/

namespace Asn1

namespace Oid

/-! ## Writing -/

/-- A component as text. One that is not converted to a native integer is marked. -/
def Component.text (component : Component) : String :=
  match component.toUInt64? with
  | some value => toString value.toNat
  | none => "(overflow)"

/-- The components in decimal, separated by dots. -/
def text (oid : Oid) : String := String.intercalate "." (oid.components.map Component.text)

instance : ToString Oid := ⟨text⟩

/-! ## Reading -/

/-- What can be wrong with a text in dotted notation. -/
inductive DottedError where
  /-- There are fewer than two components. -/
  | tooFewComponents
  /-- A component is not a decimal number of at most 32 bits. -/
  | notInteger
  /-- The first component is above 2. -/
  | firstComponent
  /-- The second component is 40 or above after a first one of 0 or 1. -/
  | secondComponent
deriving DecidableEq

/-- The wording of an error in dotted notation. -/
def DottedError.message : DottedError → String
  | tooFewComponents => "at least two components required"
  | notInteger => "only integer components allowed"
  | firstComponent => "first component can only be 0, 1, or 2."
  | secondComponent => "second component for 0. and 1. must be less than 40"

/-- Cuts a text at its dots. There is always at least one piece. -/
def splitDots : List Char → List (List Char)
  | [] => [[]]
  | char :: rest =>
    if char = '.' then [] :: splitDots rest
    else
      match splitDots rest with
      | [] => [[char]]
      | piece :: pieces => (char :: piece) :: pieces

/-- The number that decimal digits spell, or nothing if another character is among them. -/
def decimal? (digits : List Char) : Option Nat :=
  if digits.all Char.isDigit then
    some (digits.foldl (fun number digit => number * 10 + (digit.toNat - 48)) 0)
  else none

/-- The largest component that is read. -/
def maxDotted : Nat := 0xFFFFFFFF

/-- Drops a plus sign in front. -/
def dropPlus : List Char → List Char
  | '+' :: rest => rest
  | text => text

/-- Reads a component: at least one decimal digit, with a plus sign in front or not. -/
def component (text : List Char) : Except DottedError Nat :=
  match dropPlus text with
  | [] => .error .notInteger
  | digits =>
    match decimal? digits with
    | some number => if number ≤ maxDotted then .ok number else .error .notInteger
    | none => .error .notInteger

/-- Reads an identifier in dotted notation. -/
def ofDotted (text : String) : Except DottedError Oid :=
  match splitDots text.toList with
  | firstText :: secondText :: others => do
    let first ← component firstText
    if 2 < first then .error .firstComponent
    else do
      let second ← component secondText
      if first < 2 ∧ 40 ≤ second then .error .secondComponent
      else do
        let others ← others.mapM component
        return ⟨((first * 40 + second) :: others).flatMap Base128.encode⟩
  | _ => .error .tooFewComponents

end Oid

end Asn1
