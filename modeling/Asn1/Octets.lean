/-!
# `Asn1.Octets` — strings of octets and the numbers they spell

## Contents
- **Numbers.** `toNat` reads octets as a big-endian number, `ofNat` gives the shortest octets of a
  number, `lengthOfNat` says how many octets that takes.
- **Leading zeros.** `stripZeros` drops them; what is left spells the same number.
- **Two's complement.** `negate` turns octets into those of the negative number in the same width.
- **Cuts.** `rightmost` takes a given number of octets from the end and pads with zeros.
-/

namespace Asn1

/-- The form all encoded data takes: a list of octets. -/
abbrev Octets := List UInt8

namespace Octets

/-! ## Big-endian numbers -/

/-- The number that the octets spell, most significant octet first. -/
def toNat (octets : Octets) : Nat :=
  octets.foldl (fun number octet => number * 256 + octet.toNat) 0

@[simp] theorem toNat_nil : toNat [] = 0 := rfl

/-- The last octet is the least significant one. -/
@[simp] theorem toNat_concat (octets : Octets) (octet : UInt8) :
    toNat (octets ++ [octet]) = octets.toNat * 256 + octet.toNat := by
  simp [toNat]

/-- A leading zero does not count. -/
@[simp] theorem toNat_zero_cons (octets : Octets) : toNat (0 :: octets) = octets.toNat := by
  simp [toNat]

/-- The shortest octets that spell a number. Zero takes no octet at all. -/
def ofNat (number : Nat) : Octets :=
  if number = 0 then [] else ofNat (number / 256) ++ [UInt8.ofNat (number % 256)]
termination_by number
decreasing_by omega

/-- Reading undoes writing. -/
@[simp] theorem toNat_ofNat (number : Nat) : toNat (ofNat number) = number := by
  fun_induction ofNat number with
  | case1 => rfl
  | case2 number _ ih =>
    rw [toNat_concat, ih, UInt8.toNat_ofNat']
    omega

/-- How many octets a number needs, counting one for zero. -/
def lengthOfNat (number : Nat) : Nat :=
  if number < 256 then 1 else lengthOfNat (number / 256) + 1
termination_by number
decreasing_by omega

/-- The count is that of the octets written, zero aside. -/
theorem length_ofNat {number : Nat} (h : number ≠ 0) :
    (ofNat number).length = lengthOfNat number := by
  fun_induction lengthOfNat number with
  | case1 number hsmall =>
    rw [ofNat, if_neg h, ofNat, if_pos (by omega)]
    rfl
  | case2 number hlarge ih =>
    rw [ofNat, if_neg h, List.length_append, ih (by omega)]
    rfl

/-! ## Leading zeros -/

/-- The octets from the first one that is not zero. -/
def stripZeros (octets : Octets) : Octets := octets.dropWhile (· == 0)

/-- What is left after stripping does not start with a zero octet. -/
theorem head?_stripZeros (octets : Octets) : octets.stripZeros.head? ≠ some 0 := by
  induction octets with
  | nil => simp [stripZeros]
  | cons octet rest ih =>
    unfold stripZeros at ih ⊢
    rw [List.dropWhile_cons]
    split
    · exact ih
    · rename_i h
      simpa using h

/-- What is left after stripping spells the same number. -/
@[simp] theorem toNat_stripZeros (octets : Octets) : octets.stripZeros.toNat = octets.toNat := by
  induction octets with
  | nil => rfl
  | cons octet rest ih =>
    unfold stripZeros at ih ⊢
    rw [List.dropWhile_cons]
    split
    · rename_i h
      rw [ih, eq_of_beq h, toNat_zero_cons]
    · rfl

/-! ## Two's complement -/

/-- Adds one to the number and keeps the width. The flag tells whether the sum did not fit. -/
def increment : Octets → Octets × Bool
  | [] => ([], true)
  | octet :: rest =>
    match increment rest with
    | (rest, true) => ((octet + 1) :: rest, octet == 0xFF)
    | (rest, false) => (octet :: rest, false)

/-- The two's complement of the octets: all bits inverted, then one added. -/
def negate (octets : Octets) : Octets := (increment (octets.map (~~~ ·))).1

@[simp] theorem length_increment (octets : Octets) : (increment octets).1.length = octets.length := by
  fun_induction increment octets with
  | case1 => rfl
  | case2 octet rest sum heq ih => simpa [heq] using ih
  | case3 octet rest sum heq ih => simpa [heq] using ih

/-- The width is kept. -/
@[simp] theorem length_negate (octets : Octets) : octets.negate.length = octets.length := by
  simp [negate]

/-! ## Cuts -/

/-- The last `count` octets. Zeros go in front if there are fewer. -/
def rightmost (count : Nat) (octets : Octets) : Octets :=
  List.replicate (count - octets.length) 0 ++ octets.drop (octets.length - count)

/-- There are always as many octets as asked for. -/
@[simp] theorem length_rightmost (count : Nat) (octets : Octets) :
    (rightmost count octets).length = count := by
  simp only [rightmost, List.length_append, List.length_replicate, List.length_drop]
  omega

end Octets

end Asn1
