/-!
# `Asn1.Error` — what can be wrong with data and values

## Contents
- **Decoding.** `ContentError` lists the faults of single encodings, `ErrorKind` adds those of the
  structure around them, and `DecodeError` says where in the input the offending value starts.
- **Encoding.** `EncodeError` lists the ways in which a value does not fit its type.

Each type has its wording in one `message` function.
-/

namespace Asn1

/-! ## Decoding -/

/-- A fault in the identifier, length or content octets of one value. -/
inductive ContentError where
  /-- A tag number in high form starts with a zero digit. -/
  | tagNumberLeadingZero
  /-- A tag number needs more than 32 bits. -/
  | tagNumberTooLarge
  /-- DER: a tag number up to 30 is written in high form. -/
  | highFormOfLowTag
  /-- DER: a length is indefinite. -/
  | indefiniteLengthInDer
  /-- The length octets start with the reserved octet. -/
  | reservedLength
  /-- DER: a length takes more octets than it needs. -/
  | lengthNotMinimal
  /-- A primitive value has an indefinite length. -/
  | indefinitePrimitive
  /-- An indefinite length, which is recognised but not decoded further. -/
  | indefiniteUnsupported
  /-- A primitive type is encoded in constructed form. -/
  | constructedUnsupported
  /-- A constructed type is encoded in primitive form. -/
  | primitiveEncoding
  /-- The universal tag of a primitive type has no known content. -/
  | unsupportedPrimitive
  /-- DER: a BOOLEAN is neither all zeros nor all ones. -/
  | derBoolean
  /-- A BOOLEAN does not have exactly one octet. -/
  | booleanLength
  /-- A NULL has content. -/
  | nullContent
  /-- An INTEGER has no octets. -/
  | emptyInteger
  /-- DER: an INTEGER has a superfluous leading octet. -/
  | integerNotMinimal
  /-- An OBJECT IDENTIFIER has no octets. -/
  | emptyOid
  /-- The last sub-identifier of an OBJECT IDENTIFIER does not end. -/
  | truncatedOid
  /-- A sub-identifier starts with a zero digit. -/
  | subidentifierLeadingZero
  /-- A BIT STRING lacks the octet that counts unused bits. -/
  | emptyBitString
  /-- A BIT STRING claims more than seven unused bits. -/
  | unusedBitsCount
  /-- A BIT STRING without octets claims unused bits. -/
  | unusedBitsWithoutOctets
  /-- DER: an unused bit of a BIT STRING is set. -/
  | unusedBitsSet
  /-- The bit string around a public key has unused bits. -/
  | publicKeyUnusedBits
  /-- The modulus or exponent of an RSA key is zero or negative. -/
  | keyComponentNotPositive
deriving DecidableEq

/-- The wording of a content error. -/
def ContentError.message : ContentError → String
  | tagNumberLeadingZero => "tag number with leading zero"
  | tagNumberTooLarge => "tag number too large"
  | highFormOfLowTag => "high tag number form for low tag number in DER"
  | indefiniteLengthInDer => "indefinite length in DER"
  | reservedLength => "illegal length octets"
  | lengthNotMinimal => "illegal length in DER"
  | indefinitePrimitive => "indefinite length for primitive value"
  | indefiniteUnsupported => "indefinite length not supported"
  | constructedUnsupported => "constructed encoding not supported"
  | primitiveEncoding => "primitive encoding of constructed type"
  | unsupportedPrimitive => "unsupported primitive type"
  | derBoolean => "invalid DER BOOLEAN"
  | booleanLength => "invalid BOOLEAN length"
  | nullContent => "invalid NULL value"
  | emptyInteger => "empty INTEGER"
  | integerNotMinimal => "non-minimal INTEGER"
  | emptyOid => "empty OBJECT IDENTIFIER"
  | truncatedOid => "truncated OBJECT IDENTIFIER"
  | subidentifierLeadingZero => "sub-identifier with leading zero"
  | emptyBitString => "empty BIT STRING"
  | unusedBitsCount => "invalid unused bits count in BIT STRING"
  | unusedBitsWithoutOctets => "unused bits in empty BIT STRING"
  | unusedBitsSet => "non-zero unused bits in DER BIT STRING"
  | publicKeyUnusedBits => "public key with unused bits"
  | keyComponentNotPositive => "non-positive RSA key component"

/-- The kind of a decoding error. -/
inductive ErrorKind where
  /-- The data ends inside the identifier or length octets. -/
  | headerTruncated
  /-- A declared length exceeds the data available for the value. -/
  | lengthOverflow
  /-- There are more than eight length octets. -/
  | lengthTooLarge
  /-- A constructed value, or the input, holds more than its type describes. -/
  | trailingData
  /-- A constructed value ends before all required fields were found. -/
  | truncated
  /-- The required field or value with this name is not there. -/
  | missingRequiredField (name : String)
  /-- No type is selected for the field with this name. -/
  | unsupportedSelectorValue (name : String)
  /-- The encoding of a single value is malformed. -/
  | content (error : ContentError)
deriving DecidableEq

/-- The wording of an error kind. -/
def ErrorKind.message : ErrorKind → String
  | headerTruncated => "truncated header"
  | lengthOverflow => "length exceeds available data"
  | lengthTooLarge => "excessive length"
  | trailingData => "trailing data"
  | truncated => "unexpected end of value"
  | missingRequiredField name => "missing required field '" ++ name ++ "'"
  | unsupportedSelectorValue name => "unsupported selector value for '" ++ name ++ "'"
  | content error => error.message

/-- An error met while decoding: its kind and where the offending value starts. -/
structure DecodeError where
  kind : ErrorKind
  /-- The position in the input, counted in octets from its start. -/
  pos : Nat
deriving DecidableEq

namespace DecodeError

/-- A fault in a single encoding at the given position. -/
def content (error : ContentError) (pos : Nat) : DecodeError := ⟨.content error, pos⟩

/-- The wording of a decoding error. -/
def message (error : DecodeError) : String :=
  error.kind.message ++ " at position " ++ toString error.pos

end DecodeError

/-! ## Encoding -/

/-- The ways in which a value does not fit the type it is to be encoded with. -/
inductive EncodeError where
  /-- The value lacks the required field with this name. -/
  | missingRequiredField (name : String)
  /-- The value is of another kind than the type or field with this name. -/
  | typeMismatch (name : String)
  /-- No type is selected for the field with this name. -/
  | unsupportedSelectorValue (name : String)
deriving DecidableEq

/-- The wording of an encoding error. -/
def EncodeError.message : EncodeError → String
  | missingRequiredField name => "missing required field '" ++ name ++ "'"
  | typeMismatch name => "value doesn't match type '" ++ name ++ "'"
  | unsupportedSelectorValue name => "unsupported selector value for '" ++ name ++ "'"

end Asn1
