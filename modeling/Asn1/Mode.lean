/-!
# `Asn1.Mode` — the two sets of encoding rules

BER allows several encodings of the same value, DER exactly one. Encoding always produces DER; the
mode only decides how strict decoding is.
-/

namespace Asn1

/-- The encoding rules to apply when decoding. -/
inductive Mode where
  /-- The Basic Encoding Rules allow alternative encodings of the same value. -/
  | ber
  /-- The Distinguished Encoding Rules require the shortest encoding and definite lengths. -/
  | der
deriving DecidableEq

namespace Mode

/-- Whether the strict rules apply. -/
def isDer : Mode → Bool
  | ber => false
  | der => true

end Mode

end Asn1
