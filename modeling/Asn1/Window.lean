import Asn1.Error
import Asn1.Octets

/-!
# `Asn1.Window` — stretches of the input

Decoding looks at the input through windows. A window holds the octets it covers and remembers where
in the whole input they start, so that an error inside it can be reported with its position, while the
outcome of decoding depends on nothing but the octets in the window.
-/

namespace Asn1

/-- A stretch of the input: its octets, and the position of the first of them. -/
structure Window where
  pos : Nat
  octets : Octets
deriving DecidableEq

namespace Window

/-- The window that covers the whole of an input. -/
def whole (octets : Octets) : Window := ⟨0, octets⟩

/-- Whether the window covers no octets. -/
def isEmpty (window : Window) : Bool := window.octets.isEmpty

/-- The position right after the last octet. -/
def stop (window : Window) : Nat := window.pos + window.octets.length

/-- The first `count` octets of the window. -/
def take (count : Nat) (window : Window) : Window := ⟨window.pos, window.octets.take count⟩

/-- The window without its first `count` octets. -/
def drop (count : Nat) (window : Window) : Window :=
  ⟨window.pos + count, window.octets.drop count⟩

/-- Dropping octets that are there keeps the end. -/
theorem stop_drop {count : Nat} {window : Window} (h : count ≤ window.octets.length) :
    (window.drop count).stop = window.stop := by
  simp only [stop, drop, List.length_drop]
  omega

/-- The end of the window at which only `rest` is left of its octets. -/
def remaining (window : Window) (rest : Octets) : Window :=
  ⟨window.pos + (window.octets.length - rest.length), rest⟩

/-- The octets of the window that come before `rest`, a later window with the same end. -/
def before (window rest : Window) : Octets := window.octets.take (rest.pos - window.pos)

end Window

end Asn1
