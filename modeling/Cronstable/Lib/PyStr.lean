import Mathlib.Algebra.GroupWithZero.Nat
import Mathlib.Data.List.Basic

/-!
# Strings of code points

The strings of a scripting host are sequences of code points, lone surrogates included.
-/

/-- A code point, surrogates included. -/
abbrev CodePoint := Fin 0x110000

instance CodePoint.neZero : NeZero 0x110000 := ⟨by decide⟩

/-- A string of the host. -/
abbrev PyStr := List CodePoint

namespace PyStr

/-- A literal of the source. -/
def lit (s : String) : PyStr := s.toList.map fun c => Fin.ofNat 0x110000 c.toNat

end PyStr
