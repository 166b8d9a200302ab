import Mathlib.Data.List.Lex
import Mathlib.Data.List.Sort
import Mathlib.Data.Fin.Basic
import Mathlib.Tactic.Common

/-!
# Nibbles

The keys of the state tree are hashes, read as nibbles. The keys below a node begin with the path of
the node.
-/
namespace Anthemius.Jellyfish

abbrev Nibble := Fin 16

abbrev NibblePath := List Nibble

/-- `ROOT_NIBBLE_HEIGHT` -/
abbrev rootNibbleHeight : ℕ := 64

/-- A hash that is used as a key, by its nibbles. -/
structure HashValue where
  nibbles : NibblePath
  length_nibbles : nibbles.length = rootNibbleHeight

end Anthemius.Jellyfish
