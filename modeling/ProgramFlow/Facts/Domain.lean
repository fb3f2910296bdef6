import ProgramFlow.Facts.BitSet

/-!
# Domains of facts

What the solver needs to know about the values it computes: where to start, how
to combine what arrives on several edges, and when one value is below another.
A `Domain` is that knowledge as a record, so the context a value needs — such as
the width of the bit sets — is fixed when the record is built.

* `Domain.flag` — truth values, `false` first.
* `Domain.sets w` — bit sets that start out empty in the width `w`.
-/

namespace ProgramFlow

/-- Values that can be joined. -/
structure Domain (δ : Type) where
  /-- The value that holds nothing. -/
  bottom : δ
  /-- The values together. -/
  join : δ → δ → δ
  /-- Is the left value below the right one, or equal to it? -/
  le : δ → δ → Bool

/-- A domain with a greatest value and with common parts. -/
structure Lattice (δ : Type) extends Domain δ where
  /-- The value that holds everything. -/
  top : δ
  /-- What the values have in common. -/
  meet : δ → δ → δ

/-- Truth values: `false` is below `true`. -/
def Lattice.flag : Lattice Bool where
  bottom := false
  join := (· || ·)
  le a b := !a || b
  top := true
  meet := (· && ·)

/-- Bit sets that start out in the width `w`, ordered by inclusion. -/
def Lattice.sets (w : Nat) : Lattice BitSet where
  bottom := .bottom w
  join := BitSet.join
  le := BitSet.subset
  top := .top w
  meet := BitSet.meet

/-- Truth values as a domain. -/
def Domain.flag : Domain Bool := Lattice.flag.toDomain

/-- Bit sets as a domain. -/
def Domain.sets (w : Nat) : Domain BitSet := (Lattice.sets w).toDomain

end ProgramFlow
