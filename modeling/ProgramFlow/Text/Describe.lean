/-!
# Messages: values in them, and lists of them

A message that mentions a node must name it so that two different nodes never
look alike.  `Describe` is the type class of values that have such a text.

* Numbers are written in decimal.
* `quoted` — a string is put in double quotes.  The quote, the backslash and
  every control character are escaped, so `quoted` never produces a line break
  and never loses a character.
* A choice between two types is written like the alternative taken: a number
  and the string of its digits stay apart, since only the string has quotes.

A `Journal` is what a long computation reports while it runs: a list of entries,
oldest first, each with a level.  The computations of this library are functions,
so a journal is part of their result and not an effect.
-/

namespace ProgramFlow

/-- Types whose values are named in messages. -/
class Describe (α : Type) where
  /-- The text that names a value. -/
  describe : α → String

export Describe (describe)

/-! ## Quoted strings -/

/-- The control characters: below the space, and from delete up to the end of
the second control block. -/
def isControl (c : Char) : Bool :=
  c.toNat < 0x20 || (0x7f ≤ c.toNat && c.toNat ≤ 0x9f)

/-- One character as it stands inside quotes.  Five characters have an escape of
their own, the other control characters are written by their code point in
hexadecimal without leading zeros. -/
def escapeChar (c : Char) : List Char :=
  if c = '"' then ['\\', '"']
  else if c = '\\' then ['\\', '\\']
  else if c = '\n' then ['\\', 'n']
  else if c = '\t' then ['\\', 't']
  else if c = '\r' then ['\\', 'r']
  else if c = '\x00' then ['\\', '0']
  else if isControl c then ['\\', 'u', '\x7b'] ++ Nat.toDigits 16 c.toNat ++ ['\x7d']
  else [c]

/-- A string in double quotes. -/
def quoted (s : String) : String :=
  String.ofList ('"' :: s.toList.flatMap escapeChar ++ ['"'])

/-! ## Instances -/

instance : Describe Nat := ⟨fun n => toString n⟩

instance : Describe Int := ⟨fun n => toString n⟩

instance : Describe Bool := ⟨fun b => if b then "true" else "false"⟩

instance : Describe String := ⟨quoted⟩

instance {α β : Type} [Describe α] [Describe β] : Describe (α ⊕ β) :=
  ⟨fun
    | .inl a => describe a
    | .inr b => describe b⟩

/-! ## Journals -/

/-- How much detail an entry holds. -/
inductive Level where
  /-- A result a user asked for. -/
  | info
  /-- The course of a computation. -/
  | debug
  /-- A single step of it. -/
  | trace
  deriving DecidableEq, Repr

/-- The name of a level. -/
def Level.name : Level → String
  | .info => "INFO"
  | .debug => "DEBUG"
  | .trace => "TRACE"

/-- One line of a journal. -/
structure Entry where
  level : Level
  text : String
  deriving DecidableEq, Repr

/-- The lines reported by a computation, oldest first. -/
abbrev Journal := List Entry

end ProgramFlow
