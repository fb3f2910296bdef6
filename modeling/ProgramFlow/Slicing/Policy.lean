import ProgramFlow.Text.Describe

/-!
# Which dependences a slice follows

A dependence between two statements is of one of six kinds.  A policy says which
kinds count: a data scope chooses among the data dependences, a control scope
decides on control dependences, and a direction says which way to follow them.

Scopes and directions have names by which users ask for them.  A name is read
without regard to the case of its letters `a` to `z`, and one dash in front of
it is ignored, so that it can be written like a command line option.
-/

namespace ProgramFlow

/-! ## Kinds of dependence -/

/-- Why a statement depends on another. -/
inductive Dependence where
  /-- The other decides whether it runs. -/
  | control
  /-- It uses a value of the other. -/
  | value
  /-- It dereferences a pointer of the other. -/
  | basePointer
  /-- It reads a heap location that the other writes. -/
  | heap
  /-- It casts a value of the other. -/
  | cast
  /-- It handles an exception of the other. -/
  | exception
  deriving DecidableEq, Repr

namespace Dependence

/-- All kinds, in a fixed order. -/
def all : List Dependence := [control, value, basePointer, heap, cast, exception]

/-- The name of a kind. -/
def name : Dependence → String
  | control => "Control"
  | value => "Value"
  | basePointer => "BasePointer"
  | heap => "Heap"
  | cast => "Cast"
  | exception => "Exception"

/-- Is it a dependence on data? -/
def isData (d : Dependence) : Bool := d != control

end Dependence

/-! ## Names of options -/

/-- A name that no option has. -/
structure OptionError where
  /-- What was to be chosen. -/
  kind : String
  text : String
  deriving DecidableEq, Repr

/-- How the error is worded. -/
def OptionError.message (e : OptionError) : String := s!"unknown {e.kind} option `{e.text}`"

/-- Choose an option by its name. -/
def chooseOption {α : Type} (kind : String) (names : List (String × α)) (text : String) :
    Except OptionError α :=
  let wanted :=
    match text.toList with
    | '-' :: rest => String.ofList rest
    | _ => text
  match names.lookup wanted.toLower with
  | some a => .ok a
  | none => .error ⟨kind, text⟩

/-! ## Data -/

/-- Which data dependences to follow. -/
inductive DataScope where
  | full
  | noBasePtrs
  | noBaseNoHeap
  | noHeap
  | noBaseNoHeapNoCast
  | noExceptions
  | none
  deriving DecidableEq, Repr

namespace DataScope

/-- The name of a scope. -/
def name : DataScope → String
  | full => "full"
  | noBasePtrs => "no_base_ptrs"
  | noBaseNoHeap => "no_base_no_heap"
  | noHeap => "no_heap"
  | noBaseNoHeapNoCast => "no_base_no_heap_no_cast"
  | noExceptions => "no_exceptions"
  | none => "none"

/-- All scopes. -/
def all : List DataScope :=
  [full, noBasePtrs, noBaseNoHeap, noHeap, noBaseNoHeapNoCast, noExceptions, none]

/-- The scope with a name. -/
def parse (text : String) : Except OptionError DataScope :=
  chooseOption "data dependence" (all.map fun s => (s.name, s)) text

instance : Describe DataScope :=
  ⟨fun
    | full => "Full"
    | noBasePtrs => "NoBasePtrs"
    | noBaseNoHeap => "NoBaseNoHeap"
    | noHeap => "NoHeap"
    | noBaseNoHeapNoCast => "NoBaseNoHeapNoCast"
    | noExceptions => "NoExceptions"
    | none => "None"⟩

/-- Everything is followed unless a scope says otherwise. -/
instance : Inhabited DataScope := ⟨full⟩

/-- The kinds of data dependence that a scope leaves out. -/
def leavesOut : DataScope → List Dependence
  | full => []
  | noBasePtrs => [.basePointer]
  | noBaseNoHeap => [.basePointer, .heap]
  | noHeap => [.heap]
  | noBaseNoHeapNoCast => [.basePointer, .heap, .cast]
  | noExceptions => [.exception]
  | none => [.value, .basePointer, .heap, .cast, .exception]

/-- Is a kind of dependence in the scope? -/
def includes (s : DataScope) (d : Dependence) : Bool := d.isData && d ∉ s.leavesOut

end DataScope

/-! ## Control -/

/-- Whether to follow control dependences. -/
inductive ControlScope where
  | full
  | none
  deriving DecidableEq, Repr

namespace ControlScope

/-- The name of a scope. -/
def name : ControlScope → String
  | full => "full"
  | none => "none"

/-- All scopes. -/
def all : List ControlScope := [full, none]

/-- The scope with a name. -/
def parse (text : String) : Except OptionError ControlScope :=
  chooseOption "control dependence" (all.map fun s => (s.name, s)) text

instance : Describe ControlScope :=
  ⟨fun
    | full => "Full"
    | none => "None"⟩

instance : Inhabited ControlScope := ⟨full⟩

/-- Is a kind of dependence in the scope? -/
def includes (s : ControlScope) (d : Dependence) : Bool := s == full && !d.isData

end ControlScope

/-! ## Direction -/

/-- Which way to follow dependences. -/
inductive Direction where
  /-- To what depends on the seeds. -/
  | forward
  /-- To what the seeds depend on. -/
  | backward
  deriving DecidableEq, Repr

namespace Direction

/-- The name of a direction. -/
def name : Direction → String
  | forward => "forward"
  | backward => "backward"

/-- All directions. -/
def all : List Direction := [forward, backward]

/-- The direction with a name. -/
def parse (text : String) : Except OptionError Direction :=
  chooseOption "direction" (all.map fun d => (d.name, d)) text

instance : Describe Direction :=
  ⟨fun
    | forward => "Forward"
    | backward => "Backward"⟩

/-- Slices go backward unless asked otherwise. -/
instance : Inhabited Direction := ⟨backward⟩

end Direction

/-! ## Policies -/

/-- Which dependences to follow. -/
structure Policy where
  data : DataScope
  control : ControlScope
  deriving DecidableEq, Repr, Inhabited

namespace Policy

/-- Is a kind of dependence followed? -/
def accepts (p : Policy) (d : Dependence) : Bool := p.data.includes d || p.control.includes d

instance : Describe Policy :=
  ⟨fun p => s!"SlicePolicy \x7b data: {describe p.data}, control: {describe p.control} \x7d"⟩

end Policy

end ProgramFlow
