import ProgramFlow.Program.CallGraph

/-!
# Statements

The statements of a program as a dependence graph sees them.  Besides the
instructions of its methods there are statements that stand for the flow of
values into and out of calls, through parameters, results, exceptions and heap
locations.  The statements on the caller's side of a call have the index of the
call.
-/

namespace ProgramFlow

/-- What a statement stands for. -/
inductive Role where
  /-- An instruction; if it is a call, the name of its target. -/
  | normal (instruction : String) (call : Option String)
  | phi (value : Nat)
  | paramCaller (value : Nat) (call : String)
  | paramCallee (value : Nat)
  | normalRetCaller (call : String)
  | normalRetCallee
  | excRetCaller (call : String)
  | excRetCallee
  | heapParamCaller (location : String)
  | heapParamCallee (location : String)
  | heapRetCaller (location : String)
  | heapRetCallee (location : String)
  | methodEntry
  | methodExit
  deriving DecidableEq, Repr

/-- A statement of a method. -/
structure Statement where
  node : MethodNode
  /-- The position in the method. -/
  index : Nat
  role : Role
  deriving DecidableEq, Repr

namespace Role

/-- The name of a role. -/
def name : Role → String
  | normal .. => "NORMAL"
  | phi .. => "PHI"
  | paramCaller .. => "PARAM_CALLER"
  | paramCallee .. => "PARAM_CALLEE"
  | normalRetCaller .. => "NORMAL_RET_CALLER"
  | normalRetCallee => "NORMAL_RET_CALLEE"
  | excRetCaller .. => "EXC_RET_CALLER"
  | excRetCallee => "EXC_RET_CALLEE"
  | heapParamCaller .. => "HEAP_PARAM_CALLER"
  | heapParamCallee .. => "HEAP_PARAM_CALLEE"
  | heapRetCaller .. => "HEAP_RET_CALLER"
  | heapRetCallee .. => "HEAP_RET_CALLEE"
  | methodEntry => "METHOD_ENTRY"
  | methodExit => "METHOD_EXIT"

/-- A constructor with its fields. -/
def record (constructor : String) (fields : List (String × String)) : String :=
  let texts := fields.map fun (name, text) => s!"{name}: {text}"
  constructor ++ " \x7b " ++ ", ".intercalate texts ++ " \x7d"

instance : Describe Role :=
  ⟨fun
    | normal instruction call =>
        let target := match call with
          | some name => s!"Some({describe name})"
          | none => "None"
        record "Normal" [("instruction", describe instruction), ("call", target)]
    | phi value => record "Phi" [("value", describe value)]
    | paramCaller value call =>
        record "ParamCaller" [("value", describe value), ("call", describe call)]
    | paramCallee value => record "ParamCallee" [("value", describe value)]
    | normalRetCaller call => record "NormalRetCaller" [("call", describe call)]
    | normalRetCallee => "NormalRetCallee"
    | excRetCaller call => record "ExcRetCaller" [("call", describe call)]
    | excRetCallee => "ExcRetCallee"
    | heapParamCaller location => record "HeapParamCaller" [("location", describe location)]
    | heapParamCallee location => record "HeapParamCallee" [("location", describe location)]
    | heapRetCaller location => record "HeapRetCaller" [("location", describe location)]
    | heapRetCallee location => record "HeapRetCallee" [("location", describe location)]
    | methodEntry => "MethodEntry"
    | methodExit => "MethodExit"⟩

end Role

namespace Statement

instance : Describe Statement :=
  ⟨fun s => Role.record "Statement"
    [("node", describe s.node), ("index", describe s.index), ("kind", describe s.role)]⟩

/-- The statement as users see it. -/
def display (s : Statement) : String := s!"{s.node.display}:{s.index} {s.role.name}"

/-- Does the statement call the method with the given name? -/
def calls (s : Statement) (callee : String) : Bool :=
  match s.role with
  | .normal _ (some target) => target == callee
  | _ => false

/-- Where the result of a call becomes available.  Other statements stay as they are. -/
def returnPoint (s : Statement) : Statement :=
  match s.role with
  | .normal _ (some target) => { s with role := .normalRetCaller target }
  | _ => s

/-- Lines of a label, divided by the line break of the drawing format. -/
def labelLines (lines : List String) : String := "\\n".intercalate lines

/-- The label of a statement in a drawing. -/
def label (g : CallGraph) (s : Statement) : String :=
  let method := (g.method? s.node).getD "?"
  let kind := s.role.name
  match s.role with
  | .heapParamCaller location | .heapParamCallee location
  | .heapRetCaller location | .heapRetCallee location =>
      labelLines [kind, s.node.display, location]
  | .normal instruction _ => labelLines [instruction, method]
  | .paramCaller value call => labelLines [s!"{kind} {value}", method, call]
  | .paramCallee value => labelLines [s!"{kind} {value}", method]
  | _ => s.display

end Statement

end ProgramFlow
