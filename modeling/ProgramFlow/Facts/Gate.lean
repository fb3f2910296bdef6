import ProgramFlow.Facts.BitSet

/-!
# Gates: functions on bit sets

What happens to a set of facts on its way along an edge.  Every gate distributes
over `BitSet.join`, so the order in which facts arrive does not matter.
-/

namespace ProgramFlow

/-- A function on bit sets. -/
inductive Gate where
  /-- Everything passes unchanged. -/
  | identity
  /-- Everything passes, and `facts` are added. -/
  | union (facts : BitSet)
  /-- Only members of `mask` pass. -/
  | filter (mask : BitSet)
  /-- Members of `kill` are held back, then `generate` is added. -/
  | killGen (kill generate : BitSet)
  /-- Nothing passes, `facts` take its place. -/
  | constant (facts : BitSet)
  deriving DecidableEq

namespace Gate

/-- What comes out of a gate. -/
def apply : Gate → BitSet → BitSet
  | identity, s => s
  | union facts, s => s.join facts
  | filter mask, s => s.meet mask
  | killGen kill generate, s => (s.minus kill).join generate
  | constant facts, _ => facts

/-- The largest width among the sets a gate is made of. -/
def width : Gate → Nat
  | identity => 0
  | union facts => facts.width
  | filter mask => mask.width
  | killGen kill generate => max kill.width generate.width
  | constant facts => facts.width

instance : Describe Gate :=
  ⟨fun
    | identity => "Identity"
    | union facts => s!"Union({describe facts})"
    | filter mask => s!"Filter({describe mask})"
    | killGen kill generate =>
        s!"KillGen \x7b kill: {describe kill}, generate: {describe generate} \x7d"
    | constant facts => s!"Constant({describe facts})"⟩

end Gate

end ProgramFlow
