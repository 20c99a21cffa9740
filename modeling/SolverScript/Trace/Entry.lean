import SolverScript.Trace.Registry

/-!
# Trace entries

An entry of the trace is a text under a tag, framed by a header and a rule.
-/

namespace SolverScript

/-- An entry of the trace. -/
structure TraceEntry where
  tag : String
  text : String
  deriving DecidableEq, Repr

namespace TraceEntry

/-- An entry made of lines. -/
def ofLines (o : TraceOption) (lines : List String) : TraceEntry :=
  ⟨o.name, joined "" (lines.map (· ++ "\n"))⟩

/-- The entry as it is written. -/
def render (e : TraceEntry) : String :=
  "------------- [" ++ e.tag ++ "]\n" ++ e.text ++ String.ofList (List.replicate 79 '-') ++ "\n"

end TraceEntry

namespace Registry

/-- What is written of some entries: those whose tag is shown. -/
def output (r : Registry) (entries : List TraceEntry) : String :=
  joined "" ((entries.filter fun e => r.shows e.tag).map TraceEntry.render)

/-- What is written of a text under a tag, once with a frame and once without, and of a sign of
progress. -/
def outputSample (r : Registry) (tag framed bare progress : String) : String :=
  r.output [⟨tag, framed⟩] ++ (if r.shows tag then bare else "") ++
    (if r.showsMinimal then progress else "")

end Registry

end SolverScript
