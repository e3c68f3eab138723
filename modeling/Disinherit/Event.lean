import Disinherit.Diagnostic

/-!
# Events

What happens on the way from a script to its flattened form is told as a list of events, for whoever
wants to follow the work. `Event.render` gives the line of an event, with the name of the part of
the program that it comes from.
-/

namespace Disinherit

/-- One thing that happened. -/
inductive Event where
  /-- The classes of a script were read. -/
  | registered (classes : Nat)
  /-- The walk along the parents of `target` came back to `name`. -/
  | cycle (name target : String)
  /-- The lineage of `target` was put together. -/
  | traced (target : String) (chain : List String) (members constructors : Nat)
  /-- A copy goes by `name` because `base` is taken. -/
  | nameTaken (target base name : String)
  /-- An ancestor's member was copied. -/
  | copied (target name owner : String)
  /-- A class is left out. -/
  | leftOut (name : String)
  /-- A diagnostic was made. -/
  | reported (d : Diagnostic)
deriving DecidableEq, Repr

namespace Event

/-- The part of the program that an event comes from. -/
def channel : Event → String
  | registered _ | reported _ => "flatclass.compiler"
  | cycle .. | traced .. => "flatclass.middleend.linearize"
  | nameTaken .. | copied .. => "flatclass.middleend.supers"
  | leftOut _ => "flatclass.backend.assemble"

/-- What happened, in words. -/
def message : Event → String
  | registered n => "registry: " ++ toString n ++ " classes"
  | cycle name target => "cycle at " ++ name ++ " while linearizing " ++ target
  | traced target chain members constructors =>
    "linearized " ++ target ++ ": chain=" ++ String.intercalate " -> " chain
      ++ " members=" ++ toString members ++ " constructors=" ++ toString constructors
  | nameTaken target base name => target ++ ": " ++ base ++ " is taken, using " ++ name
  | copied target name owner => target ++ ": synthesized " ++ name ++ " from " ++ owner
  | leftOut name => "elided " ++ name
  | reported d => d.render

/-- The line that tells of an event. -/
def render (e : Event) : String :=
  "DEBUG " ++ e.channel ++ ": " ++ e.message

end Event

end Disinherit
