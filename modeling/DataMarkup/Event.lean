import DataMarkup.Nesting

/-! The account that a run keeps of itself: a frame more, a frame less, and how it ended. -/

namespace DataMarkup

/-- Depths are those after the event. -/
inductive Event
  | pushed (depth : Nat) (frame : Frame)
  | popped (depth : Nat) (frame : Option Frame)
  | finished (tokens : Nat) (deepest : Nat)
  | stopped (cause : Malformed)
  deriving DecidableEq

namespace Frame

def text : Frame → String
  | array => "Array"
  | object false => "Object { awaiting_value: false }"
  | object true => "Object { awaiting_value: true }"

def optionText : Option Frame → String
  | none => "None"
  | some frame => "Some(" ++ frame.text ++ ")"

end Frame

namespace Event

def level : Event → String
  | pushed .. | popped .. => "TRACE"
  | finished .. | stopped _ => "DEBUG"

def message : Event → String
  | pushed .. => "push frame"
  | popped .. => "pop frame"
  | finished .. => "transform finished"
  | stopped cause => "malformed input: " ++ cause.fault.message

def fields : Event → List (String × String)
  | pushed depth frame => [("depth", toString depth), ("frame", frame.text)]
  | popped depth frame => [("depth", toString depth), ("frame", Frame.optionText frame)]
  | finished tokens deepest => [("tokens", toString tokens), ("max_depth", toString deepest)]
  | stopped cause => [("index", toString cause.index), ("code", toString cause.fault.code)]

end Event

def Nesting.event? (n : Nesting) : Data.Token → Option Event
  | .opening kind _ => some (.pushed (n.depth + 1) kind.frame)
  | .closing _ => some (.popped (n.depth - 1) n.innermost?)
  | _ => none

end DataMarkup
