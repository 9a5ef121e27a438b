import DataMarkup.Data.Token

/-! What can go wrong, and how it is worded. -/

namespace DataMarkup

inductive Fault
  | unmatchedEnd (kind : Container)
  | propertyOutsideObject
  | missingPropertyValue
  | valueWithoutProperty
  | unclosedContainer
  deriving DecidableEq

namespace Fault

def code : Fault → Nat
  | unmatchedEnd .array => 0
  | unmatchedEnd .object => 1
  | propertyOutsideObject => 2
  | missingPropertyValue => 3
  | valueWithoutProperty => 4
  | unclosedContainer => 5

def message : Fault → String
  | unmatchedEnd .array => "array end without matching array begin"
  | unmatchedEnd .object => "object end without matching object begin"
  | propertyOutsideObject => "property outside object"
  | missingPropertyValue => "property without value"
  | valueWithoutProperty => "object value without property"
  | unclosedContainer => "unclosed container at end of input"

theorem code_inj {f g : Fault} : f.code = g.code ↔ f = g := by
  rcases f with (_ | _) | _ | _ | _ | _ <;> rcases g with (_ | _) | _ | _ | _ | _ <;> decide

theorem message_inj {f g : Fault} : f.message = g.message ↔ f = g := by
  rcases f with (_ | _) | _ | _ | _ | _ <;> rcases g with (_ | _) | _ | _ | _ | _ <;> decide

end Fault

/-- The token at `index` is at fault; at the end of the input `index` is the input's length. -/
structure Malformed where
  index : Nat
  fault : Fault
  deriving DecidableEq

inductive Misuse
  | stepAfterEnd
  | shortOfRoom
  | ringFull
  deriving DecidableEq

inductive Failure
  | malformed (cause : Malformed)
  | absentArgument (name : String)
  | misuse (cause : Misuse)
  deriving DecidableEq

namespace Misuse

def message : Misuse → String
  | stepAfterEnd => "step after the end"
  | shortOfRoom => "no room for a full step"
  | ringFull => "ring is full"

end Misuse

namespace Failure

def message : Failure → String
  | malformed m => s!"malformed input at token {m.index}: {m.fault.message}"
  | absentArgument name => s!"invalid argument: `{name}` must not be absent"
  | misuse m => m.message

def fault? : Failure → Option Fault
  | malformed m => some m.fault
  | _ => none

end Failure
end DataMarkup
