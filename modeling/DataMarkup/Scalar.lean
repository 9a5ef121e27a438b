import DataMarkup.Decimal.Positional

/-! Leaf values. They pass from the data to the markup unchanged; nothing here looks inside them
except the accessors and the literal text. -/

namespace DataMarkup

/-- Equality `==` is that of numbers on floats, `=` that of their bits. An integer never equals a float. -/
inductive Scalar
  | null
  | bool (value : Bool)
  | int (value : Int64)
  | float (value : Binary64)
  | text (value : String)
  deriving BEq

namespace Scalar

instance : Inhabited Scalar := ⟨null⟩

def isNull : Scalar → Bool
  | null => true
  | _ => false

def bool? : Scalar → Option Bool
  | bool b => some b
  | _ => none

def int? : Scalar → Option Int64
  | int i => some i
  | _ => none

def float? : Scalar → Option Binary64
  | float x => some x
  | int i => some ⟨i.toFloat.toBits⟩
  | _ => none

def text? : Scalar → Option String
  | text s => some s
  | _ => none

def literal : Scalar → String
  | null => "null"
  | bool true => "true"
  | bool false => "false"
  | int i => Int.repr i.toInt
  | float x => x.text
  | text s => s

end Scalar

class ToScalar (α : Type) where
  toScalar : α → Scalar

export ToScalar (toScalar)

instance : ToScalar Bool := ⟨.bool⟩
instance : ToScalar Int64 := ⟨.int⟩
instance : ToScalar Int32 := ⟨fun i => .int i.toInt64⟩
instance : ToScalar Binary64 := ⟨.float⟩
instance : ToScalar String := ⟨.text⟩

instance {α : Type} [ToScalar α] : ToScalar (Option α) := ⟨fun a => a.elim .null toScalar⟩

end DataMarkup
