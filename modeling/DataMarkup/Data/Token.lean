import DataMarkup.QualifiedName
import DataMarkup.Scalar

/-! The input alphabet: a flat reading of nested arrays and objects, containers marked by an opening
and a closing token. -/

namespace DataMarkup

inductive Container
  | array
  | object
  deriving DecidableEq

namespace Data

inductive Token
  | opening (kind : Container) (title : Option QualifiedName)
  | closing (kind : Container)
  | property (name : QualifiedName)
  | scalar (value : Scalar)
  deriving BEq

namespace Token

def isOpening : Token → Bool
  | opening .. => true
  | _ => false

def isClosing : Token → Bool
  | closing _ => true
  | _ => false

def isProperty : Token → Bool
  | property _ => true
  | _ => false

def startsValue : Token → Bool
  | opening .. => true
  | scalar _ => true
  | _ => false

def name? : Token → Option QualifiedName
  | opening _ title => title
  | property name => some name
  | _ => none

end Token
end Data
end DataMarkup
