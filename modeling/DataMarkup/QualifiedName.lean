/-! Names of containers, properties, elements and attributes. The qualifier and the namespace are
carried along; resolving them is left to whoever writes the markup out. -/

namespace DataMarkup

structure QualifiedName where
  localPart : String
  qualifier : String
  uri : String
  deriving DecidableEq, Inhabited

namespace QualifiedName

def ofLocal (localPart : String) : QualifiedName := ⟨localPart, "", ""⟩

def isEmpty (n : QualifiedName) : Bool := n.localPart.isEmpty

def isQualified (n : QualifiedName) : Bool := !n.qualifier.isEmpty || !n.uri.isEmpty

def text (n : QualifiedName) : String :=
  if n.qualifier.isEmpty then n.localPart else n.qualifier ++ ":" ++ n.localPart

theorem ofLocal_inj {s t : String} : ofLocal s = ofLocal t ↔ s = t := by
  simp [ofLocal]

end QualifiedName

end DataMarkup
