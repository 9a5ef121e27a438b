import DataMarkup.Data.Token

/-! What a list of tokens leaves open, read off the list alone: from its end backwards, where each
closing token hides one opening token before it. -/

namespace DataMarkup.Data

/-- The tokens come last one first; `hidden` opening tokens have met their end already. -/
def unclosedFrom (hidden : Nat) : List Token → List Container
  | [] => []
  | .closing _ :: ts => unclosedFrom (hidden + 1) ts
  | .opening kind _ :: ts =>
    match hidden with
    | 0 => kind :: unclosedFrom 0 ts
    | hidden + 1 => unclosedFrom hidden ts
  | _ :: ts => unclosedFrom hidden ts

def unclosed (ts : List Token) : List Container := unclosedFrom 0 ts.reverse

def innermost? (ts : List Token) : Option Container := (unclosed ts).head?

def pending (ts : List Token) : Bool := ts.getLast?.any Token.isProperty

def openings (ts : List Token) : Nat := ts.countP Token.isOpening

def closings (ts : List Token) : Nat := ts.countP Token.isClosing

theorem openings_append (us vs : List Token) :
    openings (us ++ vs) = openings us + openings vs := List.countP_append

theorem closings_append (us vs : List Token) :
    closings (us ++ vs) = closings us + closings vs := List.countP_append

theorem pending_concat (ts : List Token) (t : Token) : pending (ts ++ [t]) = t.isProperty := by
  simp [pending]

theorem unclosed_concat_opening (ts : List Token) (kind : Container)
    (title : Option QualifiedName) :
    unclosed (ts ++ [.opening kind title]) = kind :: unclosed ts := by
  simp [unclosed, unclosedFrom]

theorem unclosed_concat_property (ts : List Token) (name : QualifiedName) :
    unclosed (ts ++ [.property name]) = unclosed ts := by
  simp [unclosed, unclosedFrom]

theorem unclosed_concat_scalar (ts : List Token) (value : Scalar) :
    unclosed (ts ++ [.scalar value]) = unclosed ts := by
  simp [unclosed, unclosedFrom]

theorem unclosedFrom_succ (hidden : Nat) (ts : List Token) :
    unclosedFrom (hidden + 1) ts = (unclosedFrom hidden ts).tail := by
  induction ts generalizing hidden with
  | nil => rfl
  | cons t ts ih =>
    cases t with
    | opening kind title =>
      cases hidden with
      | zero => simp [unclosedFrom]
      | succ hidden => simp only [unclosedFrom]; exact ih hidden
    | closing kind => simp only [unclosedFrom]; exact ih (hidden + 1)
    | property name => simp only [unclosedFrom]; exact ih hidden
    | scalar value => simp only [unclosedFrom]; exact ih hidden

theorem unclosed_concat_closing (ts : List Token) (kind : Container) :
    unclosed (ts ++ [.closing kind]) = (unclosed ts).tail := by
  simp [unclosed, unclosedFrom, unclosedFrom_succ]

end DataMarkup.Data
