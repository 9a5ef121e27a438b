import DataMarkup.Fault
import DataMarkup.Markup.Tag

/-! The open containers of a run, one frame each. The innermost frame alone decides whether a token has
a place and which markup it brings. -/

namespace DataMarkup

/-- An object's frame is `pending` from a property to the completion of its value. -/
inductive Frame
  | array
  | object (pending : Bool)
  deriving DecidableEq

namespace Frame

def kind : Frame → Container
  | array => .array
  | object _ => .object

def await : Frame → Frame
  | array => array
  | object _ => object true

def settle : Frame → Frame
  | array => array
  | object _ => object false

theorem kind_await (f : Frame) : f.await.kind = f.kind := by cases f <;> rfl

theorem kind_settle (f : Frame) : f.settle.kind = f.kind := by cases f <;> rfl

end Frame

def Container.frame : Container → Frame
  | .array => .array
  | .object => .object false

theorem Container.kind_frame (kind : Container) : kind.frame.kind = kind := by cases kind <;> rfl

/-- Innermost frame first. The depth is kept at hand. -/
structure Nesting where
  frames : List Frame
  depth : Nat
  depth_eq : depth = frames.length
  deriving DecidableEq

namespace Nesting

def empty : Nesting := ⟨[], 0, rfl⟩

instance : Inhabited Nesting := ⟨empty⟩

def innermost? (n : Nesting) : Option Frame := n.frames.head?

def push (n : Nesting) (f : Frame) : Nesting :=
  ⟨f :: n.frames, n.depth + 1, by simp [n.depth_eq]⟩

def pop (n : Nesting) : Nesting :=
  ⟨n.frames.tail, n.depth - 1, by simp [n.depth_eq]⟩

def update (n : Nesting) (g : Frame → Frame) : Nesting :=
  ⟨n.frames.modifyHead g, n.depth, by simp [n.depth_eq]⟩

theorem eq_of_frames_eq {m n : Nesting} (h : m.frames = n.frames) : m = n := by
  obtain ⟨fs, d, hd⟩ := m
  obtain ⟨gs, e, he⟩ := n
  simp only at h
  subst h hd he
  rfl

theorem eq_empty_of_depth_eq_zero {n : Nesting} (h : n.depth = 0) : n = empty :=
  eq_of_frames_eq (List.eq_nil_of_length_eq_zero (n.depth_eq.symm.trans h))

theorem frames_push (n : Nesting) (f : Frame) : (n.push f).frames = f :: n.frames := rfl

theorem frames_pop (n : Nesting) : n.pop.frames = n.frames.tail := rfl

theorem frames_update (n : Nesting) (g : Frame → Frame) :
    (n.update g).frames = n.frames.modifyHead g := rfl

theorem innermost?_update (n : Nesting) (g : Frame → Frame) :
    (n.update g).innermost? = n.innermost?.map g := List.head?_modifyHead

theorem pop_push (n : Nesting) (f : Frame) : (n.push f).pop = n := eq_of_frames_eq rfl

theorem depth_update (n : Nesting) (g : Frame → Frame) : (n.update g).depth = n.depth := rfl

def fault? (n : Nesting) : Data.Token → Option Fault
  | .opening _ _ | .scalar _ =>
    if n.innermost? = some (.object false) then some .valueWithoutProperty else none
  | .closing kind =>
    match n.innermost?, kind with
    | some .array, .array => none
    | some (.object false), .object => none
    | some (.object true), .object => some .missingPropertyValue
    | _, _ => some (.unmatchedEnd kind)
  | .property _ =>
    match n.innermost? with
    | some (.object false) => none
    | some (.object true) => some .missingPropertyValue
    | _ => some .propertyOutsideObject

def after (n : Nesting) : Data.Token → Nesting
  | .opening kind _ => n.push kind.frame
  | .closing _ => n.pop.update Frame.settle
  | .property _ => n.update Frame.await
  | .scalar _ => n.update Frame.settle

def itemBegin (n : Nesting) : List Markup.Token :=
  match n.innermost? with
  | some .array => [Markup.Tag.li.start]
  | _ => []

def itemEnd (n : Nesting) : List Markup.Token :=
  match n.innermost? with
  | some _ => [.elementEnd]
  | none => []

def markup (n : Nesting) : Data.Token → List Markup.Token
  | .opening kind title => n.itemBegin ++ kind.tag.start :: Markup.title title
  | .closing _ => .elementEnd :: n.pop.itemEnd
  | .property name => [Markup.Tag.dt.start, .ofName name, .elementEnd, Markup.Tag.dd.start]
  | .scalar value => n.itemBegin ++ .ofScalar value :: n.itemEnd

theorem length_itemBegin_le (n : Nesting) : n.itemBegin.length ≤ 1 := by
  unfold itemBegin; split <;> simp

theorem length_itemEnd_le (n : Nesting) : n.itemEnd.length ≤ 1 := by
  unfold itemEnd; split <;> simp

theorem markup_ne_nil (n : Nesting) (t : Data.Token) : n.markup t ≠ [] := by
  cases t <;> simp [markup]

theorem length_markup_le (n : Nesting) (t : Data.Token) : (n.markup t).length ≤ 4 := by
  have hb := n.length_itemBegin_le
  have he := n.length_itemEnd_le
  have hp := n.pop.length_itemEnd_le
  cases t with
  | opening kind title => cases title <;> simp [markup, Markup.title] <;> omega
  | closing kind => simp only [markup, List.length_cons]; omega
  | property name => simp [markup]
  | scalar value => simp only [markup, List.length_append, List.length_cons]; omega

end Nesting
end DataMarkup
