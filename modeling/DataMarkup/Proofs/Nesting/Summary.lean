import DataMarkup.Data.Unclosed
import DataMarkup.Proofs.Nesting.Passage

/-! The frames sum up the history. Their kinds are the containers that the tokens so far leave open, and
the innermost one is pending exactly when the last token is a property. -/

namespace DataMarkup

namespace Frame

theorem settle_eq_frame_kind (f : Frame) : f.settle = f.kind.frame := by cases f <;> rfl

theorem settle_ne_pending (f : Frame) : f.settle ≠ .object true := by cases f <;> simp [settle]

end Frame

namespace Nesting

variable {n : Nesting} {t : Data.Token} {ts : List Data.Token}

def kinds (n : Nesting) : List Container := n.frames.map Frame.kind

def awaits (n : Nesting) : Bool := n.innermost? = some (.object true)

theorem kinds_push (n : Nesting) (f : Frame) : (n.push f).kinds = f.kind :: n.kinds := rfl

theorem kinds_pop (n : Nesting) : n.pop.kinds = n.kinds.tail := List.map_tail

theorem kinds_of_innermost? {f : Frame} (h : n.innermost? = some f) :
    n.kinds = f.kind :: n.pop.kinds := by
  obtain ⟨fs, hfs⟩ := List.head?_eq_some_iff.mp h
  rw [kinds, kinds, frames_pop, hfs]
  rfl

theorem kinds_update {g : Frame → Frame} (h : ∀ f, (g f).kind = f.kind) (n : Nesting) :
    (n.update g).kinds = n.kinds := by
  rw [kinds, kinds, frames_update]
  cases n.frames with
  | nil => rfl
  | cons f fs => rw [List.modifyHead_cons, List.map_cons, List.map_cons, h]

theorem kinds_settle (n : Nesting) : (n.update Frame.settle).kinds = n.kinds :=
  kinds_update Frame.kind_settle n

theorem kinds_await (n : Nesting) : (n.update Frame.await).kinds = n.kinds :=
  kinds_update Frame.kind_await n

theorem awaits_of_innermost? {kind : Container} (h : n.innermost? = some kind.frame) :
    n.awaits = false := by
  rw [awaits, h]
  cases kind <;> rfl

theorem awaits_push_frame (n : Nesting) (kind : Container) :
    (n.push kind.frame).awaits = false := awaits_of_innermost? rfl

theorem awaits_settle (n : Nesting) : (n.update Frame.settle).awaits = false := by
  rw [awaits, innermost?_update, decide_eq_false_iff_not]
  rintro h
  obtain ⟨f, -, hf⟩ := Option.map_eq_some_iff.mp h
  exact f.settle_ne_pending hf

theorem awaits_await (h : n.innermost? = some (.object false)) :
    (n.update Frame.await).awaits = true := by
  rw [awaits, innermost?_update, h]
  rfl

structure Summarizes (n : Nesting) (ts : List Data.Token) : Prop where
  unclosed_eq : Data.unclosed ts = n.kinds
  pending_eq : Data.pending ts = n.awaits

theorem summarizes_empty : empty.Summarizes [] := ⟨rfl, rfl⟩

theorem Summarizes.step (h : n.Summarizes ts) (hf : n.fault? t = none) :
    (n.after t).Summarizes (ts ++ [t]) := by
  cases t with
  | opening kind title =>
    refine ⟨?_, ?_⟩
    · rw [Data.unclosed_concat_opening, h.unclosed_eq, after, kinds_push, Container.kind_frame]
    · rw [Data.pending_concat, after, awaits_push_frame]
      rfl
  | closing kind =>
    refine ⟨?_, ?_⟩
    · rw [Data.unclosed_concat_closing, h.unclosed_eq, after, kinds_settle, kinds_pop]
    · rw [Data.pending_concat, after, awaits_settle]
      rfl
  | property name =>
    refine ⟨?_, ?_⟩
    · rw [Data.unclosed_concat_property, h.unclosed_eq, after, kinds_await]
    · rw [Data.pending_concat, after, awaits_await (fault?_property_eq_none_iff.mp hf)]
      rfl
  | scalar value =>
    refine ⟨?_, ?_⟩
    · rw [Data.unclosed_concat_scalar, h.unclosed_eq, after, kinds_settle]
    · rw [Data.pending_concat, after, awaits_settle]
      rfl

theorem Summarizes.length_unclosed (h : n.Summarizes ts) :
    (Data.unclosed ts).length = n.depth := by
  rw [h.unclosed_eq, kinds, List.length_map, n.depth_eq]

end Nesting

theorem Run.summarizes_of_going {ts : List Data.Token} (h : (start.after ts).hasEnded = false) :
    (start.after ts).nesting.Summarizes ts :=
  holds_of_going Nesting.summarizes_empty Nesting.Summarizes.step h

theorem Run.depth_after {ts : List Data.Token} (h : (start.after ts).hasEnded = false) :
    (start.after ts).depth = (Data.unclosed ts).length :=
  (summarizes_of_going h).length_unclosed.symm

theorem Run.depth_after_eq_zero_iff {ts : List Data.Token}
    (h : (start.after ts).hasEnded = false) :
    (start.after ts).depth = 0 ↔ Data.unclosed ts = [] := by
  rw [depth_after h, List.length_eq_zero_iff]

end DataMarkup
