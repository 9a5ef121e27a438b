import DataMarkup.Proofs.Pull.Exhaustion
import DataMarkup.Proofs.Renderer.Outcome

/-! One call of a pull, and a number of them. Every accepted token brings some markup, so a call asks for
one input token at most and never has to go on to the next. -/

namespace DataMarkup

theorem Run.markup_step_ne_nil {run : Run} {t : Data.Token} (hgo : run.hasEnded = false)
    (hf : run.nesting.fault? t = none) : (run.step t).2 ≠ [] := by
  rw [step_of_accepted hgo hf]
  exact List.append_ne_nil_of_right_ne_nil _ (run.nesting.markup_ne_nil t)

namespace Pull

variable {p : Pull} {x : Option (Except Failure Markup.Token) × Pull}

def skip (p : Pull) : Nat → Pull
  | 0 => p
  | k + 1 => p.next.2.skip k

theorem skip_add (p : Pull) (j k : Nat) : p.skip (j + k) = (p.skip j).skip k := by
  induction j generalizing p with
  | zero => rw [Nat.zero_add, skip]
  | succ j ih => rw [Nat.succ_add, skip, skip, ih]

theorem skip_succ (p : Pull) (k : Nat) : p.skip (k + 1) = (p.skip k).next.2 := skip_add p k 1

/-- Markup that waits comes first. With none left the input decides, if the run goes on: its next token
has a place or not, or there is no token, with containers open or with none. -/
inductive Moves (p : Pull) : Option (Except Failure Markup.Token) × Pull → Prop
  | waiting {m : Markup.Token} {ms : List Markup.Token} {ring : Ring Markup.Token}
    (before : p.renderer.ring.toList = m :: ms)
    (holds : ring.Holds p.renderer.ring.capacity ms) :
    Moves p (some (.ok m), ⟨p.source, ⟨p.renderer.run, ring⟩, p.pulls⟩)
  | ended (before : p.renderer.ring.toList = []) (ended : p.renderer.run.hasEnded = true) :
    Moves p (none, p)
  | accepted {t : Data.Token} {ts : List Data.Token} {m : Markup.Token} {ms : List Markup.Token}
    {ring : Ring Markup.Token} (before : p.renderer.ring.toList = [])
    (going : p.renderer.run.hasEnded = false) (source : p.source = t :: ts)
    (placed : p.renderer.run.nesting.fault? t = none)
    (markup : (p.renderer.run.step t).2 = m :: ms)
    (holds : ring.Holds p.renderer.ring.capacity ms) :
    Moves p (some (.ok m), ⟨ts, ⟨(p.renderer.run.step t).1, ring⟩, p.pulls + 1⟩)
  | stopped {t : Data.Token} {ts : List Data.Token} {fault : Fault}
    (before : p.renderer.ring.toList = []) (going : p.renderer.run.hasEnded = false)
    (source : p.source = t :: ts) (misplaced : p.renderer.run.nesting.fault? t = some fault) :
    Moves p (some (.error (.malformed ⟨p.renderer.run.accepted, fault⟩)),
      ⟨ts, ⟨p.renderer.run.stop fault, p.renderer.ring⟩, p.pulls + 1⟩)
  | unclosed (before : p.renderer.ring.toList = []) (going : p.renderer.run.hasEnded = false)
    (source : p.source = []) (hd : p.renderer.depth ≠ 0) :
    Moves p (some (.error (.malformed ⟨p.renderer.run.accepted, .unclosedContainer⟩)),
      ⟨[], ⟨p.renderer.run.stop .unclosedContainer, p.renderer.ring⟩, p.pulls + 1⟩)
  | closed {ring : Ring Markup.Token} (before : p.renderer.ring.toList = [])
    (going : p.renderer.run.hasEnded = false) (source : p.source = [])
    (hd : p.renderer.depth = 0)
    (holds : ring.Holds p.renderer.ring.capacity p.renderer.run.finish.2.tail) :
    Moves p (p.renderer.run.finish.2.head?.map .ok,
      ⟨[], ⟨p.renderer.run.finish.1, ring⟩, p.pulls + 1⟩)

theorem moves_of_going (h : p.renderer.Sound) (hms : p.renderer.ring.toList = [])
    (hgo : p.renderer.run.hasEnded = false) : p.Moves p.next := by
  obtain ⟨source, r, n⟩ := p
  have hheld := h.wellFormed.holds_of_toList_eq hms
  cases source with
  | nil =>
    by_cases hd : r.depth = 0
    · obtain ⟨ring, hnext, hring⟩ := nextFrom_nil_of_closed h hheld hgo hd n
      rw [next, hnext]
      exact .closed hms hgo rfl hd hring
    · rw [next, nextFrom_nil_of_unclosed hheld hgo hd]
      exact .unclosed hms hgo rfl hd
  | cons t ts =>
    cases hf : r.run.nesting.fault? t with
    | some fault =>
      rw [next, nextFrom_of_fault h hheld hgo hf]
      exact .stopped hms hgo rfl hf
    | none =>
      obtain ⟨s, hs, hnext⟩ := nextFrom_of_accepted h hheld hgo hf n ts
      obtain ⟨m, ms, hmarkup⟩ := List.exists_cons_of_ne_nil (Run.markup_step_ne_nil hgo hf)
      have hbrought := hs.holds
      rw [hms, Run.markup, Run.markup, hmarkup, List.append_nil, List.nil_append] at hbrought
      obtain ⟨ring, hwaiting, hring⟩ := nextFrom_of_waiting hbrought (n + 1) ts
      rw [next, hnext, hwaiting, hs.run_eq]
      exact .accepted hms hgo rfl hf hmarkup hring

theorem moves_next (h : p.renderer.Sound) : p.Moves p.next := by
  cases hms : p.renderer.ring.toList with
  | cons m ms =>
    have hheld := h.wellFormed.holds_of_toList_eq hms
    obtain ⟨ring, hnext, hring⟩ := nextFrom_of_waiting hheld p.pulls p.source
    rw [next, hnext]
    exact .waiting hms hring
  | nil =>
    cases hgo : p.renderer.run.hasEnded with
    | true =>
      have hheld := h.wellFormed.holds_of_toList_eq hms
      rw [next, nextFrom_of_hasEnded hheld hgo]
      exact .ended hms hgo
    | false => exact moves_of_going h hms hgo

theorem Moves.sound (hx : p.Moves x) (h : p.renderer.Sound) : x.2.renderer.Sound := by
  cases hx with
  | waiting _ holds => exact h.ring holds
  | ended _ _ => exact h
  | accepted _ _ _ _ _ holds => exact (h.run (h.coherent.step _)).ring holds
  | stopped _ _ _ _ => exact h.stop _
  | unclosed _ _ _ _ => exact h.stop _
  | closed _ _ _ _ holds => exact (h.run h.coherent.finish).ring holds

theorem sound_skip (h : p.renderer.Sound) (k : Nat) : (p.skip k).renderer.Sound := by
  induction k generalizing p with
  | zero => exact h
  | succ k ih => exact ih ((moves_next h).sound h)

theorem sound_skip_ofList (ts : List Data.Token) (k : Nat) :
    ((ofList ts).skip k).renderer.Sound := sound_skip (Renderer.sound_ofCapacity _) k

end Pull
end DataMarkup
