import DataMarkup.Payload
import DataMarkup.Proofs.Pull.Move
import DataMarkup.Proofs.Ring.Map

/-! Two runs on inputs that differ in nothing but values and names. A run keeps neither, so it is the
same run on both sides; only the markup in the ring differs, and only in its texts. Each function
commutes with the replacement because the functions it calls do. -/

namespace DataMarkup

variable (p : Payload)

namespace Markup

theorem Token.map_elementEnd : Token.elementEnd.map p = .elementEnd := rfl

theorem Tag.map_start (tag : Tag) : tag.start.map p = tag.start := Token.map_element p tag.name

theorem map_title (name : Option QualifiedName) :
    (title name).map (Token.map p) = title (name.map p.name) := by
  cases name with
  | none => rfl
  | some name => exact congrArg (Token.plainAttr "title" :: [·]) (Token.map_ofName p name)

end Markup

/-! ### One token -/

namespace Nesting

variable (n : Nesting) (t : Data.Token)

theorem fault?_map : n.fault? (t.map p) = n.fault? t := by
  cases t <;> rfl

theorem after_map : n.after (t.map p) = n.after t := by
  cases t <;> rfl

theorem event?_map : n.event? (t.map p) = n.event? t := by
  cases t <;> rfl

theorem map_itemBegin : n.itemBegin.map (Markup.Token.map p) = n.itemBegin := by
  unfold itemBegin
  split
  · rw [List.map_singleton, Markup.Tag.map_start]
  · rfl

theorem map_itemEnd : n.itemEnd.map (Markup.Token.map p) = n.itemEnd := by
  unfold itemEnd
  split <;> rfl

theorem markup_map : n.markup (t.map p) = (n.markup t).map (Markup.Token.map p) := by
  cases t with
  | opening kind title =>
    simp only [Data.Token.map, markup, List.map_append, List.map_cons, map_itemBegin,
      Markup.Tag.map_start, Markup.map_title]
  | closing kind =>
    simp only [Data.Token.map, markup, List.map_cons, map_itemEnd, Markup.Token.map_elementEnd]
  | property name =>
    simp only [Data.Token.map, markup, List.map_cons, List.map_nil, Markup.Tag.map_start,
      Markup.Token.map_ofName, Markup.Token.map_elementEnd]
  | scalar value =>
    simp only [Data.Token.map, markup, List.map_append, List.map_cons, map_itemBegin, map_itemEnd,
      Markup.Token.map_ofScalar]

end Nesting

namespace Run

variable (run : Run)

theorem accept_map (t : Data.Token) : run.accept (t.map p) = run.accept t := by
  unfold accept
  rw [Nesting.after_map, Nesting.event?_map]

theorem map_wrapper : run.wrapper.map (Markup.Token.map p) = run.wrapper := by
  unfold wrapper
  split
  · rw [List.map_singleton, Markup.Tag.map_start]
  · rfl

theorem step_map (t : Data.Token) :
    run.step (t.map p) = ((run.step t).1, (run.step t).2.map (Markup.Token.map p)) := by
  unfold step
  rw [Nesting.fault?_map]
  split
  · rfl
  · cases run.nesting.fault? t with
    | some fault => rfl
    | none => simp only [accept_map, Nesting.markup_map, List.map_append, map_wrapper]

theorem map_finish : run.finish.2.map (Markup.Token.map p) = run.finish.2 := by
  unfold finish
  split
  · rfl
  · split
    · rfl
    · dsimp only
      split <;> rfl

end Run

/-! ### One call -/

namespace Renderer

def map (r : Renderer) : Renderer := ⟨r.run, r.ring.map (Markup.Token.map p)⟩

variable (r : Renderer)

theorem map_ofCapacity (n : Nat) : (ofCapacity n).map p = ofCapacity n :=
  congrArg (Renderer.mk .start) (Ring.map_ofCapacity _ _)

theorem failure?_map : (r.map p).run.failure? = r.run.failure? := rfl

theorem hasEnded_map : (r.map p).run.hasEnded = r.run.hasEnded := rfl

theorem isFinished_map : (r.map p).isFinished = r.isFinished := rfl

theorem hasRoom_map : (r.map p).hasRoom = r.hasRoom := by
  unfold hasRoom
  rw [map, Ring.space_map]

theorem status_map : (r.map p).status = r.status := by
  unfold status
  rw [map, Ring.levels_map]
  rfl

theorem emit_map (ring : Ring Markup.Token) (run : Run) (ms : List Markup.Token) :
    emit (ring.map (Markup.Token.map p)) run (ms.map (Markup.Token.map p)) =
      ((emit ring run ms).1, (emit ring run ms).2.map p) := by
  unfold emit
  rw [Ring.pushAll_map]
  obtain ⟨taken, ring⟩ := ring.pushAll ms
  cases taken with
  | false => rfl
  | true => cases run.failure? <;> rfl

theorem step_map (t : Data.Token) :
    (r.map p).step (t.map p) = ((r.step t).1, (r.step t).2.map p) := by
  unfold step
  rw [failure?_map, isFinished_map, hasRoom_map]
  cases r.run.failure? with
  | some cause => rfl
  | none =>
    dsimp only
    split
    · rfl
    · split
      · rfl
      · simp only [map, Run.step_map, emit_map]

theorem close_map : (r.map p).close = (r.close.1, r.close.2.map p) := by
  obtain ⟨run, ring⟩ := r
  have hemit := emit_map p ring run.finish.1 run.finish.2
  rwa [Run.map_finish] at hemit

theorem stepAll_map (consumed : Nat) (ts : List Data.Token) :
    (r.map p).stepAll consumed (ts.map (Data.Token.map p)) =
      ((r.stepAll consumed ts).1, (r.stepAll consumed ts).2.map p) := by
  induction ts generalizing r consumed with
  | nil => rfl
  | cons t ts ih =>
    rw [List.map_cons, stepAll, stepAll, hasRoom_map, step_map]
    split
    · obtain ⟨result, s⟩ := r.step t
      cases result with
      | ok _ => exact ih s (consumed + 1)
      | error failure => rfl
    · rfl

theorem feed_map (ts : List Data.Token) :
    (r.map p).feed (ts.map (Data.Token.map p)) = ((r.feed ts).1, (r.feed ts).2.map p) := by
  unfold feed
  rw [failure?_map, isFinished_map, stepAll_map]
  cases r.run.failure? with
  | some cause => rfl
  | none =>
    dsimp only
    split
    · rfl
    · obtain ⟨result, s⟩ := r.stepAll 0 ts
      cases result with
      | error failure => rfl
      | ok consumed =>
        dsimp only
        rw [hasRoom_map]
        rfl

theorem finish_map : (r.map p).finish = (r.finish.1, r.finish.2.map p) := by
  have hfull : (r.map p).ring.isFull = r.ring.isFull := Ring.isFull_map _ _
  unfold finish
  rw [failure?_map, hfull, close_map]
  cases r.run.failure? with
  | some cause => rfl
  | none =>
    dsimp only
    split
    · rfl
    · obtain ⟨result, s⟩ := r.close
      cases result with
      | error failure => rfl
      | ok _ =>
        dsimp only [map]
        rw [Ring.isFull_map]
        rfl

theorem read_map : (r.map p).read = (r.read.1.map (Markup.Token.map p), r.read.2.map p) := by
  obtain ⟨run, ring⟩ := r
  unfold read
  simp only [map, Ring.pop_map]

theorem unload_map (out : Array Markup.Token) (limit : Option Nat) :
    (r.map p).unload (out.map (Markup.Token.map p)) limit =
      ((r.unload out limit).1.map (Markup.Token.map p), (r.unload out limit).2.map p) := by
  obtain ⟨run, ring⟩ := r
  unfold unload
  simp only [map, Ring.count_map, Ring.unload_map]

end Renderer

def Call.map : Call → Call
  | .feed ts => .feed (ts.map (Data.Token.map p))
  | c => c

def Answer.map : Answer → Answer
  | .report result => .report result
  | .token m => .token (m.map (Markup.Token.map p))
  | .tokens ms => .tokens (ms.map (Markup.Token.map p))

namespace Renderer

theorem answer_map (r : Renderer) (c : Call) :
    (r.map p).answer (c.map p) = ((r.answer c).1.map p, (r.answer c).2.map p) := by
  cases c with
  | feed ts => simp only [Call.map, answer, feed_map, Answer.map]
  | finish => simp only [Call.map, answer, finish_map, Answer.map]
  | read => simp only [Call.map, answer, read_map, Answer.map]
  | drain limit =>
    have hout := unload_map p r #[] limit
    rw [Array.map_empty] at hout
    simp only [Call.map, answer, hout, Answer.map, Array.toList_map]
  | peek => simp only [Call.map, answer, map, Ring.peek?_map, Answer.map]
  | buffered => simp only [Call.map, answer, map, Ring.toList_map, Answer.map]

theorem serve_map (r : Renderer) (cs : List Call) :
    (r.map p).serve (cs.map (Call.map p)) =
      ((r.serve cs).1.map fun x => (x.1.map p, x.2), (r.serve cs).2.map p) := by
  induction cs generalizing r with
  | nil => rfl
  | cons c cs ih =>
    simp only [List.map_cons, serve, answer_map, status_map, ih]

end Renderer

/-! ### Pulls -/

namespace Pull

def map (q : Pull) : Pull := ⟨q.source.map (Data.Token.map p), q.renderer.map p, q.pulls⟩

theorem map_ofList (ts : List Data.Token) :
    (ofList ts).map p = ofList (ts.map (Data.Token.map p)) := by
  unfold ofList map
  rw [Renderer.map_ofCapacity]

theorem nextFrom_map (r : Renderer) (n : Nat) (ts : List Data.Token) :
    nextFrom (r.map p) n (ts.map (Data.Token.map p)) =
      ((nextFrom r n ts).1.map (Except.map (Markup.Token.map p)), (nextFrom r n ts).2.map p) := by
  -- A token waits; the run has ended; a token is accepted, or has no place; the end fits, or not.
  fun_induction nextFrom r n ts with
  | case1 ts r n token s hread =>
    unfold nextFrom
    rw [Renderer.read_map, hread]
    rfl
  | case2 ts r n s hread hend =>
    unfold nextFrom
    rw [Renderer.read_map, hread]
    exact if_pos hend
  | case3 r n s hread hgo t ts u s' hstep ih =>
    rw [List.map_cons, nextFrom, Renderer.read_map, hread]
    simp only [Option.map_none, Renderer.hasEnded_map, hgo, Renderer.step_map, hstep]
    exact ih
  | case4 r n s hread hgo t ts failure s' hstep =>
    rw [List.map_cons, nextFrom, Renderer.read_map, hread]
    simp only [Option.map_none, Renderer.hasEnded_map, hgo, Renderer.step_map, hstep]
    rfl
  | case5 r n s hread hgo u s' hclose token s'' hread' =>
    rw [List.map_nil, nextFrom, Renderer.read_map, hread]
    simp only [Option.map_none, Renderer.hasEnded_map, hgo, Renderer.close_map, hclose,
      Renderer.read_map, hread']
    cases token <;> rfl
  | case6 r n s hread hgo failure s' hclose =>
    rw [List.map_nil, nextFrom, Renderer.read_map, hread]
    simp only [Option.map_none, Renderer.hasEnded_map, hgo, Renderer.close_map, hclose]
    rfl

theorem next_map (q : Pull) :
    (q.map p).next = (q.next.1.map (Except.map (Markup.Token.map p)), q.next.2.map p) :=
  nextFrom_map p q.renderer q.pulls q.source

theorem skip_map (q : Pull) (k : Nat) : (q.map p).skip k = (q.skip k).map p := by
  induction k generalizing q with
  | zero => rfl
  | succ k ih => rw [skip, skip, next_map, ih]

def Harvest.map (h : Harvest) : Harvest :=
  ⟨h.markup.map (Markup.Token.map p), h.failure?, h.deepest, h.rest.map p⟩

theorem exhaustFrom_map (q : Pull) (out : Array Markup.Token) (deepest : Nat) :
    (q.map p).exhaustFrom (out.map (Markup.Token.map p)) deepest =
      (q.exhaustFrom out deepest).map p := by
  have hnext := q.next_map p
  fun_induction exhaustFrom q out deepest with
  | case1 q out deepest token q' hq ih =>
    rw [hq] at hnext
    rw [exhaustFrom_of_token hnext, ← Array.map_push]
    exact ih (q'.next_map p)
  | case2 q out deepest failure q' hq =>
    rw [hq] at hnext
    exact exhaustFrom_of_failure hnext _ _
  | case3 q out deepest q' hq =>
    rw [hq] at hnext
    exact exhaustFrom_of_nothing hnext _ _

theorem exhaust_map (q : Pull) : (q.map p).exhaust = q.exhaust.map p := by
  have hfrom := exhaustFrom_map p q #[] q.depth
  rwa [Array.map_empty] at hfrom

end Pull

/-- Replacing values and names in an input, well-formed or not, replaces them in what comes out and does
nothing else. A pull gives item for item the same with its texts replaced, ends in the same way, and after
any number of calls shows the same depth and has asked for as many tokens. A renderer gives the same
reports and errors and shows the same status after every call. -/
theorem Payload.next_and_serve_map (p : Payload) (ts : List Data.Token) (k n : Nat)
    (calls : List Call) :
    let q := (Pull.ofList ts).skip k
    let q' := (Pull.ofList (ts.map (Data.Token.map p))).skip k
    let all := (Pull.ofList ts).exhaust
    let all' := (Pull.ofList (ts.map (Data.Token.map p))).exhaust
    (q'.next.1 = q.next.1.map (Except.map (Markup.Token.map p)) ∧
      q'.depth = q.depth ∧ q'.pulls = q.pulls) ∧
    (all'.markup = all.markup.map (Markup.Token.map p) ∧ all'.failure? = all.failure?) ∧
    ((Renderer.ofCapacity n).serve (calls.map (Call.map p))).1 =
      ((Renderer.ofCapacity n).serve calls).1.map fun x => (x.1.map p, x.2) := by
  intro q q' all all'
  have hq : q' = q.map p := by
    rw [← Pull.skip_map, Pull.map_ofList]
  have hall : all' = all.map p := by
    rw [← Pull.exhaust_map, Pull.map_ofList]
  have hserve := (Renderer.ofCapacity n).serve_map p calls
  rw [Renderer.map_ofCapacity] at hserve
  refine ⟨⟨?_, ?_, ?_⟩, ⟨?_, ?_⟩, congrArg Prod.fst hserve⟩
  · rw [hq, Pull.next_map]
  · rw [hq]; rfl
  · rw [hq]; rfl
  · rw [hall]; rfl
  · rw [hall]; rfl

end DataMarkup
