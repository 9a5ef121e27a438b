import DataMarkup.Pull
import DataMarkup.Proofs.Renderer.Absorption

/-! A pull to its end gives what rendering the whole input gives. The markup that a pull still owes is
what waits in its ring and what its run makes of the rest of its source; an item is the first of it. -/

namespace DataMarkup.Pull

variable {r : Renderer} {c : Nat} {t : Data.Token} {m : Markup.Token} {ms : List Markup.Token}
  {fault : Fault} {p q : Pull}

/-! ### One item -/

theorem nextFrom_of_waiting (h : r.ring.Holds c (m :: ms)) (n : Nat) (ts : List Data.Token) :
    ∃ ring, nextFrom r n ts = (some (.ok m), ⟨ts, ⟨r.run, ring⟩, n⟩) ∧ ring.Holds c ms := by
  obtain ⟨ring, hread, hheld⟩ := Renderer.read_cons h
  refine ⟨ring, ?_, hheld⟩
  rw [nextFrom, hread]

theorem nextFrom_of_hasEnded (h : r.ring.Holds c []) (hended : r.run.hasEnded = true) (n : Nat)
    (ts : List Data.Token) : nextFrom r n ts = (none, ⟨ts, r, n⟩) := by
  rw [nextFrom, Renderer.read_nil h]
  simp only [hended, if_true]

theorem hasRoom_of_empty (hr : r.Sound) (h : r.ring.Holds c []) : r.hasRoom = true := by
  have hcap := hr.maxMarkup_le
  rw [h.capacity_eq] at hcap
  rw [Renderer.hasRoom, decide_eq_true_iff, h.space_eq]
  exact hcap

theorem isFull_of_empty (hr : r.Sound) (h : r.ring.Holds c []) : r.ring.isFull = false := by
  have hcap := hr.maxMarkup_le
  rw [h.capacity_eq] at hcap
  rw [Bool.eq_false_iff, ne_eq, h.isFull_iff]
  exact fun hc => absurd (hc ▸ hcap) (Nat.not_succ_le_zero _)

theorem nextFrom_of_fault (hr : r.Sound) (h : r.ring.Holds c []) (hgo : r.run.hasEnded = false)
    (hf : r.run.nesting.fault? t = some fault) (n : Nat) (ts : List Data.Token) :
    nextFrom r n (t :: ts) =
      (some (.error (.malformed ⟨r.run.accepted, fault⟩)),
        ⟨ts, ⟨r.run.stop fault, r.ring⟩, n + 1⟩) := by
  have hstep := Renderer.step_of_fault hgo (hasRoom_of_empty hr h) hf
  rw [nextFrom, Renderer.read_nil h]
  simp only [hgo, hstep, Bool.false_eq_true, if_false]

theorem nextFrom_of_accepted (hr : r.Sound) (h : r.ring.Holds c []) (hgo : r.run.hasEnded = false)
    (hf : r.run.nesting.fault? t = none) (n : Nat) (ts : List Data.Token) :
    ∃ s, r.Absorbs [t] s ∧ nextFrom r n (t :: ts) = nextFrom s (n + 1) ts := by
  obtain ⟨s, hstep, hs⟩ := Renderer.step_of_accepted hr hgo (hasRoom_of_empty hr h) hf
  refine ⟨s, hs, ?_⟩
  rw [nextFrom, Renderer.read_nil h]
  simp only [hgo, hstep, Bool.false_eq_true, if_false]

theorem nextFrom_nil_of_unclosed (h : r.ring.Holds c []) (hgo : r.run.hasEnded = false)
    (hd : r.depth ≠ 0) (n : Nat) :
    nextFrom r n [] = (some (.error (.malformed ⟨r.run.accepted, .unclosedContainer⟩)),
      ⟨[], ⟨r.run.stop .unclosedContainer, r.ring⟩, n + 1⟩) := by
  have hclose := Renderer.close_of_unclosed hgo hd
  rw [nextFrom, Renderer.read_nil h]
  simp only [hgo, hclose, Bool.false_eq_true, if_false]

theorem nextFrom_nil_of_closed (hr : r.Sound) (h : r.ring.Holds c []) (hgo : r.run.hasEnded = false)
    (hd : r.depth = 0) (n : Nat) :
    ∃ ring, nextFrom r n [] =
        (r.run.finish.2.head?.map .ok, ⟨[], ⟨r.run.finish.1, ring⟩, n + 1⟩) ∧
      ring.Holds c r.run.finish.2.tail := by
  obtain ⟨ring, hclose, hheld⟩ := Renderer.close_of_closed hr hgo hd (isFull_of_empty hr h)
  rw [h.capacity_eq, h.items_eq, List.nil_append] at hheld
  have hread : ∃ ring', Renderer.read ⟨r.run.finish.1, ring⟩ =
      (r.run.finish.2.head?, ⟨r.run.finish.1, ring'⟩) ∧ ring'.Holds c r.run.finish.2.tail := by
    cases hms : r.run.finish.2 with
    | nil =>
      rw [hms] at hheld
      exact ⟨ring, Renderer.read_nil hheld, hheld⟩
    | cons m ms =>
      rw [hms] at hheld
      exact Renderer.read_cons hheld
  obtain ⟨ring', hread, hrest⟩ := hread
  refine ⟨ring', ?_, hrest⟩
  rw [nextFrom, Renderer.read_nil h]
  simp only [hgo, hclose, hread, Bool.false_eq_true, if_false]

/-! ### What is still to come -/

def owed (p : Pull) : List Markup.Token :=
  p.renderer.ring.toList ++
    (p.renderer.run.markup p.source ++ (p.renderer.run.after p.source).finish.2)

def ending (p : Pull) : Run := (p.renderer.run.after p.source).finish.1

structure Sound (p : Pull) : Prop where
  renderer : p.renderer.Sound
  failure?_eq : p.renderer.run.failure? = none

theorem sound_ofList (ts : List Data.Token) : (ofList ts).Sound :=
  ⟨Renderer.sound_ofCapacity _, rfl⟩

theorem owed_of_hasEnded (h : p.renderer.run.hasEnded = true) :
    p.owed = p.renderer.ring.toList := by
  rw [owed, Run.markup_of_hasEnded h, Run.after_of_hasEnded h, Run.finish_of_hasEnded h,
    List.append_nil, List.append_nil]

theorem ending_of_hasEnded (h : p.renderer.run.hasEnded = true) : p.ending = p.renderer.run := by
  rw [ending, Run.after_of_hasEnded h, Run.finish_of_hasEnded h]

/-- An item is the first of what was owed; a failure, or no item, comes when nothing is owed. -/
inductive Gives (p : Pull) : Option (Except Failure Markup.Token) × Pull → Prop
  | token {m : Markup.Token} {q : Pull} (sound : q.Sound) (owed_eq : p.owed = m :: q.owed)
    (ending_eq : q.ending = p.ending) : Gives p (some (.ok m), q)
  | failure {cause : Malformed} {q : Pull} (owed_eq : p.owed = [])
    (run_eq : q.renderer.run = p.ending) (cause_eq : p.ending.failure? = some cause) :
    Gives p (some (.error (.malformed cause)), q)
  | nothing {q : Pull} (owed_eq : p.owed = []) (run_eq : q.renderer.run = p.ending)
    (success : p.ending.failure? = none) : Gives p (none, q)

theorem Gives.congr {x : Option (Except Failure Markup.Token) × Pull} (h : q.Gives x)
    (howed : p.owed = q.owed) (hending : p.ending = q.ending) : p.Gives x := by
  cases h with
  | token sound owed_eq ending_eq =>
    exact .token sound (howed.trans owed_eq) (ending_eq.trans hending.symm)
  | failure owed_eq run_eq cause_eq =>
    exact .failure (howed.trans owed_eq) (run_eq.trans hending.symm) (hending ▸ cause_eq)
  | nothing owed_eq run_eq success =>
    exact .nothing (howed.trans owed_eq) (run_eq.trans hending.symm) (hending ▸ success)

theorem gives_of_waiting (h : p.Sound) (hms : p.renderer.ring.toList = m :: ms) :
    p.Gives p.next := by
  have hheld := h.renderer.wellFormed.holds_of_toList_eq hms
  obtain ⟨ring, hnext, hrest⟩ := nextFrom_of_waiting hheld p.pulls p.source
  rw [next, hnext]
  refine .token ⟨⟨h.renderer.coherent, hrest.wellFormed, ?_⟩, h.failure?_eq⟩ ?_ rfl
  · rw [hrest.capacity_eq]
    exact h.renderer.maxMarkup_le
  · simp only [owed, hms, hrest.items_eq, List.cons_append]

theorem gives_of_hasEnded (h : p.Sound) (hms : p.renderer.ring.toList = [])
    (hended : p.renderer.run.hasEnded = true) : p.Gives p.next := by
  have hheld := h.renderer.wellFormed.holds_of_toList_eq hms
  rw [next, nextFrom_of_hasEnded hheld hended]
  refine .nothing ?_ ?_ ?_
  · rw [owed_of_hasEnded hended, hms]
  · rw [ending_of_hasEnded hended]
  · rw [ending_of_hasEnded hended, h.failure?_eq]

theorem gives_of_idle (h : p.Sound)
    (hidle : p.renderer.ring.Holds p.renderer.ring.capacity [] → p.renderer.run.hasEnded = false →
      p.Gives p.next) : p.Gives p.next := by
  cases hms : p.renderer.ring.toList with
  | cons m ms => exact gives_of_waiting h hms
  | nil =>
    cases hgo : p.renderer.run.hasEnded with
    | true => exact gives_of_hasEnded h hms hgo
    | false => exact hidle (h.renderer.wellFormed.holds_of_toList_eq hms) hgo

theorem gives_of_fault (hr : r.Sound) (hheld : r.ring.Holds c []) (hgo : r.run.hasEnded = false)
    (hf : r.run.nesting.fault? t = some fault) (n : Nat) (ts : List Data.Token) :
    Gives ⟨t :: ts, r, n⟩ (nextFrom r n (t :: ts)) := by
  have hfinish : (r.run.stop fault).finish = (r.run.stop fault, []) :=
    Run.finish_of_hasEnded (Run.hasEnded_stop r.run fault)
  have hafter : r.run.after (t :: ts) = r.run.stop fault := Run.after_cons_of_fault hgo hf ts
  have hmarkup : r.run.markup (t :: ts) = [] := Run.markup_cons_of_fault hgo hf ts
  have hending : ending ⟨t :: ts, r, n⟩ = r.run.stop fault := by rw [ending, hafter, hfinish]
  have howed : owed ⟨t :: ts, r, n⟩ = [] := by
    rw [owed, hheld.items_eq, hmarkup, hafter, hfinish]
    rfl
  rw [nextFrom_of_fault hr hheld hgo hf]
  refine .failure howed hending.symm ?_
  rw [hending, Run.failure?_stop]

theorem gives_of_nil {n : Nat} (hr : r.Sound) (hheld : r.ring.Holds c [])
    (hgo : r.run.hasEnded = false) : Gives ⟨[], r, n⟩ (nextFrom r n []) := by
  have howed : owed ⟨[], r, n⟩ = r.run.finish.2 := by
    rw [owed, hheld.items_eq]
    rfl
  by_cases hd : r.depth = 0
  · obtain ⟨ring, hnext, hrest⟩ := nextFrom_nil_of_closed hr hheld hgo hd n
    have hsuccess := Run.failure?_finish_of_closed hgo hd
    have hended : r.run.finish.1.hasEnded = true := Run.hasEnded_finish r.run
    rw [hnext]
    cases hms : r.run.finish.2 with
    | nil => exact .nothing (howed.trans hms) rfl hsuccess
    | cons m ms =>
      rw [hms, List.tail_cons] at hrest
      have hending := ending_of_hasEnded (p := ⟨[], ⟨r.run.finish.1, ring⟩, n + 1⟩) hended
      have hcap : Run.maxMarkupPerToken ≤ ring.capacity := by
        rw [hrest.capacity_eq, ← hheld.capacity_eq]
        exact hr.maxMarkup_le
      refine .token ⟨⟨hr.coherent.finish, hrest.wellFormed, hcap⟩, hsuccess⟩ ?_ hending
      · rw [howed, hms, owed_of_hasEnded hended, hrest.items_eq]
  · have hfinish : r.run.finish = (r.run.stop .unclosedContainer, []) :=
      Run.finish_of_unclosed hgo hd
    rw [nextFrom_nil_of_unclosed hheld hgo hd]
    refine .failure ?_ ?_ ?_
    · rw [howed, hfinish]
    · exact congrArg Prod.fst hfinish.symm
    · exact (congrArg (fun x => x.1.failure?) hfinish).trans (Run.failure?_stop _ _)

theorem gives_nextFrom (hr : r.Sound) (hf : r.run.failure? = none) (n : Nat)
    (ts : List Data.Token) : Gives ⟨ts, r, n⟩ (nextFrom r n ts) := by
  induction ts generalizing r n with
  | nil =>
    apply gives_of_idle ⟨hr, hf⟩
    intro hheld hgo
    exact gives_of_nil hr hheld hgo
  | cons t ts ih =>
    apply gives_of_idle ⟨hr, hf⟩
    intro hheld hgo
    cases hfault : r.run.nesting.fault? t with
    | some fault => exact gives_of_fault hr hheld hgo hfault n ts
    | none =>
      -- The token moves markup from the source's share of what is owed to the ring's.
      obtain ⟨s, hs, hnext⟩ := nextFrom_of_accepted hr hheld hgo hfault n ts
      have hrest := ih (hs.sound hr) (Run.failure?_of_going hs.going) (n + 1)
      show Gives _ (nextFrom r n (t :: ts))
      rw [hnext]
      apply hrest.congr
      · rw [owed, owed, hs.holds.items_eq, hs.run_eq]
        simp only [Run.markup, Run.after, List.append_nil, List.append_assoc]
      · rw [ending, ending, hs.run_eq]
        rfl

theorem gives_next (h : p.Sound) : p.Gives p.next :=
  gives_nextFrom h.renderer h.failure?_eq p.pulls p.source

/-! ### All items -/

theorem exhaustFrom_of_token (h : p.next = (some (.ok m), q)) (out : Array Markup.Token)
    (deepest : Nat) :
    p.exhaustFrom out deepest = q.exhaustFrom (out.push m) (max deepest q.depth) := by
  rw [exhaustFrom]
  split <;> simp_all

theorem exhaustFrom_of_failure {failure : Failure} (h : p.next = (some (.error failure), q))
    (out : Array Markup.Token) (deepest : Nat) :
    p.exhaustFrom out deepest = ⟨out, some failure, max deepest q.depth, q⟩ := by
  rw [exhaustFrom]
  split <;> simp_all

theorem exhaustFrom_of_nothing (h : p.next = (none, q)) (out : Array Markup.Token)
    (deepest : Nat) : p.exhaustFrom out deepest = ⟨out, none, max deepest q.depth, q⟩ := by
  rw [exhaustFrom]
  split <;> simp_all

theorem exhaustFrom_eq (h : p.Sound) (out : Array Markup.Token) (deepest : Nat) :
    (p.exhaustFrom out deepest).markup.toList = out.toList ++ p.owed ∧
    (p.exhaustFrom out deepest).failure? = p.ending.failure?.map .malformed ∧
    (p.exhaustFrom out deepest).rest.renderer.run = p.ending := by
  generalize hms : p.owed = ms
  have hgives := gives_next h
  -- The source does not get shorter with every item, but what is owed does.
  induction ms generalizing p out deepest with
  | nil =>
    generalize hx : p.next = x at hgives
    cases hgives with
    | token sound owed_eq ending_eq =>
      rw [hms] at owed_eq
      exact absurd owed_eq.symm (List.cons_ne_nil _ _)
    | failure owed_eq run_eq cause_eq =>
      rw [exhaustFrom_of_failure hx, cause_eq]
      exact ⟨(List.append_nil _).symm, rfl, run_eq⟩
    | nothing owed_eq run_eq success =>
      rw [exhaustFrom_of_nothing hx, success]
      exact ⟨(List.append_nil _).symm, rfl, run_eq⟩
  | cons m ms ih =>
    generalize hx : p.next = x at hgives
    cases hgives with
    | token sound owed_eq ending_eq =>
      rw [hms] at owed_eq
      obtain ⟨rfl, hrest⟩ := List.cons.inj owed_eq
      obtain ⟨hmarkup, hfailure, hrun⟩ := ih sound (out.push m) _ hrest.symm (gives_next sound)
      rw [exhaustFrom_of_token hx, hmarkup, hfailure, hrun, ending_eq, Array.toList_push,
        List.append_assoc]
      exact ⟨rfl, rfl, rfl⟩
    | failure owed_eq run_eq cause_eq =>
      exact absurd (hms.symm.trans owed_eq) (List.cons_ne_nil _ _)
    | nothing owed_eq run_eq success =>
      exact absurd (hms.symm.trans owed_eq) (List.cons_ne_nil _ _)

def Harvest.document (h : Harvest) : Except Failure (List Markup.Token) :=
  match h.failure? with
  | some failure => .error failure
  | none => .ok h.markup.toList

theorem markup_exhaust (ts : List Data.Token) :
    (ofList ts).exhaust.markup.toList = (render ts).markup := by
  rw [exhaust, (exhaustFrom_eq (sound_ofList ts) _ _).1, markup_render]
  rfl

theorem failure?_exhaust (ts : List Data.Token) :
    (ofList ts).exhaust.failure? = (render ts).failure?.map .malformed := by
  rw [exhaust, (exhaustFrom_eq (sound_ofList ts) _ _).2.1, Rendering.failure?, run_render]
  rfl

theorem run_exhaust (ts : List Data.Token) :
    (ofList ts).exhaust.rest.renderer.run = (render ts).run := by
  rw [exhaust, (exhaustFrom_eq (sound_ofList ts) _ _).2.2, run_render]
  rfl

theorem document_exhaust (ts : List Data.Token) :
    (ofList ts).exhaust.document = (render ts).document := by
  rw [Harvest.document, Rendering.document, failure?_exhaust, markup_exhaust]
  cases (render ts).failure? <;> rfl

end DataMarkup.Pull
