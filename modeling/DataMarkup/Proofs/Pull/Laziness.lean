import Mathlib.Order.Bounds.Defs
import DataMarkup.Proofs.Nesting.Misplacement
import DataMarkup.Proofs.Pull.Items
import DataMarkup.Proofs.Run.Account

/-! A pull never reads ahead. It asks for an input token only when nothing of the tokens before it is
left to give, so the markup given so far tells how many were asked for; and once it has told how the input
ends it neither gives nor asks anything more. -/

namespace DataMarkup

open Run

theorem Run.length_markup_append_lt {us vs : List Data.Token}
    (h : (start.after (us ++ vs)).hasEnded = false) (hne : vs ≠ []) :
    (start.markup us).length < (start.markup (us ++ vs)).length := by
  obtain ⟨t, ts, rfl⟩ := List.exists_cons_of_ne_nil hne
  rw [after_append] at h
  have hstep : ((start.after us).step t).1.hasEnded = false := going_of_after h
  obtain ⟨hgo, hf⟩ := going_of_step hstep
  have hsome : (start.after us).markup (t :: ts) ≠ [] :=
    List.append_ne_nil_of_left_ne_nil (markup_step_ne_nil hgo hf) _
  have hpos : 0 < ((start.after us).markup (t :: ts)).length := List.length_pos_of_ne_nil hsome
  rw [markup_append, List.length_append]
  exact Nat.lt_add_of_pos_right hpos

namespace Pull

variable {p : Pull} {x : Option (Except Failure Markup.Token) × Pull}
  {us ws ts : List Data.Token} {j : Nat}

/-! ### All items -/

def Harvest.items (h : Harvest) : List (Except Failure Markup.Token) :=
  h.markup.toList.map .ok ++ h.failure?.toList.map .error

def due (p : Pull) : List (Except Failure Markup.Token) :=
  p.owed.map .ok ++ p.ending.failure?.toList.map fun cause => .error (.malformed cause)

theorem items_of_spent (h : p.Spent) (hs : p.renderer.Sound) (n : Nat) :
    p.items n = List.replicate n none := by
  induction n with
  | zero => rfl
  | succ n ih => rw [items, h.next_eq hs, ih, List.replicate_succ]

theorem items_eq (h : p.Sound) (n : Nat) :
    p.items n = (p.due.take n).map some ++ List.replicate (n - p.due.length) none := by
  induction n generalizing p with
  | zero => simp [items]
  | succ n ih =>
    have hgives := gives_next h
    have hmoves := moves_next h.renderer
    rw [items]
    generalize p.next = y at hgives hmoves ⊢
    cases hgives with
    | @token m q sound owed_eq ending_eq =>
      have hdue : p.due = .ok m :: q.due := by rw [due, due, owed_eq, ending_eq]; rfl
      rw [hdue, ih sound, List.take_succ_cons, List.map_cons, List.length_cons,
        Nat.add_sub_add_right, List.cons_append]
    | @failure cause q owed_eq run_eq cause_eq =>
      have hdue : p.due = [.error (.malformed cause)] := by rw [due, owed_eq, cause_eq]; rfl
      have hspent := hmoves.spent (fun m hm => by cases hm)
      rw [hdue, items_of_spent hspent (hmoves.sound h.renderer)]
      simp
    | @nothing q owed_eq run_eq success =>
      have hdue : p.due = [] := by rw [due, owed_eq, success]; rfl
      have hspent := hmoves.spent (fun m hm => by cases hm)
      rw [hdue, items_of_spent hspent (hmoves.sound h.renderer)]
      simp [List.replicate_succ]

theorem due_ofList (ts : List Data.Token) : (ofList ts).due = (ofList ts).exhaust.items := by
  have hmarkup : (ofList ts).exhaust.markup.toList = (ofList ts).owed :=
    (exhaustFrom_eq (sound_ofList ts) _ _).1
  rw [due, Harvest.items, hmarkup, failure?_exhaust_eq_ending]
  cases (ofList ts).ending.failure? <;> rfl

theorem items_ofList_congr {us vs : List Data.Token}
    (hmarkup : (ofList us).exhaust.markup.toList = (ofList vs).exhaust.markup.toList)
    (hfailure : (ofList us).exhaust.failure? = (ofList vs).exhaust.failure?) :
    (ofList us).items = (ofList vs).items := by
  have hdue : (ofList us).due = (ofList vs).due := by
    rw [due_ofList, due_ofList, Harvest.items, hmarkup, hfailure, Harvest.items]
  funext n
  rw [items_eq (sound_ofList us), items_eq (sound_ofList vs), hdue]

theorem items_ofList_of_le (hj : j ≤ (start.markup (Data.acceptedPrefix ts)).length) :
    (ofList ts).items j =
      ((start.markup (Data.acceptedPrefix ts)).take j).map fun m => some (.ok m) := by
  have hwithin : start.markup (Data.acceptedPrefix ts) <+: (ofList ts).exhaust.markup.toList :=
    markup_start_prefix_exhaust List.prefix_rfl
  obtain ⟨rest, hrest⟩ := hwithin
  have hlength : j ≤ (ofList ts).exhaust.items.length := by
    rw [Harvest.items, List.length_append, List.length_map, ← hrest, List.length_append]
    omega
  have htake : (ofList ts).exhaust.items.take j =
      ((start.markup (Data.acceptedPrefix ts)).take j).map .ok := by
    rw [Harvest.items, ← hrest, List.map_append, List.append_assoc,
      List.take_append_of_le_length (by rwa [List.length_map]), ← List.map_take]
  rw [items_eq (sound_ofList ts), due_ofList, htake, Nat.sub_eq_zero_of_le hlength,
    List.replicate_zero, List.append_nil, List.map_map]
  rfl

/-! ### How far the input is read -/

/-- After `j` items the tokens `us` have been asked for, and the last of them was needed. -/
structure Reads (ts us : List Data.Token) (j : Nat) (p : Pull) : Prop where
  sound : p.renderer.Sound
  split : ts = us ++ p.source
  pulls_eq : p.pulls = us.length
  run_eq : p.renderer.run = start.after us
  going : (start.after us).hasEnded = false
  given : j ≤ (start.markup us).length
  waiting_eq : p.renderer.ring.toList = (start.markup us).drop j
  needed : ∀ vs t, us = vs ++ [t] → (start.markup vs).length < j

theorem reads_ofList (ts : List Data.Token) : Reads ts [] 0 (ofList ts) where
  sound := (sound_ofList ts).renderer
  split := rfl
  pulls_eq := rfl
  run_eq := rfl
  going := rfl
  given := Nat.zero_le _
  waiting_eq := rfl
  needed := fun _ _ h => absurd h.symm (List.append_ne_nil_of_right_ne_nil _ (List.cons_ne_nil _ _))

namespace Reads

theorem prefix_acceptedPrefix (h : Reads ts us j p) : us <+: Data.acceptedPrefix ts := by
  rw [h.split]
  exact Data.prefix_acceptedPrefix h.going p.source

theorem prefix_of_le (h : Reads ts us j p) (hws : ws <+: Data.acceptedPrefix ts)
    (hj : (start.markup ws).length ≤ j) : ws <+: us := by
  have hgiven := h.given
  apply List.prefix_of_prefix_length_le hws h.prefix_acceptedPrefix
  by_contra hlt
  have hle : us.length ≤ ws.length := Nat.le_of_not_le hlt
  obtain ⟨vs, rfl⟩ := List.prefix_of_prefix_length_le h.prefix_acceptedPrefix hws hle
  have hne : vs ≠ [] := by
    rintro rfl
    exact hlt (by rw [List.append_nil])
  have hmore := length_markup_append_lt (Data.going_of_prefix hws) hne
  omega

theorem prefix_of_ge (h : Reads ts us j p) (hws : ws <+: Data.acceptedPrefix ts)
    (hj : j ≤ (start.markup ws).length) : us <+: ws := by
  apply List.prefix_of_prefix_length_le h.prefix_acceptedPrefix hws
  by_contra hlt
  have hmore : ws.length < us.length := Nat.lt_of_not_le hlt
  have hne : us ≠ [] := List.ne_nil_of_length_pos (Nat.zero_lt_of_lt hmore)
  have hlast : us = us.dropLast ++ [us.getLast hne] := (List.dropLast_append_getLast hne).symm
  have hneeded := h.needed _ _ hlast
  have hwithin : ws.length ≤ us.dropLast.length := by
    rw [List.length_dropLast]
    exact Nat.le_sub_one_of_lt hmore
  have hbefore : us.dropLast <+: Data.acceptedPrefix ts :=
    (List.dropLast_prefix us).trans h.prefix_acceptedPrefix
  have hmarkup :=
    start.markup_prefix_markup (List.prefix_of_prefix_length_le hws hbefore hwithin)
  exact absurd (hj.trans hmarkup.length_le) (Nat.not_le_of_lt hneeded)

theorem eq_of_eq (h : Reads ts us j p) (hws : ws <+: Data.acceptedPrefix ts)
    (hj : j = (start.markup ws).length) : us = ws := by
  have hbefore := h.prefix_of_ge hws (Nat.le_of_eq hj)
  have hafter := h.prefix_of_le hws (Nat.le_of_eq hj.symm)
  exact hbefore.eq_of_length_le hafter.length_le

theorem eq_acceptedPrefix (h : Reads ts us j p)
    (hj : (start.markup (Data.acceptedPrefix ts)).length ≤ j) : us = Data.acceptedPrefix ts := by
  have hafter := h.prefix_of_le List.prefix_rfl hj
  exact h.prefix_acceptedPrefix.eq_of_length_le hafter.length_le

theorem take_acceptedPrefix (h : Reads ts us j p) :
    (Data.acceptedPrefix ts).take us.length = us :=
  (List.prefix_iff_eq_take.mp h.prefix_acceptedPrefix).symm

theorem isLeast (h : Reads ts us j p) :
    IsLeast {k | j ≤ (start.markup ((Data.acceptedPrefix ts).take k)).length} us.length := by
  refine ⟨?_, ?_⟩
  · show j ≤ (start.markup ((Data.acceptedPrefix ts).take us.length)).length
    rw [h.take_acceptedPrefix]
    exact h.given
  · intro k hk
    have hbefore := h.prefix_of_ge (List.take_prefix k _) hk
    exact hbefore.length_le.trans (List.length_take_le k _)

theorem openings_eq (h : Reads ts us j p) :
    Data.openings us = Data.closings us + p.depth := by
  rw [openings_eq_closings_add_depth h.going, ← h.run_eq]
  rfl

end Reads

theorem Reads.length_markup_eq (h : Reads ts us j p) (hms : p.renderer.ring.toList = []) :
    (start.markup us).length = j := by
  have hgiven := h.given
  rw [h.waiting_eq, List.drop_eq_nil_iff] at hms
  exact Nat.le_antisymm hms hgiven

theorem Reads.acceptedPrefix_of_fault {t : Data.Token} {vs : List Data.Token} {fault : Fault}
    (h : Reads ts us j p) (hsource : p.source = t :: vs)
    (hf : p.renderer.run.nesting.fault? t = some fault) :
    ts = us ++ t :: vs ∧ Data.acceptedPrefix ts = us := by
  have hsplit : ts = us ++ t :: vs := hsource ▸ h.split
  rw [h.run_eq] at hf
  exact ⟨hsplit, hsplit ▸ Data.acceptedPrefix_of_fault h.going hf vs⟩

theorem Reads.acceptedPrefix_of_nil (h : Reads ts us j p) (hsource : p.source = []) :
    ts = us ∧ Data.acceptedPrefix ts = us := by
  obtain rfl : ts = us := by rw [h.split, hsource, List.append_nil]
  exact ⟨rfl, Data.acceptedPrefix_of_going h.going⟩

theorem Reads.accepts {t : Data.Token} {vs : List Data.Token} {m : Markup.Token}
    {ms : List Markup.Token} {ring : Ring Markup.Token} (h : Reads ts us j p)
    (before : p.renderer.ring.toList = []) (source : p.source = t :: vs)
    (placed : p.renderer.run.nesting.fault? t = none)
    (markup : (p.renderer.run.step t).2 = m :: ms)
    (holds : ring.Holds p.renderer.ring.capacity ms) :
    Reads ts (us ++ [t]) (j + 1) ⟨vs, ⟨(p.renderer.run.step t).1, ring⟩, p.pulls + 1⟩ := by
  have hall := h.length_markup_eq before
  have hafter : start.after (us ++ [t]) = ((start.after us).step t).1 := by rw [after_append]; rfl
  have hbrings : start.markup (us ++ [t]) = start.markup us ++ (m :: ms) := by
    rw [markup_append, ← h.run_eq, Run.markup, Run.markup, markup, List.append_nil]
  have hgo : p.renderer.run.hasEnded = false := h.run_eq ▸ h.going
  refine ⟨(h.sound.run (h.sound.coherent.step t)).ring holds, ?_, ?_, ?_, ?_, ?_, ?_, ?_⟩
  · rw [h.split, source, List.append_assoc]
    rfl
  · rw [h.pulls_eq, List.length_append]
    rfl
  · rw [hafter, h.run_eq]
  · rw [hafter, ← h.run_eq, step_of_accepted hgo placed]
    exact hasEnded_accept _ t
  · rw [hbrings, List.length_append, hall]
    exact Nat.add_le_add_left (Nat.succ_pos _) _
  · rw [hbrings, ← hall, List.drop_length_add_append, List.drop_one, List.tail_cons]
    exact holds.items_eq
  · intro ws u hws
    obtain ⟨rfl, -⟩ := List.append_inj' hws rfl
    exact hall ▸ Nat.lt_succ_self _

theorem Moves.reads (hx : p.Moves x) (h : Reads ts us j p)
    (hj : j < (start.markup (Data.acceptedPrefix ts)).length) :
    ∃ vs, Reads ts vs (j + 1) x.2 := by
  cases hx with
  | @waiting m ms ring before holds =>
    have hdrop := h.waiting_eq.symm.trans before
    refine ⟨us, h.sound.ring holds, h.split, h.pulls_eq, h.run_eq, h.going, ?_, ?_, ?_⟩
    · by_contra hle
      rw [List.drop_eq_nil_of_le (by omega)] at hdrop
      cases hdrop
    · rw [← List.drop_drop, hdrop, List.drop_one, List.tail_cons]
      exact holds.items_eq
    · intro vs t hvs
      exact Nat.lt_succ_of_lt (h.needed vs t hvs)
  | accepted before _ source placed markup holds =>
    exact ⟨_, h.accepts before source placed markup holds⟩
  | ended _ ended =>
    rw [h.run_eq, h.going] at ended
    exact absurd ended Bool.noConfusion
  | stopped before _ source misplaced =>
    obtain ⟨-, haccepted⟩ := h.acceptedPrefix_of_fault source misplaced
    rw [haccepted, h.length_markup_eq before] at hj
    exact absurd hj (Nat.lt_irrefl j)
  | unclosed before _ source _ | closed before _ source _ _ =>
    obtain ⟨-, haccepted⟩ := h.acceptedPrefix_of_nil source
    rw [haccepted, h.length_markup_eq before] at hj
    exact absurd hj (Nat.lt_irrefl j)

theorem exists_reads_skip (hj : j ≤ (start.markup (Data.acceptedPrefix ts)).length) :
    ∃ us, Reads ts us j ((ofList ts).skip j) := by
  induction j with
  | zero => exact ⟨[], reads_ofList ts⟩
  | succ j ih =>
    obtain ⟨us, hus⟩ := ih (Nat.le_of_succ_le hj)
    rw [skip_succ]
    exact (moves_next hus.sound).reads hus hj

theorem reads_of_prefix (h : us <+: Data.acceptedPrefix ts) :
    Reads ts us (start.markup us).length ((ofList ts).skip (start.markup us).length) := by
  obtain ⟨ws, hws⟩ := exists_reads_skip (start.markup_prefix_markup h).length_le
  have hus : ws = us := hws.eq_of_eq h rfl
  rwa [hus] at hws

theorem exists_reads_between (h : us ++ ws <+: Data.acceptedPrefix ts)
    (hlow : (start.markup us).length ≤ j) (hhigh : j ≤ (start.markup (us ++ ws)).length) :
    ∃ k, Reads ts (us ++ ws.take k) j ((ofList ts).skip j) := by
  obtain ⟨xs, hxs⟩ := exists_reads_skip (hhigh.trans (start.markup_prefix_markup h).length_le)
  obtain ⟨ys, rfl⟩ := hxs.prefix_of_le ((List.prefix_append us ws).trans h) hlow
  have hys : ys <+: ws := (List.prefix_append_right_inj us).mp (hxs.prefix_of_ge h hhigh)
  rw [List.prefix_iff_eq_take.mp hys] at hxs
  exact ⟨ys.length, hxs⟩

/-! ### The last call that asks for input -/

inductive LastItem (ts : List Data.Token) : Option (Except Failure Markup.Token) → Prop
  | rejected {us vs : List Data.Token} {t : Data.Token} {fault : Fault}
    (split : ts = us ++ t :: vs) (accepted : Data.acceptedPrefix ts = us)
    (misplaced : Data.Misplaced us t fault) :
    LastItem ts (some (.error (.malformed ⟨us.length, fault⟩)))
  | unclosed (accepted : Data.acceptedPrefix ts = ts) (unclosed : Data.unclosed ts ≠ []) :
    LastItem ts (some (.error (.malformed ⟨ts.length, .unclosedContainer⟩)))
  | wrapped (accepted : Data.acceptedPrefix ts = ts) (closed : Data.unclosed ts = [])
    (hne : ts ≠ []) : LastItem ts (some (.ok .elementEnd))
  | nothing (hnil : ts = []) : LastItem ts none

theorem Reads.lastItem (h : Reads ts us j p) (hx : p.Moves x)
    (hj : (start.markup (Data.acceptedPrefix ts)).length ≤ j) :
    LastItem ts x.1 ∧ x.2.pulls = p.pulls + 1 ∧ x.2.Spent := by
  have hus := h.eq_acceptedPrefix hj
  have hdepth : p.renderer.depth = 0 ↔ Data.unclosed us = [] := by
    rw [Renderer.depth, h.run_eq, depth_after_eq_zero_iff h.going]
  have hcount : p.renderer.run.accepted = us.length := by
    rw [h.run_eq, accepted_after_start h.going]
  cases hx with
  | waiting before _ =>
    rw [← hus] at hj
    rw [h.waiting_eq, List.drop_eq_nil_of_le hj] at before
    cases before
  | ended _ ended =>
    rw [h.run_eq, h.going] at ended
    exact absurd ended Bool.noConfusion
  | accepted before _ source placed markup holds =>
    -- Its token would be one of those that are accepted, and bring more than there is.
    have hlater := (h.accepts before source placed markup holds).prefix_acceptedPrefix.length_le
    rw [← hus, List.length_append] at hlater
    exact absurd hlater (Nat.not_succ_le_self _)
  | stopped before _ source misplaced =>
    obtain ⟨hsplit, haccepted⟩ := h.acceptedPrefix_of_fault source misplaced
    rw [h.run_eq, fault?_after_iff h.going] at misplaced
    rw [hcount]
    exact ⟨.rejected hsplit haccepted misplaced, rfl, hasEnded_stop _ _, before⟩
  | unclosed before _ source hd =>
    obtain ⟨rfl, haccepted⟩ := h.acceptedPrefix_of_nil source
    rw [hcount]
    exact ⟨.unclosed haccepted (fun hnone => hd (hdepth.mpr hnone)), rfl, hasEnded_stop _ _, before⟩
  | @closed ring before going source hd holds =>
    obtain ⟨rfl, haccepted⟩ := h.acceptedPrefix_of_nil source
    have hclosed : (start.after ts).depth = 0 := h.run_eq ▸ hd
    have hend : p.renderer.run.finish.2 = if ts = [] then [] else [.elementEnd] := by
      rw [h.run_eq, markup_finish_after_start h.going hclosed]
    have hempty : ring.toList = [] := by
      rw [holds.items_eq, hend]
      split <;> rfl
    refine ⟨?_, rfl, hasEnded_finish _, hempty⟩
    rw [hend]
    by_cases hnil : ts = []
    · rw [if_pos hnil]
      exact .nothing hnil
    · rw [if_neg hnil]
      exact .wrapped haccepted (hdepth.mp hd) hnil

theorem Moves.pulls_le (hx : p.Moves x) : x.2.pulls ≤ p.pulls + 1 := by
  cases hx with
  | waiting _ _ | ended _ _ => exact Nat.le_succ _
  | accepted _ _ _ _ _ _ | stopped _ _ _ _ | unclosed _ _ _ _ | closed _ _ _ _ _ =>
    exact Nat.le_refl _

/-- Let `us` be the tokens that are accepted. While their markup lasts, each call gives the next token of
it, and the input tokens asked for are the fewest that bring as much markup as was given; the depth is
theirs. The call after that asks once more and tells how the input ends. Every later call gives nothing
and changes nothing. So no call asks for more than one token, and what comes is markup, then at most one
failure, then nothing. -/
theorem pulls_skip_isLeast (ts : List Data.Token) :
    let us := Data.acceptedPrefix ts
    let all := (Run.start.markup us).length
    let p := (ofList ts).skip
    let given := (ofList ts).exhaust.items
    (∀ j ≤ all,
      IsLeast {k | j ≤ (Run.start.markup (us.take k)).length} (p j).pulls ∧
        (ofList ts).items j = ((Run.start.markup us).take j).map (fun m => some (.ok m)) ∧
        Data.openings (us.take (p j).pulls) =
          Data.closings (us.take (p j).pulls) + (p j).depth) ∧
    LastItem ts (p all).next.1 ∧ (p (all + 1)).pulls = (p all).pulls + 1 ∧
    (∀ j, all < j → (p j).next.1 = none ∧ p j = p (all + 1)) ∧
    (∀ j, (p (j + 1)).pulls ≤ (p j).pulls + 1) ∧
    ∀ n, (ofList ts).items n =
      (given.take n).map some ++ List.replicate (n - given.length) none := by
  intro us all p given
  have hsound : ∀ j, (p j).renderer.Sound := sound_skip_ofList ts
  have hnext : ∀ j, p (j + 1) = (p j).next.2 := fun j => skip_succ _ j
  obtain ⟨ws, hws⟩ : ∃ ws, Reads ts ws all (p all) := exists_reads_skip (Nat.le_refl all)
  obtain ⟨hlast, hpulls, hspent⟩ := hws.lastItem (moves_next (hsound all)) (Nat.le_refl all)
  rw [← hnext] at hpulls hspent
  refine ⟨?_, hlast, hpulls, ?_, ?_, ?_⟩
  · intro j hj
    obtain ⟨vs, hvs⟩ := exists_reads_skip hj
    have htake : us.take (p j).pulls = vs := hvs.pulls_eq ▸ hvs.take_acceptedPrefix
    refine ⟨hvs.pulls_eq ▸ hvs.isLeast, items_ofList_of_le hj, ?_⟩
    rw [htake]
    exact hvs.openings_eq
  · intro j hj
    have hstays : p j = p (all + 1) := by
      obtain ⟨k, rfl⟩ := Nat.exists_eq_add_of_le (Nat.succ_le_of_lt hj)
      show (ofList ts).skip (all + 1 + k) = _
      rw [skip_add]
      exact hspent.skip_eq (hsound _) k
    rw [hstays, hspent.next_eq (hsound _)]
    exact ⟨rfl, rfl⟩
  · intro j
    rw [hnext]
    exact (moves_next (hsound j)).pulls_le
  · intro n
    have hitems := items_eq (sound_ofList ts) n
    rwa [due_ofList] at hitems

theorem pulls_skip_isLeast_in_array :
    let us : List Data.Token := [.opening .array none, .scalar .null]
    let ts := us ++ [.closing .object]
    let all := (Run.start.markup (Data.acceptedPrefix ts)).length
    let p := (ofList ts).skip
    3 ≤ all ∧ (p 3).pulls = 2 ∧ all < 8 ∧ (p 8).next.1 = none ∧ p 8 = p (all + 1) := by
  intro us ts all p
  have hus : Data.acceptedPrefix ts = us := Data.acceptedPrefix_of_fault rfl rfl []
  have hall : all = 5 := by
    show (Run.start.markup (Data.acceptedPrefix ts)).length = 5
    rw [hus]
    rfl
  have hwithin : 3 ≤ all := by omega
  have hbeyond : all < 8 := by omega
  obtain ⟨hreads, -, -, hstays, -⟩ := pulls_skip_isLeast ts
  obtain ⟨hleast, -, -⟩ := hreads 3 hwithin
  obtain ⟨hnone, hsame⟩ := hstays 8 hbeyond
  have htwo : IsLeast {k | 3 ≤ (Run.start.markup ((Data.acceptedPrefix ts).take k)).length} 2 := by
    rw [hus]
    refine ⟨by decide, ?_⟩
    intro k hk
    by_contra hlt
    obtain rfl | rfl : k = 0 ∨ k = 1 := by omega
    · exact absurd hk (by decide)
    · exact absurd hk (by decide)
  exact ⟨hwithin, hleast.unique htwo, hbeyond, hnone, hsame⟩

end Pull
end DataMarkup
