import DataMarkup.Renderer

/-! Rendering in pull mode. Each call gives one item and reads the input no further than that item
needs. -/

namespace DataMarkup

/-- `pulls` counts the requests for an input token, with the one that finds the end. -/
structure Pull where
  source : List Data.Token
  renderer : Renderer
  pulls : Nat

namespace Pull

def ofList (source : List Data.Token) : Pull := ⟨source, .ofCapacity Run.maxMarkupPerToken, 0⟩

def ofOption : Option (List Data.Token) → Except Failure Pull
  | some source => .ok (ofList source)
  | none => .error (.absentArgument "input")

def depth (p : Pull) : Nat := p.renderer.depth

/-- What waits comes first, then what the next input token brings. A failure is an item too, and the
last one. -/
def nextFrom (renderer : Renderer) (pulls : Nat) (source : List Data.Token) :
    Option (Except Failure Markup.Token) × Pull :=
  match renderer.read with
  | (some token, renderer) => (some (.ok token), ⟨source, renderer, pulls⟩)
  | (none, renderer) =>
    if renderer.run.hasEnded then (none, ⟨source, renderer, pulls⟩)
    else
      match source with
      | t :: ts =>
        match renderer.step t with
        | (.ok _, renderer) => nextFrom renderer (pulls + 1) ts
        | (.error failure, renderer) => (some (.error failure), ⟨ts, renderer, pulls + 1⟩)
      | [] =>
        match renderer.close with
        | (.ok _, renderer) =>
          match renderer.read with
          | (token, renderer) => (token.map .ok, ⟨[], renderer, pulls + 1⟩)
        | (.error failure, renderer) => (some (.error failure), ⟨[], renderer, pulls + 1⟩)

def next (p : Pull) : Option (Except Failure Markup.Token) × Pull :=
  match p with
  | ⟨source, renderer, pulls⟩ => nextFrom renderer pulls source

def remaining (p : Pull) : Nat × Nat × Nat :=
  (p.source.length, if p.renderer.run.hasEnded then 0 else 1, p.renderer.waiting)

def Before (p q : Pull) : Prop :=
  Prod.Lex (· < ·) (Prod.Lex (· < ·) (· < ·)) p.remaining q.remaining

theorem length_source_nextFrom_le (r : Renderer) (n : Nat) (ts : List Data.Token) :
    (nextFrom r n ts).2.source.length ≤ ts.length := by
  fun_induction nextFrom r n ts with
  | case1 | case2 | case5 | case6 => exact Nat.le_refl _
  | case3 _ _ _ _ _ _ _ _ _ _ ih => exact Nat.le_succ_of_le ih
  | case4 => exact Nat.le_succ _

theorem before_of_source {p q : Pull} (h : p.source.length < q.source.length) : Before p q :=
  Prod.Lex.left _ _ h

theorem before_of_nextFrom {r : Renderer} {n : Nat} {ts : List Data.Token}
    {item : Except Failure Markup.Token} (h : (nextFrom r n ts).1 = some item) :
    Before (nextFrom r n ts).2 ⟨ts, r, n⟩ := by
  fun_induction nextFrom r n ts with
  | case1 ts r n token r' hread =>
    have hrun : r'.run = r.run := by rw [← r.run_read, hread]
    have hcount : r'.waiting < r.waiting := by
      simpa [hread] using Renderer.count_read_lt (congrArg Prod.fst hread)
    simp only [Before, remaining, hrun]
    exact Prod.Lex.right _ (Prod.Lex.right _ hcount)
  | case2 => cases h
  | case3 _ n _ _ _ _ ts _ r _ ih =>
    exact before_of_source (Nat.lt_succ_of_le (length_source_nextFrom_le r (n + 1) ts))
  | case4 => exact before_of_source (Nat.lt_succ_self _)
  | case5 r n r' hread hgoes _ r'' hclose token r₃ hread' =>
    have hrun : r'.run = r.run := by rw [← r.run_read, hread]
    have hended : r₃.run.hasEnded = true := by
      rw [show r₃ = r''.read.2 by rw [hread'], r''.run_read, show r'' = r'.close.2 by rw [hclose],
        r'.run_close]
      exact Run.hasEnded_finish _
    rw [hrun] at hgoes
    simp only [Before, remaining, hended, hgoes]
    exact Prod.Lex.right _ (Prod.Lex.left _ _ Nat.zero_lt_one)
  | case6 r n r' hread hgoes failure r'' hclose =>
    have hrun : r'.run = r.run := by rw [← r.run_read, hread]
    have hended : r''.run.hasEnded = true := by
      rw [show r'' = r'.close.2 by rw [hclose], r'.run_close]
      exact Run.hasEnded_finish _
    rw [hrun] at hgoes
    simp only [Before, remaining, hended, hgoes]
    exact Prod.Lex.right _ (Prod.Lex.left _ _ Nat.zero_lt_one)

theorem before_of_next {p q : Pull} {item : Except Failure Markup.Token}
    (h : p.next = (some item, q)) : Before q p := by
  have hb : Before p.next.2 p := before_of_nextFrom (congrArg Prod.fst h)
  rwa [h] at hb

structure Harvest where
  markup : Array Markup.Token
  failure? : Option Failure
  deepest : Nat
  rest : Pull

def exhaustFrom (p : Pull) (out : Array Markup.Token) (deepest : Nat) : Harvest :=
  match _ : p.next with
  | (some (.ok token), p') => exhaustFrom p' (out.push token) (max deepest p'.depth)
  | (some (.error failure), p') => ⟨out, some failure, max deepest p'.depth, p'⟩
  | (none, p') => ⟨out, none, max deepest p'.depth, p'⟩
  termination_by p.remaining
  decreasing_by exact before_of_next ‹_›

def exhaust (p : Pull) : Harvest := p.exhaustFrom #[] p.depth

end Pull
end DataMarkup
