import DataMarkup.Renderer.Relay

/-! The relay with nothing in its loops that looks whether anything moves: each goes round until its
chunk is used up or the end is granted. A loop that goes round for ever ends with nothing. -/

namespace DataMarkup.Relay

variable (limits : Nat → Option Nat)

inductive ChunkSent : List Data.Token → State → Option Halt × State → Prop
  | failed {chunk : List Data.Token} {s s' : State} {failure : Failure}
    (feed : s.feed chunk = (.error failure, s')) : ChunkSent chunk s (some (.failed failure), s')
  | usedUp {chunk : List Data.Token} {s s' : State} {consumed : Nat}
    (feed : s.feed chunk = (.ok consumed, s')) (rest : chunk.drop consumed = []) :
    ChunkSent chunk s (none, s'.unload (limits s'.calls))
  | again {chunk : List Data.Token} {s s' : State} {consumed : Nat} {x : Option Halt × State}
    (feed : s.feed chunk = (.ok consumed, s')) (rest : chunk.drop consumed ≠ [])
    (round : ChunkSent (chunk.drop consumed) (s'.unload (limits s'.calls)) x) :
    ChunkSent chunk s x

inductive ChunksSent : List (List Data.Token) → State → Option Halt × State → Prop
  | done (s : State) : ChunksSent [] s (none, s)
  | stopped {chunk : List Data.Token} {chunks : List (List Data.Token)} {s s' : State} {halt : Halt}
    (first : ChunkSent limits chunk s (some halt, s')) :
    ChunksSent (chunk :: chunks) s (some halt, s')
  | next {chunk : List Data.Token} {chunks : List (List Data.Token)} {s s' : State}
    {x : Option Halt × State} (first : ChunkSent limits chunk s (none, s'))
    (others : ChunksSent chunks s' x) : ChunksSent (chunk :: chunks) s x

inductive Closed : State → Option Halt × State → Prop
  | granted {s : State} (finished : s.renderer.isFinished = true) : Closed s (none, s)
  | failed {s s' : State} {failure : Failure} (unfinished : s.renderer.isFinished = false)
    (finish : s.finish = (.error failure, s')) : Closed s (some (.failed failure), s')
  | again {s s' : State} {x : Option Halt × State} (unfinished : s.renderer.isFinished = false)
    (finish : s.finish = (.ok (), s')) (round : Closed (s'.unload (limits s'.calls)) x) :
    Closed s x

def State.report (s : State) (halt? : Option Halt) : Report :=
  let s := s.unload none
  ⟨s.out.toList, halt?, s.tally, s.renderer⟩

inductive Relayed (capacity : Nat) (chunks : List (List Data.Token)) : Report → Prop
  | stopped {s : State} {halt : Halt}
    (sent : ChunksSent limits chunks (.start capacity) (some halt, s)) :
    Relayed capacity chunks (s.report (some halt))
  | closed {s s' : State} {halt? : Option Halt}
    (sent : ChunksSent limits chunks (.start capacity) (none, s))
    (closed : Closed limits s (halt?, s')) : Relayed capacity chunks (s'.report halt?)

variable {limits}

/-! ### Each loop ends in one way only -/

theorem ChunkSent.unique {chunk : List Data.Token} {s : State} {x y : Option Halt × State}
    (hx : ChunkSent limits chunk s x) (hy : ChunkSent limits chunk s y) : x = y := by
  induction hx with
  | failed feed =>
    cases hy with
    | failed feed' => cases feed.symm.trans feed'; rfl
    | usedUp feed' _ | again feed' _ _ => cases feed.symm.trans feed'
  | usedUp feed rest =>
    cases hy with
    | failed feed' => cases feed.symm.trans feed'
    | usedUp feed' _ => cases feed.symm.trans feed'; rfl
    | again feed' rest' _ =>
      cases feed.symm.trans feed'
      exact absurd rest rest'
  | again feed rest _ ih =>
    cases hy with
    | failed feed' => cases feed.symm.trans feed'
    | usedUp feed' rest' =>
      cases feed.symm.trans feed'
      exact absurd rest' rest
    | again feed' _ round =>
      cases feed.symm.trans feed'
      exact ih round

theorem ChunksSent.unique {chunks : List (List Data.Token)} {s : State} {x y : Option Halt × State}
    (hx : ChunksSent limits chunks s x) (hy : ChunksSent limits chunks s y) : x = y := by
  induction hx with
  | done s => cases hy; rfl
  | stopped first =>
    cases hy with
    | stopped first' => exact first.unique first'
    | next first' _ => cases first.unique first'
  | next first _ ih =>
    cases hy with
    | stopped first' => cases first.unique first'
    | next first' others =>
      cases first.unique first'
      exact ih others

theorem Closed.unique {s : State} {x y : Option Halt × State} (hx : Closed limits s x)
    (hy : Closed limits s y) : x = y := by
  induction hx with
  | granted finished =>
    cases hy with
    | granted _ => rfl
    | failed unfinished _ | again unfinished _ _ => cases finished.symm.trans unfinished
  | failed unfinished finish =>
    cases hy with
    | granted finished => cases finished.symm.trans unfinished
    | failed _ finish' => cases finish.symm.trans finish'; rfl
    | again _ finish' _ => cases finish.symm.trans finish'
  | again unfinished finish _ ih =>
    cases hy with
    | granted finished => cases finished.symm.trans unfinished
    | failed _ finish' => cases finish.symm.trans finish'
    | again _ finish' round =>
      cases finish.symm.trans finish'
      exact ih round

theorem Relayed.unique {capacity : Nat} {chunks : List (List Data.Token)} {x y : Report}
    (hx : Relayed limits capacity chunks x) (hy : Relayed limits capacity chunks y) : x = y := by
  cases hx with
  | stopped sent =>
    cases hy with
    | stopped sent' => cases sent.unique sent'; rfl
    | closed sent' _ => cases sent.unique sent'
  | closed sent closed =>
    cases hy with
    | stopped sent' => cases sent.unique sent'
    | closed sent' closed' =>
      cases sent.unique sent'
      cases closed.unique closed'
      rfl

end DataMarkup.Relay
