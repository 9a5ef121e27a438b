import DataMarkup.Proofs.Pull.Extent
import DataMarkup.Proofs.Renderer.Outcome
import DataMarkup.Proofs.Renderer.Tracking

/-! Whatever the calls and their order, the markup taken out and the markup still buffered are together
the markup of the tokens accepted. The books are kept from the calls and their answers alone. -/

namespace DataMarkup

structure Ledger where
  accepted : List Data.Token
  taken : List Markup.Token

namespace Ledger

def empty : Ledger := ⟨[], []⟩

/-- A failure names the token at fault, counted from the first that was ever accepted; those before it
are accepted. A failure told again names the same token and so adds none. -/
def enter (l : Ledger) : Call → Answer → Ledger
  | .feed tokens, .report (.ok report) =>
    { l with accepted := l.accepted ++ tokens.take report.consumed }
  | .feed tokens, .report (.error (.malformed cause)) =>
    { l with accepted := l.accepted ++ tokens.take (cause.index - l.accepted.length) }
  | .read, .token token => { l with taken := l.taken ++ token.toList }
  | .drain _, .tokens tokens => { l with taken := l.taken ++ tokens }
  | _, _ => l

def enterAll (l : Ledger) (history : List (Call × Answer)) : Ledger :=
  history.foldl (fun l entry => l.enter entry.1 entry.2) l

theorem accepted_prefix_enterAll (l : Ledger) (history : List (Call × Answer)) :
    l.accepted <+: (l.enterAll history).accepted := by
  induction history generalizing l with
  | nil => exact List.prefix_rfl
  | cons entry history ih =>
    refine List.IsPrefix.trans ?_ (ih (l.enter entry.1 entry.2))
    unfold enter
    split
    · exact List.prefix_append _ _
    · exact List.prefix_append _ _
    · exact List.prefix_rfl
    · exact List.prefix_rfl
    · exact List.prefix_rfl

end Ledger

namespace Renderer

variable {r : Renderer} {l : Ledger}

abbrev Balances (r : Renderer) (l : Ledger) : Prop := r.Tracks l.accepted l.taken

theorem balances_feed (h : r.Balances l) (ts : List Data.Token) :
    (r.feed ts).2.Balances (l.enter (.feed ts) (.report (r.feed ts).1)) := by
  have hfeeds := feeds_feed h.sound ts
  generalize r.feed ts = x at hfeeds ⊢
  cases hfeeds with
  | failed hcause =>
    have hlast := h.reaches.index_eq hcause
    simpa [Ledger.enter, hlast] using h
  | done _ => simpa [Ledger.enter] using h
  | taken hgo split hs _ =>
    have hafter := h.absorbs hgo hs
    simpa [Ledger.enter, split] using hafter
  | @stopped us vs t fault s hgo split hs _ =>
    -- The index is past the tokens of earlier calls by as many as this one absorbed.
    have hafter := h.absorbs hgo hs
    have hcount : s.run.accepted = l.accepted.length + us.length := by
      rw [hafter.accepted_eq hs.going, List.length_append]
    simpa [Ledger.enter, split, hcount] using hafter.stop hs.going fault

theorem balances_finish (h : r.Balances l) : r.finish.2.Balances l := by
  have hfinishes := finishes_finish h.sound
  generalize r.finish = x at hfinishes ⊢
  cases hfinishes with
  | failed _ | full _ _ | done _ _ => exact h
  | unclosed hgo _ _ => exact h.stop hgo .unclosedContainer
  | closed hgo _ hd holds => exact h.close hgo hd holds

theorem balances_read (h : r.Balances l) :
    r.read.2.Balances (l.enter .read (.token r.read.1)) := by
  cases hms : r.ring.toList with
  | nil =>
    rw [read_nil (h.wellFormed.holds_of_toList_eq hms)]
    simpa [Ledger.enter] using h
  | cons m ms =>
    obtain ⟨ring, hread, hring⟩ := read_cons (h.wellFormed.holds_of_toList_eq hms)
    have hdrop : ring.Holds r.ring.capacity (r.ring.toList.drop 1) := by rwa [hms]
    have htaken := h.taken hdrop
    rw [hms] at htaken
    rw [hread]
    exact htaken

theorem balances_drain (h : r.Balances l) (limit : Option Nat) :
    (r.unload #[] limit).2.Balances
      (l.enter (.drain limit) (.tokens (r.unload #[] limit).1.toList)) := by
  obtain ⟨ring, hunload, hring⟩ := unload_eq h.wellFormed.holds #[] limit
  rw [hunload]
  simpa [Ledger.enter] using h.taken hring

theorem balances_answer (h : r.Balances l) (c : Call) :
    (r.answer c).2.Balances (l.enter c (r.answer c).1) := by
  cases c with
  | feed ts => exact balances_feed h ts
  | finish => exact balances_finish h
  | read => exact balances_read h
  | drain limit => exact balances_drain h limit
  | peek => exact h
  | buffered => exact h

theorem balances_serve (h : r.Balances l) (cs : List Call) :
    (r.serve cs).2.Balances (l.enterAll (cs.zip ((r.serve cs).1.map Prod.fst))) := by
  induction cs generalizing r l with
  | nil => exact h
  | cons c cs ih => exact ih (balances_answer h c)

/-- After any calls on a new renderer, `taken` and what is buffered are what a pull of `accepted` gives
before its end, and then the end of the wrapper if the renderer is finished. -/
theorem taken_append_buffered (n : Nat) (cs : List Call) :
    let served := (ofCapacity n).serve cs
    let l := Ledger.empty.enterAll (cs.zip (served.1.map Prod.fst))
    let pulled := (Pull.ofList l.accepted).exhaust
    (l.taken ++ served.2.ring.toList = pulled.body ++
      if served.2.isFinished = true ∧ l.accepted ≠ [] then [.elementEnd] else []) ∧
    (pulled.failure? = none ∨
      pulled.failure? = some (.malformed ⟨l.accepted.length, .unclosedContainer⟩)) := by
  intro served l pulled
  have hbalances : served.2.Balances l := balances_serve (tracks_ofCapacity n) cs
  obtain ⟨hbody, hfailure⟩ := Pull.body_exhaust hbalances.reaches.going_after
  refine ⟨?_, hfailure⟩
  rw [hbody]
  exact hbalances.conserved

end Renderer
end DataMarkup
