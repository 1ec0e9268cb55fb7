import Stencil.Grammar.Source
import Stencil.Proofs.CursorStream
import Stencil.Proofs.LockstepTemplate

/-!
# Parsing a source is parsing its tokens

The parser asks for tokens one by one, and each is scanned only when it is asked for. The outcome is
that of a parser which is given the whole list of tokens beforehand: a cursor and the list of the
tokens that it has yet to give out are linked (`Cursor.Reads`), so that parsers in lockstep end
alike on them.

> `Lexicon.parseWith_eq`: what parsing a source comes to.
-/

namespace Stencil

namespace Cursor

/-- The list holds the tokens that the cursor over the source has yet to give out, and the parser
has seen its first token if it has seen any. -/
structure Reads (source : String) (x : Position) (c : Cursor) (ts : List Token) : Prop where
  source_eq : c.source = source
  upcoming : ∀ n, c.upcoming n = ts.getD n Token.eof
  seen : ∀ k, x.seen = some k → kindAhead ts = k
  left : ts.length ≤ x.left

theorem Reads.head {source : String} {x : Position} {c : Cursor} {ts : List Token}
    (h : Reads source x c ts) : c.upcoming 0 = ts.headD Token.eof := by
  rw [h.upcoming]
  cases ts <;> rfl

/-- A cursor and the list of its tokens are sources that can be compared. -/
theorem linked_reads {source : String} : Parse.Linked (Reads source) where
  peek := by
    intro x c ts h
    have hpeek : c.peek.1 = ts.headD Token.eof := c.upcoming_peek.1.trans h.head
    have hkind : c.peek.1.kind = kindAhead ts := congrArg Token.kind hpeek
    refine ⟨?_, fun k hk => (h.seen k hk).symm.trans hkind.symm, ?_⟩
    · show c.peek.1.Same (ts.headD Token.eof)
      rw [hpeek]
      exact ⟨rfl, rfl⟩
    · refine ⟨c.source_peek.trans h.source_eq, fun n => ?_, fun k hk => ?_, h.left⟩
      · exact (c.upcoming_peek.2 n).trans (h.upcoming n)
      · cases hk
        exact hkind.symm
  next := by
    intro x c ts k h hseen htakes
    have hkind := h.seen k hseen
    obtain ⟨t, ts, rfl⟩ := exists_cons_of_kindAhead (hkind ▸ Stage.takes_ne_eof htakes)
    have hnext : c.next.1 = t := c.upcoming_next.1.trans h.head
    have hleft := h.left
    rw [List.length_cons] at hleft
    refine ⟨by omega, ?_, ?_, ?_⟩
    · show c.next.1.Same t
      rw [hnext]
      exact ⟨rfl, rfl⟩
    · exact (congrArg Token.kind hnext).trans hkind
    · refine ⟨c.source_next.trans h.source_eq, fun n => ?_, nofun, ?_⟩
      · rw [TokenSource.next]
        exact (c.upcoming_next.2 n).trans (h.upcoming (n + 1))
      · show ts.length ≤ x.left - 1
        omega

/-- A cursor at its start reads the tokens of the scan. -/
theorem reads_start {l : Lexicon} {source : String} {context : Context} {c : Cursor}
    (h : start l source context = .ok c) (stage : Stage) :
    Reads source ⟨stage, none, (l.scan (Place.start source context)).length⟩ c
      (l.scan (Place.start source context)) := by
  have hremaining := remaining_start h
  obtain rfl := eq_of_start h
  refine ⟨rfl, fun n => ?_, nofun, Nat.le_refl _⟩
  rw [upcoming, hremaining]

end Cursor

/-- The report of a rejection of some of the tokens of a source. -/
def SyntaxError.ofTokens (source : String) (r : Rejection (List Token)) : SyntaxError :=
  { line := Text.lineAt source.toList r.token.offset
    expected := r.expected
    found := r.token.found }

/-- What parsing the tokens of a source says about the source. -/
def Parse.reported {α : Type} (source : String) :
    Except (Rejection (List Token)) (α × List Token) → Except Failure α
  | .ok (a, _) => .ok a
  | .error r => .error (.grammar (.ofTokens source r))

namespace Lexicon

/-- **Parsing a source is parsing its tokens.** The value is that of the list of tokens, and so is
the token that is refused. -/
theorem parseWith_eq {α : Type} {l : Lexicon} {context : Context}
    (hcheck : l.checkStart context = .ok ()) {parser : Parse α} (hparser : parser.Steady)
    (source : String) :
    l.parseWith parser source context =
      Parse.reported source (parser.runTokens (l.scan (Place.start source context))) := by
  obtain ⟨stage, halike⟩ := hparser
  have hstart : Cursor.start l source context =
      .ok { lexicon := l, source, place := Place.start source context } :=
    Cursor.start_of_ok hcheck
  have hlength : (l.scan (Place.start source context)).length < tokenLimit source := by
    have hle := l.length_scan_le (Place.start source context)
    have hsource : (Place.start source context).rest.length = source.length :=
      String.length_toList
    unfold tokenLimit
    omega
  have hends := Parse.run_alike Cursor.linked_reads (halike _) (Cursor.reads_start hstart stage)
    hlength (Nat.lt_succ_self _)
  unfold parseWith Parse.runTokens
  rw [hstart]
  generalize Cursor.mk l source (Place.start source context) none none = c at hends ⊢
  dsimp only [Except.mapError, bind, Except.bind, pure, Except.pure]
  generalize parser.run (tokenLimit source) c = outcome at hends ⊢
  generalize l.scan (Place.start source context) = ts at hends ⊢
  generalize parser.run (ts.length + 1) ts = outcome' at hends ⊢
  cases hends with
  | ok h =>
    obtain ⟨y, rfl, -⟩ := h
    rfl
  | @error e c ts h =>
    obtain ⟨y, -, hreads⟩ := h
    -- both show the same token in front of the source that is left
    have htoken : (Rejection.mk e c).token = (Rejection.mk e ts).token :=
      c.upcoming_peek.1.trans hreads.head
    have hreport : SyntaxError.ofRejection ⟨e, c⟩ = .ofTokens source ⟨e, ts⟩ := by
      unfold SyntaxError.ofRejection SyntaxError.ofTokens
      rw [htoken]
      show SyntaxError.mk (Text.lineAt c.source.toList _) _ _ = _
      rw [hreads.source_eq]
    exact congrArg (fun report => Except.error (Failure.grammar report)) hreport

theorem parse_eq {l : Lexicon} (hcheck : l.checkStart .template = .ok ()) (source : String) :
    l.parse source =
      Parse.reported source (Grammar.template.runTokens (l.scan (Place.start source .template))) :=
  parseWith_eq hcheck Parse.steady_template source

end Lexicon

end Stencil
