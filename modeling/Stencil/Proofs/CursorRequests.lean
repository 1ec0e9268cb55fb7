import Stencil.Proofs.Tiling

/-!
# Looking ahead cannot be observed

A cursor has three places where a token can sit: the look-ahead, the queue and the text that has not
been scanned. Which of them holds the next token depends on what was asked before, and so does the
mode of the scanner. None of this shows in the answers.

`Cursor.serve` answers one request. `TokenReader.serve` answers it for a reader who has the whole
list of tokens, as `Lexicon.scan` gives it, and remembers only which source is being read, from
which context, and how many tokens have been taken. The two give the same answers to every sequence
of requests.

> `Cursor.serve_follows`: one request.
> `Cursor.serveAll_eq_tokenReader`: all requests, and the tokens that they take.
-/

namespace Stencil

/-- What can be asked of a cursor. -/
inductive Request where
  /-- The next token, which stays where it is. -/
  | peek
  /-- Whether the next token is of a kind. -/
  | isNext (kind : TokenKind)
  /-- The next token if it is of a kind. -/
  | nextIf (kind : TokenKind)
  /-- The next token. -/
  | next
  /-- The next token unless it ends the source. -/
  | nextBeforeEof
  | lineAt (offset : Option Nat)
  | columnAt (offset : Option Nat)
  /-- To turn to another source. -/
  | restart (source : String) (context : Context)
  deriving Repr, DecidableEq

/-- What a request is answered. -/
inductive Answer where
  | token (t : Token)
  | whether (b : Bool)
  | optional (t? : Option Token)
  | number (n : Nat)
  /-- The source was changed, or could not be for a reason. -/
  | restarted (problem : Option SetupError)
  deriving Repr, DecidableEq

/-! ## The cursor -/

namespace Cursor

/-- A cursor at work, with the tokens that have been taken since it turned to its source. -/
structure Session where
  cursor : Cursor
  taken : List Token := []

/-- Answers one request. -/
def serve (s : Session) : Request → Answer × Session
  | .peek => (.token s.cursor.peek.1, { s with cursor := s.cursor.peek.2 })
  | .isNext kind =>
    (.whether (s.cursor.isNext kind).1, { s with cursor := (s.cursor.isNext kind).2 })
  | .nextIf kind =>
    (.optional (s.cursor.nextIf kind).1,
      ⟨(s.cursor.nextIf kind).2, s.taken ++ (s.cursor.nextIf kind).1.toList⟩)
  | .next => (.token s.cursor.next.1, ⟨s.cursor.next.2, s.taken ++ [s.cursor.next.1]⟩)
  | .nextBeforeEof =>
    (.optional s.cursor.nextBeforeEof.1,
      ⟨s.cursor.nextBeforeEof.2, s.taken ++ [s.cursor.next.1]⟩)
  | .lineAt offset => (.number (s.cursor.lineAt offset), s)
  | .columnAt offset => (.number (s.cursor.columnAt offset), s)
  | .restart source context =>
    match s.cursor.restart source context with
    | .ok c => (.restarted none, { cursor := c })
    | .error e => (.restarted (some e), s)

/-- Answers requests one after the other. -/
def serveAll (s : Session) : List Request → List Answer × Session
  | [] => ([], s)
  | r :: rs =>
    let (answer, s) := serve s r
    let (answers, s) := serveAll s rs
    (answer :: answers, s)

end Cursor

/-! ## The reader of the whole list -/

/-- A reader of the tokens of a source who has taken some of them. -/
structure TokenReader where
  source : String
  context : Context
  /-- The number of tokens that have been taken. -/
  taken : Nat := 0
  deriving Repr, DecidableEq

namespace TokenReader

/-- Token `n` of the source, counted from zero; behind the last one comes the end, for ever. -/
def nth (l : Lexicon) (r : TokenReader) (n : Nat) : Token :=
  (l.scan (Place.start r.source r.context)).getD n Token.eof

/-- The token that comes next. -/
def ahead (l : Lexicon) (r : TokenReader) : Token :=
  r.nth l r.taken

/-- The reader with one more token taken. -/
def further (r : TokenReader) : TokenReader :=
  { r with taken := r.taken + 1 }

/-- Answers one request from the list of tokens. -/
def serve (l : Lexicon) (r : TokenReader) : Request → Answer × TokenReader
  | .peek => (.token (r.ahead l), r)
  | .isNext kind => (.whether ((r.ahead l).kind == kind), r)
  | .nextIf kind =>
    if (r.ahead l).kind = kind then (.optional (some (r.ahead l)), r.further)
    else (.optional none, r)
  | .next => (.token (r.ahead l), r.further)
  | .nextBeforeEof =>
    (.optional (if (r.ahead l).isEof then none else some (r.ahead l)), r.further)
  | .lineAt offset => (.number (Text.lineAt r.source.toList offset), r)
  | .columnAt offset => (.number (Text.columnAt r.source.toList offset), r)
  | .restart source context =>
    match l.checkStart context with
    | .ok () => (.restarted none, ⟨source, context, 0⟩)
    | .error e => (.restarted (some e), r)

/-- Answers requests one after the other. -/
def serveAll (l : Lexicon) (r : TokenReader) : List Request → List Answer × TokenReader
  | [] => ([], r)
  | q :: qs =>
    let (answer, r) := serve l r q
    let (answers, r) := serveAll l r qs
    (answer :: answers, r)

/-- The tokens that have been taken. -/
def tokens (l : Lexicon) (r : TokenReader) : List Token :=
  (List.range r.taken).map (r.nth l)

theorem tokens_further (l : Lexicon) (r : TokenReader) :
    r.further.tokens l = r.tokens l ++ [r.ahead l] := by
  unfold tokens further
  rw [List.range_succ, List.map_append]
  rfl

end TokenReader

/-! ## The two agree -/

namespace Cursor

/-- The session reads the source of the reader and has taken the tokens that the reader has. What is
to come is the same for both. -/
structure Follows (l : Lexicon) (r : TokenReader) (s : Session) : Prop where
  lexicon : s.cursor.lexicon = l
  source : s.cursor.source = r.source
  upcoming : ∀ n, s.cursor.upcoming n = r.nth l (r.taken + n)
  taken : s.taken = r.tokens l

namespace Follows

variable {l : Lexicon} {r : TokenReader} {s : Session}

theorem peek_eq (h : Follows l r s) : s.cursor.peek.1 = r.ahead l :=
  s.cursor.upcoming_peek.1.trans (h.upcoming 0)

theorem next_eq (h : Follows l r s) : s.cursor.next.1 = r.ahead l :=
  s.cursor.upcoming_next.1.trans (h.upcoming 0)

/-- Looking ahead changes nothing. -/
theorem peek (h : Follows l r s) : Follows l r { s with cursor := s.cursor.peek.2 } where
  lexicon := s.cursor.lexicon_peek.trans h.lexicon
  source := s.cursor.source_peek.trans h.source
  upcoming n := (s.cursor.upcoming_peek.2 n).trans (h.upcoming n)
  taken := h.taken

/-- Taking the next token leaves the tokens behind it. -/
theorem next (h : Follows l r s) :
    Follows l r.further ⟨s.cursor.next.2, s.taken ++ [s.cursor.next.1]⟩ where
  lexicon := s.cursor.lexicon_next.trans h.lexicon
  source := s.cursor.source_next.trans h.source
  upcoming n := by
    rw [s.cursor.upcoming_next.2 n, h.upcoming (n + 1), ← Nat.add_assoc, Nat.add_right_comm]
    rfl
  taken := by rw [TokenReader.tokens_further, ← h.taken, h.next_eq]

/-- A cursor at the start of a source follows a reader who has taken nothing. -/
theorem of_start {source : String} {context : Context} {c : Cursor}
    (h : start l source context = .ok c) : Follows l ⟨source, context, 0⟩ { cursor := c } := by
  have hremaining := remaining_start h
  obtain rfl := eq_of_start h
  refine ⟨rfl, rfl, fun n => ?_, rfl⟩
  rw [Cursor.upcoming, hremaining, Nat.zero_add]
  rfl

end Follows

/-- **One request** is answered alike, and both go on alike. -/
theorem serve_follows {l : Lexicon} {r : TokenReader} {s : Session} (h : Follows l r s)
    (q : Request) :
    (serve s q).1 = (r.serve l q).1 ∧ Follows l (r.serve l q).2 (serve s q).2 := by
  cases q with
  | peek => exact ⟨congrArg Answer.token h.peek_eq, h.peek⟩
  | isNext kind =>
    refine ⟨?_, h.peek⟩
    show Answer.whether (s.cursor.peek.1.kind == kind) = _
    rw [h.peek_eq]
    rfl
  | nextIf kind =>
    have hnextIf : s.cursor.nextIf kind =
        if (s.cursor.peek.1.kind == kind) = true then
          (some s.cursor.peek.2.next.1, s.cursor.peek.2.next.2)
        else (none, s.cursor.peek.2) := rfl
    rw [h.peek_eq] at hnextIf
    simp only [serve, TokenReader.serve]
    by_cases hkind : (r.ahead l).kind = kind
    · -- the token that is taken is the one that was looked at
      rw [if_pos (beq_iff_eq.mpr hkind)] at hnextIf
      rw [if_pos hkind, hnextIf]
      exact ⟨congrArg (fun t => Answer.optional (some t)) h.peek.next_eq, h.peek.next⟩
    · rw [if_neg (fun hb => hkind (beq_iff_eq.mp hb))] at hnextIf
      rw [if_neg hkind, hnextIf]
      refine ⟨rfl, ?_⟩
      rw [Option.toList_none, List.append_nil]
      exact h.peek
  | next => exact ⟨congrArg Answer.token h.next_eq, h.next⟩
  | nextBeforeEof =>
    refine ⟨?_, h.next⟩
    show Answer.optional (if s.cursor.next.1.isEof then none else some s.cursor.next.1) = _
    rw [h.next_eq]
    rfl
  | lineAt offset =>
    refine ⟨?_, h⟩
    show Answer.number (Text.lineAt s.cursor.source.toList offset) = _
    rw [h.source]
    rfl
  | columnAt offset =>
    refine ⟨?_, h⟩
    show Answer.number (Text.columnAt s.cursor.source.toList offset) = _
    rw [h.source]
    rfl
  | restart source context =>
    simp only [serve, TokenReader.serve, restart, h.lexicon]
    cases hcheck : l.checkStart context with
    | error e =>
      rw [start_of_error hcheck]
      exact ⟨rfl, h⟩
    | ok u =>
      rw [start_of_ok hcheck]
      exact ⟨rfl, Follows.of_start (start_of_ok hcheck)⟩

/-- Requests are answered alike one after the other, and the two stay in step. -/
theorem serveAll_follows {l : Lexicon} (qs : List Request) :
    ∀ {r : TokenReader} {s : Session}, Follows l r s →
      (serveAll s qs).1 = (r.serveAll l qs).1 ∧
        Follows l (r.serveAll l qs).2 (serveAll s qs).2 := by
  induction qs with
  | nil => intro r s h; exact ⟨rfl, h⟩
  | cons q qs ih =>
    intro r s h
    obtain ⟨hanswer, hafter⟩ := serve_follows h q
    obtain ⟨hanswers, hend⟩ := ih hafter
    refine ⟨?_, hend⟩
    show (serve s q).1 :: (serveAll (serve s q).2 qs).1 = _
    rw [hanswer, hanswers]
    rfl

/-- **Looking ahead cannot be observed.** To every sequence of requests a cursor gives the answers
of a reader who has the list of all tokens of the source and counts how many have been taken; and
the tokens that it has given out since it turned to the source are those, in order. -/
theorem serveAll_eq_tokenReader {l : Lexicon} {source : String} {context : Context} {c : Cursor}
    (h : start l source context = .ok c) (qs : List Request) :
    (serveAll { cursor := c } qs).1 = (TokenReader.serveAll l ⟨source, context, 0⟩ qs).1 ∧
      (serveAll { cursor := c } qs).2.taken =
        (TokenReader.serveAll l ⟨source, context, 0⟩ qs).2.tokens l := by
  obtain ⟨hanswers, hfollows⟩ := serveAll_follows qs (Follows.of_start h)
  exact ⟨hanswers, hfollows.taken⟩

/-- The patchy table has only definitions of the block context. A turn to the template context
fails and leaves the fragment that was looked at in place; a later turn to another source starts
anew. -/
theorem serveAll_eq_tokenReader_patchy :
    ∃ l c, Lexicon.compile patchyTable = .ok l ∧ start l "é 12" .block = .ok c ∧
      let qs : List Request := [.peek, .nextIf .int, .restart "7" .template, .next, .peek,
        .columnAt none, .restart "7" .block, .nextIf .int, .nextBeforeEof, .next]
      (serveAll { cursor := c } qs).1 = (TokenReader.serveAll l ⟨"é 12", .block, 0⟩ qs).1 ∧
        (serveAll { cursor := c } qs).2.taken =
          (TokenReader.serveAll l ⟨"é 12", .block, 0⟩ qs).2.tokens l := by
  have hrun : (Lexicon.compile patchyTable).isOk = true := by decide +kernel
  cases hl : Lexicon.compile patchyTable with
  | error e => rw [hl] at hrun; cases hrun
  | ok l =>
    have hcheck := Lexicon.checkStart_of_mem hl (List.mem_cons_self ..)
    have hstart : start l "é 12" .block = .ok _ := start_of_ok hcheck
    exact ⟨l, _, rfl, hstart, serveAll_eq_tokenReader hstart _⟩

end Cursor

end Stencil
