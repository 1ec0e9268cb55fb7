import Stencil.Grammar.Source
import Stencil.Proofs.CursorStream
import Stencil.Proofs.LockstepTemplate
import Stencil.Proofs.StandardTable
import Stencil.Proofs.Tiling

/-!
# Parser and scanner in step

The scanner keeps a mode, a context with a count of open comments, and changes it as it finds
tokens: sometimes one token early, because the parser looks ahead, and sometimes late, because a
token waits behind a fragment. The parser keeps no mode, but at each of its steps it is at some
stage of the template. With the standard table the two agree. The mode is that of the stage
(`Stage.mode`), with the change that the token which has been looked at brings about.

So in front of an element of a template the scanner is in the template context, and the only tokens
that it finds there start an element. Inside a comment the parser and the scanner have counted the
same number of open comments.

> `Stage.mode_after`: a token leads from the mode of a stage to the mode of the stage behind it.
> `Cursor.InStep`: what ties a cursor to the position of a parser.
> `Standard.template_inStep`: parser and scanner are in step at every landmark.
-/

namespace Stencil

/-! ## What the standard table finds -/

namespace Standard

/-- Whether a token of the kind is found in a context, or the end of the source. -/
def finds : Context → TokenKind → Bool
  | .template, k => [.fragment, .commentOpen, .literalOpen, .blockOpen, .eof].contains k
  | .comment, k => [.fragment, .commentOpen, .commentClose, .eof].contains k
  | .literal, k => [.fragment, .literalClose, .eof].contains k
  | .block, k => !(([.commentOpen, .commentClose, .literalOpen, .literalClose, .blockOpen] :
      List TokenKind).contains k)

/-- What a token of a kind does to the context. -/
def transition : TokenKind → Transition
  | .commentOpen => .commentEnter
  | .commentClose => .commentLeave
  | .literalOpen => .literal
  | .literalClose => .template
  | .blockOpen => .block
  | .blockClose => .template
  | _ => .stay

/-- The definitions of the standard table: where each kind is found, what it does to the context,
and that ignored ones stay. -/
theorem table_finds : ∀ d ∈ table, finds d.context d.kind = true ∧
    d.transition = transition d.kind ∧ (d.cls = .ignore → d.transition = .stay) := by
  decide

theorem finds_fragment (c : Context) : finds c .fragment = true := by
  cases c <;> rfl

theorem finds_eof (c : Context) : finds c .eof = true := by
  cases c <;> rfl

end Standard

/-- The mode behind a token of the standard table. -/
def Mode.behind (m : Mode) (k : TokenKind) : Mode :=
  (Standard.transition k).apply m

namespace Standard

variable {l : Lexicon} {p : Place} {f : Found}

/-- A match is of a kind that is found in the context, and leads to the mode behind that kind. -/
theorem find?_finds (hl : lexicon = .ok l) (h : l.find? p = some f) :
    finds p.mode.context f.rule.definition.kind = true ∧
      f.rule.definition.transition = transition f.rule.definition.kind ∧
      (f.rule.definition.cls = .ignore → f.rule.definition.transition = .stay) := by
  obtain ⟨hmem, hcontext, -, -⟩ := find?_spec hl h
  rw [← hcontext]
  exact table_finds _ hmem

/-- Behind a match the scanner is in the mode that the kind of the match leads to. -/
theorem mode_afterMatch (hl : lexicon = .ok l) (h : l.find? p = some f) :
    (p.afterMatch f).mode = p.mode.behind f.rule.definition.kind := by
  obtain ⟨-, htransition, -⟩ := find?_finds hl h
  show f.rule.definition.transition.apply p.mode = _
  rw [htransition]
  rfl

/-- A match that is ignored leaves the mode as it is. -/
theorem mode_afterMatch_of_ignore (hl : lexicon = .ok l) (h : l.find? p = some f)
    (hignore : f.rule.definition.cls = .ignore) : (p.afterMatch f).mode = p.mode := by
  obtain ⟨-, -, hstay⟩ := find?_finds hl h
  show f.rule.definition.transition.apply p.mode = _
  rw [hstay hignore]
  rfl

end Standard

/-! ## The mode of a stage -/

namespace Stage

/-- The number of comments that are open at a stage. -/
def depth : Stage → Nat
  | comment depth => depth
  | _ => 0

/-- The mode of the scanner at a stage. -/
def mode : Stage → Mode
  | text => ⟨.template, 0⟩
  | comment depth => ⟨.comment, UInt32.ofNat depth⟩
  | literal => ⟨.literal, 0⟩
  | block => ⟨.block, 0⟩

/-- Only the opening of a comment adds to the number of open ones. -/
theorem depth_after_le (i : Stage) (k : TokenKind) :
    (i.after k).depth ≤ i.depth + if k = .commentOpen then 1 else 0 := by
  cases i with
  | comment d =>
    by_cases hopen : k = .commentOpen
    · subst hopen
      exact Nat.le_refl _
    · by_cases hclose : k = .commentClose
      · subst hclose
        cases d with
        | zero => exact Nat.zero_le _
        | succ d => cases d <;> exact Nat.le_succ _
      · rw [after_comment hopen hclose]
        exact Nat.le_add_right _ _
  | _ => cases k <;> exact Nat.le_of_ble_eq_true rfl

theorem ofDepth_ne (d : Nat) : ofDepth d ≠ comment 0 := by
  cases d <;> nofun

/-- No token leads inside a comment of depth zero. -/
theorem after_ne {i : Stage} (h : i ≠ comment 0) (k : TokenKind) : i.after k ≠ comment 0 := by
  cases i with
  | comment d =>
    cases k with
    | commentOpen => nofun
    | commentClose => exact ofDepth_ne _
    | _ => exact h
  | _ => cases k <;> nofun

/-- Below the limit of its type the count of open comments does not come back to zero. -/
theorem ofNat_succ_ne_zero {n : Nat} (h : n + 1 < UInt32.size) : UInt32.ofNat (n + 1) ≠ 0 := by
  intro hzero
  have hcount : (UInt32.ofNat (n + 1)).toNat = n + 1 := UInt32.toNat_ofNat_of_lt' h
  rw [hzero] at hcount
  cases hcount

/-- Closing a comment leads out of the innermost of those that are open. -/
theorem behind_commentClose {depth : Nat} (h : depth + 1 < UInt32.size) :
    (comment (depth + 1)).mode.behind .commentClose = (ofDepth depth).mode := by
  have hne := ofNat_succ_ne_zero h
  have hless : UInt32.ofNat (depth + 1) - 1 = UInt32.ofNat depth := by
    rw [UInt32.ofNat_add]
    exact UInt32.add_sub_cancel _ _
  have hleave : (comment (depth + 1)).mode.behind .commentClose =
      ⟨(if UInt32.ofNat depth = 0 then some Context.template else none).getD .comment,
        UInt32.ofNat depth⟩ := by
    simp only [Mode.behind, Standard.transition, Transition.apply, Transition.step, mode,
      if_neg hne, hless]
  rw [hleave]
  cases depth with
  | zero => rfl
  | succ depth =>
    rw [if_neg (ofNat_succ_ne_zero (Nat.lt_of_succ_lt h))]
    rfl

/-- **A token leads from the mode of a stage to the mode of the stage behind it.** -/
theorem mode_after {i : Stage} {k : TokenKind} (hfinds : Standard.finds i.mode.context k = true)
    (htakes : i.takes k = true) (hproper : i ≠ comment 0) (hsize : i.depth < UInt32.size) :
    i.mode.behind k = (i.after k).mode := by
  cases i with
  | comment d =>
    cases d with
    | zero => exact absurd rfl hproper
    | succ d =>
      cases k with
      | commentOpen =>
        show Mode.mk _ (UInt32.ofNat (d + 1) + 1) = Mode.mk _ (UInt32.ofNat (d + 1 + 1))
        rw [UInt32.ofNat_add (d + 1) 1]
        rfl
      | commentClose => exact behind_commentClose hsize
      | _ => first | rfl | cases hfinds
  | _ => cases k <;> first | rfl | cases hfinds

end Stage

/-! ## The mode of a cursor -/

/-- A token waits in the mode in which it was found, with the transition of its kind. -/
def Waiting.FoundIn (w : Waiting) (m : Mode) : Prop :=
  Standard.finds m.context w.token.kind = true ∧
    w.transition = Standard.transition w.token.kind

/-- Where no token waits, none waits in the wrong mode. -/
theorem Waiting.foundIn_of_none {m : Mode} (w : Waiting) (h : (none : Option Waiting) = some w) :
    w.FoundIn m := by
  cases h

namespace Standard

variable {l : Lexicon}

/-- The next token by scanning is one that is found in the context, and leads to the mode behind it.
A match behind a fragment waits in the mode of the fragment. -/
theorem scanNext_finds (hl : lexicon = .ok l) (p : Place) :
    finds p.mode.context (Cursor.scanNext l p).1.kind = true ∧
      (Cursor.scanNext l p).2.1.mode = p.mode.behind (Cursor.scanNext l p).1.kind ∧
      ∀ w, (Cursor.scanNext l p).2.2 = some w → w.FoundIn (Cursor.scanNext l p).2.1.mode := by
  rcases Nat.eq_zero_or_pos p.rest.length with hz | hpos
  · rw [Cursor.scanNext_of_end hz]
    exact ⟨finds_eof _, rfl, Waiting.foundIn_of_none⟩
  · cases hf : l.find? p with
    | none =>
      rw [Cursor.scanNext_of_none hpos hf]
      exact ⟨finds_fragment _, rfl, Waiting.foundIn_of_none⟩
    | some f =>
      obtain ⟨hfinds, htransition, -⟩ := find?_finds hl hf
      have hafter := mode_afterMatch hl hf
      have hignored := mode_afterMatch_of_ignore hl hf
      rcases Nat.eq_zero_or_pos f.skipped with hs | hs
      · rw [Cursor.scanNext_of_here hpos hf hs]
        split
        next hignore =>
          -- the scan goes on behind the ignored match, in the same mode
          have hrec := scanNext_finds hl (p.afterMatch f)
          rw [hignored hignore] at hrec
          exact hrec
        next => exact ⟨hfinds, hafter, Waiting.foundIn_of_none⟩
      · rw [Cursor.scanNext_of_ahead hpos hf hs]
        split
        next hignore => exact ⟨finds_fragment _, hignored hignore, Waiting.foundIn_of_none⟩
        next =>
          refine ⟨finds_fragment _, rfl, fun w hw => ?_⟩
          cases hw
          exact ⟨hfinds, htransition⟩
termination_by p.rest.length
decreasing_by exact Lexicon.length_rest_afterMatch_lt ‹_›

end Standard

namespace Cursor

/-- A cursor over the standard table, with a token waiting at most in the mode in which it was
found. -/
structure Orderly (c : Cursor) : Prop where
  lexicon : Standard.lexicon = .ok c.lexicon
  waiting : ∀ w, c.waiting = some w → w.FoundIn c.place.mode

/-- Where nothing was looked at, the next token is one that is found in the context, and leads to
the mode behind it. -/
theorem Orderly.next {c : Cursor} (h : c.Orderly) (hlookahead : c.lookahead = none) :
    Standard.finds c.place.mode.context c.next.1.kind = true ∧
      c.next.2.place.mode = c.place.mode.behind c.next.1.kind ∧ c.next.2.Orderly := by
  have hpull : c.next = c.pull := by simp only [Cursor.next, hlookahead]
  rw [hpull]
  unfold pull
  cases hw : c.waiting with
  | some w =>
    obtain ⟨hfinds, htransition⟩ := h.waiting w hw
    refine ⟨hfinds, ?_, h.lexicon, Waiting.foundIn_of_none⟩
    show w.transition.apply c.place.mode = _
    rw [htransition]
    rfl
  | none =>
    obtain ⟨hfinds, hmode, hwaits⟩ := Standard.scanNext_finds h.lexicon c.place
    exact ⟨hfinds, hmode, h.lexicon, hwaits⟩

/-! ## In step -/

/-- The number of comments that are opened in the tokens to come. -/
def openings (c : Cursor) : Nat :=
  c.remaining.countP (·.kind == .commentOpen)

/-- The mode of a cursor whose parser is at a stage and may have looked at the next token. -/
def ModeAt (c : Cursor) (stage : Stage) : Option TokenKind → Prop
  | none => c.lookahead = none ∧ c.place.mode = stage.mode
  | some k => ∃ t, c.lookahead = some t ∧ t.kind = k ∧
    Standard.finds stage.mode.context k = true ∧ c.place.mode = stage.mode.behind k

/-- The cursor is in step with a parser at the position. -/
structure InStep (x : Position) (c : Cursor) : Prop where
  orderly : c.Orderly
  mode : c.ModeAt x.stage x.seen
  proper : x.stage ≠ .comment 0
  /-- No more comments are opened than the scanner can count. -/
  openings_lt : x.stage.depth + c.openings < UInt32.size
  left : ∀ n, x.left ≤ n → (c.upcoming n).kind = .eof

namespace InStep

variable {x : Position} {c : Cursor}

/-- Looking at a token opens no comment. -/
theorem openings_peek (c : Cursor) : c.peek.2.openings = c.openings := by
  cases hl : c.lookahead with
  | some t =>
    have hpeek : c.peek = (t, c) := by simp only [Cursor.peek, hl]
    rw [hpeek]
  | none =>
    obtain ⟨hhead, htail⟩ := c.next_spec
    unfold openings
    rw [remaining_peek_of_none hl, hhead, htail]
    cases c.remaining with
    | nil => rfl
    | cons t ts => rfl

/-- Looking at the next token keeps cursor and parser in step. The token is of a kind that the mode
can find. -/
theorem peek_spec (h : InStep x c) :
    x.Shows c.peek.1.kind ∧ InStep (x.see c.peek.1.kind) c.peek.2 := by
  have hleft : ∀ n, x.left ≤ n → (c.peek.2.upcoming n).kind = .eof := by
    intro n hn
    rw [c.upcoming_peek.2 n]
    exact h.left n hn
  have hopenings : x.stage.depth + c.peek.2.openings < UInt32.size := by
    rw [openings_peek]
    exact h.openings_lt
  have hmode := h.mode
  cases hseen : x.seen with
  | some k =>
    rw [hseen] at hmode
    obtain ⟨t, hlookahead, hk, hmode⟩ := hmode
    have hpeek : c.peek = (t, c) := by simp only [Cursor.peek, hlookahead]
    rw [hpeek] at hleft hopenings ⊢
    subst hk
    refine ⟨fun k' hk' => ?_, h.orderly, ⟨t, hlookahead, rfl, hmode⟩, h.proper, hopenings, hleft⟩
    rw [hseen] at hk'
    exact (Option.some.inj hk').symm
  | none =>
    rw [hseen] at hmode
    obtain ⟨hlookahead, hmode⟩ := hmode
    obtain ⟨hfinds, hbehind, horderly⟩ := h.orderly.next hlookahead
    have hpeek := peek_of_none hlookahead
    rw [hmode] at hfinds hbehind
    refine ⟨fun k' hk' => ?_, ?_, ?_, h.proper, hopenings, hleft⟩
    · rw [hseen] at hk'
      cases hk'
    · rw [hpeek]
      exact ⟨horderly.lexicon, horderly.waiting⟩
    · rw [hpeek]
      exact ⟨_, rfl, rfl, hfinds, hbehind⟩

/-- Taking a token that was looked at keeps them in step: the context changes as the stage does. -/
theorem next_spec {k : TokenKind} (h : InStep x c) (hseen : x.seen = some k)
    (htakes : x.stage.takes k = true) :
    0 < x.left ∧ c.next.1.kind = k ∧ InStep (x.take k) c.next.2 := by
  have hmode := h.mode
  rw [hseen] at hmode
  obtain ⟨t, hlookahead, rfl, hfinds, hmode⟩ := hmode
  have hnext : c.next = (t, { c with lookahead := none }) := by simp only [Cursor.next, hlookahead]
  obtain ⟨hhead, htail⟩ := c.upcoming_next
  have hpos : 0 < x.left := by
    refine Nat.pos_of_ne_zero fun hzero => ?_
    have heof := h.left 0 (Nat.le_of_eq hzero)
    rw [← hhead, hnext] at heof
    exact Stage.takes_ne_eof htakes heof
  have hdepth : x.stage.depth < UInt32.size :=
    Nat.lt_of_le_of_lt (Nat.le_add_right _ _) h.openings_lt
  have hremaining : c.remaining = t :: ({ c with lookahead := none } : Cursor).remaining := by
    simp [remaining, hlookahead]
  have hopenings : c.openings = ({ c with lookahead := none } : Cursor).openings +
      if t.kind = .commentOpen then 1 else 0 := by
    unfold openings
    rw [hremaining, List.countP_cons]
    simp
  rw [hnext] at htail ⊢
  refine ⟨hpos, rfl, ⟨h.orderly.lexicon, h.orderly.waiting⟩, ⟨rfl, ?_⟩, ?_, ?_, fun n hn => ?_⟩
  · exact hmode.trans (Stage.mode_after hfinds htakes h.proper hdepth)
  · exact Stage.after_ne h.proper _
  · have hafter := x.stage.depth_after_le t.kind
    have hlt := h.openings_lt
    rw [hopenings] at hlt
    rw [Position.stage_take]
    dsimp only
    omega
  · rw [htail n]
    refine h.left _ ?_
    rw [Position.left_take] at hn
    omega

/-- At the start of a source the parser is in front of its first element. -/
theorem of_start {l : Lexicon} {source : String} (hl : Standard.lexicon = .ok l)
    (hc : start l source .template = .ok c)
    (hopenings : (l.scan (Place.start source .template)).countP (·.kind == .commentOpen) <
      UInt32.size) :
    InStep ⟨.text, none, source.length⟩ c := by
  have hremaining := remaining_start hc
  obtain rfl := eq_of_start hc
  refine ⟨⟨hl, Waiting.foundIn_of_none⟩, ⟨rfl, rfl⟩, nofun, ?_, fun n hn => ?_⟩
  · rw [openings, hremaining]
    simpa [Stage.depth] using hopenings
  · have hlength := l.length_scan_le (Place.start source .template)
    have hstart : (Place.start source .template).rest.length = source.length :=
      String.length_toList
    have hn : source.length ≤ n := hn
    rw [upcoming, hremaining, List.getD_eq_getElem?_getD, List.getElem?_eq_none (by omega)]
    rfl

/-- Between blocks the scanner is in the template context and no comment is open. -/
theorem mode_of_atText (h : InStep x c) (hx : x.AtText) :
    c.lookahead = none ∧ c.place.mode = ⟨.template, 0⟩ := by
  have hmode := h.mode
  rw [hx.1, hx.2] at hmode
  exact hmode

end InStep

/-- The cursor is between blocks: in the template context, with no comment open, and in front of a
token that starts an element, or of the end of the source. -/
structure BetweenBlocks (c : Cursor) : Prop where
  lookahead : c.lookahead = none
  mode : c.place.mode = ⟨.template, 0⟩
  peek : c.peek.1.kind ∈ [.fragment, .commentOpen, .literalOpen, .blockOpen, .eof]

end Cursor

/-- What holds of a cursor at a landmark of a parser that is in step with it. In front of an element
the cursor is between blocks, and a comment that starts there is passed over up to the place where
the scanner is back in the template context. Inside a comment the scanner has counted as many open
comments as the parser. -/
def Landmark.InStep (limit : Nat) : Landmark → Cursor → Prop
  | .item, c => c.BetweenBlocks ∧ ∀ u c', Grammar.skipComment.run limit c.peek.2 = .ok (u, c') →
    c'.lookahead = none ∧ c'.place.mode = ⟨.template, 0⟩
  | .comment depth, c => c.lookahead = none ∧ c.place.mode.context = .comment ∧
    c.place.mode.nesting.toNat = depth ∧ 0 < depth

namespace Standard

open Cursor Parse

/-- The cursor is in step with a parser that started with so many tokens to go. -/
def Tied (limit : Nat) (x : Position) (c c' : Cursor) : Prop :=
  c = c' ∧ Cursor.InStep x c ∧ x.left < limit

/-- So the runs over two cursors in step can be compared. -/
theorem linked_tied {limit : Nat} : Linked (Tied limit) where
  peek := by
    intro x c c' h
    obtain ⟨rfl, h, hleft⟩ := h
    obtain ⟨hshows, hpeek⟩ := h.peek_spec
    exact ⟨⟨rfl, rfl⟩, hshows, rfl, hpeek, hleft⟩
  next := by
    intro x c c' k h hseen htakes
    obtain ⟨rfl, h, hleft⟩ := h
    obtain ⟨hpos, hkind, hnext⟩ := h.next_spec hseen htakes
    exact ⟨hpos, ⟨rfl, rfl⟩, hkind, rfl, hnext, Nat.lt_of_le_of_lt (Nat.sub_le _ _) hleft⟩

/-- Where a parser may pass a landmark, the cursor in step with it is where the landmark says. -/
theorem landmark_inStep {limit : Nat} {l : Landmark} {x : Position} {c : Cursor} (hl : l.At x)
    (h : Cursor.InStep x c) (hleft : x.left < limit) : l.InStep limit c := by
  cases l with
  | item =>
    obtain ⟨hlookahead, hmode⟩ := h.mode_of_atText hl
    obtain ⟨-, hpeek⟩ := h.peek_spec
    obtain ⟨t, hlook, hk, hfinds, -⟩ := hpeek.mode
    rw [Position.stage_see, hl.1] at hfinds
    refine ⟨⟨hlookahead, hmode, List.contains_iff_mem.mp hfinds⟩, fun u c' hrun => ?_⟩
    have hskip := alike_skipComment (x := x.see c.peek.1.kind) hl.1
    have hends := run_alike linked_tied hskip ⟨rfl, hpeek, hleft⟩ hleft hleft
    rw [hrun] at hends
    cases hends with
    | ok hy =>
      obtain ⟨y, ⟨hy, -⟩, -, hin, -⟩ := hy
      exact hin.mode_of_atText hy
  | comment depth =>
    obtain ⟨hstage, hpos, hseen⟩ := hl
    have hmode := h.mode
    have hlt := h.openings_lt
    rw [hstage] at hlt
    rw [hstage, hseen] at hmode
    obtain ⟨hlookahead, hmode⟩ := hmode
    refine ⟨hlookahead, by rw [hmode]; rfl, ?_, hpos⟩
    rw [hmode]
    exact UInt32.toNat_ofNat_of_lt' (Nat.lt_of_le_of_lt (Nat.le_add_right _ _) hlt)

/-- Whatever is found in the template context can be taken between blocks. -/
theorem takes_of_finds {k : TokenKind} (h : finds .template k = true) (hne : k ≠ .eof) :
    Stage.text.takes k = true := by
  cases k <;> first | rfl | exact absurd rfl hne | cases h

/-- **Parser and scanner stay in step.** With the standard table and a source that does not open
more comments than the scanner can count, the template parser passes its landmarks in step with the
scanner; and it never refuses a token because it expects the text of a template. -/
theorem template_inStep {l : Lexicon} (hl : lexicon = .ok l) {source : String} {c : Cursor}
    (hc : Cursor.start l source .template = .ok c)
    (hopenings : (l.scan (Place.start source .template)).countP (·.kind == .commentOpen) <
      UInt32.size) :
    (∀ m ∈ Grammar.template.passed (Lexicon.tokenLimit source) c,
        m.1.InStep (Lexicon.tokenLimit source) m.2) ∧
      ∀ r, Grammar.template.run (Lexicon.tokenLimit source) c = .error r →
        r.expected ≠ textExpected := by
  have hstart := InStep.of_start hl hc hopenings
  have hlimit : source.length < Lexicon.tokenLimit source := Nat.lt_add_of_pos_right (by decide)
  have htied : Tied (Lexicon.tokenLimit source) ⟨.text, none, source.length⟩ c c :=
    ⟨rfl, hstart, hlimit⟩
  have halike := alike_template (x := ⟨.text, none, source.length⟩) ⟨rfl, rfl⟩
  constructor
  · intro m hm
    obtain ⟨y, c', hat, -, hin, hleft⟩ :=
      exists_of_mem_passed linked_tied halike htied hlimit hm
    exact landmark_inStep hat hin hleft
  · intro r hr hexpected
    have hends := run_alike linked_tied halike htied hlimit hlimit
    rw [hr] at hends
    cases hends with
    | error hy =>
      obtain ⟨y, hrejects, -, hin, -⟩ := hy
      obtain ⟨hstage, k, hseen, hne, htakes⟩ := hrejects hexpected
      have hmode := hin.mode
      rw [hstage, hseen] at hmode
      obtain ⟨t, -, -, hfinds, -⟩ := hmode
      rw [takes_of_finds hfinds hne] at htakes
      cases htakes

/-- A comment in a comment, and a construct with a comment in its body. -/
theorem template_inStep_nested : ∃ l c,
    let source := "a\x7b\x7b* b\x7b\x7b*c*\x7d\x7d*\x7d\x7d" ++
      "\x7b\x7bif x\x7d\x7d\x7b\x7b**\x7d\x7d\x7b\x7b/if\x7d\x7d"
    lexicon = .ok l ∧ Cursor.start l source .template = .ok c ∧
      (l.scan (Place.start source .template)).countP (·.kind == .commentOpen) < UInt32.size ∧
      (∀ m ∈ Grammar.template.passed (Lexicon.tokenLimit source) c,
        m.1.InStep (Lexicon.tokenLimit source) m.2) ∧
      ∀ r, Grammar.template.run (Lexicon.tokenLimit source) c = .error r →
        r.expected ≠ textExpected := by
  obtain ⟨l, hl⟩ := exists_lexicon
  have hcheck := Lexicon.checkStart_of_mem hl (List.mem_cons_self ..)
  have hstart : ∀ source, Cursor.start l source .template =
      .ok { lexicon := l, source, place := Place.start source .template } :=
    fun _ => Cursor.start_of_ok hcheck
  refine ⟨l, _, hl, hstart _, ?_, template_inStep hl (hstart _) ?_⟩ <;>
    exact Nat.lt_of_le_of_lt (Nat.le_trans List.countP_le_length (Lexicon.length_scan_le _ _))
      (by decide)

end Standard

end Stencil
