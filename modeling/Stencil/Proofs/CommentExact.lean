import Stencil.Proofs.TemplateGrammar

/-!
# The parsers of comments and literal blocks are exact

A comment is passed over by counting how many comments are open. The grammar knows no counter: its
comments open and close in pairs. Tokens that are paired leave the count as it is, and tokens that
bring the count down to nothing are paired up to the tokens that close a comment (`Unwinds`).

> `Derives.reads_skipComment`: a comment ends with the token that closes it.
> `Derives.reads_literalBlock`: a literal block gives the texts of the tokens inside it.
-/

namespace Stencil.Derives

open Grammar Parse

section

variable {limit : Nat} {ts rest : List Token}

/-! ## Comments -/

/-- How many comments are open behind a token of a kind. -/
def depthBehind (depth : Nat) : TokenKind → Nat
  | .commentOpen => depth + 1
  | .commentClose => depth - 1
  | _ => depth

/-- A token that neither opens nor closes a comment leaves the depth as it is. -/
theorem depthBehind_of_ne {depth : Nat} {k : TokenKind} (hopen : k ≠ .commentOpen)
    (hclose : k ≠ .commentClose) : depthBehind depth k = depth := by
  cases k <;> first | rfl | exact absurd rfl hopen | exact absurd rfl hclose

/-- What the loop over a comment does in front of a token of a kind. -/
private def commentTurn (depth : Nat) : TokenKind → Parse (Option Nat)
  | .eof => reject TokenKind.commentClose.description
  | .commentOpen => advance >>= fun _ => pure (some (depth + 1))
  | .commentClose => advance >>= fun _ => pure (some (depth - 1))
  | _ => advance >>= fun _ => pure (some depth)

private theorem commentTurn_of_ne {depth : Nat} {k : TokenKind} (hk : k ≠ .eof) :
    commentTurn depth k = advance >>= fun _ => pure (some (depthBehind depth k)) := by
  cases k <;> first | rfl | exact absurd rfl hk

/-- The step of the loop over a comment. -/
def commentStep (depth : Nat) : Parse (Option Nat) := do
  if depth = 0 then return none
  reach (.comment depth)
  match (← peek).kind with
  | .eof => reject TokenKind.commentClose.description
  | .commentOpen =>
    let _ ← advance
    return some (depth + 1)
  | .commentClose =>
    let _ ← advance
    return some (depth - 1)
  | _ =>
    let _ ← advance
    return some depth

/-- A comment is its opening and the loop over its inside, which starts with one comment open. -/
theorem skipComment_eq : skipComment =
    (expect .commentOpen >>= fun _ => iterate commentStep 1 >>= fun _ => pure PUnit.unit) :=
  rfl

/-- Inside a comment the landmark is passed without taking a token. -/
private theorem reads_commentStep_turn {depth : Nat} {found : Option Nat} :
    (commentStep (depth + 1)).Reads limit ts found rest ↔
      (commentTurn (depth + 1) (kindAhead ts)).Reads limit ts found rest := by
  show (match kindAhead ts with
    | .eof => reject TokenKind.commentClose.description
    | .commentOpen => advance >>= fun _ => pure (some (depth + 1 + 1))
    | .commentClose => advance >>= fun _ => pure (some (depth + 1 - 1))
    | _ => advance >>= fun _ => pure (some (depth + 1)) : Parse (Option Nat)).Reads limit ts
      found rest ↔ _
  cases kindAhead ts <;> exact Iff.rfl

theorem reads_commentStep_zero {found : Option Nat} :
    (commentStep 0).Reads limit ts found rest ↔ found = none ∧ rest = ts :=
  reads_pure

/-- A turn inside a comment takes one token, whatever it is, but not the end of the source. -/
theorem reads_commentStep_succ {depth : Nat} {found : Option Nat} :
    (commentStep (depth + 1)).Reads limit ts found rest ↔
      ∃ t, ts = t :: rest ∧ t.kind ≠ .eof ∧ found = some (depthBehind (depth + 1) t.kind) := by
  rw [reads_commentStep_turn]
  by_cases hk : kindAhead ts = .eof
  · rw [hk]
    constructor
    · intro h
      exact (reads_reject.mp h).elim
    · intro h
      obtain ⟨t, rfl, ht, _⟩ := h
      exact absurd hk ht
  · obtain ⟨t, us, rfl⟩ := exists_cons_of_kindAhead hk
    rw [kindAhead_cons] at hk ⊢
    rw [commentTurn_of_ne hk, reads_advance_pure]
    constructor
    · intro h
      obtain ⟨rfl, rfl⟩ := h
      exact ⟨t, rfl, hk, rfl⟩
    · intro h
      obtain ⟨_, heq, _, rfl⟩ := h
      cases heq
      exact ⟨rfl, rfl⟩

/-- The tokens that close a number of comments. -/
inductive Unwinds : Nat → List Token → Prop
  | zero : Unwinds 0 []
  | close {depth us right vs} : Balanced us → right.kind = .commentClose → Unwinds depth vs →
      Unwinds (depth + 1) (us ++ right :: vs)

/-- A token in front of tokens that close the comments which are open behind it. -/
theorem Unwinds.cons {depth : Nat} {t : Token} {us : List Token} (ht : t.kind ≠ .eof)
    (h : Unwinds (depthBehind (depth + 1) t.kind) us) : Unwinds (depth + 1) (t :: us) := by
  by_cases hopen : t.kind = .commentOpen
  · rw [hopen] at h
    -- the opening pairs with the first of the closings, the next one closes what was open before
    cases h with
    | close hvs hright h =>
      cases h with
      | close hvs' hright' h =>
        have hclosed := Unwinds.close (.comment hopen hvs hright hvs') hright' h
        simpa using hclosed
  · by_cases hclose : t.kind = .commentClose
    · rw [hclose] at h
      exact .close .nil hclose h
    · rw [depthBehind_of_ne hopen hclose] at h
      cases h with
      | close hvs hright h =>
        exact .close (.other (by simp [ht, hopen, hclose]) hvs) hright h

/-- The turns of the loop close all comments that were open. The induction is on the turns. -/
private theorem unwinds_of_loops {depth stop : Nat}
    (h : Loops limit commentStep depth ts stop rest) :
    ∃ us, ts = us ++ rest ∧ Unwinds depth us := by
  induction h with
  | @stop depth ts rest hfound =>
    cases depth with
    | zero =>
      obtain ⟨_, rfl⟩ := reads_commentStep_zero.mp hfound
      exact ⟨[], rfl, .zero⟩
    | succ depth =>
      obtain ⟨_, _, _, hsome⟩ := reads_commentStep_succ.mp hfound
      cases hsome
  | @turn depth ts next mid stop rest hfound _ ih =>
    obtain ⟨us, rfl, hus⟩ := ih
    cases depth with
    | zero =>
      obtain ⟨hnone, _⟩ := reads_commentStep_zero.mp hfound
      cases hnone
    | succ depth =>
      obtain ⟨t, rfl, ht, hsome⟩ := reads_commentStep_succ.mp hfound
      cases hsome
      exact ⟨t :: us, rfl, hus.cons ht⟩

/-- Tokens in which comments open and close in pairs leave the depth as it is. The induction is over
the pairs, with the depth and the tokens behind them left open. -/
private theorem loops_of_balanced {us : List Token} (h : Balanced us) {depth stop : Nat}
    (hloop : Loops limit commentStep (depth + 1) ts stop rest) :
    Loops limit commentStep (depth + 1) (us ++ ts) stop rest := by
  induction h generalizing depth ts with
  | nil => exact hloop
  | @other t us ht _ ih =>
    simp only [List.mem_cons, List.not_mem_nil, or_false, not_or] at ht
    obtain ⟨hend, hopen, hclose⟩ := ht
    refine .turn (reads_commentStep_succ.mpr ⟨t, rfl, hend, rfl⟩) ?_
    rw [depthBehind_of_ne hopen hclose]
    exact ih hloop
  | @comment left us right vs hleft _ hright _ ih ih' =>
    rw [List.cons_append, List.append_assoc, List.cons_append]
    refine .turn (reads_commentStep_succ.mpr ⟨left, rfl, Token.kind_ne hleft (by decide), rfl⟩) ?_
    rw [hleft]
    show Loops limit commentStep (depth + 1 + 1) (us ++ right :: (vs ++ ts)) stop rest
    -- the inner tokens of the pair are one level deeper, those behind it are not
    refine ih (.turn (reads_commentStep_succ.mpr ⟨right, rfl, ?_, rfl⟩) ?_)
    · exact Token.kind_ne hright (by decide)
    rw [hright]
    exact ih' hloop

/-- A comment is passed over with all comments inside it. -/
theorem reads_skipComment {u : Unit} (hlen : ts.length < limit) :
    skipComment.Reads limit ts u rest ↔
      ∃ left us right, ts = left :: (us ++ right :: rest) ∧ left.kind = .commentOpen ∧
        Balanced us ∧ right.kind = .commentClose := by
  have hloops : ∀ {mid r : List Token} {depth : Nat}, mid.length < limit →
      ((iterate commentStep 1).Reads limit mid depth r ↔
        Loops limit commentStep 1 mid depth r) := by
    intro mid r depth hmid
    refine reads_iterate (fun {depth s next r} _ hstep => ?_) hmid
    cases depth with
    | zero =>
      obtain ⟨hnone, _⟩ := reads_commentStep_zero.mp hstep
      cases hnone
    | succ depth =>
      obtain ⟨t, rfl, _⟩ := reads_commentStep_succ.mp hstep
      exact Nat.lt_succ_self _
  rw [skipComment_eq, reads_expect (by decide)]
  constructor
  · intro h
    obtain ⟨left, us, rfl, hleft, h⟩ := h
    obtain ⟨depth, mid, hloop, h⟩ := reads_bind.mp h
    obtain ⟨_, rfl⟩ := reads_pure.mp h
    rw [List.length_cons] at hlen
    obtain ⟨us, rfl, hus⟩ := unwinds_of_loops ((hloops (by omega)).mp hloop)
    -- one comment is open at the start, so its closing is the last token taken
    cases hus with
    | @close _ us right vs hus hright hvs =>
      cases hvs
      exact ⟨left, us, right, by simp, hleft, hus, hright⟩
  · intro h
    obtain ⟨left, us, right, rfl, hleft, hus, hright⟩ := h
    have hloop : Loops limit commentStep 1 (right :: rest) 0 rest := by
      refine .turn (reads_commentStep_succ.mpr ⟨right, rfl, ?_, rfl⟩) ?_
      · exact Token.kind_ne hright (by decide)
      rw [hright]
      exact .stop (reads_commentStep_zero.mpr ⟨rfl, rfl⟩)
    rw [List.length_cons] at hlen
    refine ⟨left, us ++ right :: rest, rfl, hleft, reads_bind.mpr ⟨0, rest, ?_, rfl⟩⟩
    exact (hloops (by omega)).mpr (loops_of_balanced hus hloop)

/-! ## Literal blocks -/

/-- What the loop over a literal block does in front of a token of a kind. -/
private def literalTurn (text : String) : TokenKind → Parse (Option String)
  | .eof => reject TokenKind.literalClose.description
  | .literalClose => advance >>= fun _ => pure none
  | _ => advance >>= fun t => pure (some (text ++ t.text))

private theorem literalTurn_of_ne {text : String} {k : TokenKind} (hend : k ≠ .eof)
    (hclose : k ≠ .literalClose) :
    literalTurn text k = advance >>= fun t => pure (some (text ++ t.text)) := by
  cases k <;> first | rfl | exact absurd rfl hend | exact absurd rfl hclose

/-- The step of the loop over a literal block. -/
def literalStep (text : String) : Parse (Option String) := do
  match (← peek).kind with
  | .eof => reject TokenKind.literalClose.description
  | .literalClose =>
    let _ ← advance
    return none
  | _ => return some (text ++ (← advance).text)

/-- A literal block is its opening and the loop that gathers its text. -/
theorem literalBlock_eq :
    literalBlock = (expect .literalOpen >>= fun _ => iterate literalStep "") :=
  rfl

/-- The turn of a literal block is decided by the kind ahead. -/
private theorem reads_literalStep_turn {text : String} {found : Option String} :
    (literalStep text).Reads limit ts found rest ↔
      (literalTurn text (kindAhead ts)).Reads limit ts found rest := by
  show (match kindAhead ts with
    | .eof => reject TokenKind.literalClose.description
    | .literalClose => advance >>= fun _ => pure none
    | _ => advance >>= fun t => pure (some (text ++ t.text)) : Parse (Option String)).Reads limit
      ts found rest ↔ _
  cases kindAhead ts <;> exact Iff.rfl

/-- A turn either takes the closing token and ends the loop, or takes another token and keeps its
text; at the end of the source it does neither. -/
theorem reads_literalStep {text : String} {found : Option String} :
    (literalStep text).Reads limit ts found rest ↔
      (∃ t, ts = t :: rest ∧ t.kind = .literalClose ∧ found = none) ∨
        ∃ t, ts = t :: rest ∧ t.kind ∉ [.eof, .literalClose] ∧ found = some (text ++ t.text) := by
  rw [reads_literalStep_turn]
  by_cases hend : kindAhead ts = .eof
  · rw [hend]
    constructor
    · intro h
      exact (reads_reject.mp h).elim
    · intro h
      rcases h with ⟨t, rfl, ht, _⟩ | ⟨t, rfl, ht, _⟩
      · rw [kindAhead_cons, ht] at hend
        cases hend
      · rw [kindAhead_cons] at hend
        rw [hend] at ht
        exact absurd (by decide) ht
  · obtain ⟨t, us, rfl⟩ := exists_cons_of_kindAhead hend
    rw [kindAhead_cons] at hend ⊢
    by_cases hclose : t.kind = .literalClose
    · rw [hclose]
      show (advance >>= fun _ => pure none).Reads limit (t :: us) found rest ↔ _
      rw [reads_advance_pure]
      constructor
      · intro h
        obtain ⟨rfl, rfl⟩ := h
        exact .inl ⟨t, rfl, hclose, rfl⟩
      · intro h
        rcases h with ⟨_, heq, _, rfl⟩ | ⟨_, heq, ht, _⟩
        · cases heq
          exact ⟨rfl, rfl⟩
        · cases heq
          rw [hclose] at ht
          exact absurd (by decide) ht
    · rw [literalTurn_of_ne hend hclose, reads_advance_pure]
      constructor
      · intro h
        obtain ⟨rfl, rfl⟩ := h
        exact .inr ⟨t, rfl, by simp [hend, hclose], rfl⟩
      · intro h
        rcases h with ⟨_, heq, ht, _⟩ | ⟨_, heq, _, rfl⟩
        · cases heq
          exact absurd ht hclose
        · cases heq
          exact ⟨rfl, rfl⟩

/-- What the loop takes are tokens of a literal block and the one that closes it, and it adds their
texts in order. -/
private theorem literal_of_loops {text text' : String}
    (h : Loops limit literalStep text ts text' rest) :
    ∃ us right, ts = us ++ right :: rest ∧ Literal us ∧ right.kind = .literalClose ∧
      text' = text ++ textOf us := by
  induction h with
  | stop hfound =>
    rcases reads_literalStep.mp hfound with ⟨right, rfl, hright, _⟩ | ⟨_, _, _, hsome⟩
    · exact ⟨[], right, rfl, List.forall_mem_nil _, hright, String.append_empty.symm⟩
    · cases hsome
  | turn hfound _ ih =>
    obtain ⟨us, right, rfl, hus, hright, rfl⟩ := ih
    rcases reads_literalStep.mp hfound with ⟨_, _, _, hnone⟩ | ⟨t, rfl, ht, hsome⟩
    · cases hnone
    · cases hsome
      refine ⟨t :: us, right, rfl, List.forall_mem_cons.mpr ⟨ht, hus⟩, hright, ?_⟩
      rw [textOf, String.append_assoc]

/-- The loop goes through every literal block, by induction over its tokens. -/
private theorem loops_of_literal {us : List Token} {right : Token} (h : Literal us)
    (hright : right.kind = .literalClose) (text : String) :
    Loops limit literalStep text (us ++ right :: rest) (text ++ textOf us) rest := by
  induction us generalizing text with
  | nil =>
    rw [textOf, String.append_empty]
    exact .stop (reads_literalStep.mpr (.inl ⟨right, rfl, hright, rfl⟩))
  | cons t us ih =>
    obtain ⟨ht, hus⟩ := List.forall_mem_cons.mp h
    rw [textOf, ← String.append_assoc]
    exact .turn (reads_literalStep.mpr (.inr ⟨t, rfl, ht, rfl⟩)) (ih hus _)

/-- A literal block gives the texts of the tokens inside it. -/
theorem reads_literalBlock {text : String} (hlen : ts.length < limit) :
    literalBlock.Reads limit ts text rest ↔
      ∃ left us right, ts = left :: (us ++ right :: rest) ∧ left.kind = .literalOpen ∧
        Literal us ∧ right.kind = .literalClose ∧ text = textOf us := by
  have hloops : ∀ {mid : List Token}, mid.length < limit →
      ((iterate literalStep "").Reads limit mid text rest ↔
        Loops limit literalStep "" mid text rest) := by
    intro mid hmid
    refine reads_iterate (fun {text s next r} _ hstep => ?_) hmid
    rcases reads_literalStep.mp hstep with ⟨_, _, _, hnone⟩ | ⟨t, rfl, _⟩
    · cases hnone
    · exact Nat.lt_succ_self _
  rw [literalBlock_eq, reads_expect (by decide)]
  constructor
  · intro h
    obtain ⟨left, us, rfl, hleft, h⟩ := h
    rw [List.length_cons] at hlen
    obtain ⟨us, right, rfl, hus, hright, rfl⟩ := literal_of_loops ((hloops (by omega)).mp h)
    exact ⟨left, us, right, rfl, hleft, hus, hright, String.empty_append⟩
  · intro h
    obtain ⟨left, us, right, rfl, hleft, hus, hright, rfl⟩ := h
    rw [List.length_cons] at hlen
    have hloop : Loops limit literalStep "" (us ++ right :: rest) ("" ++ textOf us) rest :=
      loops_of_literal hus hright ""
    rw [String.empty_append] at hloop
    exact ⟨left, us ++ right :: rest, rfl, hleft, (hloops (by omega)).mpr hloop⟩

end

end Stencil.Derives
