import Stencil.Proofs.CommentExact
import Stencil.Proofs.ConstructExact

/-!
# The template parsers are exact

A block is one of the constructs or an expression, and the first token of its inside tells which. A
body is a list of elements, blocks with the texts, comments and literals between them, up to what
ends it. Bodies stand in the constructs of bodies, and the parser goes down by a depth that the
length of the list bounds.

> `Derives.BodyReader.exact_block`: the inside of a block, construct by construct.
> `Derives.bodyReader_bodyWithin`: the induction over the depth of the bodies.
> `Derives.template_iff`: a list of tokens is parsed as a template if and only if the part of it in
> front of the end of the source derives the items.
-/

namespace Stencil.Derives

open Grammar Parse

section

variable {limit size : Nat} {B : List Token → List Item → List TokenKind → Prop}
  {body : Grammar.Body} {ts rest : List Token} {n : Node}

/-! ## Blocks and bodies -/

/-- The inside of a block that starts with a token of a kind. -/
private def blockFor (body : Grammar.Body) : TokenKind → Parse Node
  | .varWord => varBlock body
  | .macroWord => macroBlock body
  | .forWord => forBlock body
  | .ifWord => ifBlock body
  | .callWord => callBlock body
  | .importWord => importBlock
  | _ => expression >>= fun n => expect .blockClose >>= fun _ => pure n

/-- The kind of the first token decides which parser reads the inside of a block. -/
private theorem reads_block :
    (block body).Reads limit ts n rest ↔ (blockFor body (kindAhead ts)).Reads limit ts n rest := by
  show (match kindAhead ts with
    | .varWord => varBlock body
    | .macroWord => macroBlock body
    | .forWord => forBlock body
    | .ifWord => ifBlock body
    | .callWord => callBlock body
    | .importWord => importBlock
    | _ => expression >>= fun n => expect .blockClose >>= fun _ => pure n).Reads limit ts n rest ↔ _
  cases kindAhead ts <;> exact Iff.rfl

private theorem blockFor_of_startsExpression {k : TokenKind} (hk : startsExpression k = true) :
    blockFor body k = expression >>= fun n => expect .blockClose >>= fun _ => pure n := by
  cases k <;> first | rfl | cases hk

/-- The inside of a block is exact, construct by construct. In the other direction the construct
shows its own first token, so the same parser is chosen. -/
theorem BodyReader.exact_block (h : BodyReader limit size B body) :
    Exact limit size (block body) fun us n _ => Block B us n := by
  intro ts n rest hlen
  have hlimit := h.size_lt
  constructor
  · intro hr
    unfold block at hr
    rw [reads_peek] at hr
    split at hr
    next =>
      obtain ⟨us, rfl, hn⟩ := (h.exact_varBlock hlen).mp hr
      exact ⟨us, rfl, .varBlock hn⟩
    next =>
      obtain ⟨us, rfl, hn⟩ := (h.exact_macroBlock hlen).mp hr
      exact ⟨us, rfl, .macroBlock hn⟩
    next =>
      obtain ⟨us, rfl, hn⟩ := (h.exact_forBlock hlen).mp hr
      exact ⟨us, rfl, .forBlock hn⟩
    next =>
      obtain ⟨us, rfl, hn⟩ := (h.exact_ifBlock hlen).mp hr
      exact ⟨us, rfl, .ifBlock hn⟩
    next =>
      obtain ⟨us, rfl, hn⟩ := (h.exact_callBlock hlen).mp hr
      exact ⟨us, rfl, .callBlock hn⟩
    next =>
      obtain ⟨us, rfl, hn⟩ := (exact_importBlock hlen).mp hr
      exact ⟨us, rfl, .importBlock hn⟩
    next =>
      obtain ⟨us, m, mid, rfl, hn, hr⟩ := (reads_closed (by omega)).mp hr
      obtain ⟨rfl, rfl⟩ := reads_pure.mp hr
      cases hn with
      | mk hn hclose => exact ⟨_, rfl, .expression hn hclose⟩
  · intro hr
    obtain ⟨us, rfl, hn⟩ := hr
    -- the first token of a construct chooses its parser
    have hword : ∀ {k : TokenKind}, kindAhead us = k → k ≠ .eof →
        ((block body).Reads limit (us ++ rest) n rest ↔
          (blockFor body k).Reads limit (us ++ rest) n rest) := by
      intro k hk hend
      rw [reads_block, kindAhead_append (hk ▸ hend), hk]
    cases hn with
    | varBlock hn =>
      exact (hword hn.kindAhead (by decide)).mpr ((h.exact_varBlock hlen).mpr ⟨us, rfl, hn⟩)
    | macroBlock hn =>
      exact (hword hn.kindAhead (by decide)).mpr ((h.exact_macroBlock hlen).mpr ⟨us, rfl, hn⟩)
    | forBlock hn =>
      exact (hword hn.kindAhead (by decide)).mpr ((h.exact_forBlock hlen).mpr ⟨us, rfl, hn⟩)
    | ifBlock hn =>
      exact (hword hn.kindAhead (by decide)).mpr ((h.exact_ifBlock hlen).mpr ⟨us, rfl, hn⟩)
    | callBlock hn =>
      exact (hword hn.kindAhead (by decide)).mpr ((h.exact_callBlock hlen).mpr ⟨us, rfl, hn⟩)
    | importBlock hn =>
      exact (hword hn.kindAhead (by decide)).mpr ((exact_importBlock hlen).mpr ⟨us, rfl, hn⟩)
    | @expression isOpen us n close hn hclose =>
      obtain ⟨t, vs, rfl, ht⟩ := hn.begins
      rw [reads_block]
      show (blockFor body t.kind).Reads limit (t :: vs ++ [close] ++ rest) n rest
      rw [blockFor_of_startsExpression ht]
      exact (reads_closed (by omega)).mpr
        ⟨t :: vs ++ [close], n, rest, rfl, .mk hn hclose, reads_pure.mpr ⟨rfl, rfl⟩⟩

/-- An element of a body that starts with a token of a kind. -/
private def elementFor (body : Grammar.Body) (stops : List TokenKind) (items : List Item) :
    TokenKind → Parse (Option (List Item))
  | .eof => pure none
  | .commentOpen => skipComment >>= fun _ => pure (some items)
  | .literalOpen => literalBlock >>= fun text => pure (some (.text text :: items))
  | .blockOpen => advance >>= fun _ => peek >>= fun t =>
    if stops.contains t.kind = true then pure none
    else accept .blockClose >>= fun closed => if closed = true then pure (some items)
      else block body >>= fun n => pure (some (.node n :: items))
  | .blockClose => advance >>= fun _ => pure (some items)
  | .fragment => advance >>= fun t => pure (some (.text t.text :: items))
  | _ => reject "template text or \"\x7b\x7b\""

/-- The kind ahead decides what a turn of a body does. -/
private theorem reads_bodyStep_kind {stops : List TokenKind} {items : List Item}
    {found : Option (List Item)} :
    (bodyStep body stops items).Reads limit ts found rest ↔
      (elementFor body stops items (kindAhead ts)).Reads limit ts found rest := by
  show (match kindAhead ts with
    | .eof => pure none
    | .commentOpen => skipComment >>= fun _ => pure (some items)
    | .literalOpen => literalBlock >>= fun text => pure (some (.text text :: items))
    | .blockOpen => advance >>= fun _ => peek >>= fun t =>
      if stops.contains t.kind = true then pure none
      else accept .blockClose >>= fun closed => if closed = true then pure (some items)
        else block body >>= fun n => pure (some (.node n :: items))
    | .blockClose => advance >>= fun _ => pure (some items)
    | .fragment => advance >>= fun t => pure (some (.text t.text :: items))
    | _ => reject "template text or \"\x7b\x7b\"" : Parse (Option (List Item))).Reads limit ts
      found rest ↔ _
  cases kindAhead ts <;> exact Iff.rfl

/-- Behind the opening of a block: the end of the body, an empty block, or the inside of a block. -/
private theorem BodyReader.reads_blockElement (h : BodyReader limit size B body)
    {stops : List TokenKind} {items : List Item} {found : Option (List Item)} {left : Token}
    (hlen : ts.length < size) :
    (elementFor body stops items .blockOpen).Reads limit (left :: ts) found rest ↔
      (kindAhead ts ∈ stops ∧ rest = ts ∧ found = none) ∨
        kindAhead ts ∉ stops ∧
          ((∃ right, ts = right :: rest ∧ right.kind = .blockClose ∧ found = some items) ∨
            kindAhead ts ≠ .blockClose ∧ ∃ us n, ts = us ++ rest ∧ Block B us n ∧
              found = some (.node n :: items)) := by
  show (if stops.contains (kindAhead ts) = true then pure none
    else accept .blockClose >>= fun closed => if closed = true then pure (some items)
      else block body >>= fun n => pure (some (.node n :: items))).Reads limit ts found rest ↔ _
  by_cases hstop : kindAhead ts ∈ stops
  · rw [if_pos (List.contains_iff_mem.mpr hstop), reads_pure]
    constructor
    · intro hr
      exact .inl ⟨hstop, hr.2, hr.1⟩
    · intro hr
      rcases hr with ⟨_, hrest, hfound⟩ | ⟨hno, _⟩
      · exact ⟨hfound, hrest⟩
      · exact absurd hstop hno
  · rw [if_neg (fun hmem => hstop (List.contains_iff_mem.mp hmem)), reads_ifAccept (by decide)]
    constructor
    · intro hr
      rcases hr with ⟨right, us, rfl, hright, hr⟩ | ⟨hne, hr⟩
      · obtain ⟨rfl, rfl⟩ := reads_pure.mp hr
        exact .inr ⟨hstop, .inl ⟨right, rfl, hright, rfl⟩⟩
      · obtain ⟨n, mid, hread, hr⟩ := reads_bind.mp hr
        obtain ⟨rfl, rfl⟩ := reads_pure.mp hr
        obtain ⟨us, rfl, hn⟩ := (h.exact_block hlen).mp hread
        exact .inr ⟨hstop, .inr ⟨hne, us, n, rfl, hn, rfl⟩⟩
    · intro hr
      rcases hr with ⟨hmem, _⟩ | ⟨_, ⟨right, rfl, hright, rfl⟩ | ⟨hne, us, n, rfl, hn, rfl⟩⟩
      · exact absurd hmem hstop
      · exact .inl ⟨right, rest, rfl, hright, reads_pure.mpr ⟨rfl, rfl⟩⟩
      · exact .inr ⟨hne, reads_bind.mpr
          ⟨n, rest, (h.exact_block hlen).mpr ⟨us, rfl, hn⟩, reads_pure.mpr ⟨rfl, rfl⟩⟩⟩

/-- One step of a body takes an element, or ends the body. -/
theorem BodyReader.reads_bodyStep (h : BodyReader limit size B body) {stops : List TokenKind}
    (hstops : .blockClose ∉ stops) {items : List Item} {found : Option (List Item)}
    (hlen : ts.length ≤ size) :
    (bodyStep body stops items).Reads limit ts found rest ↔
      (∃ us item, ts = us ++ rest ∧ Element B us item stops ∧
        found = some (item.toList ++ items)) ∨
      (kindAhead ts = .eof ∧ rest = ts ∧ found = none) ∨
      ∃ left, ts = left :: rest ∧ left.kind = .blockOpen ∧ kindAhead rest ∈ stops ∧
        found = none := by
  have hlimit := h.size_lt
  rw [reads_bodyStep_kind]
  constructor
  · intro hr
    generalize hk : kindAhead ts = k at hr
    unfold elementFor at hr
    split at hr
    next =>
      obtain ⟨rfl, rfl⟩ := reads_pure.mp hr
      exact .inr (.inl ⟨rfl, rfl, rfl⟩)
    next =>
      obtain ⟨_, mid, hskip, hr⟩ := reads_bind.mp hr
      obtain ⟨rfl, rfl⟩ := reads_pure.mp hr
      obtain ⟨left, us, right, rfl, hleft, hus, hright⟩ :=
        (reads_skipComment (by omega)).mp hskip
      exact .inl ⟨left :: (us ++ [right]), none, by simp, .comment hleft hus hright, rfl⟩
    next =>
      obtain ⟨text, mid, htext, hr⟩ := reads_bind.mp hr
      obtain ⟨rfl, rfl⟩ := reads_pure.mp hr
      obtain ⟨left, us, right, rfl, hleft, hus, hright, rfl⟩ :=
        (reads_literalBlock (by omega)).mp htext
      exact .inl ⟨left :: (us ++ [right]), some (.text (textOf us)), by simp,
        .literal hleft hus hright, rfl⟩
    next =>
      obtain ⟨left, us, rfl, hleft⟩ := exists_cons_of_kindAhead_eq hk (by decide)
      have hr : (elementFor body stops items .blockOpen).Reads limit (left :: us) found rest := hr
      rcases (h.reads_blockElement hlen).mp hr with
        ⟨hstop, rfl, rfl⟩ | ⟨hstop, ⟨right, rfl, hright, rfl⟩ | ⟨_, vs, n, rfl, hn, rfl⟩⟩
      · exact .inr (.inr ⟨left, rfl, hleft, hstop, rfl⟩)
      · exact .inl ⟨[left, right], none, rfl, .emptyBlock hleft hright, rfl⟩
      · rw [hn.kindAhead_append] at hstop
        exact .inl ⟨left :: vs, some (.node n), rfl, .block hleft hstop hn, rfl⟩
    next =>
      obtain ⟨t, us, rfl, ht⟩ := exists_cons_of_kindAhead_eq hk (by decide)
      obtain ⟨rfl, rfl⟩ := reads_advance_pure.mp hr
      exact .inl ⟨[t], none, rfl, .blockClose ht, rfl⟩
    next =>
      obtain ⟨t, us, rfl, ht⟩ := exists_cons_of_kindAhead_eq hk (by decide)
      obtain ⟨rfl, rfl⟩ := reads_advance_pure.mp hr
      exact .inl ⟨[t], some (.text t.text), rfl, .fragment ht, rfl⟩
    next => exact (reads_reject.mp hr).elim
  · intro hr
    rcases hr with
      ⟨us, item, rfl, helement, rfl⟩ | ⟨hend, rfl, rfl⟩ | ⟨left, rfl, hleft, hstop, rfl⟩
    · cases helement with
      | @fragment t _ ht =>
        rw [List.cons_append, kindAhead_cons, ht]
        exact reads_advance_pure.mpr ⟨rfl, rfl⟩
      | @comment left us right _ hleft hus hright =>
        simp only [List.cons_append, List.append_assoc, List.nil_append, kindAhead_cons, hleft]
          at hlen ⊢
        refine reads_bind.mpr ⟨(), rest, ?_, reads_pure.mpr ⟨rfl, rfl⟩⟩
        exact (reads_skipComment (by omega)).mpr ⟨left, us, right, rfl, hleft, hus, hright⟩
      | @literal left us right _ hleft hus hright =>
        simp only [List.cons_append, List.append_assoc, List.nil_append, kindAhead_cons, hleft]
          at hlen ⊢
        refine reads_bind.mpr ⟨textOf us, rest, ?_, reads_pure.mpr ⟨rfl, rfl⟩⟩
        exact (reads_literalBlock (by omega)).mpr ⟨left, us, right, rfl, hleft, hus, hright, rfl⟩
      | @emptyBlock left right _ hleft hright =>
        simp only [List.cons_append, List.nil_append, kindAhead_cons, hleft] at hlen ⊢
        -- the body does not stop in front of the closing of a block, so that the block is empty
        refine (h.reads_blockElement hlen).mpr (.inr ⟨?_, .inl ⟨right, rfl, hright, rfl⟩⟩)
        rw [kindAhead_cons, hright]
        exact hstops
      | @blockClose t _ ht =>
        rw [List.cons_append, kindAhead_cons, ht]
        exact reads_advance_pure.mpr ⟨rfl, rfl⟩
      | @block left us n _ hleft hstop hn =>
        simp only [List.cons_append, kindAhead_cons, hleft] at hlen ⊢
        refine (h.reads_blockElement hlen).mpr (.inr ⟨?_, .inr ⟨?_, us, n, rfl, hn, rfl⟩⟩)
        · rwa [hn.kindAhead_append]
        · rw [hn.kindAhead_append]
          exact hn.kindAhead_ne rfl
    · rw [hend]
      exact reads_pure.mpr ⟨rfl, rfl⟩
    · rw [kindAhead_cons, hleft]
      exact (h.reads_blockElement hlen).mpr (.inl ⟨hstop, rfl, rfl⟩)

/-- The turns of a body read elements, and the items are gathered in front of those already there.
-/
private theorem BodyReader.elements_of_loops (h : BodyReader limit size B body)
    {stops : List TokenKind} (hstops : .blockClose ∉ stops) {acc result : List Item}
    (hloop : Loops limit (bodyStep body stops) acc ts result rest) (hlen : ts.length ≤ size) :
    ∃ us vs items, ts = us ++ (vs ++ rest) ∧ Elements B us items stops ∧
      result = items.reverse ++ acc ∧
      ((vs = [] ∧ kindAhead rest = .eof) ∨
        ∃ left, vs = [left] ∧ left.kind = .blockOpen ∧ kindAhead rest ∈ stops) := by
  induction hloop with
  | stop hfound =>
    rcases (h.reads_bodyStep hstops hlen).mp hfound with
      ⟨_, _, _, _, hsome⟩ | ⟨hend, rfl, _⟩ | ⟨left, rfl, hleft, hstop, _⟩
    · cases hsome
    · exact ⟨[], [], [], rfl, .nil, rfl, .inl ⟨rfl, hend⟩⟩
    · exact ⟨[], [left], [], rfl, .nil, rfl, .inr ⟨left, rfl, hleft, hstop⟩⟩
  | turn hfound _ ih =>
    rcases (h.reads_bodyStep hstops hlen).mp hfound with
      ⟨us, item, rfl, helement, hsome⟩ | ⟨_, _, hnone⟩ | ⟨_, _, _, _, hnone⟩
    · cases hsome
      rw [List.length_append] at hlen
      obtain ⟨us', vs, items, rfl, helements, rfl, hends⟩ := ih (by omega)
      refine ⟨us ++ us', vs, item.toList ++ items, by simp, .cons helement helements, ?_, hends⟩
      cases item <;> simp
    · cases hnone
    · cases hnone

/-- The loop reads all elements of a body, by induction over their list. -/
private theorem BodyReader.loops_of_elements (h : BodyReader limit size B body)
    {stops : List TokenKind} (hstops : .blockClose ∉ stops) {us : List Token} {items : List Item}
    (helements : Elements B us items stops) (hlen : (us ++ ts).length ≤ size)
    {acc result : List Item}
    (hloop : Loops limit (bodyStep body stops) (items.reverse ++ acc) ts result rest) :
    Loops limit (bodyStep body stops) acc (us ++ ts) result rest := by
  -- the items before these are in the accumulator already, the last one first
  induction helements generalizing acc with
  | nil => exact hloop
  | @cons us item vs items stops helement _ ih =>
    rw [List.append_assoc] at hlen ⊢
    refine .turn ((h.reads_bodyStep hstops hlen).mpr
      (.inl ⟨us, item, rfl, helement, rfl⟩)) (ih hstops ?_ ?_)
    · rw [List.length_append] at hlen
      omega
    · cases item with
      | none => exact hloop
      | some i => simpa using hloop

theorem Element.ne_nil {us : List Token} {item : Option Item} {stops : List TokenKind}
    (h : Element B us item stops) : us ≠ [] := by
  cases h <;> exact List.cons_ne_nil _ _

/-- One more layer of bodies. -/
theorem BodyReader.exact_body (h : BodyReader limit size B body) {stops : List TokenKind}
    (hstops : .blockClose ∉ stops) :
    Exact limit (size + 1)
      (iterate (bodyStep body stops) [] >>= fun items => pure items.reverse) fun us items k =>
        Elements B us items stops ∧ k = .eof ∨ Inner (Elements B) us items stops ∧ k ∈ stops := by
  intro ts items rest hlen
  have hlimit := h.size_lt
  have hloops : ∀ {result : List Item} {r : List Token},
      (iterate (bodyStep body stops) []).Reads limit ts result r ↔
        Loops limit (bodyStep body stops) [] ts result r := by
    intro result r
    refine reads_iterate (fun {acc s next mid} hs hstep => ?_) (by omega)
    rcases (h.reads_bodyStep hstops (by omega)).mp hstep with
      ⟨us, item, rfl, helement, _⟩ | ⟨_, _, hnone⟩ | ⟨_, _, _, _, hnone⟩
    · -- an element has tokens, so the loop ends before its fuel does
      have hpos := List.length_pos_iff.mpr helement.ne_nil
      rw [List.length_append]
      omega
    · cases hnone
    · cases hnone
  rw [reads_bind]
  constructor
  · intro hr
    obtain ⟨result, mid, hloop, hr⟩ := hr
    obtain ⟨rfl, rfl⟩ := reads_pure.mp hr
    obtain ⟨us, vs, items, rfl, helements, rfl, hends⟩ :=
      h.elements_of_loops hstops (hloops.mp hloop) (by omega)
    rw [List.append_nil, List.reverse_reverse]
    rcases hends with ⟨rfl, hend⟩ | ⟨left, rfl, hleft, hstop⟩
    · exact ⟨us, rfl, .inl ⟨helements, hend⟩⟩
    · exact ⟨us ++ [left], by simp, .inr ⟨.mk helements hleft, hstop⟩⟩
  · intro hr
    obtain ⟨us, rfl, hbody⟩ := hr
    refine ⟨items.reverse, rest, hloops.mpr ?_, reads_pure.mpr ⟨by simp, rfl⟩⟩
    rcases hbody with ⟨helements, hend⟩ | ⟨hinner, hstop⟩
    · -- the end of the source ends the loop and is left
      have hstep : (bodyStep body stops items.reverse).Reads limit rest none rest := by
        rw [List.length_append] at hlen
        exact (h.reads_bodyStep hstops (by omega)).mpr (.inr (.inl ⟨hend, rfl, rfl⟩))
      refine h.loops_of_elements hstops helements (by omega) ?_
      rw [List.append_nil]
      exact .stop hstep
    · cases hinner with
      | @mk us _ _ left helements hleft =>
        rw [List.append_assoc] at hlen ⊢
        -- the opening of the block that ends the body is taken, and the word in it is left
        have hstep : (bodyStep body stops items.reverse).Reads limit (left :: rest) none rest := by
          rw [List.length_append] at hlen
          exact (h.reads_bodyStep hstops (by simp at hlen ⊢; omega)).mpr
            (.inr (.inr ⟨left, rfl, hleft, hstop, rfl⟩))
        refine h.loops_of_elements hstops helements (by omega) ?_
        rw [List.append_nil]
        exact .stop hstep

end

/-- The body of a construct is a list of elements in front of the opening of a block. -/
theorem inner_body_iff {us : List Token} {items : List Item} {stops : List TokenKind} :
    Inner Body us items stops ↔ Inner (Elements Body) us items stops := by
  constructor
  · intro h
    cases h with
    | mk h hleft => exact .mk (body_iff.mp h) hleft
  · intro h
    cases h with
    | mk h hleft => exact .mk (body_iff.mpr h) hleft

/-- The induction over the depth: the bodies inside a body stand on lists with fewer tokens. -/
theorem bodyReader_bodyWithin {limit : Nat} : ∀ {depth : Nat}, depth < limit →
    BodyReader limit depth Body (bodyWithin depth) := by
  intro depth
  induction depth with
  | zero =>
    intro hlimit
    exact ⟨fun _ ts items rest hlen => absurd hlen (Nat.not_lt_zero _), hlimit⟩
  | succ depth ih =>
    intro hlimit
    refine ⟨fun hstops ts items rest hlen => ?_, hlimit⟩
    simp only [body_iff, inner_body_iff]
    exact (ih (by omega)).exact_body hstops hlen

/-- A template is read up to the end of the source. -/
theorem reads_template {limit : Nat} {ts rest : List Token} {items : List Item}
    (hlen : ts.length < limit) :
    template.Reads limit ts items rest ↔
      ∃ us, ts = us ++ rest ∧ Body us items [] ∧ kindAhead rest = .eof := by
  cases limit with
  | zero => exact absurd hlen (Nat.not_lt_zero _)
  | succ depth =>
    have hbody : template.Reads (depth + 1) ts items rest ↔
        ∃ us, ts = us ++ rest ∧ (Elements Body us items [] ∧ kindAhead rest = .eof ∨
          Inner (Elements Body) us items [] ∧ kindAhead rest ∈ []) :=
      (bodyReader_bodyWithin (Nat.lt_succ_self depth)).exact_body List.not_mem_nil hlen
    rw [hbody]
    constructor
    · intro h
      obtain ⟨us, rfl, ⟨helements, hend⟩ | ⟨_, hstop⟩⟩ := h
      · exact ⟨us, rfl, body_iff.mpr helements, hend⟩
      · exact absurd hstop List.not_mem_nil
    · intro h
      obtain ⟨us, rfl, hus, hend⟩ := h
      exact ⟨us, rfl, .inl ⟨body_iff.mp hus, hend⟩⟩

/-- A list of tokens is parsed as a template if and only if the part of it in front of the end of
the source derives the items. -/
theorem template_iff (ts : List Token) (items : List Item) :
    (∃ rest, runTokens template ts = .ok (items, rest)) ↔ Body (beforeEnd ts) items [] := by
  constructor
  · intro h
    obtain ⟨rest, hrun⟩ := h
    obtain ⟨us, heq, hbody, hend⟩ := (reads_template (Nat.lt_succ_self _)).mp hrun
    rw [heq, beforeEnd_append hbody.noEnd hend]
    exact hbody
  · intro hbody
    obtain ⟨rest, heq, hend⟩ := exists_beforeEnd ts
    exact ⟨rest, (reads_template (Nat.lt_succ_self _)).mpr ⟨beforeEnd ts, heq, hbody, hend⟩⟩

end Stencil.Derives
