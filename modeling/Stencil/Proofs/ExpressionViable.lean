import Stencil.Proofs.ExpressionExact
import Stencil.Proofs.Refusal

/-!
# The expression parsers refuse in time

Whenever a parser of expressions refuses a token, the tokens in front of it can be completed to an
expression. The lemmas go level by level, as in `Stencil.Proofs.ExpressionExact`: what the level has
read so far is known because its parts are exact, and what is missing is an operand, a name or a
closing bracket. A call of what is no path and a map key that is none are refused in front of the
bracket and the colon, where the tokens before them are complete already.

> `Derives.refusesAfter_expression`: the parser of expressions.
> `Derives.refusesAfter_bareExpression`: the parser of bare expressions.
-/

namespace Stencil.Derives

open Grammar Parse

/-- The parser of whole expressions is exact, and what it has taken when it refuses can become an
expression. -/
structure Completer (limit size : Nat) (E : Bool → List Token → Node → Prop) (e : Parse Node) :
    Prop extends Reader limit size E e where
  refusesAfter : ∀ {ts : List Token}, ts.length < size →
    e.RefusesAfter limit (Viable (Part E)) ts
  viable_nil : Viable (Part E) []

section

variable {limit size : Nat} {E : Bool → List Token → Node → Prop} {e : Parse Node}
  {ts us : List Token} {V : List Token → Prop} {β : Type}

/-- An expression up to a closing token. -/
theorem Completer.refusesAfter_upTo (h : Completer limit size E e) {close : TokenKind}
    (hclose : close ≠ .eof) {f : Node → Parse β} (hlen : ts.length < size)
    (hV : ∀ {us}, Viable (Part E) us → V us)
    (hf : ∀ n us c mid, ts = us ++ c :: mid → Part E us n → c.kind = close →
      (f n).RefusesAfter limit (fun vs => V (us ++ c :: vs)) mid) :
    (e >>= fun n => expect close >>= fun _ => f n).RefusesAfter limit V ts := by
  refine refusesAfter_bind ((h.refusesAfter hlen).imp fun _ => hV) fun n us mid hts hread => ?_
  obtain ⟨isOpen, hE, _⟩ := h.exact.derives hlen hread hts
  refine refusesAfter_expect hclose ?_ fun c rest hmid hc => ?_
  · rw [List.append_nil]
    exact hV (viable_of_derives (.mk hE))
  · subst hmid
    exact hf n us c rest hts (.mk hE) hc

/-! ## Simple expressions -/

/-- A map entry: an expression that is no key is refused at its colon, where it is an entry already.
-/
theorem Completer.refusesAfter_mapEntry (h : Completer limit size E e) (hlen : ts.length < size) :
    (mapEntry e).RefusesAfter limit (Viable (MapEntry E)) ts := by
  have hplain : ∀ {us : List Token}, Viable (Part E) us → Viable (MapEntry E) us := by
    intro us hus
    refine hus.imp fun hpart => ?_
    obtain ⟨hE⟩ := hpart
    exact viable_of_derives (.plain hE)
  unfold mapEntry
  refine refusesAfter_bind ((h.refusesAfter hlen).imp fun _ => hplain) fun n us mid hts hread => ?_
  obtain ⟨isOpen, hE, hends⟩ := h.exact.derives hlen hread hts
  subst hts
  refine refusesAfter_ifNext (fun hnext => ?_) fun _ => refusesAfter_pure
  obtain ⟨colon, mid, rfl, hcolon⟩ := exists_cons_of_kindAhead_eq hnext (by decide)
  rw [kindAhead_cons, hcolon, ends_colon] at hends
  subst hends
  rw [if_pos rfl]
  cases hkey : mapKey? n with
  | none =>
    -- the colon is refused, and the entry in front of it is complete
    refine refusesAfter_reject ?_
    rw [List.append_nil]
    exact hplain (viable_of_derives (.mk hE))
  | some key =>
    rw [List.length_append, List.length_cons] at hlen
    refine refusesAfter_advance (refusesAfter_bind_pure ?_)
    refine (h.refusesAfter (by omega)).imp fun vs hvs => ?_
    obtain ⟨ws, m, ⟨hE'⟩⟩ := hvs
    exact ⟨ws, _, by simpa using MapEntry.keyed hE hkey hcolon hE'⟩

theorem viable_simple_nil : Viable (Simple E) [] :=
  ⟨[.ofKind .identifier], _, .leaf (.name List.mem_cons_self)⟩

/-- A map behind its bracket lacks entries, or no more than the closing bracket. -/
theorem Completer.refusesAfter_mapLiteral (h : Completer limit size E e) {left : Token}
    (hleft : left.kind = .leftBracket) (hlen : ts.length < size) :
    (mapLiteral e).RefusesAfter limit (fun us => Viable (Simple E) (left :: us)) ts := by
  have hentries : ∀ {us : List Token}, Viable (Separated .comma (MapEntry E)) us →
      Viable (Simple E) (left :: us) := by
    intro us hus
    obtain ⟨vs, entries, hvs⟩ := hus
    refine ⟨vs ++ [.ofKind .rightBracket], .map entries, ?_⟩
    simpa using Simple.map hleft hvs (Token.kind_ofKind .rightBracket)
  have hplain : ∀ {us : List Token} {entry : Entry} {k : TokenKind}, EntryBefore E k us entry →
      MapEntry E us entry := by
    intro us entry k hentry
    cases hentry with
    | plain hE => exact .plain hE
    | keyed hE hkey hcolon hE' => exact .keyed hE hkey hcolon hE'
  unfold mapLiteral
  refine refusesAfter_ifAccept (by decide) (fun _ _ _ _ => refusesAfter_pure) fun _ => ?_
  exact refusesAfter_commaList (by decide) h.exact_mapEntry hplain h.refusesAfter_mapEntry hlen
    (Nat.le_of_lt h.size_lt) hentries fun _ _ _ _ _ _ _ _ => refusesAfter_pure

/-- Simple expressions, kind by kind. Each bracket that has been opened can be closed. -/
theorem Completer.refusesAfter_simple (h : Completer limit size E e)
    (hlen : ts.length < size + 1) : (simple e).RefusesAfter limit (Viable (Simple E)) ts := by
  unfold simple
  refine refusesAfter_peek ?_
  cases ts with
  | nil => exact refusesAfter_reject viable_simple_nil
  | cons t ts =>
    rw [List.headD_cons]
    rw [List.length_cons] at hlen
    have hleaf : ∀ n : Node, (leaf n).RefusesAfter limit (Viable (Simple E)) (t :: ts) :=
      fun _ => refusesAfter_advance refusesAfter_pure
    split
    case h_4 | h_5 =>
      -- a number that cannot be read is refused before it is taken
      split
      · exact hleaf _
      · exact refusesAfter_reject viable_simple_nil
    case h_11 hk => exact refusesAfter_advance (h.refusesAfter_mapLiteral hk (by omega))
    case h_12 hk =>
      refine refusesAfter_advance (h.refusesAfter_upTo (by decide) (by omega) ?_ ?_)
      · intro us hus
        obtain ⟨vs, n, ⟨hE⟩⟩ := hus
        refine ⟨vs ++ [.ofKind .rightParen], n, ?_⟩
        simpa using Simple.group hk hE (Token.kind_ofKind .rightParen)
      · exact fun _ _ _ _ _ _ _ => refusesAfter_pure
    case h_13 => exact refusesAfter_reject viable_simple_nil
    all_goals exact hleaf _

/-! ## Chains -/

/-- The arguments of a call behind their bracket. -/
theorem Completer.refusesAfter_arguments (h : Completer limit size E e) (hlen : ts.length < size)
    (hV : ∀ {us}, Viable (Arguments E) us → V us) :
    (arguments e).RefusesAfter limit V ts := by
  have hpart : ∀ {us : List Token} {n : Node} {k : TokenKind},
      (∃ isOpen, E isOpen us n ∧ Ends isOpen k) → Part E us n := by
    intro us n k hn
    obtain ⟨isOpen, hE, _⟩ := hn
    exact .mk hE
  unfold arguments
  refine refusesAfter_ifAccept (by decide) (fun _ _ _ _ => refusesAfter_pure) fun _ => ?_
  refine refusesAfter_commaList (by decide) h.exact hpart h.refusesAfter hlen
    (Nat.le_of_lt h.size_lt) (fun hus => hV ?_) fun _ _ _ _ _ _ _ _ => refusesAfter_pure
  exact hus.imp fun hargs => viable_of_derives (.some hargs)

theorem viable_postfix_nil {n : Node} : Viable (Postfix E n) [] :=
  ⟨[.ofKind .dot, .ofKind .identifier], _, .property rfl rfl⟩

/-- Behind a point a word is missing, and nothing has been taken. -/
theorem refusesAfter_propertyName (hV : V []) : propertyName.RefusesAfter limit V ts := by
  unfold propertyName
  refine refusesAfter_peek ?_
  split
  next hword =>
    cases ts with
    | nil => cases hword
    | cons t ts => exact refusesAfter_advance refusesAfter_pure
  next => exact refusesAfter_reject hV

/-- A call: only a path can be called, and any other callee is refused with the bracket still to
come. -/
theorem Completer.refusesAfter_call (h : Completer limit size E e) {callee : Node}
    (hlen : ts.length ≤ size) :
    (call e callee).RefusesAfter limit (Viable (Postfix E callee)) ts := by
  unfold call
  split
  next path =>
    split
    next name hname =>
      obtain ⟨path, rfl⟩ := List.getLast?_eq_some_iff.mp hname
      refine refusesAfter_expect (by decide) viable_postfix_nil fun left us hts hleft => ?_
      subst hts
      rw [List.length_cons] at hlen
      refine refusesAfter_bind_pure (h.refusesAfter_arguments (by omega) fun {vs} hvs => ?_)
      obtain ⟨ws, args, hws⟩ := hvs
      refine ⟨ws ++ [.ofKind .rightParen], .call (target path) name args, ?_⟩
      simpa using Postfix.call hleft hws (Token.kind_ofKind .rightParen)
    next => exact refusesAfter_reject viable_postfix_nil
  next => exact refusesAfter_reject viable_postfix_nil

/-- Where no step can be completed, there is always a property. -/
theorem Completer.refusesAfter_postfixStep (h : Completer limit size E e) {n : Node}
    (hlen : ts.length ≤ size) :
    (postfixStep e n).RefusesAfter limit (Viable (Postfix E n)) ts := by
  unfold postfixStep
  refine refusesAfter_ifAccept (by decide) (fun dot us _ hdot => ?_) fun _ => ?_
  · refine refusesAfter_bind_pure (refusesAfter_propertyName ?_)
    exact ⟨[.ofKind .identifier], _, .property hdot rfl⟩
  refine refusesAfter_ifAccept (by decide) (fun left us hts hleft => ?_) fun _ => ?_
  · subst hts
    rw [List.length_cons] at hlen
    have hindex : ∀ {vs : List Token}, Viable (Part E) vs → Viable (Postfix E n) (left :: vs) := by
      intro vs hvs
      obtain ⟨ws, i, ⟨hE⟩⟩ := hvs
      refine ⟨ws ++ [.ofKind .rightBracket], n.step (.expr i), ?_⟩
      simpa using Postfix.index hleft hE (Token.kind_ofKind .rightBracket)
    refine refusesAfter_ifNext (fun _ => ?_) fun _ => ?_
    · refine refusesAfter_bind (refusesAfter_reject ?_) fun _ _ _ _ hread => ?_
      · exact hindex h.viable_nil
      · cases hread
    · exact h.refusesAfter_upTo (by decide) (by omega) hindex fun _ _ _ _ _ _ _ => refusesAfter_pure
  refine refusesAfter_ifNext (fun _ => ?_) fun _ => refusesAfter_pure
  exact refusesAfter_bind_pure (h.refusesAfter_call hlen)

/-- Steps, behind the simple expression at the front. -/
theorem Completer.refusesAfter_chain (h : Completer limit size E e) {f : Node → β}
    (hlen : ts.length < size + 1) :
    (simple e >>= fun first => iterate (postfixStep e) first >>= fun n => pure (f n)).RefusesAfter
      limit (Viable (Chain E)) ts := by
  have hfirst : (simple e).RefusesAfter limit (Viable (Chain E)) ts :=
    (h.refusesAfter_simple hlen).imp fun us hus => hus.imp fun hn => viable_of_derives (.simple hn)
  refine refusesAfter_bind hfirst fun first us mid hts hread => ?_
  have hus : Simple E us first := h.exact_simple.derives hlen hread hts
  have hmid : ∀ {vs rest : List Token}, mid = vs ++ rest → rest.length ≤ size := by
    intro vs rest hrest
    have hle := congrArg List.length (hts.trans (congrArg (us ++ ·) hrest))
    simp only [List.length_append] at hle
    omega
  -- a chain has been read in front of every turn
  refine refusesAfter_bind_pure (refusesAfter_iterate (fun n vs => Chain E (us ++ vs) n) ?_ ?_ ?_)
  · rw [List.append_nil]
    exact .simple hus
  · intro n vs rest hrest hchain
    refine (h.refusesAfter_postfixStep (hmid hrest)).imp fun ws hws => ?_
    obtain ⟨xs, m, hm⟩ := hws
    exact ⟨xs, m, by simpa using Chain.step hchain hm⟩
  · intro n m vs ws rest hrest hchain hread
    rcases (h.reads_postfixStep (hmid hrest)).mp hread with ⟨xs, m', hxs, hm, hsome⟩ | ⟨_, _, hsome⟩
    · cases hsome
      obtain rfl : ws = xs := List.append_cancel_right hxs
      simpa using Chain.step hchain hm
    · cases hsome

/-! ## Signs and negations -/

/-- An operand with a negation in front of it, or without. -/
theorem Completer.refusesAfter_primary (h : Completer limit size E e)
    (hlen : ts.length < size + 1) : (primary e).RefusesAfter limit (Viable (Primary E)) ts := by
  unfold primary
  refine refusesAfter_ifAccept (by decide) (fun minus us hts hminus => ?_) fun _ => ?_
  · subst hts
    rw [List.length_cons] at hlen
    refine (h.refusesAfter_chain (by omega)).imp fun vs hvs => ?_
    obtain ⟨ws, n, hn⟩ := hvs
    exact ⟨ws, _, .negated hminus hn⟩
  · exact (h.refusesAfter_chain hlen).imp fun us hus =>
      hus.imp fun hn => viable_of_derives (.plain hn)

/-- Signs in a row, by induction over how many there may be. -/
private theorem Completer.refusesAfter_unaryUpTo (h : Completer limit size E e) {fuel : Nat}
    (hlen : ts.length < size + 1) :
    (unaryUpTo (primary e) fuel).RefusesAfter limit (Viable (Unary E)) ts := by
  have hprimary : ∀ {s : List Token}, s.length < size + 1 →
      (primary e).RefusesAfter limit (Viable (Unary E)) s := by
    intro s hs
    exact (h.refusesAfter_primary hs).imp fun us hus =>
      hus.imp fun hn => viable_of_derives (.primary hn)
  induction fuel generalizing ts with
  | zero => exact hprimary hlen
  | succ fuel ih =>
    unfold unaryUpTo
    refine refusesAfter_ifAccept (by decide) (fun t us hts ht => ?_) fun _ => ?_
    · subst hts
      rw [List.length_cons] at hlen
      refine refusesAfter_bind_pure ((ih (by omega)).imp fun vs hvs => ?_)
      obtain ⟨ws, n, hn⟩ := hvs
      exact ⟨ws, _, .not ht hn⟩
    refine refusesAfter_ifAccept (by decide) (fun t us hts ht => ?_) fun _ => hprimary hlen
    subst hts
    rw [List.length_cons] at hlen
    refine (ih (by omega)).imp fun vs hvs => ?_
    obtain ⟨ws, n, hn⟩ := hvs
    exact ⟨ws, _, .plus ht hn⟩

theorem Completer.refusesAfter_unary (h : Completer limit size E e) (hlen : ts.length < size + 1) :
    (unary (primary e)).RefusesAfter limit (Viable (Unary E)) ts :=
  h.refusesAfter_unaryUpTo hlen

/-! ## Operators with two operands -/

/-- The operator of a level, if one of them follows. -/
theorem refusesAfter_acceptOperator {ops : Operators} (hops : ops.lookup .eof = none)
    {f : Option BinaryOp → Parse β}
    (hsome : ∀ t us op, ts = t :: us → ops.lookup t.kind = some op →
      (f (some op)).RefusesAfter limit (fun vs => V (t :: vs)) us)
    (hnone : (f none).RefusesAfter limit V ts) :
    (acceptOperator ops >>= f).RefusesAfter limit V ts := by
  unfold acceptOperator
  refine refusesAfter_bind_assoc (refusesAfter_peek ?_)
  cases ts with
  | nil =>
    have hhead : ops.lookup (([] : List Token).headD Token.eof).kind = none := hops
    rw [hhead]
    exact hnone
  | cons t us =>
    rw [List.headD_cons]
    cases hop : ops.lookup t.kind with
    | none => exact hnone
    | some op => exact refusesAfter_bind_assoc (refusesAfter_advance (hsome t us op rfl hop))

/-- A level of operators lacks an operand behind its last operator. The loop over the operators
keeps that what was read is an operation of this level. -/
theorem refusesAfter_binaryLevel {ops : Operators} {tighter : List Operators}
    {operand : Parse Node} (hops : ops.lookup .eof = none)
    (hexact : Exact limit (size + 1) operand fun us n k =>
      Binary E tighter us n ∧ continues tighter k = false)
    (hoperand : ∀ {s : List Token}, s.length < size + 1 →
      operand.RefusesAfter limit (Viable (Binary E tighter)) s) (hlen : ts.length < size + 1) :
    (binaryLevel ops operand).RefusesAfter limit (Viable (Binary E (ops :: tighter))) ts := by
  have hfirst : operand.RefusesAfter limit (Viable (Binary E (ops :: tighter))) ts :=
    (hoperand hlen).imp fun us hus => hus.imp fun hn => viable_of_derives (.operand hn)
  unfold binaryLevel
  refine refusesAfter_bind hfirst fun first us mid hts hread => ?_
  obtain ⟨hus, _⟩ := hexact.derives hlen hread hts
  have hmid : ∀ {vs rest : List Token} {t : Token}, mid = vs ++ t :: rest →
      rest.length < size + 1 := by
    intro vs rest t hrest
    have hle := congrArg List.length (hts.trans (congrArg (us ++ ·) hrest))
    simp only [List.length_append, List.length_cons] at hle
    omega
  refine refusesAfter_iterate (fun n vs => Binary E (ops :: tighter) (us ++ vs) n) ?_ ?_ ?_
  · rw [List.append_nil]
    exact .operand hus
  · intro left vs rest hrest hleft
    refine refusesAfter_acceptOperator hops (fun t xs op hxs hop => ?_) refusesAfter_pure
    subst hxs
    refine refusesAfter_bind_pure ((hoperand (hmid hrest)).imp fun ws hws => ?_)
    obtain ⟨ys, right, hright⟩ := hws
    exact ⟨ys, .binary op left right, by simpa using Binary.operation hleft hop hright⟩
  · intro left n vs ws rest hrest hleft hread
    rcases (reads_acceptOperator hops).mp hread with ⟨t, xs, op, hxs, hop, hr⟩ | ⟨_, hr⟩
    · obtain ⟨right, r, hright, hr⟩ := reads_bind.mp hr
      obtain ⟨hn, rfl⟩ := reads_pure.mp hr
      cases hn
      rw [hxs] at hrest
      obtain ⟨ys, rfl, hys, _⟩ := (hexact (hmid hrest)).mp hright
      obtain rfl : ws = t :: ys := List.append_cancel_right hxs
      simpa using Binary.operation hleft hop hys
    · obtain ⟨hnone, _⟩ := reads_pure.mp hr
      cases hnone

/-- All levels of operators, one above the other. -/
theorem Completer.refusesAfter_levels (h : Completer limit size E e) {ls : List Operators}
    (hls : Apart ls) (hlen : ts.length < size + 1) :
    (ls.foldr binaryLevel (unary (primary e))).RefusesAfter limit (Viable (Binary E ls)) ts := by
  induction ls generalizing ts with
  | nil =>
    exact (h.refusesAfter_unary hlen).imp fun us hus =>
      hus.imp fun hn => viable_of_derives (.unary hn)
  | cons ops ls ih =>
    have hops : ops.lookup .eof = none := by
      cases hop : ops.lookup .eof with
      | none => rfl
      | some op => exact absurd rfl (hls.1 .eof (by rw [hop]; rfl)).2
    exact refusesAfter_binaryLevel hops (exact_levels h.size_lt h.exact_unary hls.2) (ih hls.2) hlen

/-! ## Choices and whole expressions -/

/-- A choice: behind the question mark, and then behind the colon, another part is missing. -/
theorem Completer.refusesAfter_ternary (h : Completer limit size E e)
    (hlen : ts.length < size + 1) :
    (ternary e).RefusesAfter limit (Viable fun us n => ∃ isOpen, Ternary E isOpen us n) ts := by
  have hcondition : (binaryLevels (unary (primary e))).RefusesAfter limit
      (Viable fun us n => ∃ isOpen, Ternary E isOpen us n) ts :=
    (h.refusesAfter_levels apart_levels hlen).imp fun us hus =>
      hus.imp fun hn => viable_of_derives ⟨false, .plain hn⟩
  have hexact : Exact limit (size + 1) (binaryLevels (unary (primary e))) fun us n k =>
      Binary E levels us n ∧ continues levels k = false :=
    exact_levels h.size_lt h.exact_unary apart_levels
  unfold ternary
  refine refusesAfter_bind hcondition fun c us mid hts hread => ?_
  obtain ⟨hc, _⟩ := hexact.derives hlen hread hts
  subst hts
  refine refusesAfter_ifAccept (by decide) (fun question s hs hquestion => ?_) fun _ =>
    refusesAfter_pure
  subst hs
  rw [List.length_append, List.length_cons] at hlen
  have hpositive : e.RefusesAfter limit
      (fun vs => Viable (fun us n => ∃ isOpen, Ternary E isOpen us n) (us ++ question :: vs))
      s := by
    refine (h.refusesAfter (by omega)).imp fun vs hvs => ?_
    obtain ⟨ws, p, ⟨hp⟩⟩ := hvs
    exact ⟨ws, _, true, by simpa using Ternary.short hc hquestion hp⟩
  refine refusesAfter_bind hpositive fun p vs mid hs hread => ?_
  obtain ⟨isOpen, hp, hends⟩ := h.exact.derives (by omega) hread hs
  subst hs
  refine refusesAfter_ifAccept (by decide) (fun colon r hr hcolon => ?_) fun _ => refusesAfter_pure
  subst hr
  -- the colon belongs to this choice, so the branch before it is closed
  rw [kindAhead_cons, hcolon, ends_colon] at hends
  subst hends
  rw [List.length_append, List.length_cons] at hlen
  refine refusesAfter_bind_pure ((h.refusesAfter (by omega)).imp fun ws hws => ?_)
  obtain ⟨xs, n, ⟨hn⟩⟩ := hws
  exact ⟨xs, _, _, by simpa using Ternary.full hc hquestion hp hcolon hn⟩

/-- An operand is an operation of every level. -/
theorem binary_of_unary {n : Node} (h : Unary E us n) (ls : List Operators) :
    Binary E ls us n := by
  induction ls with
  | nil => exact .unary h
  | cons ops ls ih => exact .operand ih

end

/-- What no operator with two operands is applied to is an expression by itself. -/
theorem expression_of_unary {us : List Token} {n : Node} (h : Unary Expression us n) :
    Expression false us n :=
  .mk (.plain (binary_of_unary h levels))

/-- A name is an expression. -/
theorem viable_expression_nil : Viable (Part Expression) [] := by
  obtain ⟨us, n, hn⟩ : Viable (Simple Expression) [] := viable_simple_nil
  exact ⟨us, n, .mk (expression_of_unary (.primary (.plain (.simple hn))))⟩

theorem viable_part {us : List Token}
    (h : Viable (fun us n => ∃ isOpen, Ternary Expression isOpen us n) us) :
    Viable (Part Expression) us := by
  obtain ⟨vs, n, isOpen, hn⟩ := h
  exact ⟨vs, n, .mk (.mk hn)⟩

/-- The induction over the depth, as for `reader_expressionWithin`. -/
theorem completer_expressionWithin {limit depth : Nat} (h : depth < limit) :
    Completer limit depth Expression (expressionWithin depth) := by
  induction depth with
  | zero =>
    refine ⟨reader_expressionWithin h, fun hlen => ?_, viable_expression_nil⟩
    exact absurd hlen (Nat.not_lt_zero _)
  | succ depth ih =>
    refine ⟨reader_expressionWithin h, fun hlen => ?_, viable_expression_nil⟩
    exact ((ih (by omega)).refusesAfter_ternary hlen).imp fun _ => viable_part

/-- **The parser of expressions refuses in time**: the tokens in front of the one that it refuses
can be completed to an expression. -/
theorem refusesAfter_expression {limit : Nat} {ts : List Token} (hlen : ts.length < limit) :
    expression.RefusesAfter limit (Viable (Part Expression)) ts := by
  cases limit with
  | zero => exact absurd hlen (Nat.not_lt_zero _)
  | succ depth =>
    have hwithin := (completer_expressionWithin (Nat.lt_succ_self depth)).refusesAfter_ternary hlen
    exact hwithin.imp fun _ => viable_part

/-- Whole expressions are exact and refuse in time, within every bound. -/
theorem completer_expression {limit size : Nat} (h : size < limit) :
    Completer limit size Expression expression :=
  ⟨reader_expression h, fun hlen => refusesAfter_expression (by omega), viable_expression_nil⟩

/-- The parser of bare expressions has taken a beginning of one when it refuses. -/
theorem refusesAfter_bareExpression {limit : Nat} {ts : List Token} (hlen : ts.length < limit) :
    bareExpression.RefusesAfter limit (Viable BareExpression) ts := by
  have hplain : expression.RefusesAfter limit (Viable BareExpression) ts := by
    refine (refusesAfter_expression hlen).imp fun us hus => ?_
    obtain ⟨vs, n, ⟨hn⟩⟩ := hus
    exact ⟨vs, n, .plain hn⟩
  unfold bareExpression
  refine refusesAfter_bind hplain fun n us mid hts hread => ?_
  obtain ⟨isOpen, hn, _⟩ := exact_expression.derives hlen hread hts
  -- both in front of the end of a block and behind it, the tokens are complete
  have hend : ∀ {vs s : List Token}, BareExpression (us ++ vs) n →
      (isNext .eof >>= fun found => if found = true then pure n
        else reject "\"\x7d\x7d\" or end of input" >>= fun _ : PUnit => pure n).RefusesAfter limit
          (fun ws => Viable BareExpression (us ++ (vs ++ ws))) s := by
    intro vs s hvs
    refine refusesAfter_ifNext (fun _ => refusesAfter_pure) fun _ => ?_
    refine refusesAfter_bind_pure (refusesAfter_reject ?_)
    rw [List.append_nil]
    exact viable_of_derives hvs
  refine refusesAfter_ifAccept (by decide) (fun close s hs hclose => ?_) fun _ => ?_
  · exact hend (.closed hn hclose)
  · have hus : BareExpression (us ++ []) n := by
      rw [List.append_nil]
      exact .plain hn
    exact hend hus

end Stencil.Derives
