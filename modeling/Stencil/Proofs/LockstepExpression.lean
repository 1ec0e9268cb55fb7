import Stencil.Proofs.Lockstep
import Stencil.Proofs.ParseRun

/-!
# Expressions in lockstep

Two runs of the parser of expressions take the same steps, whatever bounds they were given, as long
as both bounds exceed the number of tokens. An expression always stands inside a block, and its
parser takes only tokens that keep it there (`Parse.Inside`).

The parsers take the parser of whole expressions as an argument, and so do the lemmas about them. A
part of an expression lies behind a token of the whole, so what holds for the parts with `size`
tokens to go holds for the whole with one token more.

> `Parse.Inside.ternary`: one level of nesting.
> `Parse.inside_expression`: any expression.
> `Parse.steady_bareExpression`: an expression that stands alone.
-/

namespace Stencil.Parse

open Grammar

variable {α β γ δ : Type}

/-- With fewer than `size` tokens to go inside a block, the two parsers take the same steps, end
with the same value, and are still inside the block. -/
def Inside (size : Nat) (p q : Parse α) : Prop :=
  ∀ ⦃x : Position⦄, x.InBlock → x.left < size → Alike (fun y a b => a = b ∧ y.InBlock) x p q

/-- What a turn of a loop inside a block leads to: the same value for both, and a token is gone if
the loop goes on. -/
def Turned (x y : Position) (o o' : Option α) : Prop :=
  o = o' ∧ y.InBlock ∧ (o.isSome = true → y.left < x.left)

section

variable {size : Nat} {x : Position} {S : Position → γ → δ → Prop} {p q : Parse α}
  {e e' : Parse Node}

theorem inside_zero : Inside 0 p q :=
  fun _ _ hleft => absurd hleft (Nat.not_lt_zero _)

/-- The part of a parser that is in lockstep, and the rest of it. -/
theorem Inside.bind {f : α → Parse γ} {g : α → Parse δ} (h : Inside size p q) (hx : x.InBlock)
    (hleft : x.left < size)
    (hf : ∀ y a, y.InBlock → y.left ≤ x.left → Alike S y (f a) (g a)) :
    Alike S x (p >>= f) (q >>= g) := by
  refine alike_bind (h hx hleft) fun y a b hle hy => ?_
  obtain ⟨rfl, hy⟩ := hy
  exact hf y a hy hle

/-- A refusal that has nothing to do with the text of a template. -/
theorem alike_reject_of_ne {expected : String} (h : expected ≠ textExpected) :
    Alike S x (reject expected : Parse γ) (reject expected : Parse δ) :=
  alike_reject fun he => absurd he h

/-! ## Loops -/

/-- A loop inside a block, whose turns are alike from every position that is no further back. -/
theorem alike_iterate_inside {step step' : α → Parse (Option α)} (hx : x.InBlock) (a : α)
    (hstep : ∀ y a, y.InBlock → y.left ≤ x.left → Alike (Turned y) y (step a) (step' a)) :
    Alike (fun y a b => a = b ∧ y.InBlock) x (iterate step a) (iterate step' a) := by
  have hturn : ∀ (y : Position) (a b : α), y.left ≤ x.left → a = b ∧ y.InBlock →
      Alike (fun z o o' => (o = none ∧ o' = none ∧ a = b ∧ z.InBlock) ∨
        ∃ a' b', o = some a' ∧ o' = some b' ∧ (a' = b' ∧ z.InBlock) ∧ z.left < y.left)
        y (step a) (step' b) := by
    intro y a b hle hab
    obtain ⟨rfl, hy⟩ := hab
    refine (hstep y a hy hle).imp fun z o o' _ hz => ?_
    obtain ⟨rfl, hz, hlt⟩ := hz
    cases o with
    | none => exact .inl ⟨rfl, rfl, rfl, hz⟩
    | some a' => exact .inr ⟨a', a', rfl, rfl, ⟨rfl, hz⟩, hlt rfl⟩
  exact alike_iterate hturn ⟨rfl, hx⟩

/-- A turn of a comma list takes a comma and an item. -/
theorem inside_furtherItem (h : Inside size p q) (hx : x.InBlock) (hleft : x.left ≤ size)
    (items : List α) :
    Alike (Turned x) x (furtherItem .comma p items) (furtherItem .comma q items) := by
  refine alike_ifAccept_inner hx (by decide) (fun y hy hlt => ?_) fun y hy hle => ?_
  · refine h.bind hy (Nat.lt_of_lt_of_le hlt hleft) fun z a hz hle => ?_
    exact alike_pure ⟨rfl, hz, fun _ => Nat.lt_of_le_of_lt hle hlt⟩
  · exact alike_pure ⟨rfl, hy, nofun⟩

/-- Comma lists are alike if their items are. -/
theorem Inside.commaList (h : Inside size p q) : Inside size (commaList p) (commaList q) := by
  intro x hx hleft
  refine h.bind hx hleft fun y first hy hle => ?_
  have hitems : Alike (fun z a b => a = b ∧ z.InBlock) y
      (iterate (furtherItem .comma p) [first]) (iterate (furtherItem .comma q) [first]) :=
    alike_iterate_inside hy [first] fun z items hz hle' =>
      inside_furtherItem h hz (by omega) items
  refine alike_bind hitems fun z items items' _ hz => ?_
  obtain ⟨rfl, hz⟩ := hz
  exact alike_pure ⟨rfl, hz⟩

/-! ## Operators -/

/-- The operators of a level stand inside a block. -/
def InnerOps (ops : Operators) : Prop :=
  ∀ k op, ops.lookup k = some op → k.isInner = true

/-- The operators of a level are inner kinds, so looking for one stays inside the block. -/
theorem alike_acceptOperator {ops : Operators} (hops : InnerOps ops) (hx : x.InBlock) :
    Alike (Turned x) x (acceptOperator ops) (acceptOperator ops) := by
  refine alike_peek fun t u htu hshows => ?_
  rw [← htu.1]
  cases hop : ops.lookup t.kind with
  | none => exact alike_pure ⟨rfl, hx.see hshows, nofun⟩
  | some op =>
    refine alike_advance_inner hx hshows (hops _ _ hop) fun y _ _ hy hlt _ => ?_
    exact alike_pure ⟨rfl, hy, fun _ => hlt⟩

/-- A level of operators is alike if its operands are. -/
theorem Inside.binaryLevel {ops : Operators} (hops : InnerOps ops) (h : Inside size e e') :
    Inside size (binaryLevel ops e) (binaryLevel ops e') := by
  intro x hx hleft
  refine h.bind hx hleft fun y first hy hle => ?_
  refine alike_iterate_inside hy first fun z left hz hle' => ?_
  refine alike_bind (alike_acceptOperator hops hz) fun w o o' _ hw => ?_
  obtain ⟨rfl, hw, hlt⟩ := hw
  cases o with
  | none => exact alike_pure ⟨rfl, hw, nofun⟩
  | some op =>
    have hlt := hlt rfl
    refine h.bind hw (by omega) fun v right hv hle'' => ?_
    exact alike_pure ⟨rfl, hv, fun _ => Nat.lt_of_le_of_lt hle'' hlt⟩

/-- No operator ends a block. -/
theorem innerOps_levels : InnerOps multiplicativeOps ∧ InnerOps additiveOps ∧
    InnerOps relationalOps ∧ InnerOps equalityOps ∧ InnerOps [(.and, .and)] ∧
    InnerOps [(.or, .or)] := by
  refine ⟨?_, ?_, ?_, ?_, ?_, ?_⟩ <;>
    (intro k op h; cases k <;> first | rfl | cases h)

theorem Inside.binaryLevels (h : Inside size e e') :
    Inside size (binaryLevels e) (binaryLevels e') := by
  obtain ⟨hmultiplicative, hadditive, hrelational, hequality, hand, hor⟩ := innerOps_levels
  have hsum := (h.binaryLevel hmultiplicative).binaryLevel hadditive
  have hcomparison := (hsum.binaryLevel hrelational).binaryLevel hequality
  exact (hcomparison.binaryLevel hand).binaryLevel hor

/-- Signs in a row, with bounds that may differ as long as both exceed the tokens that are left. -/
private theorem inside_unaryUpTo (h : Inside size e e') :
    ∀ {m n : Nat} {x : Position}, x.InBlock → x.left < size → x.left < m → x.left < n →
      Alike (fun y a b => a = b ∧ y.InBlock) x (unaryUpTo e m) (unaryUpTo e' n) := by
  intro m
  induction m with
  | zero => intro n x _ _ hm; exact absurd hm (Nat.not_lt_zero _)
  | succ m ih =>
    intro n x hx hleft hm hn
    cases n with
    | zero => exact absurd hn (Nat.not_lt_zero _)
    | succ n =>
      refine alike_ifAccept_inner hx (by decide) (fun y hy hlt => ?_) fun y hy hle => ?_
      · have hoperand := ih hy (by omega) (Nat.lt_of_lt_of_le hlt (Nat.le_of_lt_succ hm))
          (Nat.lt_of_lt_of_le hlt (Nat.le_of_lt_succ hn))
        refine alike_bind hoperand fun z a b _ hz => ?_
        obtain ⟨rfl, hz⟩ := hz
        exact alike_pure ⟨rfl, hz⟩
      · refine alike_ifAccept_inner hy (by decide) (fun z hz hlt => ?_) fun z hz hle' => ?_
        · have hlt' := Nat.lt_of_lt_of_le hlt hle
          exact ih hz (by omega) (Nat.lt_of_lt_of_le hlt' (Nat.le_of_lt_succ hm))
            (Nat.lt_of_lt_of_le hlt' (Nat.le_of_lt_succ hn))
        · exact h hz (by omega)

theorem Inside.unary (h : Inside size e e') : Inside size (unary e) (unary e') :=
  fun _ hx hleft => alike_bound fun _ _ hm hn => inside_unaryUpTo h hx hleft hm hn

/-! ## Steps behind a simple expression -/

/-- A word behind a point is a token fewer for both parsers. -/
theorem alike_propertyName (hx : x.InBlock) :
    Alike (fun y a b => a = b ∧ y.InBlock ∧ y.left < x.left) x propertyName propertyName := by
  refine alike_peek fun t u htu hshows => ?_
  rw [← htu.1]
  cases hword : t.kind.isWord with
  | false => exact alike_reject_of_ne (by decide)
  | true =>
    have hinner := TokenKind.isInner_of_isWord hword
    refine alike_advance_inner hx hshows hinner fun y t' u' hy hlt htu' => ?_
    exact alike_pure ⟨htu'.2, hy, hlt⟩

/-- The arguments of a call are alike if the whole expressions in them are. -/
theorem Inside.arguments (h : Inside size e e') : Inside size (arguments e) (arguments e') := by
  intro x hx hleft
  refine alike_ifAccept_inner hx (by decide) (fun y hy _ => ?_) fun y hy hle => ?_
  · exact alike_pure ⟨rfl, hy⟩
  · refine h.commaList.bind hy (by omega) fun z args hz _ => ?_
    refine alike_expect_inner hz (by decide) fun w _ _ hw _ _ => ?_
    exact alike_pure ⟨rfl, hw⟩

/-- A call takes its bracket, so that a token is gone. -/
theorem Inside.call (h : Inside size e e') (hx : x.InBlock) (hleft : x.left ≤ size)
    (callee : Node) :
    Alike (fun y a b => a = b ∧ y.InBlock ∧ y.left < x.left) x (call e callee)
      (call e' callee) := by
  have hreject : Alike (fun y (a b : Node) => a = b ∧ y.InBlock ∧ y.left < x.left) x
      (reject "a selector before \"(\"") (reject "a selector before \"(\"") :=
    alike_reject_of_ne (by decide)
  cases callee with
  | selector path =>
    unfold Grammar.call
    dsimp only
    cases path.getLast? with
    | none => exact hreject
    | some name =>
      refine alike_expect_inner hx (by decide) fun y _ _ hy hlt _ => ?_
      refine h.arguments.bind hy (by omega) fun z args hz hle => ?_
      exact alike_pure ⟨rfl, hz, Nat.lt_of_le_of_lt hle hlt⟩
  | _ => exact hreject

/-- One step behind an operand, by the kind that starts it. -/
theorem Inside.postfixStep (h : Inside size e e') (hx : x.InBlock) (hleft : x.left ≤ size)
    (node : Node) : Alike (Turned x) x (postfixStep e node) (postfixStep e' node) := by
  refine alike_ifAccept_inner hx (by decide) (fun y hy hlt => ?_) fun y hy hle => ?_
  · refine alike_bind (alike_propertyName hy) fun z name name' _ hz => ?_
    obtain ⟨rfl, hz, hlt'⟩ := hz
    exact alike_pure ⟨rfl, hz, fun _ => Nat.lt_trans hlt' hlt⟩
  refine alike_ifAccept_inner hy (by decide) (fun z hz hlt => ?_) fun z hz hle' => ?_
  · refine alike_isNext fun k hshows => ?_
    cases k == TokenKind.rightBracket with
    | true => exact alike_reject_of_ne (by decide)
    | false =>
      have hlt' := Nat.lt_of_lt_of_le hlt hle
      refine h.bind (hz.see hshows) (Nat.lt_of_lt_of_le hlt' hleft) fun w index hw hle' => ?_
      refine alike_expect_inner hw (by decide) fun v _ _ hv hlt'' _ => ?_
      refine alike_pure ⟨rfl, hv, fun _ => ?_⟩
      exact Nat.lt_of_lt_of_le hlt'' (Nat.le_trans hle' (Nat.le_of_lt hlt'))
  · refine alike_isNext fun k hshows => ?_
    have hle'' := Nat.le_trans hle' hle
    cases k == TokenKind.leftParen with
    | true =>
      have hcall := h.call (hz.see hshows) (Nat.le_trans hle'' hleft) node
      refine alike_bind hcall fun w a b _ hw => ?_
      obtain ⟨rfl, hw, hlt⟩ := hw
      exact alike_pure ⟨rfl, hw, fun _ => Nat.lt_of_lt_of_le hlt hle''⟩
    | false => exact alike_pure ⟨rfl, hz.see hshows, nofun⟩

/-! ## Simple expressions -/

/-- A map entry, with its key or without. -/
theorem Inside.mapEntry (h : Inside size e e') : Inside size (mapEntry e) (mapEntry e') := by
  intro x hx hleft
  refine h.bind hx hleft fun y first hy hle => ?_
  refine alike_isNext fun k hshows => ?_
  cases hk : k == TokenKind.colon with
  | false => exact alike_pure ⟨rfl, hy.see hshows⟩
  | true =>
    cases beq_iff_eq.mp hk
    simp only [if_true]
    cases mapKey? first with
    | none => exact alike_reject_of_ne (by decide)
    | some key =>
      refine alike_advance_inner hy hshows (by decide) fun z _ _ hz hlt _ => ?_
      refine h.bind hz (by omega) fun w value hw _ => ?_
      exact alike_pure ⟨rfl, hw⟩

theorem Inside.mapLiteral (h : Inside size e e') : Inside size (mapLiteral e) (mapLiteral e') := by
  intro x hx hleft
  refine alike_ifAccept_inner hx (by decide) (fun y hy _ => ?_) fun y hy hle => ?_
  · exact alike_pure ⟨rfl, hy⟩
  · refine h.mapEntry.commaList.bind hy (by omega) fun z entries hz _ => ?_
    refine alike_expect_inner hz (by decide) fun w _ _ hw _ _ => ?_
    exact alike_pure ⟨rfl, hw⟩

theorem alike_leaf {k : TokenKind} (hx : x.InBlock) (hshows : x.Shows k)
    (hinner : k.isInner = true) (node : Node) :
    Alike (fun y a b => a = b ∧ y.InBlock) (x.see k) (leaf node) (leaf node) :=
  alike_advance_inner hx hshows hinner fun _ _ _ hy _ _ => alike_pure ⟨rfl, hy⟩

/-- Simple expressions, kind by kind. What stands in brackets is behind a token, so one token more
may be left for the whole. -/
theorem Inside.simple (h : Inside size e e') : Inside (size + 1) (simple e) (simple e') := by
  intro x hx hleft
  refine alike_peek fun t u htu hshows => ?_
  obtain ⟨hkind, htext⟩ := htu
  rw [← hkind, ← htext]
  generalize t.kind = k at hshows
  have hleaf := fun hinner => alike_leaf hx hshows hinner
  have hreject : ∀ {expected : String}, expected ≠ textExpected →
      Alike (fun y (a b : Node) => a = b ∧ y.InBlock) (x.see k) (reject expected)
        (reject expected) := alike_reject_of_ne
  cases k with
  | nullWord => exact hleaf (by decide) _
  | trueWord => exact hleaf (by decide) _
  | falseWord => exact hleaf (by decide) _
  | int =>
    dsimp only
    cases Text.grouped? t.text.toList with
    | some n => exact hleaf (by decide) _
    | none => exact hreject (description_ne _)
  | double =>
    dsimp only
    cases Decimal.ofText? t.text with
    | some d => exact hleaf (by decide) _
    | none => exact hreject (description_ne _)
  | string => exact hleaf (by decide) _
  | identifier => exact hleaf (by decide) _
  | thisWord => exact hleaf (by decide) _
  | selfWord => exact hleaf (by decide) _
  | globalWord => exact hleaf (by decide) _
  | leftBracket =>
    refine alike_advance_inner hx hshows (by decide) fun y _ _ hy hlt _ => ?_
    exact h.mapLiteral hy (Nat.lt_of_lt_of_le hlt (Nat.le_of_lt_succ hleft))
  | leftParen =>
    refine alike_advance_inner hx hshows (by decide) fun y _ _ hy hlt _ => ?_
    refine h.bind hy (Nat.lt_of_lt_of_le hlt (Nat.le_of_lt_succ hleft)) fun z inner hz _ => ?_
    refine alike_expect_inner hz (by decide) fun w _ _ hw _ _ => ?_
    exact alike_pure ⟨rfl, hw⟩
  | _ => exact hreject (by decide)

/-- An operand with the steps behind it, negated or not. -/
theorem Inside.primary (h : Inside size e e') : Inside (size + 1) (primary e) (primary e') := by
  intro x hx hleft
  have hbehind : ∀ (y : Position) (negated : Bool), y.InBlock → y.left ≤ x.left →
      Alike (fun y a b => a = b ∧ y.InBlock) y
        (Grammar.simple e >>= fun first => iterate (Grammar.postfixStep e) first >>= fun node =>
          pure (if negated then .unary .negate node else node))
        (Grammar.simple e' >>= fun first => iterate (Grammar.postfixStep e') first >>= fun node =>
          pure (if negated then .unary .negate node else node)) := by
    intro y negated hy hle
    refine h.simple.bind hy (by omega) fun z first hz hle' => ?_
    have hsteps : Alike (fun y a b => a = b ∧ y.InBlock) z
        (iterate (Grammar.postfixStep e) first) (iterate (Grammar.postfixStep e') first) :=
      alike_iterate_inside hz first fun w node hw hle'' => h.postfixStep hw (by omega) node
    refine alike_bind hsteps fun w node node' _ hw => ?_
    obtain ⟨rfl, hw⟩ := hw
    exact alike_pure ⟨rfl, hw⟩
  refine alike_ifAccept_inner hx (by decide) (fun y hy hlt => ?_) fun y hy hle => ?_
  · exact hbehind y true hy (Nat.le_of_lt hlt)
  · exact hbehind y false hy hle

/-! ## Whole expressions -/

/-- A choice is alike if operands and whole expressions are. -/
theorem Inside.ternary (h : Inside size e e') : Inside (size + 1) (ternary e) (ternary e') := by
  intro x hx hleft
  refine h.primary.unary.binaryLevels.bind hx hleft fun y condition hy hle => ?_
  refine alike_ifAccept_inner hy (by decide) (fun z hz hlt => ?_) fun z hz _ => ?_
  · refine h.bind hz (by omega) fun w positive hw hle' => ?_
    refine alike_ifAccept_inner hw (by decide) (fun v hv hlt' => ?_) fun v hv _ => ?_
    · refine h.bind hv (by omega) fun _ negative hz _ => ?_
      exact alike_pure ⟨rfl, hz⟩
    · exact alike_pure ⟨rfl, hv⟩
  · exact alike_pure ⟨rfl, hz⟩

/-- Whole expressions: the depths may differ as long as neither is less than the number of tokens.
The induction is on this number. -/
theorem inside_expressionWithin : ∀ {size m n : Nat}, size ≤ m → size ≤ n →
    Inside size (expressionWithin m) (expressionWithin n) := by
  intro size
  induction size with
  | zero => intro m n _ _; exact inside_zero
  | succ size ih =>
    intro m n hm hn
    cases m with
    | zero => exact absurd hm (Nat.not_succ_le_zero _)
    | succ m =>
      cases n with
      | zero => exact absurd hn (Nat.not_succ_le_zero _)
      | succ n =>
        have hparts := ih (Nat.le_of_succ_le_succ hm) (Nat.le_of_succ_le_succ hn)
        exact fun x hx hleft => alike_bound fun _ _ _ _ => hparts.ternary hx hleft

/-- **Expressions are read in lockstep**, whatever the bounds. -/
theorem inside_expression : Inside size expression expression :=
  fun _ hx _ => alike_bound fun _ _ hm hn =>
    inside_expressionWithin (Nat.succ_le_of_lt hm) (Nat.succ_le_of_lt hn) hx (Nat.lt_succ_self _)

end

/-- The parser of bare expressions takes the same steps whatever bound it is given. -/
theorem steady_bareExpression : Steady bareExpression := by
  -- the end of the block, if there is one, has been taken by now
  have hend : ∀ (y : Position) (node : Node), Alike (fun _ a b => a = b) y
      (isNext .eof >>= fun found => if found = true then pure node
        else reject "\"\x7d\x7d\" or end of input" >>= fun _ : PUnit => pure node)
      (isNext .eof >>= fun found => if found = true then pure node
        else reject "\"\x7d\x7d\" or end of input" >>= fun _ : PUnit => pure node) := by
    intro y node
    refine alike_isNext fun k _ => ?_
    cases k == TokenKind.eof with
    | true => exact alike_pure rfl
    | false => exact alike_reject_of_ne (by decide)
  refine ⟨.block, fun n => ?_⟩
  refine inside_expression.bind (.inl rfl) (Nat.lt_succ_self n) fun y node hy _ => ?_
  exact alike_ifAccept_blockClose hy (fun z _ _ => hend z node) fun z _ _ => hend z node

end Stencil.Parse
