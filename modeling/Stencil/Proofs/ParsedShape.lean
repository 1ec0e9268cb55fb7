import Stencil.Grammar.Source
import Stencil.Proofs.Placement
import Stencil.Proofs.StandardTable

/-!
# The parser builds well-placed trees

A parser is a tree of steps, so what holds of all results of a parser can be said without running
it: `Parse.Yields P` asks `P` of every value at which the steps may end, whatever the tokens are.
It is a condition on the parser alone and holds over every source of tokens.

The invariant of the expression parsers is that the node read so far is well placed as an
expression. It is kept along a chain of steps and calls because a path is extended and never nested,
and a call takes its target off the end of a path that was well placed.

> `Parse.Yields.run`: a parser that yields `P` gives only results that satisfy it.
> `Grammar.yields_expression`, `Grammar.yields_template`: what is parsed is well placed.
> `Lexicon.wellFormed_parseFrom`, `Lexicon.wellFormed_parseExpression`: so it can be exchanged.
> `Lexicon.fits_parsed`: in what is parsed every node fits the role in which it stands.
-/

namespace Stencil

namespace Parse

variable {α β : Type}

/-- Every value at which the parser may end satisfies `P`. -/
def Yields (P : α → Prop) : Parse α → Prop
  | done a => P a
  | reject _ => True
  | look next => ∀ t, (next t).Yields P
  | take next => ∀ t, (next t).Yields P
  | bound next => ∀ n, (next n).Yields P
  | pass _ next => next.Yields P

/-- What a parser yields holds of every result of a run, over any source of tokens. -/
theorem Yields.run {σ : Type} [TokenSource σ] {P : α → Prop} {limit : Nat} {a : α} {t : σ} :
    ∀ {p : Parse α} {s : σ}, p.Yields P → p.run limit s = .ok (a, t) → P a := by
  intro p
  induction p with
  | done b => intro s hp h; cases h; exact hp
  | reject expected => intro s hp h; cases h
  | look next ih => intro s hp h; exact ih _ (hp _) h
  | take next ih => intro s hp h; exact ih _ (hp _) h
  | bound next ih => intro s hp h; exact ih _ (hp _) h
  | pass l next ih => intro s hp h; exact ih hp h

theorem yields_pure {P : α → Prop} {a : α} (h : P a) : Yields P (pure a) :=
  h

theorem yields_reject {P : α → Prop} {expected : String} : Yields P (reject expected) :=
  trivial

/-- A parser that asks for the bound on the number of tokens yields what it does for every number.
-/
theorem yields_bound {P : α → Prop} {next : Nat → Parse α} (h : ∀ n, (next n).Yields P) :
    Yields P (bound next) :=
  h

/-- Parsers in a row: what the first one yields may be used for the second. -/
theorem yields_bind {P : α → Prop} {Q : β → Prop} {f : α → Parse β} :
    ∀ {p : Parse α}, p.Yields P → (∀ a, P a → (f a).Yields Q) → Yields Q (p >>= f) := by
  intro p
  induction p with
  | done a => intro hp hf; exact hf a hp
  | reject expected => intro hp hf; trivial
  | look next ih => intro hp hf t; exact ih t (hp t) hf
  | take next ih => intro hp hf t; exact ih t (hp t) hf
  | bound next ih => intro hp hf n; exact ih n (hp n) hf
  | pass l next ih => intro hp hf; exact ih hp hf

/-- Nothing is asked of what a parser yields. -/
theorem yields_true (p : Parse α) : p.Yields fun _ => True := by
  induction p with
  | done a => trivial
  | reject expected => trivial
  | look next ih => exact ih
  | take next ih => exact ih
  | bound next ih => exact ih
  | pass l next ih => exact ih

/-- Nothing is asked of the first result. -/
theorem yields_bind_any {Q : β → Prop} {p : Parse α} {f : α → Parse β} (hf : ∀ a, (f a).Yields Q) :
    Yields Q (p >>= f) :=
  yields_bind (yields_true p) fun a _ => hf a

section iterate

variable {I : α → Prop} {step : α → Parse (Option α)}

/-- An invariant that every round keeps holds of the result, by induction over the rounds. -/
theorem yields_iterateUpTo (hstep : ∀ a, I a → (step a).Yields fun o => ∀ b, o = some b → I b) :
    ∀ (fuel : Nat) {a : α}, I a → Yields I (iterateUpTo step fuel a) := by
  intro fuel
  induction fuel with
  | zero => intro a ha; exact ha
  | succ fuel ih =>
    intro a ha
    refine yields_bind (hstep a ha) fun o ho => ?_
    cases o with
    | none => exact ha
    | some b => exact ih (ho b rfl)

/-- What every step preserves holds in the end. -/
theorem yields_iterate (hstep : ∀ a, I a → (step a).Yields fun o => ∀ b, o = some b → I b) {a : α}
    (ha : I a) : Yields I (iterate step a) :=
  fun n => yields_iterateUpTo hstep n ha

end iterate

/-- One more item behind a token of a kind. -/
theorem yields_further {P : α → Prop} {item : Parse α} (h : item.Yields P) (sep : TokenKind)
    (items : List α) (hitems : items ≠ [] ∧ ∀ x ∈ items, P x) :
    Yields (fun o => ∀ xs, o = some xs → xs ≠ [] ∧ ∀ x ∈ xs, P x)
      (accept sep >>= fun b =>
        if b = true then item >>= fun x => pure (some (x :: items)) else pure none) := by
  refine yields_bind_any fun b => ?_
  split
  · refine yields_bind h fun x hx xs hxs => ?_
    cases hxs
    exact ⟨List.cons_ne_nil _ _, List.forall_mem_cons.mpr ⟨hx, hitems.2⟩⟩
  · intro xs hxs
    cases hxs

/-- A first item, and more of them behind tokens of a kind. -/
theorem yields_iterate_further {P : α → Prop} {item : Parse α} (h : item.Yields P)
    (sep : TokenKind) {first : α} (hfirst : P first) :
    Yields (fun xs => xs ≠ [] ∧ ∀ x ∈ xs, P x)
      (iterate (fun items => accept sep >>= fun b =>
        if b = true then item >>= fun x => pure (some (x :: items)) else pure none) [first]) :=
  yields_iterate (yields_further h sep)
    ⟨List.cons_ne_nil _ _, List.forall_mem_singleton.mpr hfirst⟩

/-- A list with commas has what each of its items has. -/
theorem yields_commaList {P : α → Prop} {item : Parse α} (h : item.Yields P) :
    Yields (fun xs => ∀ x ∈ xs, P x) (commaList item) := by
  refine yields_bind h fun first hfirst => ?_
  refine yields_bind (yields_iterate_further h .comma hfirst) fun xs hxs => ?_
  exact fun x hx => hxs.2 x (List.mem_reverse.mp hx)

end Parse

/-! ## Expressions -/

namespace Grammar

open Parse

/-- A parser whose results are well placed as expressions. -/
abbrev YieldsExpression (p : Parse Node) : Prop :=
  p.Yields fun n => n.Placed .expression

/-- A level of operators yields expressions if its operands are expressions: every round wraps the
left operand once more. -/
theorem yields_binaryLevel {ops : Operators} {operand : Parse Node} (h : YieldsExpression operand) :
    YieldsExpression (binaryLevel ops operand) := by
  refine yields_bind h fun first hfirst => yields_iterate (fun left hleft => ?_) hfirst
  refine yields_bind_any fun o => ?_
  cases o with
  | none => intro b hb; cases hb
  | some op =>
    refine yields_bind h fun right hright b hb => ?_
    cases hb
    exact Node.placed_binary hleft hright

theorem yields_binaryLevels {p : Parse Node} (h : YieldsExpression p) :
    YieldsExpression (binaryLevels p) :=
  yields_binaryLevel <| yields_binaryLevel <| yields_binaryLevel <| yields_binaryLevel <|
    yields_binaryLevel <| yields_binaryLevel h

/-- Signs and negations in a row, by induction over how many there are. -/
theorem yields_unaryUpTo {p : Parse Node} (h : YieldsExpression p) :
    ∀ fuel, YieldsExpression (unaryUpTo p fuel) := by
  intro fuel
  induction fuel with
  | zero => exact h
  | succ fuel ih =>
    refine yields_bind_any fun negated => ?_
    split
    · exact yields_bind ih fun a ha => yields_pure (Node.placed_unary ha)
    · refine yields_bind_any fun plus => ?_
      split
      · exact ih
      · exact h

theorem yields_unary {p : Parse Node} (h : YieldsExpression p) : YieldsExpression (unary p) :=
  yields_bound (yields_unaryUpTo h)

theorem yields_leaf {node : Node} (hnode : node.Placed .expression) :
    YieldsExpression (leaf node) :=
  yields_bind_any fun _ => yields_pure hnode

section

variable {expression : Parse Node} (h : YieldsExpression expression)

include h

/-- Every argument of a call stands in the place of an expression. -/
theorem yields_arguments :
    (arguments expression).Yields fun args => ∀ n ∈ args, n.Placed .expression := by
  refine yields_bind_any fun closed => ?_
  split
  · exact yields_pure fun n hn => nomatch hn
  · exact yields_bind (yields_commaList h) fun args hargs =>
      yields_bind_any fun _ => yields_pure hargs

/-- A call yields an expression, whether its callee is a name, a property or anything else. -/
theorem yields_call {callee : Node} (hcallee : callee.Placed .expression) :
    YieldsExpression (call expression callee) := by
  unfold call
  split
  · next path =>
    split
    · next name hname =>
      exact yields_bind_any fun _ => yields_bind (yields_arguments h) fun args hargs =>
        yields_pure (Node.placed_call hcallee hname hargs)
    · exact yields_reject
  · exact yields_reject

/-- One step behind an operand: a property, an index or a call of it, each an expression again. -/
theorem yields_postfixStep {node : Node} (hnode : node.Placed .expression) :
    (postfixStep expression node).Yields fun o => ∀ n, o = some n → n.Placed .expression := by
  refine yields_bind_any fun dot => ?_
  split
  · refine yields_bind_any fun name n hn => ?_
    cases hn
    exact Node.placed_step hnode (Segment.placed_name name)
  · refine yields_bind_any fun bracket => ?_
    split
    · refine yields_bind_any fun closed => ?_
      split
      · exact yields_bind (P := fun _ => False) yields_reject fun _ hf => hf.elim
      · refine yields_bind h fun index hindex => yields_bind_any fun _ n hn => ?_
        cases hn
        exact Node.placed_step hnode (Segment.placed_expr hindex)
    · refine yields_bind_any fun paren => ?_
      split
      · refine yields_bind (yields_call h hnode) fun c hc n hn => ?_
        cases hn
        exact hc
      · intro n hn
        cases hn

theorem yields_mapEntry : (mapEntry expression).Yields fun e => e.value.Placed .expression := by
  refine yields_bind h fun first hfirst => yields_bind_any fun colon => ?_
  split
  · split
    · exact yields_bind_any fun _ => yields_bind h fun value hvalue => yields_pure hvalue
    · exact yields_reject
  · exact yields_pure hfirst

/-- The values of a map stand in the places of expressions; its keys are no nodes. -/
theorem yields_mapLiteral : YieldsExpression (mapLiteral expression) := by
  refine yields_bind_any fun closed => ?_
  split
  · exact yields_pure (Node.placed_leaf rfl trivial)
  · refine yields_bind (yields_commaList (yields_mapEntry h)) fun entries hentries => ?_
    refine yields_bind_any fun _ => yields_pure (Node.placed_iff.mpr ⟨trivial, ?_⟩)
    exact Role.placed_each (List.forall_mem_map.mpr hentries)

/-- Simple expressions, token by token. -/
theorem yields_simple : YieldsExpression (simple expression) := by
  refine yields_bind_any fun t => ?_
  split
  · exact yields_leaf (Node.placed_leaf rfl trivial)
  · exact yields_leaf (Node.placed_leaf rfl trivial)
  · exact yields_leaf (Node.placed_leaf rfl trivial)
  · split
    · exact yields_leaf (Node.placed_leaf rfl trivial)
    · exact yields_reject
  · split
    · next hd => exact yields_leaf (Node.placed_leaf rfl (Decimal.scale_le_of_ofText? hd))
    · exact yields_reject
  · exact yields_leaf (Node.placed_leaf rfl trivial)
  · exact yields_leaf (Node.placed_ofName t.text)
  · exact yields_leaf (Node.placed_ofName t.text)
  · exact yields_leaf (Node.placed_ofName t.text)
  · exact yields_leaf (Node.placed_ofName t.text)
  · exact yields_bind_any fun _ => yields_mapLiteral h
  · exact yields_bind_any fun _ => yields_bind h fun inner hinner =>
      yields_bind_any fun _ => yields_pure hinner
  · exact yields_reject

theorem yields_primary : YieldsExpression (primary expression) := by
  refine yields_bind_any fun negated => yields_bind (yields_simple h) fun first hfirst => ?_
  refine yields_bind (yields_iterate (fun n hn => yields_postfixStep h hn) hfirst) fun n hn => ?_
  refine yields_pure ?_
  split
  · exact Node.placed_unary hn
  · exact hn

/-- A choice yields an expression with three parts, of which the last may be missing. -/
theorem yields_ternary : YieldsExpression (ternary expression) := by
  refine yields_bind (yields_binaryLevels (yields_unary (yields_primary h))) fun c hc => ?_
  refine yields_bind_any fun question => ?_
  split
  · refine yields_bind h fun positive hpositive => yields_bind_any fun colon => ?_
    split
    · refine yields_bind h fun negative hnegative => yields_pure ?_
      refine Node.placed_ternary hc hpositive fun n hn => ?_
      cases hn
      exact hnegative
    · exact yields_pure (Node.placed_ternary hc hpositive fun n hn => nomatch hn)
  · exact yields_pure hc

end

/-- Whole expressions, by induction over the depth that the parser may still use. -/
theorem yields_expressionWithin : ∀ depth, YieldsExpression (expressionWithin depth) := by
  intro depth
  induction depth with
  | zero => exact yields_reject
  | succ depth ih => exact yields_bound fun _ => yields_ternary ih

/-- **Expressions** are well placed. -/
theorem yields_expression : YieldsExpression expression :=
  yields_bound yields_expressionWithin

/-- A bare expression, with the semicolon that may stand behind it. -/
theorem yields_bareExpression : YieldsExpression bareExpression := by
  refine yields_bind yields_expression fun n hn => ?_
  refine yields_bind_any fun _ => yields_bind_any fun b => ?_
  cases b with
  | true => exact hn
  | false => trivial

/-! ## Templates -/

/-- A parser for bodies that gives well-placed items. -/
abbrev Body.Yields (body : Body) : Prop :=
  ∀ stops, (body stops).Yields itemsPlaced

/-- A parser whose results may stand in a body. -/
abbrev YieldsItem (p : Parse Node) : Prop :=
  p.Yields fun n => n.Placed .item

section

variable {body : Body} (h : body.Yields)

include h

/-- The value of a binding is an expression, or the body that stands in its place. -/
theorem yields_varBlock : YieldsItem (varBlock body) := by
  refine yields_bind_any fun _ => yields_bind_any fun name => yields_bind_any fun assign => ?_
  split
  · refine yields_bind yields_expression fun value hvalue => yields_bind_any fun _ => ?_
    exact yields_pure (Node.placed_iff.mpr
      ⟨rfl, List.forall_mem_singleton.mpr (hvalue.of_expression _)⟩)
  · refine yields_bind_any fun _ => yields_bind (h _) fun items hitems => ?_
    have hbody : (Node.statements items).Placed .boundValue :=
      Node.placed_iff.mpr ⟨.inl rfl, placed_bodyParts hitems⟩
    exact yields_bind_any fun _ =>
      yields_pure (Node.placed_iff.mpr ⟨rfl, List.forall_mem_singleton.mpr hbody⟩)

theorem yields_macroBlock : YieldsItem (macroBlock body) :=
  yields_bind_any fun _ => yields_bind_any fun _ => yields_bind_any fun _ =>
    yields_bind_any fun _ => yields_bind (h _) fun _ hitems =>
      yields_bind_any fun _ => yields_pure (Node.placed_iff.mpr ⟨rfl, placed_bodyParts hitems⟩)

/-- A loop binds one name or two. -/
theorem yields_forBlock : YieldsItem (forBlock body) := by
  refine yields_bind_any fun _ => yields_bind_any fun first => yields_bind_any fun colon => ?_
  extract_lets rest
  have hrest : ∀ names : List String, names.length = 1 ∨ names.length = 2 →
      YieldsItem (rest names) := by
    intro names hnames
    refine yields_bind_any fun _ => yields_bind yields_expression fun collection hcollection => ?_
    refine yields_bind_any fun _ => yields_bind (h _) fun items hitems => ?_
    have hloop : ∀ otherwise : Option (List Item), itemsPlaced (otherwise.getD []) →
        (Node.loop names collection items otherwise).Placed .item := fun otherwise hotherwise =>
      Node.placed_iff.mpr ⟨⟨rfl, hnames⟩, List.forall_mem_cons.mpr ⟨hcollection,
        List.forall_mem_append.mpr ⟨placed_bodyParts hitems, placed_bodyParts hotherwise⟩⟩⟩
    refine yields_bind_any fun e => ?_
    split
    · exact yields_bind_any fun _ => yields_bind (h _) fun otherwise hotherwise =>
        yields_bind_any fun _ => yields_pure (hloop (some otherwise) hotherwise)
    · exact yields_bind_any fun _ => yields_pure (hloop none fun n hn => nomatch hn)
  split
  · exact yields_bind_any fun second => hrest _ (Or.inr rfl)
  · exact hrest _ (Or.inl rfl)

theorem yields_arm : (arm body).Yields Arm.Placed :=
  yields_bind yields_expression fun _ hcondition => yields_bind_any fun _ =>
    yields_bind (h _) fun _ hitems => yields_pure (Arm.placed_mk hcondition hitems)

/-- The first arm is always there. -/
theorem yields_ifBlock : YieldsItem (ifBlock body) := by
  have harms : ∀ {arms : List Arm}, arms ≠ [] → (∀ a ∈ arms, a.Placed) →
      (Node.conditional arms.reverse).Placed .item := by
    intro arms hne harms
    refine Node.placed_iff.mpr ⟨⟨rfl, fun hnil => hne (List.reverse_eq_nil_iff.mp hnil)⟩, ?_⟩
    intro p hp
    obtain ⟨a, ha, hp⟩ := List.mem_flatMap.mp hp
    exact harms a (List.mem_reverse.mp ha) p hp
  refine yields_bind_any fun _ => yields_bind (yields_arm h) fun first hfirst => ?_
  refine yields_bind (yields_iterate_further (yields_arm h) .elseIfWord hfirst)
    fun arms hseen => ?_
  refine yields_bind_any fun e => ?_
  split
  · refine yields_bind_any fun _ => yields_bind (h _) fun items hitems => ?_
    refine yields_bind_any fun _ => yields_pure (harms (List.cons_ne_nil _ _) ?_)
    have htrue : (Node.bool true).Placed .expression := Node.placed_leaf rfl trivial
    exact List.forall_mem_cons.mpr ⟨Arm.placed_mk htrue hitems, hseen.2⟩
  · exact yields_bind_any fun _ => yields_pure (harms hseen.1 hseen.2)

/-- The body of a call becomes its last argument, as statements. -/
theorem yields_callBlock : YieldsItem (callBlock body) := by
  refine yields_bind_any fun _ => yields_bind_any fun name => yields_bind_any fun paren => ?_
  extract_lets rest
  have hrest : ∀ args : List Node, (∀ n ∈ args, n.Placed .expression) →
      YieldsItem (rest args) := by
    intro args hargs
    refine yields_bind_any fun _ => yields_bind (h _) fun items hitems => ?_
    refine yields_bind_any fun _ => yields_pure (Node.placed_iff.mpr ⟨?_, ?_⟩)
    · exact ⟨fun t ht => (nomatch ht), fun _ => ⟨name, rfl⟩⟩
    · exact placed_argumentParts_statements hargs hitems
  split
  · exact yields_bind (yields_arguments yields_expression) hrest
  · exact hrest [] fun n hn => nomatch hn

/-- The inside of a block, by its first token. -/
theorem yields_block : YieldsItem (block body) := by
  refine yields_bind_any fun t => ?_
  split
  · exact yields_varBlock h
  · exact yields_macroBlock h
  · exact yields_forBlock h
  · exact yields_ifBlock h
  · exact yields_callBlock h
  · exact yields_bind_any fun _ => yields_bind_any fun _ =>
      yields_bind_any fun _ => yields_pure (Node.placed_leaf rfl rfl)
  · exact yields_bind yields_expression fun n hn =>
      yields_bind_any fun _ => yields_pure (hn.of_expression .item)

/-- One round of a body adds an item in its place or nothing: comments and empty blocks are left
out. -/
theorem yields_bodyStep (stops : List TokenKind) {items : List Item} (hitems : itemsPlaced items) :
    (bodyStep body stops items).Yields fun o => ∀ more, o = some more → itemsPlaced more := by
  have hsame : ∀ more, some items = some more → itemsPlaced more := by
    intro more hmore
    cases hmore
    exact hitems
  have htext : ∀ s : String, ∀ more, some (.text s :: items) = some more → itemsPlaced more := by
    intro s more hmore
    cases hmore
    intro n hn
    rcases List.mem_cons.mp hn with hn | hn
    · cases hn
    · exact hitems n hn
  have hnone : ∀ more, (none : Option (List Item)) = some more → itemsPlaced more := by
    intro more hmore
    cases hmore
  refine yields_bind_any fun _ => yields_bind_any fun t => ?_
  split
  · exact hnone
  · exact yields_bind_any fun _ => hsame
  · exact yields_bind_any fun text => htext text
  · refine yields_bind_any fun _ => yields_bind_any fun t => ?_
    split
    · exact hnone
    · refine yields_bind_any fun closed => ?_
      split
      · exact hsame
      · refine yields_bind (yields_block h) fun n hn more hmore => ?_
        cases hmore
        intro m hm
        rcases List.mem_cons.mp hm with hm | hm
        · cases hm
          exact hn
        · exact hitems m hm
  · exact yields_bind_any fun _ => hsame
  · exact yields_bind_any fun t => htext t.text
  · exact yields_reject

end

/-- Bodies, by induction over the depth that the parser may still use. -/
theorem yields_bodyWithin : ∀ depth, Body.Yields (bodyWithin depth) := by
  intro depth
  induction depth with
  | zero => intro stops; exact yields_reject
  | succ depth ih =>
    intro stops
    have hempty : itemsPlaced [] := fun n hn => nomatch hn
    refine yields_bind (yields_iterate (fun items => yields_bodyStep ih stops) hempty) ?_
    intro items hitems
    exact yields_pure fun n hn => hitems n (List.mem_reverse.mp hn)

/-- **Templates** are well placed. -/
theorem yields_template : template.Yields itemsPlaced :=
  yields_bound fun n => yields_bodyWithin n []

end Grammar

/-! ## Sources -/

namespace Lexicon

/-- A parser over the tokens of a source gives what it yields. -/
theorem parseWith_yields {α : Type} {l : Lexicon} {parser : Parse α} {source : String}
    {start : Context} {P : α → Prop} {a : α} (hp : parser.Yields P)
    (h : l.parseWith parser source start = .ok a) : P a := by
  unfold parseWith at h
  cases hc : Cursor.start l source start with
  | error e => rw [hc] at h; cases h
  | ok cursor =>
    have hstart : (Cursor.start l source start).mapError Failure.setup = .ok cursor := by
      rw [hc]
      rfl
    rw [hstart] at h
    simp only [bind, Except.bind] at h
    cases hr : parser.run (tokenLimit source) cursor with
    | error r => rw [hr] at h; cases h
    | ok result =>
      rw [hr] at h
      cases h
      exact hp.run hr

/-- Every template that is parsed is well formed: no node has a child that its kind cannot have. -/
theorem wellFormed_parseFrom {l : Lexicon} {source : String} {start : Context} {items : List Item}
    (h : l.parseFrom source start = .ok items) : itemsWellFormed items :=
  itemsWellFormed_of_placed (parseWith_yields Grammar.yields_template h)

/-- So is every expression that is parsed by itself. -/
theorem wellFormed_parseExpression {l : Lexicon} {source : String} {n : Node}
    (h : l.parseExpression source = .ok n) : n.WellFormed :=
  Node.wellFormed_of_placed (parseWith_yields Grammar.yields_bareExpression h)

/-- **The shape of parsed trees.** For every vocabulary, source and start context, every node of a
parsed tree fits its role (`Node.Fits`). Constructs and imports stand in bodies only; a body in the
place of a value is that of a binding or the last argument of a call without target. A conditional
has an arm, a loop binds one name or two, a path has a step, does not start with another path and is
no expression alone unless a call is made on it, and the target of a call is a path. A call without
target is made by a plain name, and the scale of a decimal is bounded. -/
theorem fits_parsed (l : Lexicon) :
    (∀ source start items, l.parseFrom source start = .ok items →
      ∀ n, .node n ∈ items → ∀ role m, Occurs role m .item n → m.Fits role) ∧
    (∀ source n, l.parseExpression source = .ok n →
      ∀ role m, Occurs role m .expression n → m.Fits role) := by
  constructor
  · intro source start items h
    exact parseWith_yields Grammar.yields_template h
  · intro source n h
    exact parseWith_yields Grammar.yields_bareExpression h

/-- A call with a body in an arm. -/
def callInArm : String :=
  "\x7b\x7bif v\x7d\x7d\x7b\x7bcall f(1)\x7d\x7dt\x7b\x7b/call\x7d\x7d\x7b\x7b/if\x7d\x7d"

/-- A call with a body in an arm, and calls on the steps of a path. -/
theorem fits_parsed_calls :
    ∃ items n, Standard.readLexicon.parseFrom callInArm .template = .ok items ∧
      Standard.readLexicon.parseExpression "-a.b[0](x).c('y'.z, 1.50)" = .ok n ∧
      (∀ m, .node m ∈ items → m.Placed .item) ∧ n.Placed .expression := by
  have hrun : (Standard.readLexicon.parseFrom callInArm .template).isOk = true ∧
      (Standard.readLexicon.parseExpression "-a.b[0](x).c('y'.z, 1.50)").isOk = true := by
    decide +kernel
  cases hitems : Standard.readLexicon.parseFrom callInArm .template with
  | error e => rw [hitems] at hrun; cases hrun.1
  | ok items =>
    cases hn : Standard.readLexicon.parseExpression _ with
    | error e => rw [hn] at hrun; cases hrun.2
    | ok n =>
      have hfits := fits_parsed Standard.readLexicon
      exact ⟨items, n, rfl, rfl, hfits.1 _ _ _ hitems, hfits.2 _ _ hn⟩

end Lexicon

end Stencil
