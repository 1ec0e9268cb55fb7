import Stencil.Grammar.Expression
import Stencil.Proofs.ParseRun

/-!
# The grammar of expressions

Which tokens derive which tree, said without a parser. Every rule below is a relation between a
list of tokens and a node; the rules take the relation for whole expressions as an argument, and
`Derives.Expression` is the least relation that closes them.

The one thing that a list of tokens has to tell besides its tree is whether it is *open*: whether
its last choice still lacks a second branch. A colon behind an open expression would belong to that
choice, and so the rules let a colon follow only a closed one. This is how every colon finds the
innermost question mark that still lacks one, without a rule that looks for it.

> `Derives.expression_iff`: an expression is a choice whose parts are expressions.
> `Derives.Expression.begins`: the kinds of tokens with which an expression can start.
> `Derives.Expression.insideBlock`: all tokens of an expression belong inside a block.
-/

namespace Stencil.Derives

open Grammar

/-- The levels of the operators with two operands, lowest precedence first. -/
def levels : List Operators :=
  [[(.or, .or)], [(.and, .and)], equalityOps, relationalOps, additiveOps, multiplicativeOps]

/-- A token that is an expression by itself. -/
inductive Leaf : Token → Node → Prop
  | nullWord {t} : t.kind = .nullWord → Leaf t .null
  | trueWord {t} : t.kind = .trueWord → Leaf t (.bool true)
  | falseWord {t} : t.kind = .falseWord → Leaf t (.bool false)
  | int {t n} : t.kind = .int → Text.grouped? t.text.toList = some n → Leaf t (.int n)
  | double {t d} : t.kind = .double → Decimal.ofText? t.text = some d → Leaf t (.decimal d)
  | string {t} : t.kind = .string → Leaf t (.string (unquote t.text))
  | name {t} : t.kind ∈ [.identifier, .thisWord, .selfWord, .globalWord] →
      Leaf t (Node.ofName t.text)

section

variable (E : Bool → List Token → Node → Prop)

/-- An expression whose end is marked by the token behind it, so that it may be open. -/
inductive Part : List Token → Node → Prop
  | mk {isOpen us n} : E isOpen us n → Part us n

/-- An entry of a map. What stands before the colon is closed and has a tree that names a key. -/
inductive MapEntry : List Token → Entry → Prop
  | plain {isOpen us n} : E isOpen us n → MapEntry us (.mk none n)
  | keyed {us k key colon isOpen vs n} : E false us k → mapKey? k = some key →
      colon.kind = .colon → E isOpen vs n → MapEntry (us ++ colon :: vs) (.mk (some key) n)

/-- A literal, a map, a name, or an expression in round brackets. -/
inductive Simple : List Token → Node → Prop
  | leaf {t n} : Leaf t n → Simple [t] n
  | emptyMap {left right} : left.kind = .leftBracket → right.kind = .rightBracket →
      Simple [left, right] (.map [])
  | map {left us entries right} : left.kind = .leftBracket →
      Separated .comma (MapEntry E) us entries → right.kind = .rightBracket →
      Simple (left :: (us ++ [right])) (.map entries)
  | group {left isOpen us n right} : left.kind = .leftParen → E isOpen us n →
      right.kind = .rightParen → Simple (left :: (us ++ [right])) n

/-- The arguments of a call, without the brackets. -/
inductive Arguments : List Token → List Node → Prop
  | none : Arguments [] []
  | some {us args} : Separated .comma (Part E) us args → Arguments us args

/-- The target of a call: the path without the name of the function, if anything is left of it. -/
def target (path : List Segment) : Option Node :=
  if path.isEmpty then none else some (.selector path)

/-- A property, an index or a call, which makes one node of another. Only a path can be called: its
last step is the name of the function. -/
inductive Postfix : Node → List Token → Node → Prop
  | property {n dot word} : dot.kind = .dot → word.kind.isWord = true →
      Postfix n [dot, word] (n.step (.name word.text))
  | index {n left isOpen us i right} : left.kind = .leftBracket → E isOpen us i →
      right.kind = .rightBracket → Postfix n (left :: (us ++ [right])) (n.step (.expr i))
  | call {path name left us args right} : left.kind = .leftParen → Arguments E us args →
      right.kind = .rightParen →
      Postfix (.selector (path ++ [name])) (left :: (us ++ [right])) (.call (target path) name args)

/-- A simple expression with its properties, indices and calls. -/
inductive Chain : List Token → Node → Prop
  | simple {us n} : Simple E us n → Chain us n
  | step {us n vs m} : Chain us n → Postfix E n vs m → Chain (us ++ vs) m

/-- A chain that a minus sign may negate as a whole. -/
inductive Primary : List Token → Node → Prop
  | plain {us n} : Chain E us n → Primary us n
  | negated {minus us n} : minus.kind = .minus → Chain E us n →
      Primary (minus :: us) (.unary .negate n)

/-- A primary expression behind negations and plus signs, which leave no trace. -/
inductive Unary : List Token → Node → Prop
  | primary {us n} : Primary E us n → Unary us n
  | not {t us n} : t.kind = .not → Unary us n → Unary (t :: us) (.unary .not n)
  | plus {t us n} : t.kind = .plus → Unary us n → Unary (t :: us) n

/-- Operands of the levels that bind tighter with operators of the first level between them,
grouped to the left. -/
inductive Binary : List Operators → List Token → Node → Prop
  | unary {us n} : Unary E us n → Binary [] us n
  | operand {ops tighter us n} : Binary tighter us n → Binary (ops :: tighter) us n
  | operation {ops tighter us left t op vs right} : Binary (ops :: tighter) us left →
      ops.lookup t.kind = some op → Binary tighter vs right →
      Binary (ops :: tighter) (us ++ t :: vs) (.binary op left right)

/-- A condition with no branch, with one, or with two. -/
inductive Ternary : Bool → List Token → Node → Prop
  | plain {us n} : Binary E levels us n → Ternary false us n
  | short {us c question isOpen vs p} : Binary E levels us c → question.kind = .question →
      E isOpen vs p → Ternary true (us ++ question :: vs) (.ternary c p none)
  | full {us c question vs p colon isOpen ws n} : Binary E levels us c →
      question.kind = .question → E false vs p → colon.kind = .colon → E isOpen ws n →
      Ternary isOpen (us ++ question :: (vs ++ colon :: ws)) (.ternary c p (some n))

end

/-- A whole expression, which is open or closed. -/
inductive Expression : Bool → List Token → Node → Prop
  | mk {isOpen us n} : Ternary Expression isOpen us n → Expression isOpen us n

/-- A bare expression, which the end of a block may follow. -/
inductive BareExpression : List Token → Node → Prop
  | plain {isOpen us n} : Expression isOpen us n → BareExpression us n
  | closed {isOpen us n close} : Expression isOpen us n → close.kind = .blockClose →
      BareExpression (us ++ [close]) n

/-- Whole expressions are the choices whose parts are whole expressions: the recursion is closed. -/
theorem expression_iff {isOpen : Bool} {us : List Token} {n : Node} :
    Expression isOpen us n ↔ Ternary Expression isOpen us n :=
  ⟨fun h => by cases h; assumption, .mk⟩

/-! ## How expressions begin -/

/-- The kinds of tokens with which simple expressions start. -/
def startsSimple : TokenKind → Bool
  | .nullWord | .trueWord | .falseWord | .int | .double | .string | .identifier | .thisWord
  | .selfWord | .globalWord | .leftBracket | .leftParen => true
  | _ => false

/-- The kinds of tokens with which primary expressions start. -/
def startsPrimary (k : TokenKind) : Bool :=
  startsSimple k || k == .minus

/-- The kinds of tokens with which expressions start. -/
def startsExpression (k : TokenKind) : Bool :=
  startsPrimary k || k == .not || k == .plus

/-- The list starts with a token of one of the kinds. -/
def Begins (starts : TokenKind → Bool) (us : List Token) : Prop :=
  ∃ t vs, us = t :: vs ∧ starts t.kind = true

/-- What a list begins with does not depend on what follows. -/
theorem Begins.append {starts : TokenKind → Bool} {us : List Token} (h : Begins starts us)
    (vs : List Token) : Begins starts (us ++ vs) := by
  obtain ⟨t, ws, rfl, ht⟩ := h
  exact ⟨t, ws ++ vs, rfl, ht⟩

theorem Begins.imp {starts starts' : TokenKind → Bool} {us : List Token} (h : Begins starts us)
    (himp : ∀ k, starts k = true → starts' k = true) : Begins starts' us := by
  obtain ⟨t, vs, rfl, ht⟩ := h
  exact ⟨t, vs, rfl, himp _ ht⟩

/-- What starts with a token of one of the kinds does not start with a token of another kind. -/
theorem Begins.kindAhead_ne {starts : TokenKind → Bool} {us : List Token} (h : Begins starts us)
    {k : TokenKind} (hk : starts k = false) (vs : List Token) : kindAhead (us ++ vs) ≠ k := by
  obtain ⟨t, ws, rfl, ht⟩ := h
  show t.kind ≠ k
  intro heq
  rw [heq, hk] at ht
  cases ht

section

variable {E : Bool → List Token → Node → Prop} {us : List Token} {n : Node}

/-- Every literal and every name starts a simple expression. -/
theorem Leaf.starts {t : Token} (h : Leaf t n) : startsSimple t.kind = true := by
  cases h with
  | name hk =>
    rcases List.mem_cons.mp hk with hk | hk
    · rw [hk]; rfl
    · simp only [List.mem_cons, List.not_mem_nil, or_false] at hk
      rcases hk with hk | hk | hk <;> rw [hk] <;> rfl
  | nullWord hk | trueWord hk | falseWord hk | int hk | double hk | string hk => rw [hk]; rfl

/-- A simple expression begins with a token that only simple expressions start with. -/
theorem Simple.begins (h : Simple E us n) : Begins startsSimple us := by
  cases h with
  | leaf h => exact ⟨_, _, rfl, h.starts⟩
  | emptyMap hk | map hk | group hk => exact ⟨_, _, rfl, by rw [hk]; rfl⟩

theorem Chain.begins (h : Chain E us n) : Begins startsSimple us := by
  induction h with
  | simple h => exact h.begins
  | step _ _ ih => exact ih.append _

theorem Primary.begins (h : Primary E us n) : Begins startsPrimary us := by
  cases h with
  | plain h => exact h.begins.imp fun k hk => by rw [startsPrimary, hk]; rfl
  | negated hk => exact ⟨_, _, rfl, by rw [hk]; rfl⟩

/-- A sign in front of an operand, or the operand itself. -/
theorem Unary.begins (h : Unary E us n) : Begins startsExpression us := by
  cases h with
  | primary h => exact h.begins.imp fun k hk => by rw [startsExpression, hk]; rfl
  | not hk | plus hk => exact ⟨_, _, rfl, by rw [hk]; rfl⟩

/-- An operation begins with its left operand. -/
theorem Binary.begins {ls : List Operators} (h : Binary E ls us n) :
    Begins startsExpression us := by
  induction h with
  | unary h => exact h.begins
  | operand _ ih => exact ih
  | operation _ _ _ ih _ => exact ih.append _

theorem Ternary.begins {isOpen : Bool} (h : Ternary E isOpen us n) :
    Begins startsExpression us := by
  cases h with
  | plain h => exact h.begins
  | short h => exact h.begins.append _
  | full h => exact h.begins.append _

/-- A whole expression is not empty and begins with a token that starts one. -/
theorem Expression.begins {isOpen : Bool} (h : Expression isOpen us n) :
    Begins startsExpression us :=
  (expression_iff.mp h).begins

end

/-! ## Kinds of tokens that do not occur -/

/-- No token of the list is of one of the kinds. -/
def Avoids (kinds : List TokenKind) (us : List Token) : Prop :=
  ∀ t ∈ us, t.kind ∉ kinds

/-- No token of the list ends the source. -/
abbrev NoEnd (us : List Token) : Prop :=
  Avoids [.eof] us

/-- The kinds of the tokens that end a block or stand outside of blocks. -/
def outerKinds : List TokenKind :=
  [.eof, .fragment, .commentOpen, .commentClose, .literalOpen, .literalClose, .blockOpen,
    .blockClose]

/-- All tokens of the list belong inside a block. -/
abbrev InsideBlock (us : List Token) : Prop :=
  Avoids outerKinds us

section

variable {kinds : List TokenKind}

theorem avoids_nil : Avoids kinds [] :=
  fun _ h => nomatch h

theorem avoids_cons {t : Token} {us : List Token} :
    Avoids kinds (t :: us) ↔ t.kind ∉ kinds ∧ Avoids kinds us :=
  List.forall_mem_cons

theorem Avoids.cons {t : Token} {us : List Token} {k : TokenKind} (ht : t.kind = k)
    (hk : k ∉ kinds) (h : Avoids kinds us) : Avoids kinds (t :: us) :=
  avoids_cons.mpr ⟨ht ▸ hk, h⟩

/-- Avoiding kinds is a matter of the single tokens. -/
theorem avoids_append {us vs : List Token} :
    Avoids kinds (us ++ vs) ↔ Avoids kinds us ∧ Avoids kinds vs :=
  List.forall_mem_append

/-- A list in brackets avoids what the brackets and the list inside avoid. -/
theorem Avoids.between {left right : Token} {us : List Token} {k k' : TokenKind}
    (h : Avoids kinds us) (hleft : left.kind = k) (hk : k ∉ kinds) (hright : right.kind = k')
    (hk' : k' ∉ kinds) : Avoids kinds (left :: (us ++ [right])) :=
  .cons hleft hk (avoids_append.mpr ⟨h, .cons hright hk' avoids_nil⟩)

/-- Two lists with a token between them. -/
theorem Avoids.around {t : Token} {us vs : List Token} {k : TokenKind} (hus : Avoids kinds us)
    (ht : t.kind = k) (hk : k ∉ kinds) (hvs : Avoids kinds vs) : Avoids kinds (us ++ t :: vs) :=
  avoids_append.mpr ⟨hus, .cons ht hk hvs⟩

/-- A list of items avoids kinds if its items and its separator do. -/
theorem avoids_of_separated {α : Type} {sep : TokenKind} {item : List Token → α → Prop}
    {size : Nat} (hsep : sep ∉ kinds)
    (hitem : ∀ {vs a}, vs.length < size → item vs a → Avoids kinds vs) {us : List Token}
    {as : List α} (h : Separated sep item us as) (hlen : us.length < size) : Avoids kinds us := by
  induction h with
  | one ha => exact hitem hlen ha
  | more ha ht _ ih =>
    rw [List.length_append, List.length_cons] at hlen
    exact (hitem (by omega) ha).around ht hsep (ih (by omega))

end

/-- Inside a block the source does not end. -/
theorem Avoids.noEnd {us : List Token} (h : InsideBlock us) : NoEnd us := by
  intro t ht heof
  refine h t ht ?_
  rw [List.mem_singleton.mp heof]
  decide

/-- The tokens in front of the end of the source. -/
def beforeEnd (ts : List Token) : List Token :=
  ts.takeWhile fun t => !t.isEof

/-- A list without an end, in front of the end of the source, is all that is parsed. -/
theorem beforeEnd_append {us rest : List Token} (hus : NoEnd us) (hrest : kindAhead rest = .eof) :
    beforeEnd (us ++ rest) = us := by
  have hall : ∀ t ∈ us, (!t.isEof) = true := by
    intro t ht
    rw [Token.isEof, beq_eq_false_iff_ne.mpr fun heof => hus t ht (List.mem_singleton.mpr heof)]
    rfl
  have hstop : beforeEnd rest = [] := by
    cases rest with
    | nil => rfl
    | cons t ts =>
      rw [kindAhead_cons] at hrest
      unfold beforeEnd
      rw [List.takeWhile_cons, Token.isEof, beq_iff_eq.mpr hrest]
      rfl
  unfold beforeEnd at hstop ⊢
  rw [List.takeWhile_append_of_pos hall, hstop, List.append_nil]

/-- Behind the tokens in front of the end stands the end. -/
theorem exists_beforeEnd (ts : List Token) :
    ∃ rest, ts = beforeEnd ts ++ rest ∧ kindAhead rest = .eof := by
  refine ⟨ts.dropWhile fun t => !t.isEof, (List.takeWhile_append_dropWhile ..).symm, ?_⟩
  induction ts with
  | nil => rfl
  | cons t ts ih =>
    rw [List.dropWhile_cons]
    split
    next => exact ih
    next hend =>
      rw [kindAhead_cons]
      simpa [Token.isEof] using hend

section

variable {E : Bool → List Token → Node → Prop} {size : Nat} {us : List Token} {n : Node}
  (hE : ∀ {isOpen vs m}, vs.length < size → E isOpen vs m → InsideBlock vs)

include hE

theorem Part.insideBlock (h : Part E us n) (hlen : us.length < size) : InsideBlock us := by
  cases h with
  | mk h => exact hE hlen h

/-- A key and its colon, if there are any, stay inside the block too. -/
theorem MapEntry.insideBlock {entry : Entry} (h : MapEntry E us entry) (hlen : us.length < size) :
    InsideBlock us := by
  cases h with
  | plain h => exact hE hlen h
  | keyed hkey _ hcolon hvalue =>
    rw [List.length_append, List.length_cons] at hlen
    exact (hE (by omega) hkey).around hcolon (by decide) (hE (by omega) hvalue)

/-- The brackets of a simple expression are none of the tokens that end a block. -/
theorem Simple.insideBlock (h : Simple E us n) (hlen : us.length ≤ size) : InsideBlock us := by
  cases h with
  | leaf h =>
    have houter : ∀ k ∈ outerKinds, startsSimple k = false := by decide
    refine avoids_cons.mpr ⟨fun hk => ?_, avoids_nil⟩
    have hstart := h.starts
    rw [houter _ hk] at hstart
    cases hstart
  | emptyMap hleft hright => exact avoids_nil.between hleft (by decide) hright (by decide)
  | map hleft hentries hright =>
    rw [List.length_cons, List.length_append, List.length_singleton] at hlen
    have hus := avoids_of_separated (by decide)
      (fun hlt h => MapEntry.insideBlock hE h hlt) hentries (by omega)
    exact hus.between hleft (by decide) hright (by decide)
  | group hleft h hright =>
    rw [List.length_cons, List.length_append, List.length_singleton] at hlen
    exact (hE (by omega) h).between hleft (by decide) hright (by decide)

theorem Arguments.insideBlock {args : List Node} (h : Arguments E us args)
    (hlen : us.length < size) : InsideBlock us := by
  cases h with
  | none => exact avoids_nil
  | some h => exact avoids_of_separated (by decide) (fun hlt h => Part.insideBlock hE h hlt) h hlen

/-- The name behind a point may be a keyword, but not a kind that ends a block. -/
theorem Postfix.insideBlock {m : Node} (h : Postfix E n us m) (hlen : us.length ≤ size) :
    InsideBlock us := by
  cases h with
  | property hdot hword =>
    have houter : ∀ k ∈ outerKinds, k.isWord = false := by decide
    refine .cons hdot (by decide) (avoids_cons.mpr ⟨fun hk => ?_, avoids_nil⟩)
    rw [houter _ hk] at hword
    cases hword
  | index hleft h hright =>
    rw [List.length_cons, List.length_append, List.length_singleton] at hlen
    exact (hE (by omega) h).between hleft (by decide) hright (by decide)
  | call hleft h hright =>
    rw [List.length_cons, List.length_append, List.length_singleton] at hlen
    exact (Arguments.insideBlock hE h (by omega)).between hleft (by decide) hright (by decide)

theorem Chain.insideBlock (h : Chain E us n) (hlen : us.length ≤ size) : InsideBlock us := by
  induction h with
  | simple h => exact h.insideBlock hE hlen
  | step _ hstep ih =>
    rw [List.length_append] at hlen
    exact avoids_append.mpr ⟨ih (by omega), hstep.insideBlock hE (by omega)⟩

theorem Primary.insideBlock (h : Primary E us n) (hlen : us.length ≤ size) : InsideBlock us := by
  cases h with
  | plain h => exact h.insideBlock hE hlen
  | negated hminus h =>
    rw [List.length_cons] at hlen
    exact .cons hminus (by decide) (h.insideBlock hE (by omega))

theorem Unary.insideBlock (h : Unary E us n) (hlen : us.length ≤ size) : InsideBlock us := by
  induction h with
  | primary h => exact h.insideBlock hE hlen
  | not ht _ ih | plus ht _ ih =>
    rw [List.length_cons] at hlen
    exact .cons ht (by decide) (ih (by omega))

/-- No token that ends a block or stands outside of blocks is an operator. -/
def OnlyInner (ls : List Operators) : Prop :=
  ∀ ops ∈ ls, ∀ k ∈ outerKinds, ops.lookup k = none

/-- None of the operators is a kind that ends a block, level by level. -/
theorem Binary.insideBlock {ls : List Operators} (h : Binary E ls us n) (hls : OnlyInner ls)
    (hlen : us.length ≤ size) : InsideBlock us := by
  induction h with
  | unary h => exact h.insideBlock hE hlen
  | operand _ ih => exact ih (fun ops hops => hls ops (List.mem_cons_of_mem _ hops)) hlen
  | operation _ hop _ ih ih' =>
    rw [List.length_append, List.length_cons] at hlen
    refine (ih hls (by omega)).around rfl (fun hk => ?_)
      (ih' (fun ops hops => hls ops (List.mem_cons_of_mem _ hops)) (by omega))
    rw [hls _ List.mem_cons_self _ hk] at hop
    cases hop

/-- The question mark and the colon do not end a block, and the parts are shorter than the choice.
-/
theorem Ternary.insideBlock {isOpen : Bool} (h : Ternary E isOpen us n) (hlen : us.length ≤ size) :
    InsideBlock us := by
  have hls : OnlyInner levels := by
    unfold OnlyInner
    decide
  cases h with
  | plain h => exact h.insideBlock hE hls hlen
  | short hc hq hp =>
    rw [List.length_append, List.length_cons] at hlen
    exact (hc.insideBlock hE hls (by omega)).around hq (by decide) (hE (by omega) hp)
  | full hc hq hp hcolon hn =>
    rw [List.length_append, List.length_cons, List.length_append, List.length_cons] at hlen
    exact (hc.insideBlock hE hls (by omega)).around hq (by decide)
      ((hE (by omega) hp).around hcolon (by decide) (hE (by omega) hn))

end

/-- Expressions nest, so that the proof goes by the number of tokens: the parts of an expression
have fewer of them. -/
theorem Expression.insideBlock {isOpen : Bool} {us : List Token} {n : Node}
    (h : Expression isOpen us n) : InsideBlock us :=
  Ternary.insideBlock (fun _ h => Expression.insideBlock h) (expression_iff.mp h)
    (Nat.le_refl us.length)
termination_by us.length

end Stencil.Derives
