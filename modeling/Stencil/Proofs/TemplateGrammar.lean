import Stencil.Grammar.Template
import Stencil.Proofs.ExpressionGrammar

/-!
# The grammar of templates

Which tokens derive which items, said without a parser. As for expressions, the rules take the
relation for the bodies of constructs as an argument, and `Derives.Body` is the least relation that
closes them.

The last argument of a body is the kinds of tokens that end it: a block whose first token is of such
a kind is no block of the body. A body inside a construct stands together with the opening of the
block that ends it (`Derives.Inner`); what follows this opening belongs to the construct. Nothing
here hands the kinds on to the bodies inside.

> `Derives.body_iff`: a body is a list of elements whose bodies are bodies.
> `Derives.Block.begins`: the kinds of tokens with which the inside of a block can start.
> `Derives.Body.noEnd`: a body has no end of the source in it.
-/

namespace Stencil.Derives

open Grammar

/-! ## Comments and literal blocks -/

/-- Tokens among which comments open and close in pairs. -/
inductive Balanced : List Token → Prop
  | nil : Balanced []
  | other {t us} : t.kind ∉ [.eof, .commentOpen, .commentClose] → Balanced us → Balanced (t :: us)
  | comment {left us right vs} : left.kind = .commentOpen → Balanced us →
      right.kind = .commentClose → Balanced vs → Balanced (left :: (us ++ right :: vs))

/-- The inside of a literal block. -/
def Literal (us : List Token) : Prop :=
  ∀ t ∈ us, t.kind ∉ [.eof, .literalClose]

/-- The texts of the tokens, one after the other. -/
def textOf : List Token → String
  | [] => ""
  | t :: us => t.text ++ textOf us

/-! ## Names -/

/-- A name that is bound. -/
inductive BoundName : List Token → String → Prop
  | mk {t} : t.kind = .identifier → BoundName [t] t.text

/-- The names of a loop: one for the value, or one for the key and one for the value. -/
inductive LoopNames : List Token → List String → Prop
  | value {us v} : BoundName us v → LoopNames us [v]
  | keyed {us k colon vs v} : BoundName us k → colon.kind = .colon → BoundName vs v →
      LoopNames (us ++ colon :: vs) [k, v]

/-- The parameters of a macro, in brackets that may be missing. -/
inductive Parameters : List Token → List String → Prop
  | missing : Parameters [] []
  | empty {left right} : left.kind = .leftParen → right.kind = .rightParen →
      Parameters [left, right] []
  | some {left us params right} : left.kind = .leftParen → Separated .comma BoundName us params →
      right.kind = .rightParen → Parameters (left :: (us ++ [right])) params

/-- The arguments of a call with a body, in brackets that may be missing. -/
inductive CallArguments : List Token → List Node → Prop
  | missing : CallArguments [] []
  | given {left us args right} : left.kind = .leftParen → Arguments Expression us args →
      right.kind = .rightParen → CallArguments (left :: (us ++ [right])) args

/-! ## Constructs -/

/-- The close sequence of a construct behind the opening of its last block. -/
inductive Closing (keyword : TokenKind) : List Token → Prop
  | mk {slash word close} : slash.kind = .slash → word.kind = keyword → close.kind = .blockClose →
      Closing keyword [slash, word, close]

/-- An expression up to and with the end of its block. -/
inductive Closed : List Token → Node → Prop
  | mk {isOpen us n close} : Expression isOpen us n → close.kind = .blockClose →
      Closed (us ++ [close]) n

section

variable (B : List Token → List Item → List TokenKind → Prop)

/-- The body of a construct up to and with the opening of the block that ends it. -/
inductive Inner : List Token → List Item → List TokenKind → Prop
  | mk {us items stops left} : B us items stops → left.kind = .blockOpen →
      Inner (us ++ [left]) items stops

/-- What follows `else`, if there is one, behind the opening of its block. -/
inductive Otherwise : List Token → Option (List Item) → Prop
  | none : Otherwise [] none
  | some {word close us items} : word.kind = .elseWord → close.kind = .blockClose →
      Inner B us items [.slash] → Otherwise (word :: close :: us) (some items)

/-- A condition with its body. -/
inductive ArmOf : List Token → Arm → Prop
  | mk {us c vs items} : Closed us c → Inner B vs items [.slash, .elseIfWord, .elseWord] →
      ArmOf (us ++ vs) (.mk c items)

/-- The arm that an `else` adds, whose condition is true. -/
def lastArm : Option (List Item) → List Arm
  | none => []
  | some items => [.mk (.bool true) items]

/-- `import "path"`. -/
inductive ImportBlock : List Token → Node → Prop
  | mk {word path close} : word.kind = .importWord → path.kind = .string →
      close.kind = .blockClose → ImportBlock [word, path, close] (.importFile (unquote path.text))

/-- `var name = value`, or `var name` with a body that is the value. -/
inductive VarBlock : List Token → Node → Prop
  | value {word us name assign vs value} : word.kind = .varWord → BoundName us name →
      assign.kind = .assign → Closed vs value →
      VarBlock (word :: (us ++ assign :: vs)) (.binding name value)
  | body {word us name close vs items ws} : word.kind = .varWord → BoundName us name →
      close.kind = .blockClose → Inner B vs items [.slash] → Closing .varWord ws →
      VarBlock (word :: (us ++ close :: (vs ++ ws))) (.binding name (.statements items))

/-- `macro name(parameters)` with its body. -/
inductive MacroBlock : List Token → Node → Prop
  | mk {word us name ps params close vs items ws} : word.kind = .macroWord →
      BoundName us name → Parameters ps params → close.kind = .blockClose →
      Inner B vs items [.slash] → Closing .macroWord ws →
      MacroBlock (word :: (us ++ (ps ++ close :: (vs ++ ws)))) (.macroDef name params items)

/-- `for names in collection` with its body and a body for the empty collection after `else`. -/
inductive ForBlock : List Token → Node → Prop
  | mk {word ns names inWord us c vs items os otherwise ws} : word.kind = .forWord →
      LoopNames ns names → inWord.kind = .inWord → Closed us c →
      Inner B vs items [.slash, .elseWord] → Otherwise B os otherwise → Closing .forWord ws →
      ForBlock (word :: (ns ++ inWord :: (us ++ (vs ++ (os ++ ws)))))
        (.loop names c items otherwise)

/-- `if condition` with its body, any number of `elseif` arms and at most one `else`. -/
inductive IfBlock : List Token → Node → Prop
  | mk {word us arms os otherwise ws} : word.kind = .ifWord →
      Separated .elseIfWord (ArmOf B) us arms → Otherwise B os otherwise → Closing .ifWord ws →
      IfBlock (word :: (us ++ (os ++ ws))) (.conditional (arms ++ lastArm otherwise))

/-- `call name(arguments)` with a body, which becomes the last argument. -/
inductive CallBlock : List Token → Node → Prop
  | mk {word us name as args close vs items ws} : word.kind = .callWord → BoundName us name →
      CallArguments as args → close.kind = .blockClose → Inner B vs items [.slash] →
      Closing .callWord ws →
      CallBlock (word :: (us ++ (as ++ close :: (vs ++ ws))))
        (.call none (.name name) (args ++ [.statements items]))

/-- The inside of a block up to and with its end. The end of a construct is that of its close
sequence. -/
inductive Block : List Token → Node → Prop
  | expression {isOpen us n close} : Expression isOpen us n → close.kind = .blockClose →
      Block (us ++ [close]) n
  | importBlock {us n} : ImportBlock us n → Block us n
  | varBlock {us n} : VarBlock B us n → Block us n
  | macroBlock {us n} : MacroBlock B us n → Block us n
  | forBlock {us n} : ForBlock B us n → Block us n
  | ifBlock {us n} : IfBlock B us n → Block us n
  | callBlock {us n} : CallBlock B us n → Block us n

/-- An element of a body, which is one item or none. -/
inductive Element : List Token → Option Item → List TokenKind → Prop
  | fragment {t stops} : t.kind = .fragment → Element [t] (some (.text t.text)) stops
  | comment {left us right stops} : left.kind = .commentOpen → Balanced us →
      right.kind = .commentClose → Element (left :: (us ++ [right])) none stops
  | literal {left us right stops} : left.kind = .literalOpen → Literal us →
      right.kind = .literalClose →
      Element (left :: (us ++ [right])) (some (.text (textOf us))) stops
  | emptyBlock {left right stops} : left.kind = .blockOpen → right.kind = .blockClose →
      Element [left, right] none stops
  | blockClose {t stops} : t.kind = .blockClose → Element [t] none stops
  | block {left us n stops} : left.kind = .blockOpen → kindAhead us ∉ stops → Block B us n →
      Element (left :: us) (some (.node n)) stops

/-- Elements one after the other. -/
inductive Elements : List Token → List Item → List TokenKind → Prop
  | nil {stops} : Elements [] [] stops
  | cons {us item vs items stops} : Element B us item stops → Elements vs items stops →
      Elements (us ++ vs) (item.toList ++ items) stops

end

/-- A template, or the body of a construct, that ends in front of a block which opens with one of
the kinds. -/
inductive Body : List Token → List Item → List TokenKind → Prop
  | mk {us items stops} : Elements Body us items stops → Body us items stops

/-- Bodies are lists of elements whose bodies are bodies: the recursion is closed. -/
theorem body_iff {us : List Token} {items : List Item} {stops : List TokenKind} :
    Body us items stops ↔ Elements Body us items stops :=
  ⟨fun h => by cases h; assumption, .mk⟩

/-! ## How blocks begin -/

/-- The kinds of tokens with which the inside of a block starts. -/
def startsBlock : TokenKind → Bool
  | .varWord | .macroWord | .forWord | .ifWord | .callWord | .importWord => true
  | k => startsExpression k

/-- A block may start with whatever an expression may start with. -/
theorem startsBlock_of_startsExpression {k : TokenKind} (h : startsExpression k = true) :
    startsBlock k = true := by
  unfold startsBlock
  split <;> first | rfl | exact h

theorem Closed.begins {us : List Token} {n : Node} (h : Closed us n) :
    Begins startsExpression us := by
  cases h with
  | mk h => exact h.begins.append _

/-- A close sequence starts with a slash, whatever follows it. -/
theorem Closing.kindAhead_append {keyword : TokenKind} {us : List Token} (h : Closing keyword us)
    (vs : List Token) : kindAhead (us ++ vs) = .slash := by
  cases h with
  | mk hslash => exact hslash

section

variable {B : List Token → List Item → List TokenKind → Prop} {us : List Token} {n : Node}

theorem ImportBlock.kindAhead (h : ImportBlock us n) : kindAhead us = .importWord := by
  cases h with
  | mk hword => exact hword

/-- Each construct is told by the keyword that it starts with. -/
theorem VarBlock.kindAhead (h : VarBlock B us n) : kindAhead us = .varWord := by
  cases h with
  | value hword | body hword => exact hword

theorem MacroBlock.kindAhead (h : MacroBlock B us n) : kindAhead us = .macroWord := by
  cases h with
  | mk hword => exact hword

theorem ForBlock.kindAhead (h : ForBlock B us n) : kindAhead us = .forWord := by
  cases h with
  | mk hword => exact hword

theorem IfBlock.kindAhead (h : IfBlock B us n) : kindAhead us = .ifWord := by
  cases h with
  | mk hword => exact hword

theorem CallBlock.kindAhead (h : CallBlock B us n) : kindAhead us = .callWord := by
  cases h with
  | mk hword => exact hword

/-- The inside of a block is not empty and begins with a token that starts one. -/
theorem Block.begins (h : Block B us n) : Begins startsBlock us := by
  have hword : ∀ {k : TokenKind}, Stencil.kindAhead us = k → startsBlock k = true → k ≠ .eof →
      Begins startsBlock us := by
    intro k hk hstarts hend
    obtain ⟨t, vs, rfl⟩ := exists_cons_of_kindAhead (hk ▸ hend)
    rw [kindAhead_cons] at hk
    exact ⟨t, vs, rfl, hk ▸ hstarts⟩
  cases h with
  | expression h =>
    exact (h.begins.append _).imp fun _ => startsBlock_of_startsExpression
  | importBlock h => exact hword h.kindAhead rfl (by decide)
  | varBlock h => exact hword h.kindAhead rfl (by decide)
  | macroBlock h => exact hword h.kindAhead rfl (by decide)
  | forBlock h => exact hword h.kindAhead rfl (by decide)
  | ifBlock h => exact hword h.kindAhead rfl (by decide)
  | callBlock h => exact hword h.kindAhead rfl (by decide)

/-- A block that ends a body starts with another token than every block inside it. -/
theorem Block.kindAhead_ne {k : TokenKind} (h : Block B us n) (hk : startsBlock k = false) :
    Stencil.kindAhead us ≠ k := by
  have hne := h.begins.kindAhead_ne hk []
  rwa [List.append_nil] at hne

theorem Block.kindAhead_append (h : Block B us n) (vs : List Token) :
    Stencil.kindAhead (us ++ vs) = Stencil.kindAhead us :=
  Stencil.kindAhead_append (h.kindAhead_ne rfl) vs

end

/-! ## The end of the source -/

/-- Comments nest to the end of the outermost one, which is not the end of the source. -/
theorem Balanced.noEnd {us : List Token} (h : Balanced us) : NoEnd us := by
  induction h with
  | nil => exact avoids_nil
  | other ht _ ih =>
    refine avoids_cons.mpr ⟨fun heof => ht ?_, ih⟩
    rw [List.mem_singleton.mp heof]
    decide
  | comment hleft _ hright _ ih ih' =>
    exact .cons hleft (by decide) (ih.around hright (by decide) ih')

theorem Literal.noEnd {us : List Token} (h : Literal us) : NoEnd us := by
  intro t ht heof
  refine h t ht ?_
  rw [List.mem_singleton.mp heof]
  decide

/-- A name that is bound is one token. -/
theorem BoundName.insideBlock {us : List Token} {name : String} (h : BoundName us name) :
    InsideBlock us := by
  cases h with
  | mk ht => exact .cons ht (by decide) avoids_nil

theorem LoopNames.insideBlock {us : List Token} {names : List String} (h : LoopNames us names) :
    InsideBlock us := by
  cases h with
  | value hv => exact hv.insideBlock
  | keyed hk hcolon hv => exact hk.insideBlock.around hcolon (by decide) hv.insideBlock

/-- Parameters, with their brackets or without any. -/
theorem Parameters.insideBlock {us : List Token} {params : List String} (h : Parameters us params) :
    InsideBlock us := by
  cases h with
  | missing => exact avoids_nil
  | empty hleft hright => exact avoids_nil.between hleft (by decide) hright (by decide)
  | @some _ us _ _ hleft hparams hright =>
    have hus := avoids_of_separated (by decide) (fun _ h => BoundName.insideBlock h) hparams
      (Nat.lt_succ_self us.length)
    exact hus.between hleft (by decide) hright (by decide)

theorem CallArguments.insideBlock {us : List Token} {args : List Node} (h : CallArguments us args) :
    InsideBlock us := by
  cases h with
  | missing => exact avoids_nil
  | @given _ us _ _ hleft hargs hright =>
    have hus := Arguments.insideBlock (fun _ h => Expression.insideBlock h) hargs
      (Nat.lt_succ_self us.length)
    exact hus.between hleft (by decide) hright (by decide)

/-- A close sequence holds no end of the source, since its keyword is none. -/
theorem Closing.noEnd {keyword : TokenKind} (hkeyword : keyword ≠ .eof) {us : List Token}
    (h : Closing keyword us) : NoEnd us := by
  cases h with
  | mk hslash hword hclose =>
    have hword' : keyword ∉ [TokenKind.eof] := fun h => hkeyword (List.mem_singleton.mp h)
    exact .cons hslash (by decide) (.cons hword hword' (.cons hclose (by decide) avoids_nil))

theorem Closed.noEnd {us : List Token} {n : Node} (h : Closed us n) : NoEnd us := by
  cases h with
  | mk h hclose => exact h.insideBlock.noEnd.around hclose (by decide) avoids_nil

section

variable {B : List Token → List Item → List TokenKind → Prop} {size : Nat} {us : List Token}
  (hB : ∀ {vs items stops}, vs.length < size → B vs items stops → NoEnd vs)

include hB

/-- A body and the opening of the block that ends it. -/
theorem Inner.noEnd {items : List Item} {stops : List TokenKind} (h : Inner B us items stops)
    (hlen : us.length ≤ size) : NoEnd us := by
  cases h with
  | mk h hleft =>
    rw [List.length_append, List.length_singleton] at hlen
    exact (hB (by omega) h).around hleft (by decide) avoids_nil

/-- The part behind `else` is shorter than the construct around it. -/
theorem Otherwise.noEnd {otherwise : Option (List Item)} (h : Otherwise B us otherwise)
    (hlen : us.length ≤ size) : NoEnd us := by
  cases h with
  | none => exact avoids_nil
  | some hword hclose hitems =>
    rw [List.length_cons, List.length_cons] at hlen
    exact .cons hword (by decide) (.cons hclose (by decide)
      (Inner.noEnd hB hitems (by omega)))

theorem ArmOf.noEnd {arm : Arm} (h : ArmOf B us arm) (hlen : us.length ≤ size) : NoEnd us := by
  cases h with
  | mk hc hitems =>
    rw [List.length_append] at hlen
    exact avoids_append.mpr ⟨hc.noEnd, Inner.noEnd hB hitems (by omega)⟩

omit hB in
theorem ImportBlock.noEnd {n : Node} (h : ImportBlock us n) : NoEnd us := by
  cases h with
  | mk hword hpath hclose =>
    refine .cons hword (by decide) (.cons hpath (by decide) ?_)
    exact .cons hclose (by decide) avoids_nil

/-- An assignment, with an expression or with a body and its close sequence. -/
theorem VarBlock.noEnd {n : Node} (h : VarBlock B us n) (hlen : us.length ≤ size) : NoEnd us := by
  cases h with
  | value hword hname hassign hvalue =>
    exact .cons hword (by decide)
      (hname.insideBlock.noEnd.around hassign (by decide) hvalue.noEnd)
  | body hword hname hclose hitems hclosing =>
    simp only [List.length_cons, List.length_append] at hlen
    refine .cons hword (by decide) (hname.insideBlock.noEnd.around hclose (by decide) ?_)
    exact avoids_append.mpr ⟨Inner.noEnd hB hitems (by omega), hclosing.noEnd (by decide)⟩

theorem MacroBlock.noEnd {n : Node} (h : MacroBlock B us n) (hlen : us.length ≤ size) :
    NoEnd us := by
  cases h with
  | mk hword hname hparams hclose hitems hclosing =>
    simp only [List.length_cons, List.length_append] at hlen
    refine .cons hword (by decide) (avoids_append.mpr ⟨hname.insideBlock.noEnd, ?_⟩)
    refine hparams.insideBlock.noEnd.around hclose (by decide) ?_
    exact avoids_append.mpr ⟨Inner.noEnd hB hitems (by omega), hclosing.noEnd (by decide)⟩

theorem ForBlock.noEnd {n : Node} (h : ForBlock B us n) (hlen : us.length ≤ size) : NoEnd us := by
  cases h with
  | mk hword hnames hin hc hitems hotherwise hclosing =>
    simp only [List.length_cons, List.length_append] at hlen
    refine .cons hword (by decide) (hnames.insideBlock.noEnd.around hin (by decide) ?_)
    refine avoids_append.mpr ⟨hc.noEnd, avoids_append.mpr ⟨Inner.noEnd hB hitems (by omega), ?_⟩⟩
    exact avoids_append.mpr ⟨Otherwise.noEnd hB hotherwise (by omega), hclosing.noEnd (by decide)⟩

/-- A condition holds no end: its arms, what stands behind `else` and the close sequence do not. -/
theorem IfBlock.noEnd {n : Node} (h : IfBlock B us n) (hlen : us.length ≤ size) : NoEnd us := by
  cases h with
  | mk hword harms hotherwise hclosing =>
    simp only [List.length_cons, List.length_append] at hlen
    have harms := avoids_of_separated (by decide)
      (fun hlt h => ArmOf.noEnd hB h (Nat.le_of_lt hlt)) harms (by omega)
    refine .cons hword (by decide) (avoids_append.mpr ⟨harms, ?_⟩)
    exact avoids_append.mpr ⟨Otherwise.noEnd hB hotherwise (by omega), hclosing.noEnd (by decide)⟩

theorem CallBlock.noEnd {n : Node} (h : CallBlock B us n) (hlen : us.length ≤ size) :
    NoEnd us := by
  cases h with
  | mk hword hname hargs hclose hitems hclosing =>
    simp only [List.length_cons, List.length_append] at hlen
    refine .cons hword (by decide) (avoids_append.mpr ⟨hname.insideBlock.noEnd, ?_⟩)
    refine hargs.insideBlock.noEnd.around hclose (by decide) ?_
    exact avoids_append.mpr ⟨Inner.noEnd hB hitems (by omega), hclosing.noEnd (by decide)⟩

/-- The inside of a block holds no end of the source. -/
theorem Block.noEnd {n : Node} (h : Block B us n) (hlen : us.length ≤ size) : NoEnd us := by
  cases h with
  | expression h hclose => exact h.insideBlock.noEnd.around hclose (by decide) avoids_nil
  | importBlock h => exact h.noEnd
  | varBlock h => exact VarBlock.noEnd hB h hlen
  | macroBlock h => exact MacroBlock.noEnd hB h hlen
  | forBlock h => exact ForBlock.noEnd hB h hlen
  | ifBlock h => exact IfBlock.noEnd hB h hlen
  | callBlock h => exact CallBlock.noEnd hB h hlen

/-- The end of the source stands in no element of a body. -/
theorem Element.noEnd {item : Option Item} {stops : List TokenKind} (h : Element B us item stops)
    (hlen : us.length ≤ size) : NoEnd us := by
  cases h with
  | fragment ht | blockClose ht => exact .cons ht (by decide) avoids_nil
  | comment hleft h hright => exact h.noEnd.between hleft (by decide) hright (by decide)
  | literal hleft h hright => exact h.noEnd.between hleft (by decide) hright (by decide)
  | emptyBlock hleft hright => exact avoids_nil.between hleft (by decide) hright (by decide)
  | block hleft _ h =>
    rw [List.length_cons] at hlen
    exact .cons hleft (by decide) (Block.noEnd hB h (by omega))

/-- Nor does it stand between them, by induction over the list. -/
theorem Elements.noEnd {items : List Item} {stops : List TokenKind} (h : Elements B us items stops)
    (hlen : us.length ≤ size) : NoEnd us := by
  induction h with
  | nil => exact avoids_nil
  | cons h _ ih =>
    rw [List.length_append] at hlen
    exact avoids_append.mpr ⟨Element.noEnd hB h (by omega), ih (by omega)⟩

end

/-- As for expressions, the bodies inside a body have fewer tokens. -/
theorem Body.noEnd {us : List Token} {items : List Item} {stops : List TokenKind}
    (h : Body us items stops) : NoEnd us :=
  Elements.noEnd (fun _ h => Body.noEnd h) (body_iff.mp h) (Nat.le_refl us.length)
termination_by us.length

end Stencil.Derives
