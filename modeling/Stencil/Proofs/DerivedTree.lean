import Stencil.Proofs.Placement
import Stencil.Proofs.TemplateGrammar

/-!
# What holds of every derived tree

A property of nodes that the rules of the grammar hand on, from the parts of a node to the node,
holds of every node that is derived. `Derives.PassedOn` lists what there is to show for expressions,
with one condition for each way to build a node, and `Derives.PassedOnByBlocks` does so for blocks.
What may be asked of the names in a tree is what is known of the words among the tokens.

As in `Stencil.Proofs.ExpressionGrammar`, expressions and bodies nest, so that the proofs go by the
number of tokens.

> `Derives.Expression.holds`: a property that is passed on holds of expressions.
> `Derives.Body.holds`: so it does of the nodes of templates and of bodies.
-/

namespace Stencil.Derives

/-- What is known of the text of a token that is a word. -/
def Spelled (W : String → Prop) (t : Token) : Prop :=
  t.kind.isWord = true → W t.text

/-- Fewer tokens than the number, with words of which something is known. -/
structure Few (W : String → Prop) (size : Nat) (us : List Token) : Prop where
  length_lt : us.length < size
  spelled : ∀ t ∈ us, Spelled W t

namespace Few

variable {W : String → Prop} {size : Nat} {t : Token} {us vs : List Token}

theorem left (h : Few W size (us ++ vs)) : Few W size us := by
  have hlen := h.length_lt
  rw [List.length_append] at hlen
  exact ⟨by omega, fun u hu => h.spelled u (List.mem_append_left _ hu)⟩

theorem right (h : Few W size (us ++ vs)) : Few W size vs := by
  have hlen := h.length_lt
  rw [List.length_append] at hlen
  exact ⟨by omega, fun u hu => h.spelled u (List.mem_append_right _ hu)⟩

theorem head (h : Few W size (t :: us)) : Spelled W t :=
  h.spelled t List.mem_cons_self

/-- Behind a token there is one token less. -/
theorem inside (h : Few W (size + 1) (t :: us)) : Few W size us :=
  ⟨Nat.lt_of_succ_lt_succ h.length_lt, fun u hu => h.spelled u (List.mem_cons_of_mem _ hu)⟩

theorem tail (h : Few W size (t :: us)) : Few W size us :=
  ⟨Nat.lt_of_succ_lt h.length_lt, fun u hu => h.spelled u (List.mem_cons_of_mem _ hu)⟩

end Few

/-- What holds of the values of all items of a list with a separator. -/
theorem holds_of_separated {W : String → Prop} {size : Nat} {α : Type} {sep : TokenKind}
    {item : List Token → α → Prop} {P : α → Prop}
    (hitem : ∀ {vs a}, Few W size vs → item vs a → P a) {us : List Token} {as : List α}
    (h : Separated sep item us as) (hus : Few W size us) : ∀ a ∈ as, P a := by
  induction h with
  | one ha => exact List.forall_mem_singleton.mpr (hitem hus ha)
  | more ha _ _ ih => exact List.forall_mem_cons.mpr ⟨hitem hus.left ha, ih hus.right.tail⟩

/-! ## Expressions -/

/-- The property holds of a node that an expression is if it holds of the parts of the node and what
is known of words is known of the names that the node adds to them. -/
structure PassedOn (W : String → Prop) (Q : Node → Prop) : Prop where
  leaf : ∀ {t n}, Leaf t n → Spelled W t → Q n
  map : ∀ {entries : List Entry}, (∀ e ∈ entries, Q e.value) → Q (.map entries)
  property : ∀ {n : Node} {s : String}, Q n → W s → Q (n.step (.name s))
  index : ∀ {n i : Node}, Q n → Q i → Q (n.step (.expr i))
  call : ∀ {path : List Segment} {name : Segment} {args : List Node},
    Q (.selector (path ++ [name])) → (∀ a ∈ args, Q a) → Q (.call (target path) name args)
  unary : ∀ {op : UnaryOp} {a : Node}, Q a → Q (.unary op a)
  binary : ∀ {op : BinaryOp} {a b : Node}, Q a → Q b → Q (.binary op a b)
  ternary : ∀ {a b : Node} {c : Option Node}, Q a → Q b → (∀ n, c = some n → Q n) →
    Q (.ternary a b c)

section

variable {W : String → Prop} {Q : Node → Prop} {E : Bool → List Token → Node → Prop} {size : Nat}
  {us : List Token} {n : Node} (hQ : PassedOn W Q)
  (hE : ∀ {isOpen vs m}, Few W size vs → E isOpen vs m → Q m)

include hE

/-- The value of an entry keeps what the whole expressions in it have. -/
theorem MapEntry.holds {entry : Entry} (h : MapEntry E us entry) (hus : Few W size us) :
    Q entry.value := by
  cases h with
  | plain h => exact hE hus h
  | keyed _ _ _ h => exact hE hus.right.tail h

/-- So do the arguments of a call. -/
theorem Arguments.holds {args : List Node} (h : Arguments E us args) (hus : Few W size us) :
    ∀ a ∈ args, Q a := by
  cases h with
  | none => exact List.forall_mem_nil _
  | some h =>
    refine holds_of_separated (fun hvs h => ?_) h hus
    cases h with
    | mk h => exact hE hvs h

include hQ

/-- A simple expression has the property if the whole expressions in it have, and its own text comes
from its tokens. -/
theorem Simple.holds (h : Simple E us n) (hus : Few W (size + 1) us) : Q n := by
  cases h with
  | leaf h => exact hQ.leaf h hus.head
  | emptyMap _ _ => exact hQ.map (List.forall_mem_nil _)
  | map _ h _ =>
    exact hQ.map (holds_of_separated (fun hvs h => h.holds (Q := Q) hE hvs) h hus.inside.left)
  | group _ h _ => exact hE hus.inside.left h

/-- A step behind an operand passes the property on from the operand and from what stands in the
step. -/
theorem Postfix.holds {m : Node} (h : Postfix E n us m) (hus : Few W (size + 1) us) (hn : Q n) :
    Q m := by
  cases h with
  | property _ hword => exact hQ.property hn (hus.tail.head hword)
  | index _ h _ => exact hQ.index hn (hE hus.inside.left h)
  | call _ h _ => exact hQ.call hn (h.holds (Q := Q) hE hus.inside.left)

theorem Chain.holds (h : Chain E us n) (hus : Few W (size + 1) us) : Q n := by
  induction h with
  | simple h => exact h.holds hQ hE hus
  | step _ hstep ih => exact hstep.holds hQ hE hus.right (ih hus.left)

theorem Primary.holds (h : Primary E us n) (hus : Few W (size + 1) us) : Q n := by
  cases h with
  | plain h => exact h.holds hQ hE hus
  | negated _ h => exact hQ.unary (h.holds hQ hE hus.tail)

/-- Signs and negations pass the property on. -/
theorem Unary.holds (h : Unary E us n) (hus : Few W (size + 1) us) : Q n := by
  induction h with
  | primary h => exact h.holds hQ hE hus
  | not _ _ ih => exact hQ.unary (ih hus.tail)
  | plus _ _ ih => exact ih hus.tail

/-- Operators with two operands pass the property on, level by level. -/
theorem Binary.holds {ls : List Grammar.Operators} (h : Binary E ls us n)
    (hus : Few W (size + 1) us) : Q n := by
  induction h with
  | unary h => exact h.holds hQ hE hus
  | operand _ ih => exact ih hus
  | operation _ _ _ ih ih' => exact hQ.binary (ih hus.left) (ih' hus.right.tail)

/-- A choice passes the property on from its three parts; a missing last part is no node. -/
theorem Ternary.holds {isOpen : Bool} (h : Ternary E isOpen us n) (hus : Few W (size + 1) us) :
    Q n := by
  cases h with
  | plain h => exact h.holds hQ hE hus
  | short hc _ hp =>
    exact hQ.ternary (hc.holds hQ hE hus.left) (hE hus.right.inside hp) fun m hm => nomatch hm
  | full hc _ hp _ hn =>
    refine hQ.ternary (hc.holds hQ hE hus.left) (hE hus.right.inside.left hp) fun m hm => ?_
    cases hm
    exact hE hus.right.inside.right.tail hn

end

/-- **A property that is passed on holds of every expression.** -/
theorem Expression.holds {W : String → Prop} {Q : Node → Prop} (hQ : PassedOn W Q) {isOpen : Bool}
    {us : List Token} {n : Node} (h : Expression isOpen us n) (hus : ∀ t ∈ us, Spelled W t) : Q n :=
  Ternary.holds hQ (fun hvs h => Expression.holds hQ h hvs.spelled) (expression_iff.mp h)
    ⟨Nat.lt_succ_self us.length, hus⟩
termination_by us.length
decreasing_by exact hvs.length_lt

/-! ## Templates -/

/-- The property holds of the nodes among the items. -/
def ItemsHold (Q : Node → Prop) (items : List Item) : Prop :=
  ∀ n, .node n ∈ items → Q n

/-- The property holds of a block if it holds of the parts of the block and what is known of words
is known of the names that the block binds or calls. -/
structure PassedOnByBlocks (W : String → Prop) (Q : Node → Prop) : Prop extends PassedOn W Q where
  importFile : ∀ {path : String}, Q (.importFile path)
  binding : ∀ {name : String} {value : Node}, W name → Q value → Q (.binding name value)
  statements : ∀ {items : List Item}, ItemsHold Q items → Q (.statements items)
  macroDef : ∀ {name : String} {params : List String} {body : List Item}, W name →
    (∀ p ∈ params, W p) → ItemsHold Q body → Q (.macroDef name params body)
  loop : ∀ {names : List String} {collection : Node} {body : List Item}
    {otherwise : Option (List Item)}, (∀ s ∈ names, W s) → Q collection → ItemsHold Q body →
    (∀ items, otherwise = some items → ItemsHold Q items) →
    Q (.loop names collection body otherwise)
  /-- The condition of the arm that an `else` adds. -/
  otherwise : Q (.bool true)
  conditional : ∀ {arms : List Arm},
    (∀ condition body, .mk condition body ∈ arms → Q condition ∧ ItemsHold Q body) →
    Q (.conditional arms)
  callBody : ∀ {name : String} {args : List Node} {items : List Item}, W name →
    (∀ a ∈ args, Q a) → ItemsHold Q items →
    Q (.call none (.name name) (args ++ [.statements items]))

section

variable {W : String → Prop} {Q : Node → Prop} {size : Nat} {us : List Token}

theorem BoundName.holds {name : String} (h : BoundName us name) (hus : Few W size us) : W name := by
  cases h with
  | mk ht => exact hus.head (by rw [ht]; rfl)

/-- The names that a loop binds are spelled by its tokens. -/
theorem LoopNames.holds {names : List String} (h : LoopNames us names) (hus : Few W size us) :
    ∀ s ∈ names, W s := by
  cases h with
  | value hv => exact List.forall_mem_singleton.mpr (hv.holds hus)
  | keyed hk _ hv =>
    exact List.forall_mem_cons.mpr
      ⟨hk.holds hus.left, List.forall_mem_singleton.mpr (hv.holds hus.right.tail)⟩

/-- The parameters of a macro are spelled by its tokens. -/
theorem Parameters.holds {params : List String} (h : Parameters us params) (hus : Few W size us) :
    ∀ p ∈ params, W p := by
  cases h with
  | missing | empty => exact List.forall_mem_nil _
  | some _ h _ => exact holds_of_separated (fun hvs h => h.holds hvs) h hus.tail.left

/-- An expression up to the end of its block has fewer tokens than that, so the induction applies to
it. -/
theorem Closed.holds (hQ : PassedOn W Q) {n : Node} (h : Closed us n) (hus : Few W size us) :
    Q n := by
  cases h with
  | mk h _ => exact h.holds hQ hus.left.spelled

theorem CallArguments.holds (hQ : PassedOn W Q) {args : List Node} (h : CallArguments us args)
    (hus : Few W size us) : ∀ a ∈ args, Q a := by
  cases h with
  | missing => exact List.forall_mem_nil _
  | given _ h _ => exact h.holds (fun hvs h => h.holds hQ hvs.spelled) hus.tail.left

variable {n : Node} (hQ : PassedOnByBlocks W Q)

include hQ

variable {B : List Token → List Item → List TokenKind → Prop}
  (hB : ∀ {vs items stops}, Few W size vs → B vs items stops → ItemsHold Q items)

include hB

omit hQ in
/-- The items of a body in front of a stop are those of the body. -/
theorem Inner.holds {items : List Item} {stops : List TokenKind} (h : Inner B us items stops)
    (hus : Few W size us) : ItemsHold Q items := by
  cases h with
  | mk h _ => exact hB hus.left h

omit hQ in
/-- The items behind `else`, if there are any. -/
theorem Otherwise.holds {otherwise : Option (List Item)} (h : Otherwise B us otherwise)
    (hus : Few W size us) : ∀ items, otherwise = Option.some items → ItemsHold Q items := by
  intro items hitems
  cases hitems
  cases h with
  | some _ _ h => exact h.holds hB hus.tail.tail

/-- An assignment has a value or a body, never both. -/
theorem VarBlock.holds (h : VarBlock B us n) (hus : Few W size us) : Q n := by
  cases h with
  | value _ hname _ hvalue =>
    exact hQ.binding (hname.holds hus.tail.left) (hvalue.holds hQ.toPassedOn hus.tail.right.tail)
  | body _ hname _ hbody _ =>
    exact hQ.binding (hname.holds hus.tail.left)
      (hQ.statements (hbody.holds hB hus.tail.right.tail.left))

theorem MacroBlock.holds (h : MacroBlock B us n) (hus : Few W size us) : Q n := by
  cases h with
  | mk _ hname hparams _ hbody _ =>
    have hparts := hus.tail
    exact hQ.macroDef (hname.holds hparts.left) (hparams.holds hparts.right.left)
      (hbody.holds hB hparts.right.right.tail.left)

theorem ForBlock.holds (h : ForBlock B us n) (hus : Few W size us) : Q n := by
  cases h with
  | mk _ hnames _ hcollection hbody hotherwise _ =>
    have hparts := hus.tail.right.tail
    exact hQ.loop (hnames.holds hus.tail.left) (hcollection.holds hQ.toPassedOn hparts.left)
      (hbody.holds hB hparts.right.left) (hotherwise.holds hB hparts.right.right.left)

/-- The arms of a condition, one after the other, and the items behind `else`. -/
theorem IfBlock.holds (h : IfBlock B us n) (hus : Few W size us) : Q n := by
  cases h with
  | @mk _ _ arms _ otherwise _ _ harms hotherwise _ =>
    have hwritten : ∀ a ∈ arms,
        ∀ condition body, a = .mk condition body → Q condition ∧ ItemsHold Q body := by
      refine holds_of_separated (fun hvs h => ?_) harms hus.tail.left
      intro condition body ha
      cases ha
      cases h with
      | mk hc hbody => exact ⟨hc.holds hQ.toPassedOn hvs.left, hbody.holds hB hvs.right⟩
    refine hQ.conditional fun condition body ha => ?_
    rcases List.mem_append.mp ha with ha | ha
    · exact hwritten _ ha condition body rfl
    · cases otherwise with
      | none => cases ha
      | some items =>
        cases List.mem_singleton.mp ha
        exact ⟨hQ.otherwise, hotherwise.holds hB hus.tail.right.left _ rfl⟩

theorem CallBlock.holds (h : CallBlock B us n) (hus : Few W size us) : Q n := by
  cases h with
  | mk _ hname hargs _ hbody _ =>
    have hparts := hus.tail
    exact hQ.callBody (hname.holds hparts.left) (hargs.holds hQ.toPassedOn hparts.right.left)
      (hbody.holds hB hparts.right.right.tail.left)

/-- The inside of a block, construct by construct. -/
theorem Block.holds (h : Block B us n) (hus : Few W size us) : Q n := by
  cases h with
  | expression h _ => exact h.holds hQ.toPassedOn hus.left.spelled
  | importBlock h =>
    cases h
    exact hQ.importFile
  | varBlock h => exact h.holds hQ hB hus
  | macroBlock h => exact h.holds hQ hB hus
  | forBlock h => exact h.holds hQ hB hus
  | ifBlock h => exact h.holds hQ hB hus
  | callBlock h => exact h.holds hQ hB hus

/-- An element gives at most one item, and only a block gives a node. -/
theorem Element.holds {item : Option Item} {stops : List TokenKind} (h : Element B us item stops)
    (hus : Few W (size + 1) us) : ItemsHold Q item.toList := by
  intro m hm
  cases h with
  | fragment | literal => cases List.mem_singleton.mp hm
  | comment | emptyBlock | blockClose => cases hm
  | block _ _ h =>
    cases List.mem_singleton.mp hm
    exact h.holds hQ hB hus.inside

/-- The elements of a body, by induction over their list. -/
theorem Elements.holds {items : List Item} {stops : List TokenKind}
    (h : Elements B us items stops) (hus : Few W (size + 1) us) : ItemsHold Q items := by
  induction h with
  | nil => exact fun m hm => nomatch hm
  | cons h _ ih =>
    intro m hm
    rcases List.mem_append.mp hm with hm | hm
    · exact h.holds hQ hB hus.left m hm
    · exact ih hus.right m hm

end

/-- **A property that is passed on holds of the nodes of every body.** -/
theorem Body.holds {W : String → Prop} {Q : Node → Prop} (hQ : PassedOnByBlocks W Q)
    {us : List Token} {items : List Item} {stops : List TokenKind} (h : Body us items stops)
    (hus : ∀ t ∈ us, Spelled W t) : ItemsHold Q items :=
  Elements.holds hQ (fun hvs h => Body.holds hQ h hvs.spelled) (body_iff.mp h)
    ⟨Nat.lt_succ_self us.length, hus⟩
termination_by us.length
decreasing_by exact hvs.length_lt

end Stencil.Derives
