import Stencil.Output.PseudoSource
import Stencil.Proofs.BlockScan
import Stencil.Proofs.DecimalText
import Stencil.Proofs.ExpressionViable

/-!
# Operators shown and parsed again

Pseudo-source need not parse, but that of operators over literals and names does, and to the tree
that it shows. Every operation stands in brackets, so that no level of precedence matters. What
remains is the scanner: each number, name and symbol must end where the text shows the next one.

> `Standard.OperatorTree`: the trees.
> `Standard.scannedAs_group`: an expression in brackets is an operand again.
> `Standard.scannedAs_exprChars`: what is shown of a tree is scanned to an operand with that tree.
> `Standard.parseExpression_pseudoSource`: the pseudo-source of a tree is parsed to the tree.
-/

namespace Stencil

/-! ## What is shown -/

namespace Piece

/-- The characters of pieces. -/
def chars (indent : String) (ps : List Piece) : List Char :=
  (renderAll indent ps).toList

variable (indent : String)

/-- What is shown of pieces in a row is shown of them one by one. -/
theorem chars_append (ps qs : List Piece) :
    chars indent (ps ++ qs) = chars indent ps ++ chars indent qs := by
  unfold chars renderAll
  rw [List.map_append, String.join_append, String.toList_append]

theorem chars_plain_cons (text : String) (ps : List Piece) :
    chars indent (plain text :: ps) = text.toList ++ chars indent ps := by
  unfold chars renderAll
  rw [List.map_cons, String.join_cons, String.toList_append, render, plain, List.replicate_zero,
    String.join_nil, String.empty_append]

/-- Groups with a text between them. -/
theorem chars_join (separator : String) (group : List Piece) (groups : List (List Piece)) :
    chars indent (join separator (group :: groups)) =
      chars indent group ++ groups.flatMap fun g => separator.toList ++ chars indent g := by
  induction groups generalizing group with
  | nil => rw [join, List.flatMap_nil, List.append_nil]
  | cons next groups ih =>
    rw [join, chars_append, chars_plain_cons, ih, List.flatMap_cons, List.append_assoc]
    exact List.cons_ne_nil _ _

end Piece

open Piece (chars chars_append chars_plain_cons)

/-- What is shown of a node inside an expression. -/
def exprChars (indent : String) (n : Node) : List Char :=
  chars indent (nodePieces indent false 0 n)

section

variable (indent : String)

/-- A node that is shown as one text. -/
theorem exprChars_of_pieces {n : Node} (text : String)
    (h : nodePieces indent false 0 n = [Piece.plain text]) : exprChars indent n = text.toList := by
  unfold exprChars
  rw [h, chars_plain_cons]
  exact List.append_nil _

/-- An operation with one operand is shown with the operand in brackets. -/
theorem exprChars_unary (op : UnaryOp) (a : Node) :
    exprChars indent (.unary op a) =
      op.symbol.toList ++ ('(' :: (exprChars indent a ++ [')'])) := by
  unfold exprChars
  rw [nodePieces, linePieces, if_neg Bool.false_ne_true]
  simp only [List.cons_append, chars_plain_cons, chars_append, String.toList_append,
    List.append_assoc]
  rfl

/-- An operation with two operands is shown in brackets, with blanks around its symbol. -/
theorem exprChars_binary (op : BinaryOp) (a b : Node) :
    exprChars indent (.binary op a b) =
      '(' :: ((exprChars indent a ++ (' ' :: (op.symbol.toList ++
        (' ' :: exprChars indent b)))) ++ [')']) := by
  unfold exprChars
  rw [nodePieces, linePieces, if_neg Bool.false_ne_true]
  simp only [List.cons_append, chars_plain_cons, chars_append, String.toList_append,
    List.append_assoc]
  rfl

/-- The names of a path are shown as they are. -/
theorem segmentPieces_names (names : List String) :
    segmentPieces indent 0 (names.map .name) = names.map fun w => [Piece.plain w] := by
  induction names with
  | nil => rfl
  | cons name names ih => rw [List.map_cons, segmentPieces, ih, List.map_cons]

/-- What is shown of names behind a path. -/
def stepChars (names : List String) : List Char :=
  names.flatMap fun w => '.' :: w.toList

/-- What is shown of a path of names. -/
theorem exprChars_selector (name : String) (names : List String) :
    exprChars indent (.selector ((name :: names).map .name)) =
      name.toList ++ stepChars names := by
  have hone : ∀ w, chars indent [Piece.plain w] = w.toList := by
    intro w
    rw [chars_plain_cons]
    exact List.append_nil _
  unfold exprChars
  rw [nodePieces, linePieces, if_neg Bool.false_ne_true, segmentPieces_names, List.map_cons,
    Piece.chars_join, hone, List.flatMap_map]
  simp only [hone]
  rfl

end

namespace Derives

open Grammar

/-- Two operands with an operator of any level between them. -/
theorem binary_of_operation {E : Bool → List Token → Node → Prop} {ls : List Operators}
    {us vs : List Token} {t : Token} {op : BinaryOp} {left right : Node}
    (hop : ∃ ops ∈ ls, ops.lookup t.kind = some op) (hus : Unary E us left)
    (hvs : Unary E vs right) : Binary E ls (us ++ t :: vs) (.binary op left right) := by
  induction ls with
  | nil =>
    obtain ⟨ops, hmem, -⟩ := hop
    cases hmem
  | cons ops ls ih =>
    by_cases hfirst : ops.lookup t.kind = some op
    · exact .operation (.operand (binary_of_unary hus ls)) hfirst (binary_of_unary hvs ls)
    · refine .operand (ih ?_)
      obtain ⟨ops', hmem, hlookup⟩ := hop
      rcases List.mem_cons.mp hmem with rfl | hmem
      · exact absurd hlookup hfirst
      · exact ⟨ops', hmem, hlookup⟩

end Derives

namespace Standard

open Derives (Expression Unary Simple Chain Leaf levels)

/-! ## Operators over literals and names -/

/-- A name that is neither a reserved word nor has a dollar sign. -/
def IsName (w : List Char) : Prop :=
  IsIdentifier w ∧ '$' ∉ w ∧ ∀ kind, ¬Reserved kind w

/-- A tree of operators over literals without signs and paths of names. A number with a point has
digits behind it. -/
inductive OperatorTree : Node → Prop
  | bool (b : Bool) : OperatorTree (.bool b)
  | null : OperatorTree .null
  | int {n : Int} : 0 ≤ n → OperatorTree (.int n)
  | decimal {d : Decimal} : 0 ≤ d.unscaled → 1 ≤ d.scale → d.scale ≤ 4096 →
    OperatorTree (.decimal d)
  | selector {name : String} {names : List String} : (∀ w ∈ name :: names, IsName w.toList) →
    OperatorTree (.selector ((name :: names).map .name))
  | unary (op : UnaryOp) {a : Node} : OperatorTree a → OperatorTree (.unary op a)
  | binary (op : BinaryOp) {a b : Node} : OperatorTree a → OperatorTree b →
    OperatorTree (.binary op a b)

/-- What may stand behind an operand. -/
def Follows (s : List Char) : Prop :=
  ∃ c ∈ [' ', ')', '\n'], s.head? = some c

/-- What stands behind an operand belongs to no class without blanks and brackets. -/
theorem Follows.leaves {s : List Char} (h : Follows s) {holds : Char → Bool}
    (hall : [' ', ')', '\n'].all (fun c => !holds c) = true) : Text.Leaves holds s := by
  obtain ⟨c, hc, hs⟩ := h
  have hnot := List.all_eq_true.mp hall c hc
  rw [Text.Leaves, hs]
  simpa using hnot

theorem follows_paren (s : List Char) : Follows (')' :: s) :=
  ⟨')', by decide, rfl⟩

theorem follows_space (s : List Char) : Follows (' ' :: s) :=
  ⟨' ', by decide, rfl⟩

/-- The symbol of a kind is spelled so. -/
def IsSymbol (kind : TokenKind) (w : List Char) : Prop :=
  ∃ d ∈ symbolTable, d.kind = kind ∧ symbolText d = w

instance (kind : TokenKind) (w : List Char) : Decidable (IsSymbol kind w) :=
  inferInstanceAs (Decidable (∃ d ∈ symbolTable, _))

/-- The kind of the token of an operator that is shown. -/
def operatorKind : BinaryOp → TokenKind
  | .or => .or
  | .and => .and
  | .equal => .equal
  | .notEqual => .notEqual
  | .lessOrEqual => .lessOrEqual
  | .lessThan => .lessThan
  | .greaterOrEqual => .greaterOrEqual
  | .greaterThan => .greaterThan
  | .add => .plus
  | .sub => .minus
  | .mul => .star
  | .div => .slash
  | .mod => .mod

/-- How operators are shown: as symbols that a blank ends, and that have their level. -/
theorem operators_shown : ∀ op ∈ BinaryOp.all,
    IsSymbol (operatorKind op) op.symbol.toList ∧
    continuesSymbol op.symbol.toList ' ' = false ∧
    (∃ ops ∈ levels, ops.lookup (operatorKind op) = some op) ∧
    op.symbol.toList.head?.any (fun c => !Text.isBlank c) = true := by
  decide +kernel

/-- Every operator is shown by the symbol of a token that some level reads as this operator, and the
blank behind it ends the symbol. -/
theorem operator_shown (op : BinaryOp) :
    IsSymbol (operatorKind op) op.symbol.toList ∧
    continuesSymbol op.symbol.toList ' ' = false ∧
    (∃ ops ∈ levels, ops.lookup (operatorKind op) = some op) ∧
    op.symbol.toList.head?.any (fun c => !Text.isBlank c) = true :=
  operators_shown op (by cases op <;> decide)

/-! ## How it is scanned -/

variable {l : Lexicon} {w s : List Char} {n : Node}

theorem scannedAs_nil {holds : List Token → Prop} (h : holds []) : ScannedAs l [] s holds :=
  fun _ _ _ => ⟨[], rfl, h⟩

/-- A symbol is scanned as its token if nothing follows that would make it a longer one. -/
theorem scannedAs_spelled (hl : lexicon = .ok l) {kind : TokenKind} (hw : IsSymbol kind w)
    (hs : Text.Leaves (continuesSymbol w) s) : ScannedAs l w s (IsToken kind w) := by
  obtain ⟨d, hd, rfl, rfl⟩ := hw
  exact scannedAs_symbol hl hd hs

/-- No symbol goes on from a bracket, a point or a minus sign, whatever follows. -/
theorem leaves_single {c : Char} (hc : c ∈ ['(', ')', '.', '-']) (s : List Char) :
    Text.Leaves (continuesSymbol [c]) s := by
  have halone : ∀ d ∈ symbolTable, ['(', ')', '.', '-'].all (fun c =>
      !([c].isPrefixOf (symbolText d)) || (symbolText d).tail.isEmpty) = true := by
    decide +kernel
  cases s with
  | nil => rfl
  | cons e s =>
    show continuesSymbol [c] e = false
    rw [continuesSymbol, List.any_eq_false]
    intro d hd hbegins
    obtain ⟨t, ht⟩ := List.isPrefixOf_iff_prefix.mp hbegins
    have hsymbol := List.all_eq_true.mp (halone d hd) c hc
    rw [← ht] at hsymbol
    simp at hsymbol

/-- The first character of a text is that of the text with more behind it. -/
theorem head_append {holds : Char → Bool} (h : w.head?.any holds = true) (s : List Char) :
    (w ++ s).head?.any holds = true := by
  cases w with
  | nil => cases h
  | cons c w => exact h

theorem leaves_of_head {holds : Char → Bool} (h : w.head?.any (fun c => !holds c) = true) :
    Text.Leaves holds w := by
  cases w with
  | nil => cases h
  | cons c w => simpa [Text.Leaves] using h

/-- A blank in front of something else is dropped. -/
theorem scannedAs_space (hl : lexicon = .ok l) {holds : List Token → Prop}
    (h : ScannedAs l w s holds) (hw : Text.Leaves Text.isBlank (w ++ s)) :
    ScannedAs l (' ' :: w) s holds := by
  have hspace : ScannedAs l [' '] (w ++ s) (· = []) :=
    scannedAs_blanks hl (List.cons_ne_nil _ _) (by simpa using (by decide)) hw
  exact hspace.append h fun us vs hus hvs => by rwa [hus]

/-- **An expression in brackets** is a simple expression. -/
theorem scannedAs_group (hl : lexicon = .ok l)
    (h : ∀ s, ScannedAs l w (')' :: s) fun us => ∃ isOpen, Expression isOpen us n)
    (s : List Char) : ScannedAs l ('(' :: (w ++ [')'])) s (Simple Expression · n) := by
  have hleft : ScannedAs l ['('] (w ++ [')'] ++ s) (IsToken .leftParen ['(']) :=
    scannedAs_spelled hl (by decide) (leaves_single (by decide) _)
  have hright : ScannedAs l [')'] s (IsToken .rightParen [')']) :=
    scannedAs_spelled hl (by decide) (leaves_single (by decide) _)
  have hbehind : ScannedAs l (w ++ [')']) s fun us => ∃ vs right isOpen, us = vs ++ [right] ∧
      right.kind = .rightParen ∧ Expression isOpen vs n := by
    refine (h s).append hright fun us vs hus hvs => ?_
    obtain ⟨isOpen, hus⟩ := hus
    obtain ⟨offset, rfl⟩ := hvs
    exact ⟨us, _, isOpen, rfl, rfl, hus⟩
  refine hleft.append hbehind fun us vs hus hvs => ?_
  obtain ⟨offset, rfl⟩ := hus
  obtain ⟨vs, right, isOpen, rfl, hright, hvs⟩ := hvs
  exact .group rfl hvs hright

theorem unary_of_simple {us : List Token} (h : Simple Expression us n) :
    Unary Expression us n :=
  .primary (.plain (.simple h))

/-- A token that is an operand. -/
theorem scannedAs_leaf {kind : TokenKind} (h : ScannedAs l w s (IsToken kind w))
    (hleaf : ∀ offset, Leaf ⟨kind, offset, String.ofList w⟩ n) :
    ScannedAs l w s (Unary Expression · n) := by
  refine h.imp fun us hus => ?_
  obtain ⟨offset, rfl⟩ := hus
  exact unary_of_simple (.leaf (hleaf offset))

/-! ### Names -/

/-- Without a dollar sign, an identifier is made of word characters. -/
theorem IsName.isWord (h : IsName w) : ∀ c ∈ w, Text.isWord c = true := by
  intro c hc
  cases hword : Text.isWord c with
  | true => rfl
  | false =>
    obtain rfl := eq_dollar (h.1.inIdentifier c hc) hword
    exact absurd hc h.2.1

/-- Behind a name of a path stands a point or what stands behind the path. -/
theorem leaves_steps (hs : Follows s) (names : List String) {holds : Char → Bool}
    (hall : ['.', ' ', ')', '\n'].all (fun c => !holds c) = true) :
    Text.Leaves holds (stepChars names ++ s) := by
  rw [List.all_cons, Bool.and_eq_true] at hall
  cases names with
  | nil => exact hs.leaves hall.2
  | cons w names => exact leaves_of_head hall.1

/-- A name of a path, with the names behind it. -/
theorem scannedAs_name (hl : lexicon = .ok l) (hs : Follows s) (hw : IsName w)
    (names : List String) : ScannedAs l w (stepChars names ++ s) (IsToken .identifier w) := by
  refine scannedAs_identifier hl hw.1 (leaves_steps hs names (by decide)) fun kind => ?_
  rw [Text.takeWhile_append hw.isWord (leaves_steps hs names (by decide))]
  exact hw.2.2 kind

/-- The tokens put further names behind a path. -/
def Extends (names : List String) (vs : List Token) : Prop :=
  ∀ us path, Chain Expression us (.selector path) →
    Chain Expression (us ++ vs) (.selector (path ++ names.map .name))

/-- A point and a name are one step of a path. -/
theorem Extends.cons {dot word : Token} {names : List String} {vs : List Token}
    (hdot : dot.kind = .dot) (hword : word.kind = .identifier) (h : Extends names vs) :
    Extends (word.text :: names) (dot :: word :: vs) := by
  intro us path hus
  have hstep : Chain Expression (us ++ [dot, word]) (.selector (path ++ [.name word.text])) :=
    .step hus (.property hdot (by rw [hword]; rfl))
  have hall := h _ _ hstep
  rw [List.append_assoc, List.append_assoc] at hall
  exact hall

/-- The further names of a path. -/
theorem scannedAs_steps (hl : lexicon = .ok l) (hs : Follows s) {names : List String}
    (hnames : ∀ w ∈ names, IsName w.toList) :
    ScannedAs l (stepChars names) s (Extends names) := by
  induction names with
  | nil =>
    refine scannedAs_nil fun us path h => ?_
    rw [List.append_nil, List.map_nil, List.append_nil]
    exact h
  | cons w names ih =>
    obtain ⟨hw, hnames⟩ := List.forall_mem_cons.mp hnames
    have hdot : ScannedAs l ['.'] (w.toList ++ stepChars names ++ s) (IsToken .dot ['.']) :=
      scannedAs_spelled hl (by decide) (leaves_single (by decide) _)
    have hbehind : ScannedAs l (w.toList ++ stepChars names) s fun us =>
        ∃ word vs, us = word :: vs ∧ word.kind = .identifier ∧ word.text = w ∧
          Extends names vs := by
      refine (scannedAs_name hl hs hw names).append (ih hnames) fun us vs hus hvs => ?_
      obtain ⟨offset, rfl⟩ := hus
      exact ⟨_, vs, rfl, rfl, String.ofList_toList, hvs⟩
    refine hdot.append hbehind fun us vs hus hvs => ?_
    obtain ⟨offset, rfl⟩ := hus
    obtain ⟨word, vs, rfl, hkind, rfl, hvs⟩ := hvs
    exact hvs.cons rfl hkind

/-- A path of names. -/
theorem scannedAs_path (hl : lexicon = .ok l) (hs : Follows s) {name : String}
    {names : List String} (hnames : ∀ w ∈ name :: names, IsName w.toList) :
    ScannedAs l (name.toList ++ stepChars names) s
      (Unary Expression · (.selector ((name :: names).map .name))) := by
  obtain ⟨hname, hnames⟩ := List.forall_mem_cons.mp hnames
  refine (scannedAs_name hl hs hname names).append (scannedAs_steps hl hs hnames)
    fun us vs hus hvs => ?_
  obtain ⟨offset, rfl⟩ := hus
  have hleaf : Leaf ⟨.identifier, offset, name⟩ (.ofName name) := .name List.mem_cons_self
  rw [String.ofList_toList]
  exact .primary (.plain (hvs _ _ (.simple (.leaf hleaf))))

/-! ### Operations -/

/-- A symbol in front of an operation in brackets. -/
theorem scannedAs_unary (hl : lexicon = .ok l) (op : UnaryOp)
    (h : ∀ s, Follows s → ScannedAs l w s (Unary Expression · n)) (s : List Char) :
    ScannedAs l (op.symbol.toList ++ ('(' :: (w ++ [')']))) s
      (Unary Expression · (.unary op n)) := by
  have hgroup := scannedAs_group hl (fun s => (h _ (follows_paren s)).imp fun us hus =>
    ⟨false, Derives.expression_of_unary hus⟩) s
  cases op with
  | negate =>
    have hminus : ScannedAs l ['-'] ('(' :: (w ++ [')']) ++ s) (IsToken .minus ['-']) :=
      scannedAs_spelled hl (by decide) (leaves_single (by decide) _)
    refine hminus.append hgroup fun us vs hus hvs => ?_
    obtain ⟨offset, rfl⟩ := hus
    exact .primary (.negated rfl (.simple hvs))
  | not =>
    have hbracket : continuesSymbol ['!'] '(' = false := by decide
    have hnot : ScannedAs l ['!'] ('(' :: (w ++ [')']) ++ s) (IsToken .not ['!']) :=
      scannedAs_spelled hl (by decide) hbracket
    refine hnot.append hgroup fun us vs hus hvs => ?_
    obtain ⟨offset, rfl⟩ := hus
    exact .not rfl (unary_of_simple hvs)

/-- Two operands with an operator between them, in brackets. -/
theorem scannedAs_binary (hl : lexicon = .ok l) (op : BinaryOp) {w' : List Char} {m : Node}
    (h : ∀ s, Follows s → ScannedAs l w s (Unary Expression · n))
    (h' : ∀ s, Follows s → ScannedAs l w' s (Unary Expression · m))
    (hw' : w'.head?.any (fun c => !Text.isBlank c) = true) (s : List Char) :
    ScannedAs l ('(' :: ((w ++ (' ' :: (op.symbol.toList ++ (' ' :: w')))) ++ [')'])) s
      (Unary Expression · (.binary op n m)) := by
  obtain ⟨hsymbol, hends, hlevel, hblank⟩ := operator_shown op
  have hinner : ∀ s, ScannedAs l (w ++ (' ' :: (op.symbol.toList ++ (' ' :: w')))) (')' :: s)
      fun us => ∃ isOpen, Expression isOpen us (.binary op n m) := by
    intro s
    have hright := scannedAs_space hl (h' _ (follows_paren s)) (leaves_of_head (head_append hw' _))
    have hoperator : ScannedAs l op.symbol.toList (' ' :: w' ++ ')' :: s)
        (IsToken (operatorKind op) op.symbol.toList) :=
      scannedAs_spelled hl hsymbol hends
    have hbehind : ScannedAs l (op.symbol.toList ++ ' ' :: w') (')' :: s) fun us =>
        ∃ t vs, us = t :: vs ∧ t.kind = operatorKind op ∧ Unary Expression vs m := by
      refine hoperator.append hright fun us vs hus hvs => ?_
      obtain ⟨offset, rfl⟩ := hus
      exact ⟨_, vs, rfl, rfl, hvs⟩
    have hspaced := scannedAs_space hl hbehind
      (leaves_of_head (head_append (head_append hblank _) _))
    refine (h _ (follows_space _)).append hspaced fun us vs hus hvs => ?_
    obtain ⟨t, vs, rfl, ht, hvs⟩ := hvs
    rw [← ht] at hlevel
    exact ⟨false, .mk (.plain (Derives.binary_of_operation hlevel hus hvs))⟩
  exact (scannedAs_group hl hinner s).imp fun us hus => unary_of_simple hus

/-! ### Whole trees -/

variable (indent : String)

/-- A whole number without a sign is shown by its digits. -/
theorem exprChars_int {k : Int} (hk : 0 ≤ k) :
    exprChars indent (.int k) = Text.decimalDigits k.natAbs := by
  rw [exprChars_of_pieces indent (Text.intText k) rfl, Text.intText, String.toList_ofList,
    Text.intChars, if_neg (Int.not_lt.mpr hk)]

/-- A decimal without a sign is shown by its digits, with the point where the scale says. -/
theorem exprChars_decimal {d : Decimal} (hd : 0 ≤ d.unscaled) (hscale : 1 ≤ d.scale) :
    exprChars indent (.decimal d) = d.wholeDigits ++ '.' :: d.fractionDigits := by
  rw [exprChars_of_pieces indent d.text rfl, Decimal.text, String.toList_ofList,
    Decimal.chars_eq, Decimal.signChars, if_neg (Int.not_lt.mpr hd), Decimal.fractionText,
    if_neg (Nat.ne_of_gt hscale)]
  rfl

/-- A reserved word that is a literal is scanned and read as this literal. -/
theorem scannedAs_word (hl : lexicon = .ok l) (hs : Follows s) {kind : TokenKind} {word : String}
    (hw : Reserved kind word.toList) (hleaf : ∀ offset, Leaf ⟨kind, offset, word⟩ n) :
    ScannedAs l word.toList s (Unary Expression · n) := by
  refine scannedAs_leaf (scannedAs_reserved hl hw (hs.leaves (by decide))) fun offset => ?_
  rw [String.ofList_toList]
  exact hleaf offset

/-- The digits of a whole number are scanned and read as the number. -/
theorem scannedAs_number (hl : lexicon = .ok l) (hs : Follows s) {k : Int} (hk : 0 ≤ k) :
    ScannedAs l (Text.decimalDigits k.natAbs) s (Unary Expression · (.int k)) := by
  have hpoint : ∀ t, s = '.' :: t → Text.Leaves Text.isDigit t := by
    rintro t rfl
    have hleaves : Text.Leaves (· == '.') ('.' :: t) := hs.leaves (by decide)
    cases hleaves
  have htoken := scannedAs_int hl (Text.decimalDigits_ne_nil k.natAbs)
    (fun c hc => Text.isDigit_of_mem_decimalDigits hc) (hs.leaves (by decide)) hpoint
  refine scannedAs_leaf htoken fun offset => .int rfl ?_
  have hread := Text.grouped?_intChars k
  rw [Text.intChars, if_neg (Int.not_lt.mpr hk)] at hread
  rw [String.toList_ofList, hread]

/-- The digits of a decimal are scanned as one token and read as the decimal, with its scale. -/
theorem scannedAs_decimal (hl : lexicon = .ok l) (hs : Follows s) {d : Decimal}
    (hd : 0 ≤ d.unscaled) (hscale : 1 ≤ d.scale) (hmax : d.scale ≤ 4096) :
    ScannedAs l (d.wholeDigits ++ '.' :: d.fractionDigits) s
      (Unary Expression · (.decimal d)) := by
  have hne : d.fractionDigits ≠ [] := by
    intro h
    have hlength := d.length_fractionDigits
    rw [h, List.length_nil] at hlength
    omega
  have htoken := scannedAs_double hl d.wholeDigits_ne_nil
    (List.all_eq_true.mp d.all_isDigit_wholeDigits) hne
    (List.all_eq_true.mp d.all_isDigit_fractionDigits) (hs.leaves (by decide))
  refine scannedAs_leaf htoken fun offset => .double rfl ?_
  have hread := Decimal.ofText?_text (d := d) hmax
  rw [Decimal.text, Decimal.chars_eq, Decimal.signChars, if_neg (Int.not_lt.mpr hd),
    Decimal.fractionText, if_neg (Nat.ne_of_gt hscale)] at hread
  exact hread

/-- Neither digits nor letters are blanks. -/
theorem not_blank {c : Char} (h : (c.isDigit || startsIdentifier c) = true) :
    (!Text.isBlank c) = true := by
  have hlow : c.toNat < 128 := by
    rcases Bool.or_eq_true_iff.mp h with hc | hc
    · have hhigh : c.toNat ≤ 57 := (Char.isDigit_iff_toNat.mp hc).2
      omega
    · exact lt_of_inIdentifier (inIdentifier_of_starts hc)
  have hall : ∀ n < 128, ((Char.ofNat n).isDigit || startsIdentifier (Char.ofNat n)) = true →
      (!Text.isBlank (Char.ofNat n)) = true := by
    decide +kernel
  have hc := hall c.toNat hlow
  rw [Char.ofNat_toNat] at hc
  exact hc h

/-- Digits are not blank, so they are not skipped. -/
theorem head_digits (hne : w ≠ []) (hw : ∀ c ∈ w, c.isDigit = true) :
    w.head?.any (fun c => !Text.isBlank c) = true := by
  cases w with
  | nil => exact absurd rfl hne
  | cons c w => exact not_blank (by rw [hw c List.mem_cons_self]; rfl)

/-- What is shown of a tree does not start with a blank. -/
theorem head_exprChars (h : OperatorTree n) :
    (exprChars indent n).head?.any (fun c => !Text.isBlank c) = true := by
  cases h with
  | bool b =>
    rw [exprChars_of_pieces indent _ rfl]
    cases b <;> decide
  | null =>
    rw [exprChars_of_pieces indent _ rfl]
    decide
  | int hk =>
    rw [exprChars_int indent hk]
    exact head_digits (Text.decimalDigits_ne_nil _)
      fun c hc => Text.isDigit_of_mem_decimalDigits hc
  | @decimal d hd hscale hmax =>
    rw [exprChars_decimal indent hd hscale]
    exact head_append (head_digits d.wholeDigits_ne_nil
      (List.all_eq_true.mp d.all_isDigit_wholeDigits)) _
  | @selector name names hnames =>
    rw [exprChars_selector]
    obtain ⟨c, w, hcons, hc⟩ := (hnames name List.mem_cons_self).1.exists_cons
    rw [hcons]
    exact not_blank (by rw [hc, Bool.or_true])
  | unary op _ =>
    rw [exprChars_unary]
    cases op <;> exact head_append (by decide) _
  | binary op _ _ =>
    rw [exprChars_binary]
    rfl

/-- **What is shown of a tree** is scanned to an operand with that tree. -/
theorem scannedAs_exprChars (hl : lexicon = .ok l) (h : OperatorTree n) :
    ∀ s, Follows s → ScannedAs l (exprChars indent n) s (Unary Expression · n) := by
  -- an operand stands in front of a blank or a bracket, so what follows a tree is left general
  induction h with
  | bool b =>
    intro s hs
    rw [exprChars_of_pieces indent _ rfl]
    cases b with
    | false => exact scannedAs_word hl hs (by decide) fun _ => .falseWord rfl
    | true => exact scannedAs_word hl hs (by decide) fun _ => .trueWord rfl
  | null =>
    intro s hs
    rw [exprChars_of_pieces indent _ rfl]
    exact scannedAs_word hl hs (by decide) fun _ => .nullWord rfl
  | int hk =>
    intro s hs
    rw [exprChars_int indent hk]
    exact scannedAs_number hl hs hk
  | decimal hd hscale hmax =>
    intro s hs
    rw [exprChars_decimal indent hd hscale]
    exact scannedAs_decimal hl hs hd hscale hmax
  | selector hnames =>
    intro s hs
    rw [exprChars_selector]
    exact scannedAs_path hl hs hnames
  | unary op _ ih =>
    intro s _
    rw [exprChars_unary]
    exact scannedAs_unary hl op ih s
  | binary op _ hb ih ih' =>
    intro s _
    rw [exprChars_binary]
    exact scannedAs_binary hl op ih ih' (head_exprChars indent hb) s

/-- What is shown of a tree as the only statement. -/
theorem pseudoSource_node (h : OperatorTree n) :
    (pseudoSource indent [.node n]).toList = exprChars indent n ++ ['\n'] := by
  have hline : nodePieces indent true 0 n =
      Piece.plain "" :: (nodePieces indent false 0 n ++ [Piece.plain "\n"]) := by
    cases h <;> rfl
  have hpieces : itemPieces indent true 0 [.node n] =
      Piece.plain "" :: (nodePieces indent false 0 n ++ [Piece.plain "\n"]) := by
    rw [itemPieces, itemPieces, List.append_nil, hline]
  show chars indent (itemPieces indent true 0 [.node n]) = _
  rw [hpieces, chars_plain_cons, chars_append, chars_plain_cons]
  rfl

/-- **The pseudo-source of operators** over literals and names is parsed to the tree that it
shows. -/
theorem parseExpression_pseudoSource (h : OperatorTree n) :
    ∃ l, lexicon = .ok l ∧ l.parseExpression (pseudoSource indent [.node n]) = .ok n := by
  refine ⟨readLexicon, lexicon_eq, parseExpression_of_scannedAs lexicon_eq ?_⟩
  have hline : ScannedAs readLexicon ['\n'] [] (· = []) :=
    scannedAs_blanks lexicon_eq (List.cons_ne_nil _ _)
      (List.forall_mem_singleton.mpr (by decide)) rfl
  have htree := scannedAs_exprChars indent lexicon_eq h ['\n'] ⟨'\n', by decide, rfl⟩
  rw [pseudoSource_node indent h]
  refine htree.append hline fun us vs hus hvs => ?_
  rw [hvs, List.append_nil]
  exact .plain (Derives.expression_of_unary hus)

/-- A tree with a product under a sign and a comparison under a negation. -/
theorem parseExpression_pseudoSource_nested :
    ∃ n, OperatorTree n ∧ pseudoSource "  " [.node n] = "(-((a.b * 1.50)) - !((2 == null)))\n" ∧
      ∃ l, lexicon = .ok l ∧
        l.parseExpression "(-((a.b * 1.50)) - !((2 == null)))\n" = .ok n := by
  have hname : ∀ w ∈ ["a", "b"], IsName w.toList := by
    refine List.forall_mem_cons.mpr ⟨?_, List.forall_mem_singleton.mpr ?_⟩
    all_goals
      refine ⟨by decide, by decide, fun kind => ?_⟩
      cases kind <;> decide
  have hproduct : OperatorTree (.binary .mul (.selector [.name "a", .name "b"])
      (.decimal ⟨150, 2⟩)) :=
    .binary .mul (.selector hname) (.decimal (by decide) (by decide) (by decide))
  have hequation : OperatorTree (.binary .equal (.int 2) .null) :=
    .binary .equal (.int (by decide)) .null
  have htree := OperatorTree.binary .sub (.unary .negate hproduct) (.unary .not hequation)
  have hparsed := parseExpression_pseudoSource "  " htree
  have hshown : pseudoSource "  " [.node (.binary .sub
      (.unary .negate (.binary .mul (.selector [.name "a", .name "b"]) (.decimal ⟨150, 2⟩)))
      (.unary .not (.binary .equal (.int 2) .null)))] = "(-((a.b * 1.50)) - !((2 == null)))\n" := by
    decide
  rw [hshown] at hparsed
  exact ⟨_, htree, hshown, hparsed⟩

end Standard

end Stencil
