import Stencil.Proofs.Lockstep
import Stencil.Proofs.TemplateGrammar
import Stencil.Proofs.TextItems

/-!
# Text from tokens to tree

Tokens carry text at two stages of a template. A fragment between blocks is a text, and so is all
that stands inside a literal block. `Stage.texts` collects these texts from a list of tokens,
without a look at any tree. The grammar puts the same texts into the tree, in the same order: what
is said here of a body is said of its elements, and of the bodies of their constructs.

> `Stage.Carries`: the texts of tokens that lead from one stage to another.
> `Derives.carries_of_body`: the tokens of a body carry the texts of its items.
-/

namespace Stencil

/-! ## The text that tokens carry -/

namespace Stage

/-- The texts of the tokens from a stage on. Inside a literal block, `s` is the text of the block so
far. -/
def texts : Stage → String → List Token → List String
  | _, _, [] => []
  | text, _, t :: ts =>
    if t.kind = .fragment then t.text :: text.texts "" ts else (text.after t.kind).texts "" ts
  | literal, s, t :: ts =>
    if t.kind = .literalClose then s :: text.texts "" ts else literal.texts (s ++ t.text) ts
  | i, _, t :: ts => (i.after t.kind).texts "" ts

/-- The tokens lead from one stage to another, and carry these texts on the way, whatever tokens
follow them. -/
def Carries (i : Stage) (us : List Token) (j : Stage) (texts : List String) : Prop :=
  ∀ rest, i.texts "" (us ++ rest) = texts ++ j.texts "" rest

theorem carries_nil (i : Stage) : i.Carries [] i [] :=
  fun _ => rfl

/-- What tokens carry is carried by them one part after the other. -/
theorem Carries.append {i j k : Stage} {us vs : List Token} {xs ys : List String}
    (h : i.Carries us j xs) (h' : j.Carries vs k ys) : i.Carries (us ++ vs) k (xs ++ ys) := by
  intro rest
  rw [List.append_assoc, h, h', List.append_assoc]

/-- A token without text of its own. -/
theorem carries_token {i : Stage} {t : Token} {k : TokenKind} (ht : t.kind = k)
    (hliteral : i ≠ literal) (hfragment : i = text → k ≠ .fragment) :
    i.Carries [t] (i.after k) [] := by
  subst ht
  intro rest
  cases i with
  | literal => exact absurd rfl hliteral
  | text =>
    show (if t.kind = .fragment then _ else _) = _
    rw [if_neg (hfragment rfl)]
    rfl
  | comment depth => rfl
  | block => rfl

/-- A token inside a block carries no text itself. -/
theorem carries_block_cons {t : Token} {k : TokenKind} (ht : t.kind = k) {us : List Token}
    {j : Stage} {xs : List String} (h : (block.after k).Carries us j xs) :
    block.Carries (t :: us) j xs :=
  Carries.append (carries_token ht (by decide) (by simp)) h

theorem carries_fragment {t : Token} (ht : t.kind = .fragment) :
    text.Carries [t] text [t.text] := by
  intro rest
  show (if t.kind = .fragment then _ else _) = _
  rw [if_pos ht]
  rfl

end Stage

namespace Derives

/-! ## Tokens without text -/

/-- Inside a block there is no text. -/
theorem Avoids.carries {us : List Token} (h : InsideBlock us) :
    Stage.block.Carries us .block [] := by
  induction us with
  | nil => exact Stage.carries_nil _
  | cons t us ih =>
    obtain ⟨ht, hus⟩ := avoids_cons.mp h
    have hclose : t.kind ≠ .blockClose := by
      intro hk
      rw [hk] at ht
      exact ht (by decide)
    refine Stage.carries_block_cons rfl ?_
    rw [Stage.after_block hclose]
    exact ih hus

/-- The end of a block leads back between blocks. -/
theorem carries_blockClose {t : Token} (h : t.kind = .blockClose) :
    Stage.block.Carries [t] .text [] :=
  Stage.carries_block_cons h (Stage.carries_nil _)

/-- Comments inside a comment have no text. -/
theorem Balanced.carries {us : List Token} (h : Balanced us) (depth : Nat) :
    (Stage.comment (depth + 1)).Carries us (.comment (depth + 1)) [] := by
  induction h generalizing depth with
  | nil => exact Stage.carries_nil _
  | @other t us ht _ ih =>
    have hopen : t.kind ≠ .commentOpen := fun hk => ht (by simp [hk])
    have hclose : t.kind ≠ .commentClose := fun hk => ht (by simp [hk])
    have htoken := Stage.carries_token (i := .comment (depth + 1)) (t := t) rfl nofun nofun
    rw [Stage.after_comment hopen hclose] at htoken
    exact htoken.append (ih depth)
  | comment hleft _ hright _ ih ih' =>
    have hopen := Stage.carries_token (i := .comment (depth + 1)) hleft nofun nofun
    have hclose := Stage.carries_token (i := .comment (depth + 2)) hright nofun nofun
    exact hopen.append ((ih (depth + 1)).append (hclose.append (ih' depth)))

/-- The tokens of a literal block add to its text, whatever they are. -/
theorem Literal.texts {us : List Token} (h : Literal us) (s : String) (rest : List Token) :
    Stage.literal.texts s (us ++ rest) = Stage.literal.texts (s ++ textOf us) rest := by
  induction us generalizing s with
  | nil => simp [textOf]
  | cons t us ih =>
    obtain ⟨ht, hus⟩ := List.forall_mem_cons.mp h
    have hclose : t.kind ≠ .literalClose := by
      intro hk
      rw [hk] at ht
      exact ht (by decide)
    show (if t.kind = .literalClose then _ else Stage.literal.texts (s ++ t.text) (us ++ rest)) = _
    rw [if_neg hclose, ih hus, textOf, String.append_assoc]

/-- What stands inside a literal block is one text. -/
theorem Literal.carries_inside {right : Token} {us : List Token} (h : Literal us)
    (hright : right.kind = .literalClose) :
    Stage.literal.Carries (us ++ [right]) .text [textOf us] := by
  intro rest
  have hinside := h.texts "" (right :: rest)
  rw [String.empty_append] at hinside
  rw [List.append_assoc]
  refine hinside.trans ?_
  show (if right.kind = .literalClose then _ else _) = _
  rw [if_pos hright]
  rfl

/-- A literal block is one text. -/
theorem Literal.carries {left right : Token} {us : List Token} (hleft : left.kind = .literalOpen)
    (h : Literal us) (hright : right.kind = .literalClose) :
    Stage.text.Carries (left :: (us ++ [right])) .text [textOf us] := by
  have hopen := Stage.carries_token (i := .text) hleft nofun (by simp)
  exact hopen.append (h.carries_inside hright)

/-! ## Constructs -/

/-- The parts of a block that are no bodies have no text. -/
theorem Closed.carries {us : List Token} {n : Node} (h : Closed us n) :
    Stage.block.Carries us .text n.texts := by
  cases h with
  | mk h hclose =>
    rw [h.texts_eq]
    exact h.insideBlock.carries.append (carries_blockClose hclose)

/-- Arguments are expressions, in which no text stands. -/
theorem CallArguments.texts_eq {us : List Token} {args : List Node} (h : CallArguments us args) :
    nodesTexts args = [] :=
  nodesTexts_eq_nil (h.holds passedOn_texts ⟨Nat.lt_succ_self us.length, fun _ _ _ => trivial⟩)

/-- A close sequence leads out of its block without any text. -/
theorem Closing.carries {keyword : TokenKind} (hkeyword : keyword ≠ .blockClose) {us : List Token}
    (h : Closing keyword us) : Stage.block.Carries us .text [] := by
  cases h with
  | mk hslash hword hclose =>
    refine Stage.carries_block_cons hslash (Stage.carries_block_cons hword ?_)
    rw [Stage.after_block hkeyword]
    exact carries_blockClose hclose

section

variable {B : List Token → List Item → List TokenKind → Prop} {size : Nat} {us : List Token}
  (hB : ∀ {vs items stops}, vs.length < size → B vs items stops →
    Stage.text.Carries vs .text (itemsTexts items))

include hB

/-- A body leads into the block that ends it. -/
theorem Inner.carries {items : List Item} {stops : List TokenKind} (h : Inner B us items stops)
    (hlen : us.length ≤ size) : Stage.text.Carries us .block (itemsTexts items) := by
  cases h with
  | mk h hleft =>
    rw [List.length_append, List.length_singleton] at hlen
    have hopen := Stage.carries_token (i := .text) hleft nofun (by simp)
    have hall := (hB (by omega) h).append hopen
    rwa [List.append_nil] at hall

/-- A body with the close sequence of its construct. -/
theorem Inner.carries_closing {items : List Item} {stops : List TokenKind} {ws : List Token}
    {keyword : TokenKind} (h : Inner B us items stops) (hclosing : Closing keyword ws)
    (hkeyword : keyword ≠ .blockClose) (hlen : us.length ≤ size) :
    Stage.text.Carries (us ++ ws) .text (itemsTexts items) := by
  have hall := (Inner.carries hB h hlen).append (hclosing.carries hkeyword)
  rwa [List.append_nil] at hall

/-- The part behind `else` carries the texts of its body. -/
theorem Otherwise.carries {otherwise : Option (List Item)} (h : Otherwise B us otherwise)
    (hlen : us.length ≤ size) : Stage.block.Carries us .block (bodyTexts otherwise) := by
  cases h with
  | none => exact Stage.carries_nil _
  | some hword hclose hitems =>
    rw [List.length_cons, List.length_cons] at hlen
    exact Stage.carries_block_cons hword
      (Stage.carries_block_cons hclose (Inner.carries hB hitems (by omega)))

/-- An arm carries the texts of its body; its condition has none. -/
theorem ArmOf.carries {arm : Arm} (h : ArmOf B us arm) (hlen : us.length ≤ size) :
    Stage.block.Carries us .block (armsTexts [arm]) := by
  cases h with
  | mk hc hitems =>
    rw [List.length_append] at hlen
    have hall := hc.carries.append (Inner.carries hB hitems (by omega))
    rw [armsTexts, armsTexts, List.append_nil]
    exact hall

/-- Arms carry their texts one after the other. -/
theorem carries_of_arms {arms : List Arm} (h : Separated .elseIfWord (ArmOf B) us arms)
    (hlen : us.length ≤ size) : Stage.block.Carries us .block (armsTexts arms) := by
  induction h with
  | one ha => exact ArmOf.carries hB ha hlen
  | @more us arm t vs arms ha ht _ ih =>
    rw [List.length_append, List.length_cons] at hlen
    have hrest := Stage.carries_block_cons ht (ih (by omega))
    have hall := (ArmOf.carries hB ha (by omega)).append hrest
    rwa [← armsTexts_append] at hall

/-- An assignment carries the texts of its body, if it has one. -/
theorem VarBlock.carries {n : Node} (h : VarBlock B us n) (hlen : us.length ≤ size) :
    Stage.block.Carries us .text n.texts := by
  cases h with
  | value hword hname hassign hvalue =>
    refine Stage.carries_block_cons hword (hname.insideBlock.carries.append ?_)
    exact Stage.carries_block_cons hassign hvalue.carries
  | body hword hname hclose hitems hclosing =>
    simp only [List.length_cons, List.length_append] at hlen
    refine Stage.carries_block_cons hword (hname.insideBlock.carries.append ?_)
    exact Stage.carries_block_cons hclose
      (Inner.carries_closing hB hitems hclosing (by decide) (by omega))

theorem MacroBlock.carries {n : Node} (h : MacroBlock B us n) (hlen : us.length ≤ size) :
    Stage.block.Carries us .text n.texts := by
  cases h with
  | mk hword hname hparams hclose hitems hclosing =>
    simp only [List.length_cons, List.length_append] at hlen
    refine Stage.carries_block_cons hword (hname.insideBlock.carries.append ?_)
    refine hparams.insideBlock.carries.append ?_
    exact Stage.carries_block_cons hclose
      (Inner.carries_closing hB hitems hclosing (by decide) (by omega))

/-- The body of a call stands behind its arguments. -/
theorem CallBlock.carries {n : Node} (h : CallBlock B us n) (hlen : us.length ≤ size) :
    Stage.block.Carries us .text n.texts := by
  cases h with
  | @mk _ us name as args _ _ items _ hword hname hargs hclose hitems hclosing =>
    simp only [List.length_cons, List.length_append] at hlen
    have htexts : (Node.call none (.name name) (args ++ [.statements items])).texts =
        itemsTexts items := by
      simp [nodesTexts_append, hargs.texts_eq]
    rw [htexts]
    refine Stage.carries_block_cons hword (hname.insideBlock.carries.append ?_)
    refine hargs.insideBlock.carries.append ?_
    exact Stage.carries_block_cons hclose
      (Inner.carries_closing hB hitems hclosing (by decide) (by omega))

/-- The body of a loop comes before the body for the empty collection. -/
theorem ForBlock.carries {n : Node} (h : ForBlock B us n) (hlen : us.length ≤ size) :
    Stage.block.Carries us .text n.texts := by
  cases h with
  | mk hword hnames hin hc hitems hotherwise hclosing =>
    simp only [List.length_cons, List.length_append] at hlen
    have hend := (Otherwise.carries hB hotherwise (by omega)).append (hclosing.carries (by decide))
    have hbodies := (Inner.carries hB hitems (by omega)).append hend
    rw [List.append_nil] at hbodies
    refine Stage.carries_block_cons hword (hnames.insideBlock.carries.append ?_)
    exact Stage.carries_block_cons hin (hc.carries.append hbodies)

/-- The arms come one by one, and the arm without a condition last. -/
theorem IfBlock.carries {n : Node} (h : IfBlock B us n) (hlen : us.length ≤ size) :
    Stage.block.Carries us .text n.texts := by
  cases h with
  | @mk _ _ arms _ otherwise _ hword harms hotherwise hclosing =>
    simp only [List.length_cons, List.length_append] at hlen
    have hlast : armsTexts (lastArm otherwise) = bodyTexts otherwise := by
      cases otherwise with
      | none => rfl
      | some items => simp [lastArm]
    have hend := (Otherwise.carries hB hotherwise (by omega)).append (hclosing.carries (by decide))
    have hall := (carries_of_arms hB harms (by omega)).append hend
    rw [List.append_nil, ← hlast, ← armsTexts_append] at hall
    exact Stage.carries_block_cons hword hall

/-- The inside of a block carries the texts of its node, construct by construct. -/
theorem Block.carries {n : Node} (h : Block B us n) (hlen : us.length ≤ size) :
    Stage.block.Carries us .text n.texts := by
  cases h with
  | expression h hclose => exact (Closed.mk h hclose).carries
  | importBlock h =>
    cases h with
    | mk hword hpath hclose =>
      exact Stage.carries_block_cons hword
        (Stage.carries_block_cons hpath (carries_blockClose hclose))
  | varBlock h => exact VarBlock.carries hB h hlen
  | macroBlock h => exact MacroBlock.carries hB h hlen
  | forBlock h => exact ForBlock.carries hB h hlen
  | ifBlock h => exact IfBlock.carries hB h hlen
  | callBlock h => exact CallBlock.carries hB h hlen

/-- An element carries the texts of its item, and a comment none. -/
theorem Element.carries {item : Option Item} {stops : List TokenKind} (h : Element B us item stops)
    (hlen : us.length ≤ size) : Stage.text.Carries us .text (itemsTexts item.toList) := by
  cases h with
  | fragment ht => exact Stage.carries_fragment ht
  | comment hleft h hright =>
    have hopen := Stage.carries_token (i := .text) hleft nofun (by simp)
    have hclose := Stage.carries_token (i := .comment 1) hright nofun nofun
    exact hopen.append ((h.carries 0).append hclose)
  | literal hleft h hright => exact h.carries hleft hright
  | emptyBlock hleft hright =>
    have hopen := Stage.carries_token (i := .text) hleft nofun (by simp)
    exact hopen.append (carries_blockClose hright)
  | blockClose ht => exact Stage.carries_token ht nofun (by simp)
  | block hleft _ h =>
    rw [List.length_cons] at hlen
    have hopen := Stage.carries_token (i := .text) hleft nofun (by simp)
    have hall := hopen.append (Block.carries hB h (by omega))
    rw [Option.toList_some, itemsTexts, itemsTexts, List.append_nil]
    exact hall

/-- A body carries the texts of its items in order, by induction over its elements. -/
theorem Elements.carries {items : List Item} {stops : List TokenKind}
    (h : Elements B us items stops) (hlen : us.length ≤ size) :
    Stage.text.Carries us .text (itemsTexts items) := by
  induction h with
  | nil => exact Stage.carries_nil _
  | cons h _ ih =>
    rw [List.length_append] at hlen
    rw [itemsTexts_append]
    exact (Element.carries hB h (by omega)).append (ih (by omega))

end

/-- **The tokens of a body carry the texts of its items.** As in `Body.noEnd`, the bodies inside a
body have fewer tokens. -/
theorem carries_of_body {us : List Token} {items : List Item} {stops : List TokenKind}
    (h : Body us items stops) : Stage.text.Carries us .text (itemsTexts items) :=
  Elements.carries (fun _ h => carries_of_body h) (body_iff.mp h) (Nat.le_refl us.length)
termination_by us.length

end Derives

end Stencil
