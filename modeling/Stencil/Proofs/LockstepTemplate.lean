import Stencil.Proofs.LockstepExpression
import Stencil.Proofs.TemplateExact

/-!
# Templates in lockstep

Two runs of the template parser take the same steps, whatever bounds they were given. On the way it
comes out where the parser is at each landmark: the template loop looks for its next element only
between blocks, and inside a comment it counts how many comments are open.

The loop over the elements of a body is compared from two different accumulators, so that a run that
goes on behind some elements can be compared with one that starts afresh.

> `Parse.BodyAlike.elements`: the loop over the elements of a body.
> `Parse.alike_template`, `Parse.steady_template`: a whole template.
-/

namespace Stencil.Parse

open Grammar

/-- Where a body ends: in front of the end of the source, or in front of one of the words that end
it, behind the opening of a block. -/
def BodyEnd (stops : List TokenKind) (x : Position) : Prop :=
  x.stage = .text ∧ x.seen = some .eof ∨ x.stage = .block ∧ ∃ k ∈ stops, x.seen = some k

/-- With fewer than `size` tokens to go inside a block, the two parsers take the same steps, end
with the same value, and have left the block. -/
def Closes {α : Type} (size : Nat) (p q : Parse α) : Prop :=
  ∀ ⦃x : Position⦄, x.InBlock → x.left < size → Alike (fun y a b => a = b ∧ y.AtText) x p q

/-- With fewer than `size` tokens to go, the two parsers of bodies take the same steps, end with the
same items, and stand at the end of a body. -/
def BodyAlike (size : Nat) (body body' : Body) : Prop :=
  ∀ (stops : List TokenKind) ⦃x : Position⦄, x.AtText → x.left < size →
    Alike (fun y items items' => items = items' ∧ BodyEnd stops y) x (body stops) (body' stops)

section

variable {γ δ : Type} {size : Nat} {x : Position} {S : Position → γ → δ → Prop} {body body' : Body}
  {stops : List TokenKind}

/-- At the end of a body the parser is inside a block or in front of the end of the source. -/
theorem BodyEnd.inBlock (h : BodyEnd stops x) : x.InBlock := by
  rcases h with ⟨_, hseen⟩ | ⟨hstage, _⟩
  · exact .inr hseen
  · exact .inl hstage

/-! ## Comments and literal blocks -/

/-- The loop over a comment counts the comments that are open. -/
def CountsOpen (x : Position) (depth depth' : Nat) : Prop :=
  depth = depth' ∧ x.stage = .ofDepth depth ∧ x.seen = none

/-- One token inside a comment changes how many are open, in both runs alike. -/
private theorem alike_commentTurn {k : TokenKind} {depth depth' : Nat}
    (hstage : x.stage = .comment (depth + 1)) (hk : k ≠ .eof)
    (hafter : (Stage.comment (depth + 1)).after k = .ofDepth depth') :
    Alike (fun z o o' => (o = none ∧ o' = none ∧ z.AtText) ∨
      ∃ d d', o = some d ∧ o' = some d' ∧ CountsOpen z d d' ∧ z.left < x.left) (x.see k)
      (advance >>= fun _ => pure (some depth')) (advance >>= fun _ => pure (some depth')) := by
  have htakes : (x.see k).stage.takes k = true := by
    rw [Position.stage_see, hstage]
    exact bne_iff_ne.mpr hk
  refine alike_advance rfl htakes fun _ _ _ _ hpos => ?_
  refine alike_pure (.inr ⟨_, _, rfl, rfl, ⟨rfl, ?_, rfl⟩, Nat.sub_lt hpos Nat.one_pos⟩)
  rw [Position.stage_take, Position.stage_see, hstage, hafter]

/-- A whole comment takes at least one token and leads back between the blocks. -/
theorem alike_skipComment (hstage : x.stage = .text) :
    Alike (fun y _ _ => y.AtText ∧ y.left < x.left) x skipComment skipComment := by
  refine alike_expect (fun _ => by rw [hstage]; rfl) fun _ _ _ _ _ hpos => ?_
  have hopen : CountsOpen (x.take .commentOpen) 1 1 := by
    refine ⟨rfl, ?_, rfl⟩
    rw [Position.stage_take, hstage]
    rfl
  refine alike_bind (alike_iterate (E := fun y _ _ => y.AtText) (fun y d d' hle hd => ?_) hopen)
    fun y _ _ hle hy => alike_pure ⟨hy, Nat.lt_of_le_of_lt hle (Nat.sub_lt hpos Nat.one_pos)⟩
  obtain ⟨rfl, hdepth, hseen⟩ := hd
  cases d with
  | zero => exact alike_pure (.inl ⟨rfl, rfl, hdepth, hseen⟩)
  | succ d =>
    have hdepth : y.stage = .comment (d + 1) := hdepth
    refine alike_reach ⟨hdepth, Nat.succ_pos _, hseen⟩ (alike_peek fun t u htu _ => ?_)
    rw [← htu.1]
    generalize t.kind = k
    cases k with
    | eof => exact alike_reject_of_ne (description_ne _)
    | _ => exact alike_commentTurn hdepth (by decide) rfl

/-- The loop over a literal block gathers its text. -/
def Gathers (x : Position) (text text' : String) : Prop :=
  text = text' ∧ x.stage = .literal ∧ x.seen = none

/-- One token inside a literal block adds its text, in both runs alike. -/
private theorem alike_literalTurn {k : TokenKind} {text : String} (hstage : x.stage = .literal)
    (hk : k ≠ .eof) (hafter : Stage.literal.after k = .literal) :
    Alike (fun z o o' => (o = none ∧ o' = none ∧ text = text ∧ z.AtText) ∨
      ∃ s s', o = some s ∧ o' = some s' ∧ Gathers z s s' ∧ z.left < x.left) (x.see k)
      (advance >>= fun t => pure (some (text ++ t.text)))
      (advance >>= fun t => pure (some (text ++ t.text))) := by
  have htakes : (x.see k).stage.takes k = true := by
    rw [Position.stage_see, hstage]
    exact bne_iff_ne.mpr hk
  refine alike_advance rfl htakes fun t u htu _ hpos => ?_
  rw [htu.2]
  refine alike_pure (.inr ⟨_, _, rfl, rfl, ⟨rfl, ?_, rfl⟩, Nat.sub_lt hpos Nat.one_pos⟩)
  rw [Position.stage_take, Position.stage_see, hstage, hafter]

/-- A whole literal block gives both runs the same text. -/
theorem alike_literalBlock (hstage : x.stage = .text) :
    Alike (fun y a b => a = b ∧ y.AtText ∧ y.left < x.left) x literalBlock literalBlock := by
  refine alike_expect (fun _ => by rw [hstage]; rfl) fun _ _ _ _ _ hpos => ?_
  have hopen : Gathers (x.take .literalOpen) "" "" := by
    refine ⟨rfl, ?_, rfl⟩
    rw [Position.stage_take, hstage]
    rfl
  refine (alike_iterate (E := fun y a b => a = b ∧ y.AtText) (fun y a b hle hab => ?_) hopen).imp
    fun y a b hle hy => ⟨hy.1, hy.2, Nat.lt_of_le_of_lt hle (Nat.sub_lt hpos Nat.one_pos)⟩
  obtain ⟨rfl, hliteral, hseen⟩ := hab
  refine alike_peek fun t u htu _ => ?_
  rw [← htu.1]
  generalize t.kind = k
  cases k with
  | eof => exact alike_reject_of_ne (description_ne _)
  | literalClose =>
    have htakes : (y.see .literalClose).stage.takes .literalClose = true := by
      rw [Position.stage_see, hliteral]
      rfl
    refine alike_advance rfl htakes fun _ _ _ _ _ => alike_pure (.inl ⟨rfl, rfl, rfl, ?_, rfl⟩)
    rw [Position.stage_take, Position.stage_see, hliteral]
    rfl
  | _ => exact alike_literalTurn hliteral (by decide) rfl

/-! ## Names, arguments and close sequences -/

theorem inside_boundName : Inside size boundName boundName := by
  intro x hx _
  refine alike_expect_inner hx (by decide) fun y t u hy _ htu => ?_
  exact alike_pure ⟨htu.2, hy⟩

/-- The parameters of a macro stay inside the block of its header. -/
theorem inside_parameters : Inside size parameters parameters := by
  intro x hx _
  refine alike_ifAccept_inner hx (by decide) (fun y hy _ => ?_) fun y hy _ => alike_pure ⟨rfl, hy⟩
  refine alike_ifAccept_inner hy (by decide) (fun z hz _ => alike_pure ⟨rfl, hz⟩) fun z hz _ => ?_
  refine inside_boundName.commaList.bind hz (Nat.lt_succ_self _) fun w params hw _ => ?_
  refine alike_expect_inner hw (by decide) fun v _ _ hv _ _ => ?_
  exact alike_pure ⟨rfl, hv⟩

/-- The names of a loop and the word behind them. -/
theorem alike_loopNames {f : List String → Parse γ} {g : List String → Parse δ} (hx : x.InBlock)
    (h : ∀ y names, y.InBlock → y.left ≤ x.left → Alike S y (f names) (g names)) :
    Alike S x
      (boundName >>= fun first => accept .colon >>= fun keyed =>
        if keyed = true then boundName >>= fun second => expect .inWord >>= fun _ =>
          f [first, second]
        else expect .inWord >>= fun _ => f [first])
      (boundName >>= fun first => accept .colon >>= fun keyed =>
        if keyed = true then boundName >>= fun second => expect .inWord >>= fun _ =>
          g [first, second]
        else expect .inWord >>= fun _ => g [first]) := by
  have hin : ∀ {y : Position} (names : List String), y.InBlock → y.left ≤ x.left →
      Alike S y (expect .inWord >>= fun _ => f names) (expect .inWord >>= fun _ => g names) := by
    intro y names hy hle
    refine alike_expect_inner hy (by decide) fun z _ _ hz hlt _ => ?_
    exact h z names hz (Nat.le_trans (Nat.le_of_lt hlt) hle)
  refine inside_boundName.bind hx (Nat.lt_succ_self _) fun y first hy hle => ?_
  refine alike_ifAccept_inner hy (by decide) (fun z hz hlt => ?_) fun z hz hle' => ?_
  · have hle' := Nat.le_trans (Nat.le_of_lt hlt) hle
    refine inside_boundName.bind hz (Nat.lt_succ_self _) fun w second hw hle'' => ?_
    exact hin _ hw (Nat.le_trans hle'' hle')
  · exact hin _ hz (Nat.le_trans hle' hle)

/-- The arguments of a call with a body, and the end of its first block. -/
theorem alike_callArguments {f : List Node → Parse γ} {g : List Node → Parse δ} (hx : x.InBlock)
    (h : ∀ y args, y.AtText → y.left ≤ x.left → Alike S y (f args) (g args)) :
    Alike S x
      (accept .leftParen >>= fun given => if given = true then arguments expression >>= fun args =>
          expect .blockClose >>= fun _ => f args
        else expect .blockClose >>= fun _ => f [])
      (accept .leftParen >>= fun given => if given = true then arguments expression >>= fun args =>
          expect .blockClose >>= fun _ => g args
        else expect .blockClose >>= fun _ => g []) := by
  have hclose : ∀ {y : Position} (args : List Node), y.InBlock → y.left ≤ x.left →
      Alike S y (expect .blockClose >>= fun _ => f args)
        (expect .blockClose >>= fun _ => g args) := by
    intro y args hy hle
    refine alike_expect_blockClose hy fun z _ _ hz hlt => ?_
    exact h z args hz (Nat.le_trans (Nat.le_of_lt hlt) hle)
  refine alike_ifAccept_inner hx (by decide) (fun y hy hlt => ?_) fun y hy hle => hclose _ hy hle
  refine inside_expression.arguments.bind hy (Nat.lt_succ_self _) fun z args hz hle => ?_
  exact hclose _ hz (Nat.le_trans hle (Nat.le_of_lt hlt))

theorem alike_expectAs_inner {kind : TokenKind} {expected : String} (hx : x.InBlock)
    (hkind : kind.isInner = true) (hne : expected ≠ textExpected) :
    Alike (fun y _ _ => y.InBlock ∧ y.left < x.left) x (expectAs kind expected)
      (expectAs kind expected) :=
  alike_ifAccept_inner hx hkind (fun _ hy hlt => alike_pure ⟨hy, hlt⟩)
    fun _ _ _ => alike_reject_of_ne hne

theorem alike_expectAs_blockClose {expected : String} (hx : x.InBlock)
    (hne : expected ≠ textExpected) :
    Alike (fun y _ _ => y.AtText ∧ y.left < x.left) x (expectAs .blockClose expected)
      (expectAs .blockClose expected) :=
  alike_ifAccept_blockClose hx (fun _ hy hlt => alike_pure ⟨hy, hlt⟩)
    fun _ _ _ => alike_reject_of_ne hne

/-- A close sequence ends the block that it stands in. -/
theorem alike_closing {keyword : TokenKind} (name : String) (hx : x.InBlock)
    (hkeyword : keyword.isInner = true) :
    Alike (fun y _ _ => y.AtText ∧ y.left < x.left) x (closing keyword name)
      (closing keyword name) := by
  have hne : "\"\x7b\x7b/" ++ name ++ "\x7d\x7d\"" ≠ textExpected := by
    intro h
    have hhead := congrArg (fun s => s.toList.head?) h
    simp [textExpected] at hhead
  refine alike_bind (alike_expectAs_inner hx (by decide) hne) fun y _ _ _ hy => ?_
  refine alike_bind (alike_expectAs_inner hy.1 hkeyword hne) fun z _ _ _ hz => ?_
  refine (alike_expectAs_blockClose hz.1 hne).imp fun w _ _ _ hw => ⟨hw.1, ?_⟩
  exact Nat.lt_trans hw.2 (Nat.lt_trans hz.2 hy.2)

/-! ## Constructs -/

section

variable (h : BodyAlike size body body')
include h

/-- A body that only its close sequence ends. -/
theorem BodyAlike.closed {α : Type} (hx : x.AtText) (hleft : x.left < size) {keyword : TokenKind}
    (hkeyword : keyword.isInner = true) (name : String) (f : List Item → α) :
    Alike (fun y a b => a = b ∧ y.AtText) x
      (body [.slash] >>= fun items => closing keyword name >>= fun _ => pure (f items))
      (body' [.slash] >>= fun items => closing keyword name >>= fun _ => pure (f items)) := by
  refine alike_bind (h [.slash] hx hleft) fun y items items' _ hy => ?_
  obtain ⟨rfl, hend⟩ := hy
  refine alike_bind (alike_closing name hend.inBlock hkeyword) fun z _ _ _ hz => ?_
  exact alike_pure ⟨rfl, hz.1⟩

/-- The rest of a construct that may have an `else`. -/
theorem BodyAlike.otherwise {α : Type} (hx : x.InBlock) (hleft : x.left < size)
    {keyword : TokenKind} (hkeyword : keyword.isInner = true) (name : String)
    (f : List Item → α) (a : α) :
    Alike (fun y a b => a = b ∧ y.AtText) x
      (accept .elseWord >>= fun found => if found = true then expect .blockClose >>= fun _ =>
          body [.slash] >>= fun items => closing keyword name >>= fun _ => pure (f items)
        else closing keyword name >>= fun _ => pure a)
      (accept .elseWord >>= fun found => if found = true then expect .blockClose >>= fun _ =>
          body' [.slash] >>= fun items => closing keyword name >>= fun _ => pure (f items)
        else closing keyword name >>= fun _ => pure a) := by
  refine alike_ifAccept_inner hx (by decide) (fun y hy hlt => ?_) fun y hy hle => ?_
  · refine alike_expect_blockClose hy fun z _ _ hz hlt' => ?_
    exact h.closed hz (by omega) hkeyword name f
  · refine alike_bind (alike_closing name hy hkeyword) fun z _ _ _ hz => ?_
    exact alike_pure ⟨rfl, hz.1⟩

omit h in
theorem closes_importBlock : Closes size importBlock importBlock := by
  intro x hx _
  refine alike_expect_inner hx (by decide) fun y _ _ hy _ _ => ?_
  refine alike_expect_inner hy (by decide) fun z t u hz _ htu => ?_
  refine alike_expect_blockClose hz fun w _ _ hw _ => ?_
  rw [htu.2]
  exact alike_pure ⟨rfl, hw⟩

/-- An assignment, with a value or with a body. -/
theorem BodyAlike.varBlock : Closes size (varBlock body) (varBlock body') := by
  intro x hx hleft
  refine alike_expect_inner hx (by decide) fun y _ _ hy hlt _ => ?_
  refine inside_boundName.bind hy (Nat.lt_succ_self _) fun z name hz hle => ?_
  refine alike_ifAccept_inner hz (by decide) (fun w hw _ => ?_) fun w hw hle' => ?_
  · refine inside_expression.bind hw (Nat.lt_succ_self _) fun v value hv _ => ?_
    refine alike_expect_blockClose hv fun v' _ _ hv' _ => ?_
    exact alike_pure ⟨rfl, hv'⟩
  · refine alike_bind (alike_expectAs_blockClose hw (by decide)) fun v _ _ _ hv => ?_
    exact h.closed hv.1 (by omega) (by decide) "var" _

theorem BodyAlike.macroBlock : Closes size (macroBlock body) (macroBlock body') := by
  intro x hx hleft
  refine alike_expect_inner hx (by decide) fun y _ _ hy hlt _ => ?_
  refine inside_boundName.bind hy (Nat.lt_succ_self _) fun z name hz hle => ?_
  refine inside_parameters.bind hz (Nat.lt_succ_self _) fun w params hw hle' => ?_
  refine alike_expect_blockClose hw fun v _ _ hv hlt' => ?_
  exact h.closed hv (by omega) (by decide) "macro" _

/-- A loop from its collection on, once its names are read. -/
theorem BodyAlike.loopBehindNames (hx : x.InBlock) (hleft : x.left < size) (names : List String) :
    Alike (fun y a b => a = b ∧ y.AtText) x (Derives.loopBehindNames body names)
      (Derives.loopBehindNames body' names) := by
  refine inside_expression.bind hx (Nat.lt_succ_self _) fun y collection hy hle => ?_
  refine alike_expect_blockClose hy fun z _ _ hz hlt => ?_
  refine alike_bind (h _ hz (by omega)) fun w items items' hle' hend => ?_
  obtain ⟨rfl, hend⟩ := hend
  exact h.otherwise hend.inBlock (by omega) (by decide) "for"
    (fun otherwise => Node.loop names collection items (some otherwise)) _

theorem BodyAlike.forBlock : Closes size (forBlock body) (forBlock body') := by
  intro x hx hleft
  refine alike_expect_inner hx (by decide) fun y _ _ hy hlt _ => ?_
  refine alike_loopNames (f := Derives.loopBehindNames body) (g := Derives.loopBehindNames body') hy
    fun z names hz hle => ?_
  exact h.loopBehindNames hz (by omega) names

/-- An arm ends inside the block that ends its body. -/
theorem BodyAlike.arm : Inside size (arm body) (arm body') := by
  intro x hx hleft
  refine inside_expression.bind hx (Nat.lt_succ_self _) fun y condition hy hle => ?_
  refine alike_expect_blockClose hy fun z _ _ hz hlt => ?_
  refine alike_bind (h _ hz (by omega)) fun w items items' _ hend => ?_
  obtain ⟨rfl, hend⟩ := hend
  exact alike_pure ⟨rfl, hend.inBlock⟩

/-- A condition: the loop over its arms, then `else` or the close sequence. -/
theorem BodyAlike.ifBlock : Closes size (ifBlock body) (ifBlock body') := by
  intro x hx hleft
  refine alike_expect_inner hx (by decide) fun y _ _ hy hlt _ => ?_
  refine h.arm.bind hy (by omega) fun z first hz hle => ?_
  refine alike_bind (alike_iterate_inside hz [first] fun w arms hw hle' => ?_)
    fun w arms arms' hle' hw => ?_
  · refine alike_ifAccept_inner hw (by decide) (fun v hv hlt' => ?_) fun v hv _ => ?_
    · refine h.arm.bind hv (by omega) fun v' next hv' hle'' => ?_
      exact alike_pure ⟨rfl, hv', fun _ => Nat.lt_of_le_of_lt hle'' hlt'⟩
    · exact alike_pure ⟨rfl, hv, nofun⟩
  · obtain ⟨rfl, hw⟩ := hw
    exact h.otherwise hw (by omega) (by decide) "if"
      (fun items => Node.conditional (Arm.mk (.bool true) items :: arms).reverse) _

theorem BodyAlike.callBlock : Closes size (callBlock body) (callBlock body') := by
  intro x hx hleft
  refine alike_expect_inner hx (by decide) fun y _ _ hy hlt _ => ?_
  refine inside_boundName.bind hy (Nat.lt_succ_self _) fun z name hz hle => ?_
  refine alike_callArguments hz fun w args hw hle' => ?_
  exact h.closed hw (by omega) (by decide) "call" _

/-- The inside of a block, by the first token. -/
theorem BodyAlike.block : Closes size (block body) (block body') := by
  intro x hx hleft
  refine alike_peek fun t u htu hshows => ?_
  rw [← htu.1]
  have hsee := hx.see hshows
  generalize t.kind = k at hsee
  cases k with
  | varWord => exact h.varBlock hsee hleft
  | macroWord => exact h.macroBlock hsee hleft
  | forWord => exact h.forBlock hsee hleft
  | ifWord => exact h.ifBlock hsee hleft
  | callWord => exact h.callBlock hsee hleft
  | importWord => exact closes_importBlock hsee hleft
  | _ =>
    refine inside_expression.bind hsee (Nat.lt_succ_self _) fun y node hy _ => ?_
    refine alike_expect_blockClose hy fun z _ _ hz _ => ?_
    exact alike_pure ⟨rfl, hz⟩

/-! ## Bodies -/

/-- A further element of a body is put before those already read, whatever they are. -/
theorem BodyAlike.bodyStep (hx : x.AtText) (hleft : x.left ≤ size) (items items' : List Item) :
    Alike (fun y o o' => (o = none ∧ o' = none ∧ BodyEnd stops y) ∨
      ∃ new, o = some (new ++ items) ∧ o' = some (new ++ items') ∧ y.AtText ∧ y.left < x.left)
      x (bodyStep body stops items) (bodyStep body' stops items') := by
  obtain ⟨hstage, hseen⟩ := hx
  refine alike_reach ⟨hstage, hseen⟩ (alike_peek fun t u htu hshows => ?_)
  rw [← htu.1]
  generalize t.kind = k
  have htake : ∀ {k : TokenKind}, Stage.text.takes k = true → (x.see k).stage.takes k = true := by
    intro k hk
    rw [Position.stage_see, hstage, hk]
  cases k with
  | eof => exact alike_pure (.inl ⟨rfl, rfl, .inl ⟨hstage, rfl⟩⟩)
  | commentOpen =>
    refine alike_bind (alike_skipComment hstage) fun y _ _ _ hy => ?_
    exact alike_pure (.inr ⟨[], rfl, rfl, hy.1, hy.2⟩)
  | literalOpen =>
    refine alike_bind (alike_literalBlock hstage) fun y text text' _ hy => ?_
    obtain ⟨rfl, hy, hlt⟩ := hy
    exact alike_pure (.inr ⟨[.text text], rfl, rfl, hy, hlt⟩)
  | blockOpen =>
    refine alike_advance rfl (htake rfl) fun _ _ _ _ hpos => ?_
    have hblock : ((x.see .blockOpen).take .blockOpen).stage = .block := by
      rw [Position.stage_take, Position.stage_see, hstage]
      rfl
    have hlt : ((x.see .blockOpen).take .blockOpen).left < x.left := Nat.sub_lt hpos Nat.one_pos
    generalize (x.see .blockOpen).take .blockOpen = y at hblock hlt
    refine alike_peek fun t u htu hshows => ?_
    rw [← htu.1]
    cases hstop : stops.contains t.kind with
    | true =>
      have hmem : t.kind ∈ stops := List.contains_iff_mem.mp hstop
      exact alike_pure (.inl ⟨rfl, rfl, .inr ⟨hblock, t.kind, hmem, rfl⟩⟩)
    | false =>
      refine alike_ifAccept_blockClose (.inl hblock) (fun z hz hlt' => ?_) fun z hz hle => ?_
      · exact alike_pure (.inr ⟨[], rfl, rfl, hz, Nat.lt_trans hlt' hlt⟩)
      · have hle' := Nat.lt_of_le_of_lt hle hlt
        refine alike_bind (h.block hz (by omega)) fun w node node' hle'' hw => ?_
        obtain ⟨rfl, hw⟩ := hw
        exact alike_pure (.inr ⟨[.node node], rfl, rfl, hw, by omega⟩)
  | blockClose =>
    refine alike_advance rfl (htake rfl) fun _ _ _ _ hpos => ?_
    refine alike_pure (.inr ⟨[], rfl, rfl, ⟨?_, rfl⟩, Nat.sub_lt hpos Nat.one_pos⟩)
    rw [Position.stage_take, Position.stage_see, hstage]
    rfl
  | fragment =>
    refine alike_advance rfl (htake rfl) fun t u htu _ hpos => ?_
    rw [htu.2]
    refine alike_pure (.inr ⟨[.text u.text], rfl, rfl, ⟨?_, rfl⟩, Nat.sub_lt hpos Nat.one_pos⟩)
    rw [Position.stage_take, Position.stage_see, hstage]
    rfl
  | _ => exact alike_reject fun _ => ⟨hstage, _, rfl, nofun, rfl⟩

/-- **The elements of a body**, in lockstep with a run that starts behind further items. -/
theorem BodyAlike.elements (stops : List TokenKind) (hx : x.AtText) (hleft : x.left ≤ size)
    (base : List Item) {fuel fuel' : Nat} (hfuel : x.left < fuel) (hfuel' : x.left < fuel') :
    Alike (fun y items items' => items = items' ++ base ∧ BodyEnd stops y) x
      (iterateUpTo (Grammar.bodyStep body stops) fuel base)
      (iterateUpTo (Grammar.bodyStep body' stops) fuel' []) := by
  refine alike_iterateUpTo (R := fun y items items' => items = items' ++ base ∧ y.AtText)
    (fun y items items' hle hitems => ?_) (Nat.le_refl _) hfuel hfuel' ⟨rfl, hx⟩
  obtain ⟨rfl, hy⟩ := hitems
  refine (h.bodyStep hy (by omega) (items' ++ base) items').imp fun z o o' _ hz => ?_
  rcases hz with ⟨rfl, rfl, hend⟩ | ⟨new, rfl, rfl, hz, hlt⟩
  · exact .inl ⟨rfl, rfl, rfl, hend⟩
  · exact .inr ⟨_, _, rfl, rfl, ⟨(List.append_assoc _ _ _).symm, hz⟩, hlt⟩

end

/-- Bodies: the depths may differ as long as neither is less than the number of tokens. -/
theorem bodyAlike_bodyWithin : ∀ {size m n : Nat}, size ≤ m → size ≤ n →
    BodyAlike size (bodyWithin m) (bodyWithin n) := by
  intro size
  induction size with
  | zero => intro m n _ _ stops x _ hleft; exact absurd hleft (Nat.not_lt_zero _)
  | succ size ih =>
    intro m n hm hn stops x hx hleft
    cases m with
    | zero => exact absurd hm (Nat.not_succ_le_zero _)
    | succ m =>
      cases n with
      | zero => exact absurd hn (Nat.not_succ_le_zero _)
      | succ n =>
        have hbody := ih (Nat.le_of_succ_le_succ hm) (Nat.le_of_succ_le_succ hn)
        have hloop := alike_bound fun _ _ hfuel hfuel' =>
          hbody.elements stops hx (Nat.le_of_lt_succ hleft) [] hfuel hfuel'
        refine alike_bind hloop fun y items items' _ hy => ?_
        obtain ⟨rfl, hend⟩ := hy
        rw [List.append_nil]
        exact alike_pure ⟨rfl, hend⟩

/-- **Templates are read in lockstep**, whatever the bounds, from the text to the end of the
source. -/
theorem alike_template (hx : x.AtText) :
    Alike (fun y items items' => items = items' ∧ y.stage = .text ∧ y.seen = some .eof) x
      template template := by
  refine alike_bound fun m n hm hn => ?_
  have hbody := bodyAlike_bodyWithin (Nat.succ_le_of_lt hm) (Nat.succ_le_of_lt hn)
  refine (hbody [] hx (Nat.lt_succ_self _)).imp fun y items items' _ hy => ?_
  rcases hy.2 with hend | ⟨_, k, hk, _⟩
  · exact ⟨hy.1, hend⟩
  · exact absurd hk (List.not_mem_nil)

theorem steady_template : Steady template :=
  ⟨.text, fun _ => (alike_template ⟨rfl, rfl⟩).imp fun _ _ _ _ hy => hy.1⟩

end

end Stencil.Parse
