import Stencil.Grammar.Template

/-!
# Parsers in lockstep

Two parsers that take the same steps, run on two sources that show the same tokens, end alike. The
two may differ in the bounds that they were given and in the values that they carry along; the
sources may be of different make, and what ties them together is up to the caller.

`Parse.Alike` compares two parsers without running them, as `Parse.Yields` looks at one. It follows
where in a template they are (`Stage`), which token they have looked at, and how many tokens are
left at most (`Position`). It also holds them to a discipline: a token is taken only after it was
looked at, and only if tokens of its kind can be taken at this stage; landmarks are passed only
where they belong.

> `Parse.alike_bind`, `Parse.alike_iterate`: how to compare parsers part by part.
> `Parse.run_alike`: their runs end alike.
> `Parse.exists_of_mem_passed`: they pass landmarks only where these belong.
-/

namespace Stencil

/-- The two tokens have one kind and one text. -/
def Token.Same (t u : Token) : Prop :=
  t.kind = u.kind ∧ t.text = u.text

/-! ## Where a parser is -/

/-- What of a template a parser is in. -/
inductive Stage where
  /-- Between blocks. -/
  | text
  /-- Inside a number of comments. -/
  | comment (depth : Nat)
  /-- Inside a literal block. -/
  | literal
  /-- Inside a block. -/
  | block
  deriving Repr, DecidableEq

namespace Stage

/-- The stage inside a number of comments, which may be none. -/
def ofDepth : Nat → Stage
  | 0 => text
  | depth + 1 => comment (depth + 1)

/-- The stage behind a token. -/
def after : Stage → TokenKind → Stage
  | text, .commentOpen => comment 1
  | text, .literalOpen => literal
  | text, .blockOpen => block
  | comment depth, .commentOpen => comment (depth + 1)
  | comment depth, .commentClose => ofDepth (depth - 1)
  | literal, .literalClose => text
  | block, .blockClose => text
  | stage, _ => stage

/-- Whether a token of the kind can be taken. -/
def takes : Stage → TokenKind → Bool
  | text, k => [.fragment, .commentOpen, .literalOpen, .blockOpen, .blockClose].contains k
  | block, k => !(([.eof, .fragment, .commentOpen, .commentClose, .literalOpen, .literalClose,
      .blockOpen] : List TokenKind).contains k)
  | _, k => k != .eof

/-- Inside a block no other token than its end leads out of it. -/
theorem after_block {k : TokenKind} (h : k ≠ .blockClose) : block.after k = block := by
  cases k <;> first | rfl | exact absurd rfl h

/-- Inside comments only their delimiters change how many are open. -/
theorem after_comment {k : TokenKind} (hopen : k ≠ .commentOpen) (hclose : k ≠ .commentClose)
    (depth : Nat) : (comment depth).after k = comment depth := by
  cases k <;> first | rfl | exact absurd rfl hopen | exact absurd rfl hclose

/-- At no stage the end of the source is taken. -/
theorem takes_ne_eof {i : Stage} {k : TokenKind} (h : i.takes k = true) : k ≠ .eof := by
  rintro rfl
  cases i <;> cases h

end Stage

/-- A kind of token that can be taken inside a block and does not end it. -/
def TokenKind.isInner (k : TokenKind) : Bool :=
  Stage.block.takes k && k != .blockClose

namespace TokenKind

/-- Inner kinds can be taken inside a block. -/
theorem takes_of_isInner {k : TokenKind} (h : k.isInner = true) : Stage.block.takes k = true :=
  (Bool.and_eq_true_iff.mp h).1

/-- They leave the parser inside the block. -/
theorem after_of_isInner {k : TokenKind} (h : k.isInner = true) : Stage.block.after k = .block := by
  cases k <;> first | rfl | cases h

/-- Words, keywords and identifiers, stand inside blocks. -/
theorem isInner_of_isWord {k : TokenKind} (h : k.isWord = true) : k.isInner = true := by
  cases k <;> first | rfl | cases h

end TokenKind

/-- Where a parser is: its stage, the kind of the next token if it has looked at it, and a number
that the tokens which are left do not exceed. -/
structure Position where
  stage : Stage
  seen : Option TokenKind := none
  left : Nat

namespace Position

variable {x : Position} {k : TokenKind}

/-- The next token may be of the kind, for all that has been seen of it. -/
def Shows (x : Position) (k : TokenKind) : Prop :=
  ∀ k', x.seen = some k' → k' = k

/-- The position once the next token has been looked at. -/
def see (x : Position) (k : TokenKind) : Position :=
  { x with seen := some k }

/-- The position behind the next token. -/
def take (x : Position) (k : TokenKind) : Position :=
  ⟨x.stage.after k, none, x.left - 1⟩

@[simp] theorem stage_see : (x.see k).stage = x.stage := rfl
@[simp] theorem stage_take : (x.take k).stage = x.stage.after k := rfl
@[simp] theorem left_take : (x.take k).left = x.left - 1 := rfl

/-- Inside a block, or in front of the end, where nothing can be taken any more. -/
def InBlock (x : Position) : Prop :=
  x.stage = .block ∨ x.seen = some .eof

/-- Looking at a token does not lead out of a block. -/
theorem InBlock.see (h : x.InBlock) (hk : x.Shows k) : (x.see k).InBlock := by
  rcases h with h | h
  · exact .inl h
  · exact .inr (congrArg some (hk _ h).symm)

theorem InBlock.stage_eq (h : x.InBlock) (hk : x.Shows k) (hne : k ≠ .eof) : x.stage = .block := by
  rcases h with h | h
  · exact h
  · exact absurd (hk _ h).symm hne

/-- Between blocks, in front of a token that has not been looked at. -/
def AtText (x : Position) : Prop :=
  x.stage = .text ∧ x.seen = none

end Position

/-- Where a landmark belongs. -/
def Landmark.At : Landmark → Position → Prop
  | .item, x => x.AtText
  | .comment depth, x => x.stage = .comment depth ∧ 0 < depth ∧ x.seen = none

/-- What the template loop expects in front of a token with which no element starts. -/
def textExpected : String :=
  "template text or \"\x7b\x7b\""

/-- A refusal that expects template text comes only in front of a token with which no element
starts. -/
def Position.Rejects (x : Position) (expected : String) : Prop :=
  expected = textExpected →
    x.stage = .text ∧ ∃ k, x.seen = some k ∧ k ≠ .eof ∧ Stage.text.takes k = false

/-! ## Parsers that take the same steps -/

namespace Parse

variable {α β γ δ : Type}

/-- From the position on, the two parsers take the same steps, and their values are in the
relation. -/
def Alike (R : Position → α → β → Prop) : Position → Parse α → Parse β → Prop
  | x, .done a, .done b => R x a b
  | x, .reject e, .reject e' => e = e' ∧ x.Rejects e
  | x, .look f, .look g =>
    ∀ t u, t.Same u → x.Shows t.kind → Alike R (x.see t.kind) (f t) (g u)
  | x, .take f, .take g => ∃ k, x.seen = some k ∧ x.stage.takes k = true ∧
    ∀ t u, t.Same u → t.kind = k → 0 < x.left → Alike R (x.take k) (f t) (g u)
  | x, .bound f, .bound g => ∀ m n, x.left < m → x.left < n → Alike R x (f m) (g n)
  | x, .pass l p, .pass l' q => l = l' ∧ l.At x ∧ Alike R x p q
  | _, _, _ => False

variable {R : Position → α → β → Prop} {S : Position → γ → δ → Prop} {x : Position} {p : Parse α}
  {q : Parse β} {f : α → Parse γ} {g : β → Parse δ} {kind : TokenKind}

/-- Two parsers in lockstep, one after the other. The number of tokens that are left does not
grow. -/
theorem alike_bind (h : Alike R x p q)
    (hf : ∀ y a b, y.left ≤ x.left → R y a b → Alike S y (f a) (g b)) :
    Alike S x (p >>= f) (q >>= g) := by
  induction p generalizing x q with
  | done a =>
    cases q with
    | done b => exact hf x a b (Nat.le_refl _) h
    | _ => cases h
  | reject e =>
    cases q with
    | reject e' => exact h
    | _ => cases h
  | look next ih =>
    cases q with
    | look next' => exact fun t u htu hshows => ih t (h t u htu hshows) hf
    | _ => cases h
  | take next ih =>
    cases q with
    | take next' =>
      obtain ⟨k, hseen, htakes, h⟩ := h
      refine ⟨k, hseen, htakes, fun t u htu hk hpos => ih t (h t u htu hk hpos) ?_⟩
      intro y a b hle
      exact hf y a b (Nat.le_trans hle (Nat.sub_le _ _))
    | _ => cases h
  | bound next ih =>
    cases q with
    | bound next' => exact fun m n hm hn => ih m (h m n hm hn) hf
    | _ => cases h
  | pass l next ih =>
    cases q with
    | pass l' next' => exact ⟨h.1, h.2.1, ih h.2.2 hf⟩
    | _ => cases h

/-- A weaker relation between the values will do. -/
theorem Alike.imp {R' : Position → α → β → Prop} (h : Alike R x p q)
    (hRS : ∀ y a b, y.left ≤ x.left → R y a b → R' y a b) :
    Alike R' x p q := by
  induction p generalizing x q with
  | done a =>
    cases q with
    | done b => exact hRS x a b (Nat.le_refl _) h
    | _ => cases h
  | reject e =>
    cases q with
    | reject e' => exact h
    | _ => cases h
  | look next ih =>
    cases q with
    | look next' => exact fun t u htu hshows => ih t (h t u htu hshows) hRS
    | _ => cases h
  | take next ih =>
    cases q with
    | take next' =>
      obtain ⟨k, hseen, htakes, h⟩ := h
      refine ⟨k, hseen, htakes, fun t u htu hk hpos => ih t (h t u htu hk hpos) ?_⟩
      intro y a b hle
      exact hRS y a b (Nat.le_trans hle (Nat.sub_le _ _))
    | _ => cases h
  | bound next ih =>
    cases q with
    | bound next' => exact fun m n hm hn => ih m (h m n hm hn) hRS
    | _ => cases h
  | pass l next ih =>
    cases q with
    | pass l' next' => exact ⟨h.1, h.2.1, ih h.2.2 hRS⟩
    | _ => cases h

/-- Two parsers with their results are alike if these are related. -/
theorem alike_pure {a : γ} {b : δ} (h : S x a b) : Alike S x (pure a) (pure b) :=
  h

/-- Refusals are alike if they expect the same, and template text only where it belongs. -/
theorem alike_reject {e : String} (h : x.Rejects e) :
    Alike S x (reject e : Parse γ) (reject e : Parse δ) :=
  ⟨rfl, h⟩

/-- Parsers that ask for a bound are alike if they are so for any two bounds that are large enough.
-/
theorem alike_bound {next : Nat → Parse γ} {next' : Nat → Parse δ}
    (h : ∀ m n, x.left < m → x.left < n → Alike S x (next m) (next' n)) :
    Alike S x (bound next) (bound next') :=
  h

/-- A landmark may be passed where it belongs. -/
theorem alike_reach {l : Landmark} {f : Unit → Parse γ} {g : Unit → Parse δ} (hl : l.At x)
    (h : Alike S x (f ()) (g ())) : Alike S x (reach l >>= f) (reach l >>= g) :=
  ⟨rfl, hl, h⟩

/-- Both parsers see a token of one kind and text, and this kind is known from then on. -/
theorem alike_peek {f : Token → Parse γ} {g : Token → Parse δ}
    (h : ∀ t u, t.Same u → x.Shows t.kind → Alike S (x.see t.kind) (f t) (g u)) :
    Alike S x (peek >>= f) (peek >>= g) :=
  h

/-- A question about the next kind has the same answer for both. -/
theorem alike_isNext {f : Bool → Parse γ} {g : Bool → Parse δ}
    (h : ∀ k, x.Shows k → Alike S (x.see k) (f (k == kind)) (g (k == kind))) :
    Alike S x (isNext kind >>= f) (isNext kind >>= g) := by
  intro t u htu hshows
  have hnext := h t.kind hshows
  show Alike S (x.see t.kind) (f (t.kind == kind)) (g (u.kind == kind))
  rw [← htu.1]
  exact hnext

/-- A token that has been looked at is taken. -/
theorem alike_advance {k : TokenKind} {f : Token → Parse γ} {g : Token → Parse δ}
    (hseen : x.seen = some k) (htakes : x.stage.takes k = true)
    (h : ∀ t u, t.Same u → t.kind = k → 0 < x.left → Alike S (x.take k) (f t) (g u)) :
    Alike S x (advance >>= f) (advance >>= g) :=
  ⟨k, hseen, htakes, h⟩

/-- A token of a kind is taken if it is next. -/
theorem alike_ifAccept {f : Bool → Parse γ} {g : Bool → Parse δ}
    (htakes : x.Shows kind → x.stage.takes kind = true)
    (hyes : x.Shows kind → 0 < x.left → Alike S (x.take kind) (f true) (g true))
    (hno : ∀ k, x.Shows k → k ≠ kind → Alike S (x.see k) (f false) (g false)) :
    Alike S x (accept kind >>= f) (accept kind >>= g) := by
  have haccept : Alike (fun y a b => a = b ∧ (a = true ∧ x.Shows kind ∧ 0 < x.left ∧
      y = x.take kind ∨ a = false ∧ ∃ k, x.Shows k ∧ k ≠ kind ∧ y = x.see k))
      x (accept kind) (accept kind) := by
    refine alike_isNext fun k hshows => ?_
    by_cases hk : k = kind
    · subst hk
      rw [beq_self_eq_true]
      refine alike_advance rfl (htakes hshows) fun t u _ _ hpos => ?_
      exact alike_pure ⟨rfl, .inl ⟨rfl, hshows, hpos, rfl⟩⟩
    · rw [beq_eq_false_iff_ne.mpr hk]
      exact alike_pure ⟨rfl, .inr ⟨rfl, k, hshows, hk, rfl⟩⟩
  refine alike_bind haccept fun y a b _ hy => ?_
  obtain ⟨rfl, ⟨rfl, hshows, hpos, rfl⟩ | ⟨rfl, k, hshows, hk, rfl⟩⟩ := hy
  · exact hyes hshows hpos
  · exact hno k hshows hk

/-- The description of a kind is never the text that the template loop expects. -/
theorem description_ne (k : TokenKind) : k.description ≠ textExpected := by
  cases k <;> decide

/-- A token of a kind is taken, and any other refused. -/
theorem alike_expect {f : Token → Parse γ} {g : Token → Parse δ}
    (htakes : x.Shows kind → x.stage.takes kind = true)
    (h : ∀ t u, t.Same u → t.kind = kind → x.Shows kind → 0 < x.left →
      Alike S (x.take kind) (f t) (g u)) :
    Alike S x (expect kind >>= f) (expect kind >>= g) := by
  have hexpect : Alike (fun y t u => t.Same u ∧ t.kind = kind ∧ x.Shows kind ∧ 0 < x.left ∧
      y = x.take kind) x (expect kind) (expect kind) := by
    refine alike_isNext fun k hshows => ?_
    by_cases hk : k = kind
    · subst hk
      rw [beq_self_eq_true]
      exact ⟨k, rfl, htakes hshows, fun t u htu ht hpos => ⟨htu, ht, hshows, hpos, rfl⟩⟩
    · rw [beq_eq_false_iff_ne.mpr hk]
      exact alike_reject fun he => absurd he (description_ne kind)
  refine alike_bind hexpect fun y t u _ hy => ?_
  obtain ⟨htu, ht, hshows, hpos, rfl⟩ := hy
  exact h t u htu ht hshows hpos

/-! ### Inside blocks -/

/-- A token that has been looked at is taken, and the parser stays inside the block. -/
theorem alike_advance_inner {k : TokenKind} {f : Token → Parse γ} {g : Token → Parse δ}
    (hx : x.InBlock) (hshows : x.Shows k) (hinner : k.isInner = true)
    (h : ∀ (y : Position) (t u : Token), y.InBlock → y.left < x.left → t.Same u →
      Alike S y (f t) (g u)) :
    Alike S (x.see k) (advance >>= f) (advance >>= g) := by
  have htakes := TokenKind.takes_of_isInner hinner
  have hstage := hx.stage_eq hshows (Stage.takes_ne_eof htakes)
  refine alike_advance rfl (by rw [Position.stage_see, hstage, htakes]) fun t u htu _ hpos => ?_
  refine h _ t u (.inl ?_) (Nat.sub_lt hpos Nat.one_pos) htu
  rw [Position.stage_take, Position.stage_see, hstage]
  exact TokenKind.after_of_isInner hinner

/-- An inner kind that may follow: if it does, a token is gone, and in both cases the parsers are
inside the block. -/
theorem alike_ifAccept_inner {f : Bool → Parse γ} {g : Bool → Parse δ} (hx : x.InBlock)
    (hkind : kind.isInner = true)
    (hyes : ∀ y : Position, y.InBlock → y.left < x.left → Alike S y (f true) (g true))
    (hno : ∀ y : Position, y.InBlock → y.left ≤ x.left → Alike S y (f false) (g false)) :
    Alike S x (accept kind >>= f) (accept kind >>= g) := by
  have htakes := TokenKind.takes_of_isInner hkind
  have hstage : x.Shows kind → x.stage = .block := fun hshows =>
    hx.stage_eq hshows (Stage.takes_ne_eof htakes)
  refine alike_ifAccept (fun hshows => ?_) (fun hshows hpos => ?_) fun k hshows _ => ?_
  · rw [hstage hshows]
    exact htakes
  · refine hyes _ (.inl ?_) (Nat.sub_lt hpos Nat.one_pos)
    rw [Position.stage_take, hstage hshows]
    exact TokenKind.after_of_isInner hkind
  · exact hno _ (hx.see hshows) (Nat.le_refl _)

/-- An inner kind that has to follow is taken by both parsers or refused by both. -/
theorem alike_expect_inner {f : Token → Parse γ} {g : Token → Parse δ} (hx : x.InBlock)
    (hkind : kind.isInner = true)
    (h : ∀ (y : Position) (t u : Token), y.InBlock → y.left < x.left → t.Same u →
      Alike S y (f t) (g u)) :
    Alike S x (expect kind >>= f) (expect kind >>= g) := by
  have htakes := TokenKind.takes_of_isInner hkind
  have hstage : x.Shows kind → x.stage = .block := fun hshows =>
    hx.stage_eq hshows (Stage.takes_ne_eof htakes)
  refine alike_expect (fun hshows => ?_) fun t u htu _ hshows hpos => ?_
  · rw [hstage hshows]
    exact htakes
  · refine h _ t u (.inl ?_) (Nat.sub_lt hpos Nat.one_pos) htu
    rw [Position.stage_take, hstage hshows]
    exact TokenKind.after_of_isInner hkind

theorem stage_blockClose_of_inBlock (hx : x.InBlock) (hshows : x.Shows .blockClose) :
    x.stage = .block :=
  hx.stage_eq hshows (by decide)

/-- Behind the end of a block comes text. -/
theorem atText_take_of_inBlock (hx : x.InBlock) (hshows : x.Shows .blockClose) :
    (x.take .blockClose).AtText := by
  refine ⟨?_, rfl⟩
  rw [Position.stage_take, stage_blockClose_of_inBlock hx hshows]
  rfl

/-- The end of a block that may follow: if it does, the parsers are between blocks. -/
theorem alike_ifAccept_blockClose {f : Bool → Parse γ} {g : Bool → Parse δ} (hx : x.InBlock)
    (hyes : ∀ y : Position, y.AtText → y.left < x.left → Alike S y (f true) (g true))
    (hno : ∀ y : Position, y.InBlock → y.left ≤ x.left → Alike S y (f false) (g false)) :
    Alike S x (accept .blockClose >>= f) (accept .blockClose >>= g) := by
  refine alike_ifAccept (fun hshows => ?_) (fun hshows hpos => ?_) fun k hshows _ => ?_
  · rw [stage_blockClose_of_inBlock hx hshows]
    rfl
  · exact hyes _ (atText_take_of_inBlock hx hshows) (Nat.sub_lt hpos Nat.one_pos)
  · exact hno _ (hx.see hshows) (Nat.le_refl _)

/-- The end of a block that has to follow leads out of the block. -/
theorem alike_expect_blockClose {f : Token → Parse γ} {g : Token → Parse δ} (hx : x.InBlock)
    (h : ∀ (y : Position) (t u : Token), y.AtText → y.left < x.left → Alike S y (f t) (g u)) :
    Alike S x (expect .blockClose >>= f) (expect .blockClose >>= g) := by
  refine alike_expect (fun hshows => ?_) fun t u _ _ hshows hpos => ?_
  · rw [stage_blockClose_of_inBlock hx hshows]
    rfl
  · exact h _ t u (atText_take_of_inBlock hx hshows) (Nat.sub_lt hpos Nat.one_pos)

/-! ### Loops -/

/-- Loops whose turns are in lockstep, and take a token each, are in lockstep themselves as long as
the fuel of both is enough. -/
theorem alike_iterateUpTo {step : α → Parse (Option α)} {step' : β → Parse (Option β)}
    {E : Position → α → β → Prop} {bound : Nat}
    (hstep : ∀ y a b, y.left ≤ bound → R y a b →
      Alike (fun z o o' => (o = none ∧ o' = none ∧ E z a b) ∨
        ∃ a' b', o = some a' ∧ o' = some b' ∧ R z a' b' ∧ z.left < y.left) y (step a) (step' b)) :
    ∀ {fuel fuel' : Nat} {y : Position} {a : α} {b : β}, y.left ≤ bound → y.left < fuel →
      y.left < fuel' → R y a b →
      Alike E y (iterateUpTo step fuel a) (iterateUpTo step' fuel' b) := by
  intro fuel
  induction fuel with
  | zero => intro fuel' y a b _ h; exact absurd h (Nat.not_lt_zero _)
  | succ fuel ih =>
    intro fuel' y a b hbound hfuel hfuel' hab
    cases fuel' with
    | zero => exact absurd hfuel' (Nat.not_lt_zero _)
    | succ fuel' =>
      refine alike_bind (hstep y a b hbound hab) fun z o o' hle hz => ?_
      rcases hz with ⟨rfl, rfl, hend⟩ | ⟨a', b', rfl, rfl, hab', hlt⟩
      · exact alike_pure hend
      · -- the turn has taken a token, so the fuel of both loops is still enough
        exact ih (Nat.le_trans hle hbound) (by omega) (by omega) hab'

/-- Loops whose turns are in lockstep, and take a token each, are in lockstep. -/
theorem alike_iterate {step : α → Parse (Option α)} {step' : β → Parse (Option β)}
    {E : Position → α → β → Prop} {a : α} {b : β}
    (hstep : ∀ y a b, y.left ≤ x.left → R y a b →
      Alike (fun z o o' => (o = none ∧ o' = none ∧ E z a b) ∨
        ∃ a' b', o = some a' ∧ o' = some b' ∧ R z a' b' ∧ z.left < y.left) y (step a) (step' b))
    (hab : R x a b) : Alike E x (iterate step a) (iterate step' b) :=
  alike_bound fun _ _ hm hn => alike_iterateUpTo hstep (Nat.le_refl _) hm hn hab

/-- Whatever bounds the parser is given, it takes the same steps to the same value. -/
def Steady (p : Parse α) : Prop :=
  ∃ stage, ∀ n, Alike (fun _ a b => a = b) ⟨stage, none, n⟩ p p

/-! ## Runs -/

/-- Two runs end alike: both with values, or both with the same refusal. What the values and the
sources behind them have in common is given by `V`; for refusals it is given by `E`. -/
inductive Ends {σ τ : Type} (V : α → σ → β → τ → Prop) (E : String → σ → τ → Prop) :
    Except (Rejection σ) (α × σ) → Except (Rejection τ) (β × τ) → Prop
  | ok {a s b t} : V a s b t → Ends V E (.ok (a, s)) (.ok (b, t))
  | error {e s t} : E e s t → Ends V E (.error ⟨e, s⟩) (.error ⟨e, t⟩)

section

variable {σ τ : Type} [TokenSource σ] [TokenSource τ]

/-- A relation between sources at positions that reading keeps. Related sources show tokens of one
kind and text, and a token that can be taken is taken from both. -/
structure Linked (rel : Position → σ → τ → Prop) : Prop where
  peek : ∀ {x s t}, rel x s t → (TokenSource.peek s).1.Same (TokenSource.peek t).1 ∧
    x.Shows (TokenSource.peek s).1.kind ∧
    rel (x.see (TokenSource.peek s).1.kind) (TokenSource.peek s).2 (TokenSource.peek t).2
  next : ∀ {x s t k}, rel x s t → x.seen = some k → x.stage.takes k = true → 0 < x.left ∧
    (TokenSource.next s).1.Same (TokenSource.next t).1 ∧ (TokenSource.next s).1.kind = k ∧
    rel (x.take k) (TokenSource.next s).2 (TokenSource.next t).2

variable {rel : Position → σ → τ → Prop} {s : σ} {t : τ} {limit limit' : Nat}

/-- **Parsers in lockstep end alike** on sources that are linked. -/
theorem run_alike (hrel : Linked rel) (h : Alike R x p q) (hst : rel x s t) (hl : x.left < limit)
    (hl' : x.left < limit') :
    Ends (fun a s b t => ∃ y, R y a b ∧ rel y s t) (fun e s t => ∃ y, y.Rejects e ∧ rel y s t)
      (p.run limit s) (q.run limit' t) := by
  induction p generalizing x q s t with
  | done a =>
    cases q with
    | done b => exact .ok ⟨x, h, hst⟩
    | _ => cases h
  | reject e =>
    cases q with
    | reject e' =>
      obtain ⟨rfl, hrejects⟩ := h
      exact .error ⟨x, hrejects, hst⟩
    | _ => cases h
  | look next ih =>
    cases q with
    | look next' =>
      obtain ⟨hsame, hshows, hafter⟩ := hrel.peek hst
      have hrun := ih _ (h _ _ hsame hshows) hafter hl hl'
      exact hrun
    | _ => cases h
  | take next ih =>
    cases q with
    | take next' =>
      obtain ⟨k, hseen, htakes, h⟩ := h
      obtain ⟨hpos, hsame, hkind, hafter⟩ := hrel.next hst hseen htakes
      have hrun := ih _ (h _ _ hsame hkind hpos) hafter (Nat.lt_of_le_of_lt (Nat.sub_le _ _) hl)
        (Nat.lt_of_le_of_lt (Nat.sub_le _ _) hl')
      exact hrun
    | _ => cases h
  | bound next ih =>
    cases q with
    | bound next' =>
      have hrun := ih _ (h _ _ hl hl') hst hl hl'
      exact hrun
    | _ => cases h
  | pass l next ih =>
    cases q with
    | pass l' next' =>
      have hrun := ih h.2.2 hst hl hl'
      exact hrun
    | _ => cases h

/-- Parsers in lockstep pass landmarks only where they belong. -/
theorem exists_of_mem_passed (hrel : Linked rel) (h : Alike R x p q) (hst : rel x s t)
    (hl : x.left < limit) {m : Landmark × σ} (hm : m ∈ p.passed limit s) :
    ∃ y t', m.1.At y ∧ rel y m.2 t' := by
  induction p generalizing x q s t with
  | done a => cases hm
  | reject e => cases hm
  | look next ih =>
    cases q with
    | look next' =>
      obtain ⟨hsame, hshows, hafter⟩ := hrel.peek hst
      exact ih _ (h _ _ hsame hshows) hafter hl hm
    | _ => cases h
  | take next ih =>
    cases q with
    | take next' =>
      obtain ⟨k, hseen, htakes, h⟩ := h
      obtain ⟨hpos, hsame, hkind, hafter⟩ := hrel.next hst hseen htakes
      exact ih _ (h _ _ hsame hkind hpos) hafter (Nat.lt_of_le_of_lt (Nat.sub_le _ _) hl) hm
    | _ => cases h
  | bound next ih =>
    cases q with
    | bound next' => exact ih _ (h _ _ hl hl) hst hl hm
    | _ => cases h
  | pass l next ih =>
    cases q with
    | pass l' next' =>
      rcases List.mem_cons.mp hm with rfl | hm
      · exact ⟨x, t, h.2.1, hst⟩
      · exact ih h.2.2 hst hl hm
    | _ => cases h

end

end Parse

end Stencil
