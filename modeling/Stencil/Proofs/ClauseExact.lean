import Stencil.Proofs.ExpressionExact
import Stencil.Proofs.TemplateGrammar

/-!
# The parsers of clauses are exact

The parts of constructs that hold no body: the names that a loop binds, the parameters of a macro,
the arguments of a call, an expression up to the end of its block, and the sequence that closes a
construct. They are read by parsers that go on with the rest of the construct, so each lemma is
about such a parser in front of any other.

> `Derives.reads_closing`: the close sequence of a keyword.
> `Derives.reads_closed`: an expression up to the end of its block.
-/

namespace Stencil.Derives

open Grammar Parse

section

variable {limit size : Nat} {ts rest : List Token}

/-! ## Names, parameters and close sequences -/

/-- A token that is expected under a name of its own is taken like any other. -/
theorem reads_expectAs {β : Type} {kind : TokenKind} (hkind : kind ≠ .eof) {expected : String}
    {f : Unit → Parse β} {b : β} :
    (expectAs kind expected >>= f).Reads limit ts b rest ↔
      ∃ t us, ts = t :: us ∧ t.kind = kind ∧ (f ()).Reads limit us b rest := by
  unfold expectAs
  rw [reads_bind_assoc, reads_ifAccept hkind]
  constructor
  · intro h
    rcases h with ⟨t, us, rfl, ht, h⟩ | ⟨_, h⟩
    · exact ⟨t, us, rfl, ht, h⟩
    · exact (nomatch h)
  · intro h
    obtain ⟨t, us, rfl, ht, h⟩ := h
    exact .inl ⟨t, us, rfl, ht, h⟩

/-- The three tokens of a close sequence, one after the other. -/
theorem reads_closing {keyword : TokenKind} (hkeyword : keyword ≠ .eof) {name : String} {β : Type}
    {f : Unit → Parse β} {b : β} :
    (closing keyword name >>= f).Reads limit ts b rest ↔
      ∃ vs mid, ts = vs ++ mid ∧ Closing keyword vs ∧ (f ()).Reads limit mid b rest := by
  unfold closing
  rw [reads_bind_assoc]
  constructor
  · intro h
    obtain ⟨slash, us, rfl, hslash, h⟩ := (reads_expectAs (by decide)).mp h
    rw [reads_bind_assoc] at h
    obtain ⟨word, us, rfl, hword, h⟩ := (reads_expectAs hkeyword).mp h
    obtain ⟨close, us, rfl, hclose, h⟩ := (reads_expectAs (by decide)).mp h
    exact ⟨[slash, word, close], us, rfl, .mk hslash hword hclose, h⟩
  · intro h
    obtain ⟨vs, mid, rfl, hclosing, h⟩ := h
    cases hclosing with
    | @mk slash word close hslash hword hclose =>
      refine (reads_expectAs (by decide)).mpr ⟨slash, word :: close :: mid, rfl, hslash, ?_⟩
      rw [reads_bind_assoc]
      refine (reads_expectAs hkeyword).mpr ⟨word, close :: mid, rfl, hword, ?_⟩
      exact (reads_expectAs (by decide)).mpr ⟨close, mid, rfl, hclose, h⟩

/-- A name that is bound is an identifier, and its text is the name. -/
theorem reads_boundName {name : String} :
    boundName.Reads limit ts name rest ↔ ∃ us, ts = us ++ rest ∧ BoundName us name := by
  unfold boundName
  rw [reads_expect (by decide)]
  constructor
  · intro h
    obtain ⟨t, us, rfl, ht, h⟩ := h
    obtain ⟨rfl, rfl⟩ := reads_pure.mp h
    exact ⟨[t], rfl, .mk ht⟩
  · intro h
    obtain ⟨us, rfl, hname⟩ := h
    cases hname with
    | mk ht => exact ⟨_, rest, rfl, ht, reads_pure.mpr ⟨rfl, rfl⟩⟩

theorem exact_boundName : Exact limit size boundName fun us name _ => BoundName us name :=
  fun _ _ _ _ => reads_boundName

theorem BoundName.begins {us : List Token} {name : String} (h : BoundName us name) :
    Begins startsSimple us := by
  cases h with
  | mk ht => exact ⟨_, _, rfl, by rw [ht]; rfl⟩

/-- The names of a loop up to the word behind them. -/
theorem reads_loopNames {β : Type} {f : List String → Parse β} {b : β} :
    (boundName >>= fun first => accept .colon >>= fun keyed =>
      if keyed = true then boundName >>= fun second => expect .inWord >>= fun _ => f [first, second]
      else expect .inWord >>= fun _ => f [first]).Reads limit ts b rest ↔
      ∃ us names word mid, ts = us ++ word :: mid ∧ LoopNames us names ∧ word.kind = .inWord ∧
        (f names).Reads limit mid b rest := by
  rw [reads_bind]
  constructor
  · intro h
    obtain ⟨first, mid, hfirst, h⟩ := h
    obtain ⟨us, rfl, hus⟩ := reads_boundName.mp hfirst
    rcases (reads_ifAccept (by decide)).mp h with ⟨colon, s, rfl, hcolon, h⟩ | ⟨_, h⟩
    · obtain ⟨second, mid, hsecond, h'⟩ := reads_bind.mp h
      obtain ⟨vs, rfl, hvs⟩ := reads_boundName.mp hsecond
      obtain ⟨word, mid, rfl, hword, h⟩ := (reads_expect (by decide)).mp h'
      exact ⟨us ++ colon :: vs, _, word, mid, by simp, .keyed hus hcolon hvs, hword, h⟩
    · obtain ⟨word, mid, rfl, hword, h⟩ := (reads_expect (by decide)).mp h
      exact ⟨us, _, word, mid, rfl, .value hus, hword, h⟩
  · intro h
    obtain ⟨us, names, word, mid, rfl, hnames, hword, h⟩ := h
    cases hnames with
    | @value us v hv =>
      refine ⟨v, word :: mid, reads_boundName.mpr ⟨us, rfl, hv⟩, ?_⟩
      refine (reads_ifAccept (by decide)).mpr (.inr ?_)
      refine ⟨Token.kind_ne hword (by decide), ?_⟩
      exact (reads_expect (by decide)).mpr ⟨word, mid, rfl, hword, h⟩
    | @keyed us k colon vs v hk hcolon hv =>
      refine ⟨k, colon :: (vs ++ word :: mid), reads_boundName.mpr ⟨us, by simp, hk⟩, ?_⟩
      refine (reads_ifAccept (by decide)).mpr (.inl ⟨colon, _, rfl, hcolon, ?_⟩)
      refine reads_bind.mpr ⟨v, word :: mid, reads_boundName.mpr ⟨vs, rfl, hv⟩, ?_⟩
      exact (reads_expect (by decide)).mpr ⟨word, mid, rfl, hword, h⟩

/-- The parameters of a macro up to the end of the block. -/
theorem reads_parameters (hlen : ts.length < limit) {β : Type} {f : List String → Parse β} {b : β} :
    (parameters >>= fun params => expect .blockClose >>= fun _ => f params).Reads limit ts b rest ↔
      ∃ us params close mid, ts = us ++ close :: mid ∧ Parameters us params ∧
        close.kind = .blockClose ∧ (f params).Reads limit mid b rest := by
  have hlist : ∀ {s r : List Token} {params : List String}, s.length < limit →
      ((commaList boundName >>= fun params => expect .rightParen >>= fun _ => pure params).Reads
        limit s params r ↔
        ∃ us right, s = us ++ right :: r ∧ Separated .comma BoundName us params ∧
          right.kind = .rightParen) := by
    intro s r params hs
    rw [reads_commaList exact_boundName (fun _ => Iff.rfl) (by decide) (by decide) hs
      (Nat.le_refl _)]
    constructor
    · intro h
      obtain ⟨us, right, mid, params, rfl, hparams, hright, h⟩ := h
      obtain ⟨rfl, rfl⟩ := reads_pure.mp h
      exact ⟨us, right, rfl, hparams, hright⟩
    · intro h
      obtain ⟨us, right, rfl, hparams, hright⟩ := h
      exact ⟨us, right, r, params, rfl, hparams, hright, reads_pure.mpr ⟨rfl, rfl⟩⟩
  unfold parameters
  rw [reads_bind]
  constructor
  · intro h
    obtain ⟨params, mid, hparams, h⟩ := h
    obtain ⟨close, mid, rfl, hclose, h⟩ := (reads_expect (by decide)).mp h
    rcases (reads_ifAccept (by decide)).mp hparams with
      ⟨left, s, rfl, hleft, hparams⟩ | ⟨_, hparams⟩
    · rw [List.length_cons] at hlen
      rcases (reads_ifAccept (by decide)).mp hparams with
        ⟨right, s, rfl, hright, hparams⟩ | ⟨_, hparams⟩
      · obtain ⟨rfl, rfl⟩ := reads_pure.mp hparams
        exact ⟨[left, right], [], close, mid, rfl, .empty hleft hright, hclose, h⟩
      · obtain ⟨us, right, rfl, hus, hright⟩ := (hlist (by omega)).mp hparams
        exact ⟨left :: (us ++ [right]), params, close, mid, by simp, .some hleft hus hright,
          hclose, h⟩
    · obtain ⟨rfl, rfl⟩ := reads_pure.mp hparams
      exact ⟨[], [], close, mid, rfl, .missing, hclose, h⟩
  · intro h
    obtain ⟨us, params, close, mid, rfl, hparams, hclose, h⟩ := h
    refine ⟨params, close :: mid, ?_, (reads_expect (by decide)).mpr ⟨close, mid, rfl, hclose, h⟩⟩
    cases hparams with
    | missing =>
      refine (reads_ifAccept (by decide)).mpr (.inr ?_)
      exact ⟨Token.kind_ne hclose (by decide), reads_pure.mpr ⟨rfl, rfl⟩⟩
    | @empty left right hleft hright =>
      refine (reads_ifAccept (by decide)).mpr (.inl ⟨left, _, rfl, hleft, ?_⟩)
      exact (reads_ifAccept (by decide)).mpr
        (.inl ⟨right, close :: mid, rfl, hright, reads_pure.mpr ⟨rfl, rfl⟩⟩)
    | @some left us _ right hleft hus hright =>
      simp only [List.cons_append, List.append_assoc, List.nil_append, List.length_cons] at hlen ⊢
      refine (reads_ifAccept (by decide)).mpr (.inl ⟨left, _, rfl, hleft, ?_⟩)
      -- a parameter is no closing bracket
      refine (reads_ifAccept (by decide)).mpr
        (.inr ⟨(Begins.of_separated BoundName.begins hus).kindAhead_ne rfl _, ?_⟩)
      exact (hlist (by omega)).mpr ⟨us, right, rfl, hus, hright⟩

/-- The arguments of a call with a body up to the end of the block. -/
theorem reads_callArguments (hlen : ts.length < limit) {β : Type} {f : List Node → Parse β}
    {b : β} :
    (accept .leftParen >>= fun given => if given = true then arguments expression >>= fun args =>
        expect .blockClose >>= fun _ => f args
      else expect .blockClose >>= fun _ => f []).Reads limit ts b rest ↔
      ∃ us args close mid, ts = us ++ close :: mid ∧ CallArguments us args ∧
        close.kind = .blockClose ∧ (f args).Reads limit mid b rest := by
  have hargs : ∀ {s r : List Token} {args : List Node}, s.length + 1 < limit →
      ((arguments expression).Reads limit s args r ↔
        ∃ us right, s = us ++ right :: r ∧ Arguments Expression us args ∧
          right.kind = .rightParen) := by
    intro s r args hs
    exact (reader_expression hs).reads_arguments (Nat.lt_succ_self _)
  rw [reads_ifAccept (by decide)]
  constructor
  · intro h
    rcases h with ⟨left, s, rfl, hleft, h⟩ | ⟨_, h⟩
    · rw [List.length_cons] at hlen
      obtain ⟨args, mid, has, h'⟩ := reads_bind.mp h
      obtain ⟨close, mid, rfl, hclose, hr⟩ := (reads_expect (by decide)).mp h'
      obtain ⟨us, right, rfl, hus, hright⟩ := (hargs hlen).mp has
      exact
        ⟨left :: (us ++ [right]), args, close, mid, by simp, .given hleft hus hright, hclose, hr⟩
    · obtain ⟨close, mid, rfl, hclose, h⟩ := (reads_expect (by decide)).mp h
      exact ⟨[], [], close, mid, rfl, .missing, hclose, h⟩
  · intro h
    obtain ⟨us, args, close, mid, rfl, has, hclose, h⟩ := h
    cases has with
    | missing =>
      refine .inr ⟨Token.kind_ne hclose (by decide), ?_⟩
      exact (reads_expect (by decide)).mpr ⟨close, mid, rfl, hclose, h⟩
    | @given left us _ right hleft hus hright =>
      simp only [List.cons_append, List.append_assoc, List.nil_append, List.length_cons] at hlen ⊢
      refine .inl ⟨left, _, rfl, hleft, reads_bind.mpr ⟨args, close :: mid, ?_, ?_⟩⟩
      · exact (hargs hlen).mpr ⟨us, right, rfl, hus, hright⟩
      · exact (reads_expect (by decide)).mpr ⟨close, mid, rfl, hclose, h⟩

/-- An expression up to the end of its block. -/
theorem reads_closed {β : Type} {f : Node → Parse β} {b : β} (hlen : ts.length + 1 < limit) :
    (expression >>= fun n => expect .blockClose >>= fun _ => f n).Reads limit ts b rest ↔
      ∃ us n mid, ts = us ++ mid ∧ Closed us n ∧ (f n).Reads limit mid b rest := by
  rw [(reader_expression hlen).reads_upTo (by decide) (Nat.lt_succ_self _)]
  constructor
  · intro h
    obtain ⟨us, close, mid, isOpen, n, rfl, hn, hclose, h⟩ := h
    exact ⟨us ++ [close], n, mid, by simp, .mk hn hclose, h⟩
  · intro h
    obtain ⟨us, n, mid, rfl, hn, h⟩ := h
    cases hn with
    | @mk isOpen us n close hn hclose =>
      exact ⟨us, close, mid, isOpen, n, by simp, hn, hclose, h⟩

end

end Stencil.Derives
