import Stencil.Proofs.ClauseExact
import Stencil.Proofs.CommentExact
import Stencil.Proofs.ExpressionViable

/-!
# The parsers of clauses refuse in time

Whenever the parser of a part of a construct refuses a token, the tokens in front of it can be
completed to such a part. As in `Stencil.Proofs.ClauseExact` the parsers go on with the rest of the
construct, so each lemma says what is left to show of the tokens behind the part. Comments and
literal blocks have their own end and need nothing behind it.

> `Derives.refusesAfter_skipComment`, `Derives.refusesAfter_literalBlock`: what is open is closed.
> `Derives.refusesAfter_parameters`, `Derives.refusesAfter_callArguments`: headers of constructs.
> `Derives.refusesAfter_closing`: the close sequence of a keyword.
-/

namespace Stencil.Derives

open Grammar Parse

section

variable {limit : Nat} {ts : List Token} {V : List Token → Prop} {β : Type}

/-! ## Comments and literal blocks -/

/-- Open comments can be closed, however many there are. -/
theorem exists_unwinds (depth : Nat) : ∃ us, Unwinds depth us := by
  induction depth with
  | zero => exact ⟨[], .zero⟩
  | succ depth ih =>
    obtain ⟨us, hus⟩ := ih
    exact ⟨[] ++ .ofKind .commentClose :: us, .close .nil rfl hus⟩

/-- A step through a comment refuses nothing but the end of the source. -/
theorem refusesAfter_commentStep {depth : Nat} (hV : V []) :
    (commentStep depth).RefusesAfter limit V ts := by
  unfold commentStep
  split
  · exact refusesAfter_pure
  refine refusesAfter_reach (refusesAfter_peek ?_)
  cases ts with
  | nil => exact refusesAfter_reject hV
  | cons t ts =>
    rw [List.headD_cons]
    split
    · exact refusesAfter_reject hV
    all_goals exact refusesAfter_advance refusesAfter_pure

/-- A step through a literal block refuses nothing but the end of the source. -/
theorem refusesAfter_literalStep {text : String} (hV : V []) :
    (literalStep text).RefusesAfter limit V ts := by
  unfold literalStep
  refine refusesAfter_peek ?_
  cases ts with
  | nil => exact refusesAfter_reject hV
  | cons t ts =>
    rw [List.headD_cons]
    split
    · exact refusesAfter_reject hV
    all_goals exact refusesAfter_advance refusesAfter_pure

/-- A comment is refused only at the end of the source, where the comments that are open can still
be closed. -/
theorem refusesAfter_skipComment {stops : List TokenKind}
    {B : List Token → List Item → List TokenKind → Prop} :
    skipComment.RefusesAfter limit (Viable fun us item => Element B us item stops) ts := by
  have hcomment : ∀ {left : Token} {us : List Token}, left.kind = .commentOpen → Unwinds 1 us →
      Element B (left :: us) none stops := by
    intro left us hleft hus
    cases hus with
    | close hvs hright hnone =>
      cases hnone
      exact .comment hleft hvs hright
  rw [skipComment_eq]
  refine refusesAfter_expect (by decide) ?_ fun left us hts hleft => ?_
  · obtain ⟨us, hus⟩ := exists_unwinds 1
    exact ⟨_, none, hcomment (Token.kind_ofKind .commentOpen) hus⟩
  -- whatever closes the comments that are open now, closes the first one behind the tokens taken
  refine refusesAfter_bind_pure
    (refusesAfter_iterate (fun depth us => ∀ vs, Unwinds depth vs → Unwinds 1 (us ++ vs)) ?_ ?_ ?_)
  · exact fun vs hvs => hvs
  · intro depth us mid hmid hopen
    obtain ⟨vs, hvs⟩ := exists_unwinds depth
    refine refusesAfter_commentStep ?_
    rw [List.append_nil]
    exact ⟨vs, none, hcomment hleft (hopen vs hvs)⟩
  · intro depth depth' us vs mid hmid hopen hread ws hws
    cases depth with
    | zero =>
      obtain ⟨hnone, _⟩ := reads_commentStep_zero.mp hread
      cases hnone
    | succ depth =>
      obtain ⟨t, hvs, ht, hsome⟩ := reads_commentStep_succ.mp hread
      cases hsome
      obtain rfl : vs = [t] := List.append_cancel_right hvs
      have hall := hopen (t :: ws) (hws.cons ht)
      simpa using hall

/-- A literal block is refused only at the end of the source, in front of which it can be ended. -/
theorem refusesAfter_literalBlock {stops : List TokenKind}
    {B : List Token → List Item → List TokenKind → Prop} :
    literalBlock.RefusesAfter limit (Viable fun us item => Element B us item stops) ts := by
  have hliteral : ∀ {left : Token} {us : List Token}, left.kind = .literalOpen → Literal us →
      Viable (fun us item => Element B us item stops) (left :: us) := by
    intro left us hleft hus
    exact ⟨[.ofKind .literalClose], _, .literal hleft hus (Token.kind_ofKind .literalClose)⟩
  rw [literalBlock_eq]
  refine refusesAfter_expect (by decide) ?_ fun left us hts hleft => ?_
  · exact (hliteral (Token.kind_ofKind .literalOpen) (List.forall_mem_nil _)).nil
  refine refusesAfter_iterate (fun _ us => Literal us) (List.forall_mem_nil _) ?_ ?_
  · intro text us mid hmid hus
    refine refusesAfter_literalStep ?_
    rw [List.append_nil]
    exact hliteral hleft hus
  · intro text text' us vs mid hmid hus hread
    rcases reads_literalStep.mp hread with ⟨_, _, _, hnone⟩ | ⟨t, hvs, ht, _⟩
    · cases hnone
    · obtain rfl : vs = [t] := List.append_cancel_right hvs
      exact List.forall_mem_append.mpr ⟨hus, List.forall_mem_singleton.mpr ht⟩

/-! ## Names, parameters and close sequences -/

/-- Behind a whole part of a construct a token is expected. -/
theorem refusesAfter_expect_behind {α : Type} {part : List Token → α → Prop} {kind : TokenKind}
    (hkind : kind ≠ .eof) {us mid : List Token} {a : α} {f : Token → Parse β} (hus : part us a)
    (hV : Viable part us → V us)
    (hf : ∀ t s, mid = t :: s → t.kind = kind →
      (f t).RefusesAfter limit (fun vs => V (us ++ t :: vs)) s) :
    (expect kind >>= f).RefusesAfter limit (fun vs => V (us ++ vs)) mid := by
  refine refusesAfter_expect hkind ?_ hf
  rw [List.append_nil]
  exact hV (viable_of_derives hus)

/-- A name that is refused leaves nothing behind, since it is one token. -/
theorem refusesAfter_boundName {f : String → Parse β} (hV : V [])
    (hf : ∀ name us mid, ts = us ++ mid → BoundName us name →
      (f name).RefusesAfter limit (fun vs => V (us ++ vs)) mid) :
    (boundName >>= f).RefusesAfter limit V ts := by
  refine refusesAfter_bind_assoc (refusesAfter_expect (by decide) hV fun t us hts ht => ?_)
  exact hf t.text [t] us hts (.mk ht)

theorem boundName_ofKind : BoundName [.ofKind .identifier] "" :=
  .mk rfl

/-- The names of a loop up to the word behind them: one name could still get a colon and another
name, or the word. -/
theorem refusesAfter_loopNames {f : List String → Parse β}
    (hV : ∀ {us}, Viable LoopNames us → V us)
    (hf : ∀ names us word mid, ts = us ++ word :: mid → LoopNames us names → word.kind = .inWord →
      (f names).RefusesAfter limit (fun vs => V (us ++ word :: vs)) mid) :
    (boundName >>= fun first => accept .colon >>= fun keyed =>
      if keyed = true then boundName >>= fun second => expect .inWord >>= fun _ => f [first, second]
      else expect .inWord >>= fun _ => f [first]).RefusesAfter limit V ts := by
  refine refusesAfter_boundName (hV ⟨_, _, .value boundName_ofKind⟩) fun first us mid hts hus => ?_
  subst hts
  refine refusesAfter_ifAccept (by decide) (fun colon s hs hcolon => ?_) fun _ => ?_
  · subst hs
    have hkeyed : Viable LoopNames (us ++ [colon]) :=
      ⟨[.ofKind .identifier], _, by simpa using LoopNames.keyed hus hcolon boundName_ofKind⟩
    refine refusesAfter_boundName (hV hkeyed) fun second vs r hs hvs => ?_
    subst hs
    have hnames : LoopNames (us ++ colon :: vs) [first, second] := .keyed hus hcolon hvs
    have hend : (expect .inWord >>= fun _ => f [first, second]).RefusesAfter limit
        (fun ws => V (us ++ colon :: vs ++ ws)) r := by
      refine refusesAfter_expect_behind (by decide) hnames hV fun word q hq hword => ?_
      exact hf _ _ word q (by simp [hq]) hnames hword
    simpa using hend
  · refine refusesAfter_expect_behind (by decide) (.value hus) hV fun word q hq hword => ?_
    exact hf _ us word q (by rw [hq]) (.value hus) hword

/-- The parameters of a macro up to the end of its header. They may be missing, empty or a list, and
the tokens taken lead on to one of these. -/
theorem refusesAfter_parameters {f : List String → Parse β} (hlen : ts.length < limit)
    (hV : ∀ {us}, Viable Parameters us → V us)
    (hf : ∀ names us params close mid, ts = us ++ close :: mid → Parameters us params →
      close.kind = .blockClose →
      (f names).RefusesAfter limit (fun vs => V (us ++ close :: vs)) mid) :
    (parameters >>= fun names => expect .blockClose >>= fun _ => f names).RefusesAfter limit V
      ts := by
  have hend : ∀ {names us params mid}, ts = us ++ mid → Parameters us params →
      (expect .blockClose >>= fun _ => f names).RefusesAfter limit (fun vs => V (us ++ vs))
        mid := by
    intro names us params mid hts hus
    refine refusesAfter_expect_behind (by decide) hus hV fun close s hs hclose => ?_
    exact hf names us params close s (hs ▸ hts) hus hclose
  have hitem : ∀ {s : List Token}, s.length < limit →
      boundName.RefusesAfter limit (Viable BoundName) s := by
    intro s _
    exact refusesAfter_expect (by decide) ⟨_, _, boundName_ofKind⟩ fun _ _ _ _ => refusesAfter_pure
  unfold parameters
  refine refusesAfter_bind_assoc (refusesAfter_ifAccept (by decide) (fun left s hs hleft => ?_) ?_)
  · subst hs
    have hlist : ∀ {us : List Token}, Viable (Separated .comma BoundName) us → V (left :: us) := by
      intro us hus
      obtain ⟨vs, params, hvs⟩ := hus
      refine hV ⟨vs ++ [.ofKind .rightParen], params, ?_⟩
      simpa using Parameters.some hleft hvs (Token.kind_ofKind .rightParen)
    refine refusesAfter_bind_assoc
      (refusesAfter_ifAccept (by decide) (fun right r hr hright => ?_) ?_)
    · subst hr
      exact hend rfl (.empty hleft hright)
    · intro _
      rw [List.length_cons] at hlen
      simp only [Bool.false_eq_true, if_false, bind_bind]
      refine refusesAfter_commaList (by decide) exact_boundName (fun h => h) hitem
        (show s.length < limit by omega) (Nat.le_refl _) hlist
        fun names us params right mid hs hus hright => ?_
      have hrest : (expect .blockClose >>= fun _ => f names).RefusesAfter limit
          (fun vs => V (left :: (us ++ [right]) ++ vs)) mid :=
        hend (by simp [hs]) (.some hleft hus hright)
      show (expect .blockClose >>= fun _ => f names).RefusesAfter limit _ mid
      simpa using hrest
  · intro _
    exact hend (List.nil_append ts).symm .missing

/-- The arguments of a call with a body, up to the end of its header. -/
theorem refusesAfter_callArguments {f : List Node → Parse β} (hlen : ts.length < limit)
    (hV : ∀ {us}, Viable CallArguments us → V us)
    (hf : ∀ nodes us args close mid, ts = us ++ close :: mid → CallArguments us args →
      close.kind = .blockClose →
      (f nodes).RefusesAfter limit (fun vs => V (us ++ close :: vs)) mid) :
    (accept .leftParen >>= fun given => if given = true then arguments expression >>= fun args =>
        expect .blockClose >>= fun _ => f args
      else expect .blockClose >>= fun _ => f []).RefusesAfter limit V ts := by
  have hend : ∀ {nodes us args mid}, ts = us ++ mid → CallArguments us args →
      (expect .blockClose >>= fun _ => f nodes).RefusesAfter limit (fun vs => V (us ++ vs))
        mid := by
    intro nodes us args mid hts hus
    refine refusesAfter_expect_behind (by decide) hus hV fun close s hs hclose => ?_
    exact hf nodes us args close s (hs ▸ hts) hus hclose
  refine refusesAfter_ifAccept (by decide) (fun left s hs hleft => ?_) fun _ => ?_
  · subst hs
    rw [List.length_cons] at hlen
    have harguments : (arguments expression).RefusesAfter limit (fun us => V (left :: us)) s := by
      refine (completer_expression hlen).refusesAfter_arguments (Nat.lt_succ_self _) ?_
      intro us hus
      obtain ⟨vs, args, hvs⟩ := hus
      refine hV ⟨vs ++ [.ofKind .rightParen], args, ?_⟩
      simpa using CallArguments.given hleft hvs (Token.kind_ofKind .rightParen)
    refine refusesAfter_bind harguments fun args us mid hs hread => ?_
    obtain ⟨vs, right, hs', hvs, hright⟩ :=
      ((reader_expression hlen).reads_arguments (Nat.lt_succ_self _)).mp hread
    have heq : us ++ mid = vs ++ [right] ++ mid := by
      rw [← hs, hs', List.append_assoc]
      rfl
    obtain rfl := List.append_cancel_right heq
    exact hend (by simp [hs]) (.given hleft hvs hright)
  · exact hend (List.nil_append ts).symm .missing

/-- An expression up to the end of its block. -/
theorem refusesAfter_closed {f : Node → Parse β} (hlen : ts.length + 1 < limit)
    (hV : ∀ {us}, Viable Closed us → V us)
    (hf : ∀ n us mid, ts = us ++ mid → Closed us n →
      (f n).RefusesAfter limit (fun vs => V (us ++ vs)) mid) :
    (expression >>= fun n => expect .blockClose >>= fun _ => f n).RefusesAfter limit V ts := by
  refine (completer_expression hlen).refusesAfter_upTo (by decide) (Nat.lt_succ_self _) ?_ ?_
  · intro us hus
    obtain ⟨vs, n, ⟨hn⟩⟩ := hus
    refine hV ⟨vs ++ [.ofKind .blockClose], n, ?_⟩
    simpa using Closed.mk hn (Token.kind_ofKind .blockClose)
  · intro n us close mid hts hpart hclose
    obtain ⟨hn⟩ := hpart
    simpa using hf n (us ++ [close]) mid (by simp [hts]) (.mk hn hclose)

/-- Any expression could stand here, such as a name. -/
theorem viable_closed_nil : Viable Closed [] := by
  obtain ⟨us, n, ⟨hn⟩⟩ := viable_expression_nil
  exact ⟨us ++ [.ofKind .blockClose], n, .mk hn rfl⟩

theorem closing_ofKind (keyword : TokenKind) :
    Closing keyword [.ofKind .slash, .ofKind keyword, .ofKind .blockClose] :=
  .mk rfl rfl rfl

/-- The end of a construct. Where no slash is next, none of it has been read. -/
theorem refusesAfter_closing {keyword : TokenKind} (hkeyword : keyword ≠ .eof) {name : String}
    {b : β} (hV : V [])
    (hclosing : kindAhead ts = .slash → ∀ us vs, Closing keyword (us ++ vs) → V us) :
    (closing keyword name >>= fun _ => pure b).RefusesAfter limit V ts := by
  unfold closing
  simp only [bind_bind]
  refine refusesAfter_expectAs (by decide) hV fun slash us hts hslash => ?_
  have hnext : kindAhead ts = .slash := by rw [hts, kindAhead_cons, hslash]
  have hmk : ∀ {word close : Token}, word.kind = keyword → close.kind = .blockClose →
      Closing keyword [slash, word, close] := fun hword hclose => .mk hslash hword hclose
  refine refusesAfter_expectAs hkeyword ?_ fun word us hus hword => ?_
  · exact hclosing hnext [slash] _
      (hmk (Token.kind_ofKind keyword) (Token.kind_ofKind .blockClose))
  refine refusesAfter_expectAs (by decide) ?_ fun close us hus hclose => refusesAfter_pure
  exact hclosing hnext [slash, word] _ (hmk hword (Token.kind_ofKind .blockClose))

end

end Stencil.Derives
