import Stencil.Proofs.CommentText
import Stencil.Proofs.SourceRun
import Stencil.Proofs.StandardScan

/-!
# Sources one after the other

Parsing a source in front of another one comes to parsing the two one after the other, if the first
is a template by itself and does not end in a fragment: the items follow each other, and an error in
the second is reported as many lines further down as the first has.

The parser tells the scanner nothing, so it has to be shown that the scanner comes back between
blocks by itself. It does as long as its count of open comments is right. Its counter starts again
from zero when too many comments are open, but from then on it has counted fewer comments than the
parser for good (`Stage.Lost`), and the parser ends inside a comment.

> `Standard.Followed`: what ties the scanner to the stage of a parser that accepts its tokens.
> `Standard.sealed_of_followed`: the scanner of an accepted source ends between blocks.
> `Standard.parseTemplate_append`: parsing two sources one after the other.
-/

namespace Stencil

/-! ## The count of open comments -/

namespace Stage

theorem after_fragment (i : Stage) : i.after .fragment = i := by
  cases i <;> rfl

/-- The scanner has lost count of the comments that are open at a stage: it has counted too few, by
one less than its counter can hold or more. By no less than the counter can hold if it is in a
comment with a count of zero, since a comment that closes there leaves the count as it is. -/
def Lost (i : Stage) (m : Mode) : Prop :=
  ∃ depth, i = comment depth ∧ m.nesting.toNat + UInt32.size ≤ depth + 1 ∧
    (m.context = .comment → m.nesting = 0 → UInt32.size ≤ depth)

variable {i : Stage} {m : Mode} {k : TokenKind}

theorem Lost.ne_text (h : i.Lost m) : i ≠ text := by
  obtain ⟨depth, rfl, -⟩ := h
  nofun

/-- The counter of the scanner starts again from zero. -/
theorem lost_of_depth_eq (h : i.depth = UInt32.size) : i.Lost i.mode := by
  cases i with
  | comment depth =>
    have h : depth = UInt32.size := h
    subst h
    exact ⟨_, rfl, Nat.le_succ _, fun _ _ => Nat.le_refl _⟩
  | _ => cases h

/-- A scanner that has lost count does not find it again when another comment opens. -/
theorem Lost.commentOpen (h : i.Lost m) :
    (i.after .commentOpen).Lost (m.behind .commentOpen) := by
  obtain ⟨depth, rfl, hle, -⟩ := h
  have hcount : (m.behind .commentOpen).nesting = m.nesting + 1 := rfl
  refine ⟨depth + 1, rfl, ?_, fun _ hzero => ?_⟩
  · rw [hcount, UInt32.toNat_add]
    have hmod := Nat.mod_le (m.nesting.toNat + (1 : UInt32).toNat) (2 ^ 32)
    have hone : (1 : UInt32).toNat = 1 := rfl
    omega
  · -- the counter can only be zero now if it was as high as it gets
    rw [hcount] at hzero
    have hmax : m.nesting.toNat + 1 = UInt32.size := by
      have hsum := congrArg UInt32.toNat hzero
      rw [UInt32.toNat_add] at hsum
      have hlt := m.nesting.toNat_lt_size
      have hone : (1 : UInt32).toNat = 1 := rfl
      have hzero' : (0 : UInt32).toNat = 0 := rfl
      have hsize : UInt32.size = 2 ^ 32 := rfl
      rw [hone, hzero'] at hsum
      omega
    omega

/-- Nor does it when one closes, since a count of zero stays as it is while the stage goes on
counting down. -/
theorem Lost.commentClose (h : i.Lost m) (hcontext : m.context = .comment) :
    (i.after .commentClose).Lost (m.behind .commentClose) := by
  obtain ⟨depth, rfl, hle, hzero⟩ := h
  have hsize : UInt32.size = 4294967296 := rfl
  by_cases hnesting : m.nesting = 0
  · have hdepth := hzero hcontext hnesting
    have hmode : m.behind .commentClose = ⟨.template, 0⟩ := by
      simp [Mode.behind, Standard.transition, Transition.apply, Transition.step, hnesting]
    obtain ⟨d, rfl⟩ : ∃ d, depth = d + 2 := ⟨depth - 2, by omega⟩
    refine ⟨d + 1, rfl, ?_, ?_⟩
    · rw [hmode]
      show 0 + UInt32.size ≤ d + 1 + 1
      omega
    · intro hcontext'
      rw [hmode] at hcontext'
      cases hcontext'
  · have hpos : 0 < m.nesting.toNat := by
      refine Nat.pos_of_ne_zero fun h => hnesting ?_
      exact UInt32.toNat_inj.mp h
    have hcount : (m.behind .commentClose).nesting = m.nesting - 1 := by
      simp [Mode.behind, Standard.transition, Transition.apply, Transition.step, hnesting]
    have hless : (m.nesting - 1).toNat = m.nesting.toNat - 1 :=
      UInt32.toNat_sub_of_le _ _ (UInt32.le_iff_toNat_le.mpr hpos)
    obtain ⟨d, rfl⟩ : ∃ d, depth = d + 2 := ⟨depth - 2, by omega⟩
    refine ⟨d + 1, rfl, ?_, fun hcontext' hzero' => ?_⟩
    · rw [hcount, hless]
      omega
    · -- with a count of zero the comment has been left
      rw [hcount] at hzero'
      have htemplate : (m.behind .commentClose).context = .template := by
        simp [Mode.behind, Standard.transition, Transition.apply, Transition.step, hnesting, hzero']
      rw [htemplate] at hcontext'
      cases hcontext'

/-- Once the scanner has lost count, no token brings it back. -/
theorem Lost.after (h : i.Lost m) (hfinds : Standard.finds m.context k = true) :
    (i.after k).Lost (m.behind k) := by
  by_cases hopen : k = .commentOpen
  · subst hopen
    exact h.commentOpen
  · by_cases hclose : k = .commentClose
    · subst hclose
      refine h.commentClose ?_
      cases hcontext : m.context <;> rw [hcontext] at hfinds <;> first | rfl | cases hfinds
    · obtain ⟨depth, rfl, hle, hzero⟩ := h
      rw [after_comment hopen hclose]
      -- other tokens leave the count as it is, or set it to zero outside comments
      have hmode : m.behind k = m ∨ (m.behind k).context ≠ .comment ∧
          ((m.behind k).nesting = m.nesting ∨ (m.behind k).nesting = 0) := by
        cases k <;> first
          | exact .inl rfl
          | exact absurd rfl hopen
          | exact absurd rfl hclose
          | exact .inr ⟨nofun, .inl rfl⟩
          | exact .inr ⟨nofun, .inr rfl⟩
      rcases hmode with hmode | ⟨hcontext, hnesting⟩
      · rw [hmode]
        exact ⟨depth, rfl, hle, hzero⟩
      · refine ⟨depth, rfl, ?_, fun h => absurd h hcontext⟩
        rcases hnesting with hnesting | hnesting
        · rw [hnesting]
          exact hle
        · rw [hnesting]
          show 0 + UInt32.size ≤ depth + 1
          omega

end Stage

/-! ## Coming back between blocks -/

namespace Standard

open Stage

variable {l : Lexicon} {p : Place} {f : Found} {i j : Stage}

/-- Tokens that can be taken from a match on: the fragment before it, the match itself unless it is
ignored, and those behind it. -/
theorem takes_scan_of_some (hf : l.find? p = some f) (h : i.Takes (l.scan p) j) :
    (f.skipped ≠ 0 → i.takes .fragment = true) ∧
      ∃ i', i'.Takes (l.scan (p.afterMatch f)) j ∧
        (f.rule.definition.cls = .ignore ∧ i' = i ∨ f.rule.definition.cls ≠ .ignore ∧
          i.takes f.rule.definition.kind = true ∧ i' = i.after f.rule.definition.kind) := by
  have hle := Lexicon.find?_le hf
  have hpos := Lexicon.find?_length_pos hf
  rw [Lexicon.scan_of_some (by omega) hf] at h
  obtain ⟨i', h, hbehind⟩ := takes_append.mp h
  obtain ⟨i₀, hfragment, hmatch⟩ := takes_append.mp h
  have hbefore : (f.skipped ≠ 0 → i.takes .fragment = true) ∧ i₀ = i := by
    unfold Place.fragmentBefore at hfragment
    split at hfragment
    next hzero => exact ⟨fun hne => absurd hzero hne, hfragment.symm⟩
    next =>
      obtain ⟨htakes, hstage⟩ := hfragment
      refine ⟨fun _ => htakes, ?_⟩
      rw [← hstage]
      exact after_fragment i
  obtain ⟨htakes, rfl⟩ := hbefore
  refine ⟨htakes, i', hbehind, ?_⟩
  unfold Place.matchTokens at hmatch
  split at hmatch
  next hignore => exact .inl ⟨hignore, hmatch.symm⟩
  next hcls => exact .inr ⟨hcls, hmatch.1, hmatch.2.symm⟩

/-- Tokens that are scanned after the count was lost do not lead out of the outermost comment. -/
theorem not_takes_of_lost (hl : lexicon = .ok l) (p : Place) (i : Stage) (hlost : i.Lost p.mode) :
    ¬i.Takes (l.scan p) .text := by
  intro h
  rcases Nat.eq_zero_or_pos p.rest.length with hz | hpos
  · rw [Lexicon.scan_of_end hz] at h
    exact hlost.ne_text h
  · cases hf : l.find? p with
    | none =>
      rw [Lexicon.scan_of_none hpos hf] at h
      have hstage : i.after .fragment = .text := h.2
      rw [after_fragment] at hstage
      exact hlost.ne_text hstage
    | some f =>
      obtain ⟨-, i', hbehind, hcase⟩ := takes_scan_of_some hf h
      refine not_takes_of_lost hl (p.afterMatch f) i' ?_ hbehind
      rcases hcase with ⟨hignore, rfl⟩ | ⟨-, -, rfl⟩
      · rw [mode_afterMatch_of_ignore hl hf hignore]
        exact hlost
      · rw [mode_afterMatch hl hf]
        exact hlost.after (find?_finds hl hf).1
termination_by p.rest.length
decreasing_by exact Lexicon.length_rest_afterMatch_lt ‹_›

theorem eq_block_of_mode {i : Stage} (h : i.mode.context = .block) : i = .block := by
  cases i <;> first | rfl | cases h

/-- The parser follows the scanner from the place on: it is at a stage with the mode of the place,
has as many comments open as the scanner can count, and can take all tokens up to the end, which it
reaches between blocks. -/
structure Followed (l : Lexicon) (p : Place) (i : Stage) : Prop where
  mode : p.mode = i.mode
  proper : i ≠ .comment 0
  depth_lt : i.depth < UInt32.size
  takes : i.Takes (l.scan p) .text

/-- The parser follows the scanner behind a match: the token of the match leads to the next stage,
and an ignored match leaves the stage as it is. -/
theorem Followed.afterMatch (hl : lexicon = .ok l) (hf : l.find? p = some f)
    (h : Followed l p i) :
    f.rule.definition.cls = .ignore ∧ Followed l (p.afterMatch f) i ∨
      f.rule.definition.cls ≠ .ignore ∧
        Followed l (p.afterMatch f) (i.after f.rule.definition.kind) := by
  obtain ⟨-, i', hbehind, hcase⟩ := takes_scan_of_some hf h.takes
  rcases hcase with ⟨hignore, rfl⟩ | ⟨hcls, htakes, rfl⟩
  · refine .inl ⟨hignore, ?_, h.proper, h.depth_lt, hbehind⟩
    rw [mode_afterMatch_of_ignore hl hf hignore, h.mode]
  · have hfinds := (find?_finds hl hf).1
    rw [h.mode] at hfinds
    have hmode : (p.afterMatch f).mode = (i.after f.rule.definition.kind).mode := by
      rw [mode_afterMatch hl hf, h.mode]
      exact mode_after hfinds htakes h.proper h.depth_lt
    have hle := depth_after_le i f.rule.definition.kind
    have hlt := h.depth_lt
    by_cases hdepth : (i.after f.rule.definition.kind).depth < UInt32.size
    · exact .inr ⟨hcls, hmode, after_ne h.proper _, hdepth, hbehind⟩
    · -- the counter has started again, from which the parser does not come back
      have heq : (i.after f.rule.definition.kind).depth = UInt32.size := by
        split at hle <;> omega
      have hlost := lost_of_depth_eq heq
      rw [← hmode] at hlost
      exact absurd hbehind (not_takes_of_lost hl _ _ hlost)

/-- No fragment is found inside a block where the parser follows the scanner. -/
theorem Followed.skipped_eq_zero (h : Followed l p i) (hf : l.find? p = some f)
    (hblock : p.mode.context = .block) : f.skipped = 0 := by
  refine Decidable.byContradiction fun hne => ?_
  have htakes := (takes_scan_of_some hf h.takes).1 hne
  rw [h.mode] at hblock
  rw [eq_block_of_mode hblock] at htakes
  cases htakes

/-- **The scanner comes back between blocks** where the parser does, if the last token is not a
fragment. -/
theorem sealed_of_followed (hl : lexicon = .ok l) (p : Place) (i : Stage) (h : Followed l p i)
    (hlast : ∀ t, (l.scan p).getLast? = some t → t.kind ≠ .fragment) : Sealed l p := by
  rcases Nat.eq_zero_or_pos p.rest.length with hz | hpos
  · have htakes := h.takes
    rw [Lexicon.scan_of_end hz] at htakes
    obtain rfl : i = .text := htakes
    exact .done (List.length_eq_zero_iff.mp hz) h.mode
  · cases hf : l.find? p with
    | none =>
      rw [Lexicon.scan_of_none hpos hf] at hlast
      exact absurd rfl (hlast _ rfl)
    | some f =>
      have hlast' : ∀ t, (l.scan (p.afterMatch f)).getLast? = some t → t.kind ≠ .fragment := by
        intro t ht
        refine hlast t ?_
        rw [Lexicon.scan_of_some hpos hf, List.getLast?_append, ht]
        rfl
      refine .step hf (h.skipped_eq_zero hf) ?_
      rcases h.afterMatch hl hf with ⟨-, h'⟩ | ⟨-, h'⟩
      · exact sealed_of_followed hl (p.afterMatch f) _ h' hlast'
      · exact sealed_of_followed hl (p.afterMatch f) _ h' hlast'
termination_by p.rest.length
decreasing_by all_goals exact Lexicon.length_rest_afterMatch_lt ‹_›

end Standard

/-! ## Lines -/

namespace Text

theorem startingBefore_append (xs ys : List Char) :
    startingBefore (byteLength xs) (xs ++ ys) = xs := by
  induction xs with
  | nil => cases ys <;> rfl
  | cons c xs ih =>
    have hpos := Char.utf8Size_pos c
    obtain ⟨n, hn⟩ := Nat.exists_eq_succ_of_ne_zero
      (Nat.ne_of_gt (Nat.add_pos_left hpos (byteLength xs)))
    show startingBefore (c.utf8Size + byteLength xs) (c :: (xs ++ ys)) = c :: xs
    rw [hn, startingBefore, ← Nat.succ_eq_add_one, ← hn, Nat.add_sub_cancel_left, ih]

/-- The line of a place that is cut between characters. -/
theorem lineAt_some (before after : List Char) :
    lineAt (before ++ after) (some (byteLength before + 1)) = before.count '\n' + 1 := by
  have hbytes : bytesBefore (before ++ after) (some (byteLength before + 1)) =
      byteLength before := by
    show min (byteLength before + 1 - 1) (byteLength (before ++ after)) = _
    rw [byteLength_append]
    omega
  rw [lineAt, hbytes, startingBefore_append]

/-- The end of the source is on the line behind all line feeds. -/
theorem lineAt_none (text : List Char) : lineAt text none = text.count '\n' + 1 := by
  have hall := startingBefore_append text []
  rw [List.append_nil] at hall
  show (startingBefore (byteLength text) text).count '\n' + 1 = _
  rw [hall]

/-- A token of a source, or its end, lies as many lines further down as there are in front of the
source. -/
theorem lineAt_shift {t : Token} {source : List Char} (h : t = Token.eof ∨ t.SliceOf source)
    (front : List Char) :
    lineAt (front ++ source) (t.shift (byteLength front)).offset =
      lineAt source t.offset + front.count '\n' := by
  rcases h with rfl | ⟨-, before, after, rfl, hoffset⟩
  · show lineAt (front ++ source) none = lineAt source none + _
    rw [lineAt_none, lineAt_none, List.count_append]
    omega
  · have hshift : (t.shift (byteLength front)).offset =
        some (byteLength (front ++ before) + 1) := by
      show t.offset.map (· + byteLength front) = _
      rw [hoffset, byteLength_append]
      show some (byteLength before + 1 + byteLength front) = _
      congr 1
      omega
    rw [hshift, hoffset, List.append_assoc, lineAt_some, ← List.append_assoc, lineAt_some,
      List.count_append]
    omega

end Text

/-! ## Sources one after the other -/

namespace Standard

variable {l : Lexicon}

/-- The scan of a source has no end in it. -/
theorem kind_ne_eof_of_mem_scan (hl : lexicon = .ok l) {p : Place} {t : Token} (ht : t ∈ l.scan p) :
    t.kind ≠ .eof := by
  have hkind : TokenKind.eof ≠ .fragment := nofun
  exact Lexicon.kind_ne_of_mem_scan (Lexicon.serves_of_compile hl) hkind (by decide) p t ht

theorem parseTemplate_eq (hl : lexicon = .ok l) (source : String) :
    parseTemplate source = (l.parse source).map fun items => { items } := by
  unfold parseTemplate
  rw [hl]
  dsimp only [Except.mapError, bind, Except.bind]
  cases l.parse source <;> rfl

/-- The tokens of an accepted source are a template. -/
theorem body_of_parseTemplate (hl : lexicon = .ok l) {a : String} {t : Template}
    (h : parseTemplate a = .ok t) :
    Derives.Body (l.scan (Place.start a .template)) t.items [] := by
  rw [parseTemplate_eq hl, Lexicon.parse_eq (checkStart_eq hl .template)] at h
  generalize hrun : Grammar.template.runTokens (l.scan (Place.start a .template)) = outcome at h
  obtain r | ⟨items, rest⟩ := outcome
  · cases h
  · cases h
    obtain ⟨us, hus, hbody, hend⟩ := (Derives.reads_template (Nat.lt_succ_self _)).mp hrun
    cases rest with
    | nil =>
      rw [hus, List.append_nil]
      exact hbody
    | cons u rest =>
      -- the scan has no end in it, in front of which the parser could have stopped
      have hu : u ∈ l.scan (Place.start a .template) := by
        rw [hus]
        exact List.mem_append_right us (List.mem_cons_self ..)
      exact absurd hend (kind_ne_eof_of_mem_scan hl hu)

/-- A source whose tokens are a template is accepted. -/
theorem parseTemplate_of_body (hl : lexicon = .ok l) {a : String} {items : List Item}
    (h : Derives.Body (l.scan (Place.start a .template)) items []) :
    parseTemplate a = .ok { items } := by
  have hrun : Grammar.template.runTokens (l.scan (Place.start a .template)) = .ok (items, []) :=
    (Derives.reads_template (Nat.lt_succ_self _)).mpr ⟨_, (List.append_nil _).symm, h, rfl⟩
  rw [parseTemplate_eq hl, Lexicon.parse_eq (checkStart_eq hl .template), hrun]
  rfl

/-- The last token of the source, in front of its end, is a fragment. -/
def EndsInFragment (source : String) : Prop :=
  ∃ l t, lexicon = .ok l ∧ (l.scan (Place.start source .template)).getLast? = some t ∧
    t.kind = .fragment

/-- The parser follows the scanner through a source whose tokens are a template. -/
theorem followed_of_body {a : String} {items : List Item}
    (h : Derives.Body (l.scan (Place.start a .template)) items []) :
    Followed l (Place.start a .template) .text :=
  ⟨rfl, nofun, by decide, Derives.takes_of_body h⟩

/-- The scan of an accepted source that does not end in a fragment ends between blocks. -/
theorem sealed_of_body (hl : lexicon = .ok l) {a : String} {items : List Item}
    (h : Derives.Body (l.scan (Place.start a .template)) items []) (hlast : ¬EndsInFragment a) :
    Sealed l (Place.start a .template) := by
  refine sealed_of_followed hl _ .text (followed_of_body h) ?_
  intro t ht hkind
  exact hlast ⟨l, t, hl, ht, hkind⟩

/-- In front of any other source, the source adds items, and moves errors down by its lines. -/
def AddsInFront (a : String) (items : List Item) : Prop :=
  ∀ b,
    (∀ t, parseTemplate b = .ok t → parseTemplate (a ++ b) = .ok { items := items ++ t.items }) ∧
    ∀ e, parseTemplate b = .error e → ∃ s, e = .grammar s ∧
      parseTemplate (a ++ b) = .error (.grammar { s with line := s.line + a.toList.count '\n' })

/-- A refusal in the second of two sources is reported further down. -/
theorem ofTokens_append (a : String) {b : String} {us : List Token}
    (hpart : us <:+ l.scan (Place.start b .template)) (expected : String) :
    SyntaxError.ofTokens (a ++ b) ⟨expected, us.map (Token.shift (Text.byteLength a.toList))⟩ =
      { SyntaxError.ofTokens b ⟨expected, us⟩ with
        line := (SyntaxError.ofTokens b ⟨expected, us⟩).line + a.toList.count '\n' } := by
  have htoken : us.headD Token.eof = Token.eof ∨ (us.headD Token.eof).SliceOf b.toList := by
    cases us with
    | nil => exact .inl rfl
    | cons u us =>
      refine .inr ((Lexicon.covers_scan l _ (Place.within_start b .template)).slices u ?_)
      exact hpart.subset (List.mem_cons_self ..)
  have hhead : (Rejection.mk expected (us.map (Token.shift (Text.byteLength a.toList)))).token =
      (us.headD Token.eof).shift (Text.byteLength a.toList) :=
    headD_map_shift _ us
  have hline := Text.lineAt_shift htoken a.toList
  unfold SyntaxError.ofTokens
  rw [hhead, String.toList_append, hline]
  rfl

/-- A source that is a template by itself and does not end in a fragment adds its items. -/
theorem addsInFront_of_parse {a : String} {t : Template} (ha : parseTemplate a = .ok t)
    (hlast : ¬EndsInFragment a) : AddsInFront a t.items := by
  obtain ⟨l, hl⟩ := exists_lexicon
  have hbody := body_of_parseTemplate hl ha
  have hsealed := sealed_of_body hl hbody hlast
  have hcheck := checkStart_eq hl .template
  intro b
  have hends := Derives.runTokens_append hbody (Text.byteLength a.toList)
    (l.scan (Place.start b .template))
  rw [parseTemplate_eq hl, parseTemplate_eq hl, Lexicon.parse_eq hcheck, Lexicon.parse_eq hcheck,
    scan_append hl hsealed b]
  generalize Grammar.template.runTokens (l.scan (Place.start a .template) ++
    (l.scan (Place.start b .template)).map (Token.shift (Text.byteLength a.toList))) = both
    at hends ⊢
  generalize Grammar.template.runTokens (l.scan (Place.start b .template)) = alone at hends ⊢
  cases hends with
  | ok hitems =>
    subst hitems
    refine ⟨fun t' ht' => ?_, nofun⟩
    cases ht'
    rfl
  | @error e ts us h =>
    obtain ⟨rfl, hpart⟩ := h
    refine ⟨nofun, fun e' he' => ?_⟩
    cases he'
    refine ⟨_, rfl, ?_⟩
    rw [← ofTokens_append a hpart e]
    rfl

/-! ## Comments in front of a source -/

/-- A source that ends with a comment does not end in a fragment. -/
theorem not_endsInFragment (hl : lexicon = .ok l) {a : String} {ts : List Token} {right : Token}
    (hscan : l.scan (Place.start a .template) = ts ++ [right])
    (hright : right.kind = .commentClose) : ¬EndsInFragment a := by
  rintro ⟨l', t, hl', ht, hkind⟩
  obtain rfl : l = l' := by
    rw [hl] at hl'
    exact Except.ok.inj hl'
  rw [hscan, List.getLast?_concat] at ht
  cases ht
  rw [hright] at hkind
  cases hkind

/-- A comment is a template without items, and does not end in a fragment. -/
theorem parseTemplate_of_isComment {a : String} (h : IsComment a) :
    parseTemplate a = .ok { items := [] } ∧ ¬EndsInFragment a := by
  obtain ⟨l, left, us, right, hl, hscan, hleft, hus, hright⟩ := h
  have helements : Derives.Elements Derives.Body (left :: (us ++ [right]) ++ []) ([] ++ []) [] :=
    .cons (.comment hleft hus hright) .nil
  rw [List.append_nil, ← hscan] at helements
  refine ⟨parseTemplate_of_body hl (.mk helements), ?_⟩
  rw [← List.cons_append] at hscan
  exact not_endsInFragment hl hscan hright

/-- **Parsing two sources one after the other.** A source that is a template by itself, and whose
last token is not a fragment, adds its items in front of those of any other source, and moves the
errors of the other source down by its own lines. In particular a comment adds nothing. A text is a
comment if its delimiters pair up, and no more comments are open at once than the scanner can
count. -/
theorem parseTemplate_append :
    (∀ a t, parseTemplate a = .ok t → ¬EndsInFragment a → AddsInFront a t.items) ∧
      (∀ a, IsComment a → AddsInFront a []) ∧
      ∀ x, ClosesComments (UInt32.size - 1) 1 x → IsComment (String.ofList (openText ++ x)) := by
  refine ⟨fun a t ha hlast => addsInFront_of_parse ha hlast, fun a ha => ?_, fun x hx => ?_⟩
  · obtain ⟨hparse, hlast⟩ := parseTemplate_of_isComment ha
    exact addsInFront_of_parse hparse hlast
  · exact isComment_of_closesComments hx

/-- The text behind the opening of a comment that has two lines and a comment inside. -/
def nestedText : List Char :=
  "a\n\x7b\x7b*b*\x7d\x7d c*\x7d\x7d".toList

/-- The comment inside is closed before the comment around it is. -/
theorem closesComments_nestedText : ClosesComments (UInt32.size - 1) 1 nestedText := by
  have hinner : ClosesComments (UInt32.size - 1) 2 "b*\x7d\x7d c*\x7d\x7d".toList :=
    .other (by decide) (by decide) (.closing (.other (by decide) (by decide)
      (.other (by decide) (by decide) (.closing .done))))
  exact .other (by decide) (by decide) (.other (by decide) (by decide)
    (.opening (by decide) hinner))

/-- A line of text, and a comment of two lines with a comment inside. -/
theorem parseTemplate_append_nested :
    let source := String.ofList ("x\n".toList ++ openText ++ nestedText)
    parseTemplate source = .ok { items := [.text "x\n"] } ∧ ¬EndsInFragment source ∧
      AddsInFront source [.text "x\n"] ∧ source.toList.count '\n' = 2 ∧
      ClosesComments (UInt32.size - 1) 1 nestedText ∧
      AddsInFront (String.ofList (openText ++ nestedText)) [] := by
  intro source
  obtain ⟨happend, hcomment, hcloses⟩ := parseTemplate_append
  obtain ⟨l, hl⟩ := exists_lexicon
  have hnone : ∀ k < "x\n".toList.length,
      ¬blockText <+: ("x\n".toList ++ openText ++ nestedText).drop k := by
    decide
  obtain ⟨left, us, right, hscan, hleft, hus, hright⟩ :=
    exists_scan_comment hl hnone closesComments_nestedText
  have hscan : l.scan (Place.start source .template) =
      [⟨.fragment, some 1, "x\n"⟩] ++ (left :: (us ++ [right])) :=
    hscan
  have helements : Derives.Elements Derives.Body ([⟨.fragment, some 1, "x\n"⟩] ++
      (left :: (us ++ [right]) ++ [])) ([.text "x\n"] ++ ([] ++ [])) [] :=
    .cons (.fragment rfl) (.cons (.comment hleft hus hright) .nil)
  rw [List.append_nil, ← hscan] at helements
  have hparse : parseTemplate source = .ok { items := [.text "x\n"] } :=
    parseTemplate_of_body hl (.mk helements)
  have hlast : ¬EndsInFragment source := by
    rw [← List.cons_append, ← List.append_assoc] at hscan
    exact not_endsInFragment hl hscan hright
  refine ⟨hparse, hlast, happend _ _ hparse hlast, ?_, closesComments_nestedText, ?_⟩
  · decide
  · exact hcomment _ (hcloses _ closesComments_nestedText)

end Standard

end Stencil
