import Stencil.Proofs.Concatenation
import Stencil.Proofs.TextOrder

/-!
# Text from source to tree

The text of a template is what stands between its blocks and comments, and what stands inside its
literal blocks. `Lexicon.textSlices` reads it off the source place by place, without a look at any
tree: a fragment that is found between blocks, and the source from where a literal block starts up
to what closes it. These slices follow each other and keep clear of all markup. A parser that
accepts the source puts just their texts into the tree, since the stage of the parser has the mode
of the scanner throughout.

> `Standard.texts_scan`: the tokens of an accepted source carry the texts of its slices.
> `Standard.LaysOut`: slices of a source, in order and clear of the markup.
> `Standard.fragment_or_inLiteral`: each slice is a fragment, or all that stands in a literal block.
> `Standard.itemsTexts_parseTemplate`: the texts of an accepted source, from source to tree.
-/

namespace Stencil

open Text (byteLength)

/-! ## Slices -/

/-- A text, and where in a source it starts. -/
structure Slice where
  /-- The first byte. -/
  start : Nat
  text : String
  deriving Repr, DecidableEq

namespace Slice

/-- The byte after the last one. -/
def stop (s : Slice) : Nat :=
  s.start + byteLength s.text.toList

/-- The text stands in the source, from the byte on that the slice names. -/
def Of (s : Slice) (source : List Char) : Prop :=
  ∃ before after, source = before ++ s.text.toList ++ after ∧ byteLength before = s.start

end Slice

/-- The slice of the source that a token is. -/
def Token.slice (t : Token) : Slice :=
  ⟨t.firstByte, t.text⟩

namespace Text

/-- The text in front of the first place where a word stands, or all of it if it does so nowhere. -/
def charsBefore (w : List Char) : List Char → List Char
  | [] => []
  | c :: rest => if w <+: c :: rest then [] else c :: charsBefore w rest

/-- What stands in front of a word is a beginning of the text. -/
theorem charsBefore_prefix (w : List Char) (x : List Char) : charsBefore w x <+: x := by
  induction x with
  | nil => exact List.nil_prefix
  | cons c rest ih =>
    rw [charsBefore]
    split
    · exact List.nil_prefix
    · exact List.cons_prefix_cons.mpr ⟨rfl, ih⟩

/-- The text in front of a word ends at the first place where the word stands. -/
theorem charsBefore_eq_take {w x : List Char} {k : Nat} (hk : k ≤ x.length) (hat : w <+: x.drop k)
    (hnone : ∀ j < k, ¬w <+: x.drop j) : charsBefore w x = x.take k := by
  induction x generalizing k with
  | nil => rw [charsBefore, List.take_nil]
  | cons c rest ih =>
    cases k with
    | zero =>
      have hat : w <+: c :: rest := hat
      rw [charsBefore, if_pos hat, List.take_zero]
    | succ k =>
      have hhere : ¬w <+: c :: rest := hnone 0 (Nat.succ_pos k)
      rw [charsBefore, if_neg hhere, List.take_succ_cons,
        ih (Nat.le_of_succ_le_succ hk) hat fun j hj => hnone (j + 1) (Nat.succ_lt_succ hj)]

/-- Before that place the word stands nowhere. -/
theorem not_prefix_of_charsBefore (w x : List Char) :
    ∀ k < (charsBefore w x).length, ¬w <+: x.drop k := by
  induction x with
  | nil => exact fun k hk => absurd hk (Nat.not_lt_zero k)
  | cons c rest ih =>
    rw [charsBefore]
    split
    next => exact fun k hk => absurd hk (Nat.not_lt_zero k)
    next hnot =>
      intro k hk
      cases k with
      | zero => exact hnot
      | succ k => exact ih k (Nat.lt_of_succ_lt_succ hk)

end Text

/-! ## The text of a source -/

namespace Place

/-- The text in the next `n` characters, in front of a match or of the end of the source. Between
blocks they are a fragment, unless there are none. A literal block goes up to what closes it. -/
def textSlices (p : Place) (n : Nat) : List Slice :=
  match p.mode.context with
  | .template => if n = 0 then [] else [(p.token .fragment n).slice]
  | .literal => [⟨p.offset, String.ofList (Text.charsBefore Standard.literalCloseText p.rest)⟩]
  | .comment | .block => []

/-- Where the markup starts that ends with a match: inside comments and blocks at once. -/
def markupFrom (p : Place) (f : Found) : Nat :=
  match p.mode.context with
  | .template | .literal => (p.atMatch f).offset
  | .comment | .block => p.offset

/-- Markup starts at the place or behind it. -/
theorem offset_le_markupFrom (p : Place) (f : Found) : p.offset ≤ p.markupFrom f := by
  unfold markupFrom
  split
  · exact Nat.le_add_right _ _
  · exact Nat.le_add_right _ _
  · exact Nat.le_refl _
  · exact Nat.le_refl _

theorem offset_le_afterMatch (p : Place) (f : Found) : p.offset ≤ (p.afterMatch f).offset :=
  Nat.le_trans (Nat.le_add_right _ _) (p.atMatch_le_afterMatch f)

/-- Markup ends behind the match. -/
theorem markupFrom_le_afterMatch (p : Place) (f : Found) :
    p.markupFrom f ≤ (p.afterMatch f).offset := by
  unfold markupFrom
  split
  · exact p.atMatch_le_afterMatch f
  · exact p.atMatch_le_afterMatch f
  · exact p.offset_le_afterMatch f
  · exact p.offset_le_afterMatch f

end Place

/-- The text from a place to the end of the source. -/
def Lexicon.textSlices (l : Lexicon) (p : Place) : List Slice :=
  if 0 < p.rest.length then
    match _hf : l.find? p with
    | none => p.textSlices p.rest.length
    | some f => p.textSlices f.skipped ++ l.textSlices (p.afterMatch f)
  else []
termination_by p.rest.length
decreasing_by exact length_rest_afterMatch_lt _hf

namespace Place

variable {p : Place} {f : Found} {n : Nat} {s : Slice}

/-- Between blocks the text is a fragment, the slice of its token. -/
theorem textSlices_template (hcontext : p.mode.context = .template) (hn : n ≠ 0) :
    p.textSlices n = [(p.token .fragment n).slice] := by
  unfold textSlices
  rw [hcontext]
  exact if_neg hn

/-- A slice at a place starts there, in one of two contexts. -/
theorem eq_of_mem_textSlices (h : s ∈ p.textSlices n) :
    p.mode.context = .template ∧ n ≠ 0 ∧ s = (p.token .fragment n).slice ∨
      p.mode.context = .literal ∧
        s = ⟨p.offset, String.ofList (Text.charsBefore Standard.literalCloseText p.rest)⟩ := by
  unfold textSlices at h
  split at h
  next hcontext =>
    split at h
    next => cases h
    next hn => exact .inl ⟨hcontext, hn, List.mem_singleton.mp h⟩
  next hcontext => exact .inr ⟨hcontext, List.mem_singleton.mp h⟩
  all_goals cases h

theorem start_of_mem_textSlices (h : s ∈ p.textSlices n) : s.start = p.offset := by
  rcases eq_of_mem_textSlices h with ⟨-, -, rfl⟩ | ⟨-, rfl⟩ <;> rfl

/-- There is at most one slice in front of a match. -/
theorem pairwise_textSlices (p : Place) (n : Nat) (R : Slice → Slice → Prop) :
    (p.textSlices n).Pairwise R := by
  unfold textSlices
  split
  · split
    · exact .nil
    · exact List.pairwise_singleton _ _
  · exact List.pairwise_singleton _ _
  · exact .nil
  · exact .nil

/-- A text in front of which a place stands is a slice of the source. -/
theorem Within.slice_of {source w : List Char} (h : p.Within source) (hw : w <+: p.rest) :
    (Slice.mk p.offset (String.ofList w)).Of source := by
  obtain ⟨read, hsource, hoffset, -⟩ := h
  obtain ⟨after, hrest⟩ := hw
  refine ⟨read, after, ?_, hoffset.symm⟩
  rw [String.toList_ofList, List.append_assoc, hrest]
  exact hsource

/-- The slices of a place in a source stand in the source. -/
theorem Within.of_mem_textSlices {source : List Char} (h : p.Within source)
    (hs : s ∈ p.textSlices n) : s.Of source := by
  rcases eq_of_mem_textSlices hs with ⟨-, -, rfl⟩ | ⟨-, rfl⟩
  · exact h.slice_of (List.take_prefix n p.rest)
  · exact h.slice_of (Text.charsBefore_prefix _ _)

end Place

namespace Lexicon

variable {l : Lexicon} {p q : Place} {f : Found}

theorem textSlices_of_end (h : p.rest.length = 0) : l.textSlices p = [] := by
  rw [textSlices, if_neg (by omega)]

/-- Where nothing matches any more, the rest is the last slice. -/
theorem textSlices_of_none (hpos : 0 < p.rest.length) (h : l.find? p = none) :
    l.textSlices p = p.textSlices p.rest.length := by
  rw [textSlices, if_pos hpos]
  split
  · rfl
  · next hf => rw [h] at hf; cases hf

/-- In front of a match stands its slice, and behind it the scan goes on. -/
theorem textSlices_of_some (hpos : 0 < p.rest.length) (h : l.find? p = some f) :
    l.textSlices p = p.textSlices f.skipped ++ l.textSlices (p.afterMatch f) := by
  rw [textSlices, if_pos hpos]
  split
  · next hf => rw [h] at hf; cases hf
  · next hf =>
    rw [h] at hf
    cases hf
    rfl

/-- The scanner is where it started, or goes on behind the first match. -/
theorem Visits.eq_or_afterMatch (h : l.Visits p q) (hf : l.find? p = some f) :
    q = p ∨ l.Visits (p.afterMatch f) q := by
  induction h with
  | here => exact .inl rfl
  | next _ hg ih =>
    rcases ih with rfl | hvisit
    · cases hf.symm.trans hg
      exact .inr .here
    · exact .inr (hvisit.next hg)

/-- The scanner stays where nothing is found. -/
theorem Visits.eq_of_none (h : l.Visits p q) (hf : l.find? p = none) : q = p := by
  induction h with
  | here => rfl
  | next _ hg ih =>
    subst ih
    cases hf.symm.trans hg

/-- The scanner does not go back. -/
theorem Visits.offset_le (h : l.Visits p q) : p.offset ≤ q.offset := by
  induction h with
  | here => exact Nat.le_refl _
  | @next q g _ _ ih => exact Nat.le_trans ih (q.offset_le_afterMatch g)

end Lexicon

namespace Standard

open Stage

variable {l : Lexicon} {p : Place} {f : Found} {i : Stage} {s : Slice}

/-! ## Literal blocks -/

/-- Inside a literal block, what closes it is found where it first stands. -/
theorem find?_literal (hl : lexicon = .ok l) (hcontext : p.mode.context = .literal)
    (hf : l.find? p = some f) : f.rule.definition.kind = .literalClose ∧
      f.rule.definition.cls = .normal ∧ literalCloseText <+: p.rest.drop f.skipped ∧
      Text.charsBefore literalCloseText p.rest = p.text f.skipped := by
  obtain ⟨m, hm, hfind⟩ := search?_of_find? hl hf
  rw [hcontext] at hm
  obtain ⟨d, hdefs, hspells⟩ := literalDefinitions
  have hcompile := Lexicon.compile_of_matcher? hl hm
  obtain ⟨hle, hit, hnone⟩ := Found.search?_eq_some hfind
  obtain ⟨hr, hmatch⟩ := Rule.hit?_spec hit
  obtain ⟨hmem, hread⟩ := (Matcher.compile_spec hcompile).2 _ hr
  rw [hdefs, List.mem_singleton] at hmem
  rw [← hmem] at hspells
  have hrule := rule_eq hspells hread
  have hat : literalCloseText <+: p.rest.drop f.skipped := by
    refine Decidable.byContradiction fun hnot => ?_
    rw [hrule, Rule.matchAt?_fixed, if_neg hnot] at hmatch
    cases hmatch
  refine ⟨hspells.1, hspells.2.1, hat, Text.charsBefore_eq_take hle hat fun k hk hx => ?_⟩
  refine Rule.hit?_eq_none_iff.mp (hnone k hk) _ hr ⟨literalCloseText.length, ?_, by decide⟩
  rw [hrule, Rule.matchAt?_fixed, if_pos hx]

/-! ## What the tokens carry -/

theorem table_kind_ne : ∀ d ∈ table, d.kind ≠ .fragment := by
  decide

/-- Outside literal blocks, the text in front of a match is that of the fragment there, if it
stands between blocks. -/
theorem carries_fragmentBefore (hmode : p.mode = i.mode) (hi : i ≠ .literal) (f : Found) :
    i.Carries (p.fragmentBefore f) i ((p.textSlices f.skipped).map Slice.text) := by
  unfold Place.fragmentBefore Place.textSlices
  rw [hmode]
  cases i with
  | literal => exact absurd rfl hi
  | text =>
    show text.Carries _ text (List.map Slice.text (if f.skipped = 0 then _ else _))
    split
    · exact carries_nil _
    · exact carries_fragment rfl
  | comment depth =>
    split
    · exact carries_nil _
    · exact carries_token (k := .fragment) rfl nofun nofun
  | block =>
    split
    · exact carries_nil _
    · exact carries_token (k := .fragment) rfl nofun nofun

/-- Up to what closes a literal block, the tokens carry its text. -/
theorem carries_literal (hl : lexicon = .ok l) (hcontext : p.mode.context = .literal)
    (hf : l.find? p = some f) : literal.Carries (p.fragmentBefore f ++ p.matchTokens f) text
      ((p.textSlices f.skipped).map Slice.text) := by
  obtain ⟨hkind, hcls, -, htext⟩ := find?_literal hl hcontext hf
  have hinside : Derives.Literal (p.fragmentBefore f) := by
    unfold Place.fragmentBefore
    split <;> simp [Derives.Literal, Place.token]
  have htokens : p.matchTokens f = [(p.atMatch f).token .literalClose f.length] := by
    unfold Place.matchTokens
    rw [hcls, hkind, if_neg nofun]
  have htexts : (p.textSlices f.skipped).map Slice.text =
      [Derives.textOf (p.fragmentBefore f)] := by
    unfold Place.textSlices Place.fragmentBefore
    rw [hcontext]
    show [String.ofList (Text.charsBefore literalCloseText p.rest)] = _
    rw [htext]
    split
    next hzero =>
      rw [hzero]
      rfl
    next => simp [Derives.textOf, Place.token]
  rw [htokens, htexts]
  exact hinside.carries_inside rfl

/-- **Up to behind a match** the tokens carry the text in front of the match, and the parser follows
the scanner from there. -/
theorem Followed.carries (hl : lexicon = .ok l) (hf : l.find? p = some f) (h : Followed l p i) :
    ∃ i', Followed l (p.afterMatch f) i' ∧
      i.Carries (p.fragmentBefore f ++ p.matchTokens f) i'
        ((p.textSlices f.skipped).map Slice.text) := by
  by_cases hi : i = .literal
  · subst hi
    have hcontext : p.mode.context = .literal := congrArg Mode.context h.mode
    obtain ⟨hkind, hcls, -⟩ := find?_literal hl hcontext hf
    rcases h.afterMatch hl hf with ⟨hignore, -⟩ | ⟨-, h'⟩
    · rw [hcls] at hignore
      cases hignore
    · rw [hkind] at h'
      exact ⟨.text, h', carries_literal hl hcontext hf⟩
  · have hfragment := carries_fragmentBefore h.mode hi f
    rcases h.afterMatch hl hf with ⟨hignore, h'⟩ | ⟨hcls, h'⟩
    · refine ⟨i, h', ?_⟩
      rw [Place.matchTokens, if_pos hignore, List.append_nil]
      exact hfragment
    · refine ⟨_, h', ?_⟩
      have hne := table_kind_ne _ (find?_spec hl hf).1
      have htoken : i.Carries [(p.atMatch f).token f.rule.definition.kind f.length]
          (i.after f.rule.definition.kind) [] :=
        carries_token rfl hi fun _ => hne
      have hmatch := hfragment.append htoken
      rw [List.append_nil] at hmatch
      rw [Place.matchTokens, if_neg hcls]
      exact hmatch

/-- **The tokens of an accepted source carry the texts of its slices.** -/
theorem texts_scan (hl : lexicon = .ok l) (p : Place) (i : Stage) (h : Followed l p i) :
    i.texts "" (l.scan p) = (l.textSlices p).map Slice.text := by
  rcases Nat.eq_zero_or_pos p.rest.length with hz | hpos
  · rw [Lexicon.scan_of_end hz, Lexicon.textSlices_of_end hz]
    rfl
  · cases hf : l.find? p with
    | none =>
      -- the rest is a fragment, behind which the parser is between blocks
      have htakes := h.takes
      rw [Lexicon.scan_of_none hpos hf] at htakes ⊢
      rw [Lexicon.textSlices_of_none hpos hf]
      obtain rfl : i = .text := by
        rw [← after_fragment i]
        exact htakes.2
      have hcontext : p.mode.context = .template := congrArg Mode.context h.mode
      rw [Place.textSlices_template hcontext (Nat.ne_of_gt hpos)]
      exact (carries_fragment rfl) []
    | some f =>
      obtain ⟨i', h', hcarries⟩ := h.carries hl hf
      rw [Lexicon.scan_of_some hpos hf, Lexicon.textSlices_of_some hpos hf, hcarries,
        texts_scan hl (p.afterMatch f) i' h', List.map_append]
termination_by p.rest.length
decreasing_by exact Lexicon.length_rest_afterMatch_lt ‹_›

/-! ## Where the text stands -/

/-- The slices lie in the source from the place on, follow each other, and keep clear of all markup
that the scanner finds from the place on. -/
structure LaysOut (l : Lexicon) (source : List Char) (p : Place) (ss : List Slice) : Prop where
  slices : ∀ s ∈ ss, s.Of source
  behind : ∀ s ∈ ss, p.offset ≤ s.start
  ordered : ss.Pairwise fun s s' => s.stop ≤ s'.start
  clear : ∀ q f, l.Visits p q → l.find? q = some f →
    ∀ s ∈ ss, s.stop ≤ q.markupFrom f ∨ (q.afterMatch f).offset ≤ s.start

theorem laysOut_nil (l : Lexicon) (source : List Char) (p : Place) : LaysOut l source p [] :=
  ⟨nofun, nofun, .nil, fun _ _ _ _ => nofun⟩

/-- The text in front of a match ends where the markup starts. -/
theorem stop_le_markupFrom (hl : lexicon = .ok l) (hf : l.find? p = some f)
    (hs : s ∈ p.textSlices f.skipped) : s.stop ≤ p.markupFrom f := by
  have hstop : (Slice.mk p.offset (String.ofList (p.text f.skipped))).stop =
      (p.atMatch f).offset := by
    unfold Slice.stop
    rw [String.toList_ofList]
    rfl
  unfold Place.markupFrom
  rcases Place.eq_of_mem_textSlices hs with ⟨hcontext, -, rfl⟩ | ⟨hcontext, rfl⟩
  · rw [hcontext]
    exact Nat.le_of_eq hstop
  · rw [hcontext, (find?_literal hl hcontext hf).2.2.2]
    exact Nat.le_of_eq hstop

/-- The text in front of a match comes before the text behind the match. -/
theorem LaysOut.afterMatch (hl : lexicon = .ok l) {source : List Char} (hp : p.Within source)
    (hf : l.find? p = some f) {ss : List Slice} (h : LaysOut l source (p.afterMatch f) ss) :
    LaysOut l source p (p.textSlices f.skipped ++ ss) := by
  have hle := p.offset_le_afterMatch f
  have hmarkup := p.markupFrom_le_afterMatch f
  refine ⟨?_, ?_, ?_, ?_⟩
  · exact List.forall_mem_append.mpr ⟨fun s hs => hp.of_mem_textSlices hs, h.slices⟩
  · refine List.forall_mem_append.mpr ⟨fun s hs => ?_, fun s hs => ?_⟩
    · exact Nat.le_of_eq (Place.start_of_mem_textSlices hs).symm
    · exact Nat.le_trans hle (h.behind s hs)
  · refine List.pairwise_append.mpr ⟨p.pairwise_textSlices _ _, h.ordered, fun s hs s' hs' => ?_⟩
    have hstop := stop_le_markupFrom hl hf hs
    have hstart := h.behind s' hs'
    omega
  · intro q g hvisit hg
    refine List.forall_mem_append.mpr ⟨fun s hs => .inl ?_, fun s hs => ?_⟩
    · have hstop := stop_le_markupFrom hl hf hs
      rcases hvisit.eq_or_afterMatch hf with rfl | hvisit'
      · cases hf.symm.trans hg
        exact hstop
      · have hback := hvisit'.offset_le
        have hfrom := q.offset_le_markupFrom g
        omega
    · rcases hvisit.eq_or_afterMatch hf with rfl | hvisit'
      · cases hf.symm.trans hg
        exact .inr (h.behind s hs)
      · exact h.clear q g hvisit' hg s hs

/-- **The text of a source is laid out** in order and clear of the markup. -/
theorem laysOut_textSlices (hl : lexicon = .ok l) {source : List Char} (p : Place)
    (hp : p.Within source) : LaysOut l source p (l.textSlices p) := by
  rcases Nat.eq_zero_or_pos p.rest.length with hz | hpos
  · rw [Lexicon.textSlices_of_end hz]
    exact laysOut_nil l source p
  · cases hf : l.find? p with
    | none =>
      rw [Lexicon.textSlices_of_none hpos hf]
      refine ⟨fun s hs => hp.of_mem_textSlices hs, fun s hs => ?_, p.pairwise_textSlices _ _, ?_⟩
      · exact Nat.le_of_eq (Place.start_of_mem_textSlices hs).symm
      · -- no markup is found any more
        intro q g hvisit hg
        rw [hvisit.eq_of_none hf, hf] at hg
        cases hg
    | some f =>
      have hrec := laysOut_textSlices hl (p.afterMatch f) (hp.afterMatch (Lexicon.find?_le hf))
      rw [Lexicon.textSlices_of_some hpos hf]
      exact hrec.afterMatch hl hp hf
termination_by p.rest.length
decreasing_by exact Lexicon.length_rest_afterMatch_lt ‹_›

/-! ## What the slices are -/

/-- The place stands behind what opens a literal block. -/
def OpensLiteral (source : List Char) (p : Place) : Prop :=
  ∃ before, source = before ++ literalOpenText ++ p.rest ∧
    byteLength (before ++ literalOpenText) = p.offset

/-- The slice is all that stands between what opens a literal block and what first closes it. -/
def InLiteral (source : List Char) (s : Slice) : Prop :=
  ∃ before after,
    source = before ++ literalOpenText ++ (s.text.toList ++ literalCloseText ++ after) ∧
    byteLength (before ++ literalOpenText) = s.start ∧
    ∀ k < s.text.toList.length,
      ¬literalCloseText <+: (s.text.toList ++ literalCloseText ++ after).drop k

/-- A transition that leads into a literal block is the one that is meant to. -/
theorem eq_literal_of_apply {t : Transition} {m : Mode} (hm : m.context ≠ .literal)
    (h : (t.apply m).context = .literal) : t = .literal := by
  cases t with
  | literal => rfl
  | stay => exact absurd h hm
  | commentLeave =>
    simp only [Transition.apply, Transition.step] at h
    generalize (if m.nesting = 0 then 0 else m.nesting - 1) = left at h
    by_cases hleft : left = 0
    · rw [if_pos hleft] at h
      cases h
    · rw [if_neg hleft] at h
      exact absurd h hm
  | _ => cases h

/-- Only what opens a literal block leads into one. -/
theorem spells_of_transition {d : TokenDef} (hmem : d ∈ table) (h : d.transition = .literal) :
    Spells d .literalOpen literalOpenText := by
  obtain ⟨hfinds, htransition, -⟩ := table_finds d hmem
  have hkind : d.kind = .literalOpen := by
    rw [htransition] at h
    cases hk : d.kind <;> rw [hk] at h <;> first | rfl | cases h
  have hcontext : d.context ≠ .block := by
    intro hblock
    rw [hblock, hkind] at hfinds
    cases hfinds
  have hspells := delimiterDefinitions d hmem hcontext
  rw [hkind] at hspells
  exact hspells

/-- The scanner comes into a literal block behind what opens it. -/
theorem opensLiteral_afterMatch (hl : lexicon = .ok l) {source : List Char} (hp : p.Within source)
    (hf : l.find? p = some f) (hcontext : (p.afterMatch f).mode.context = .literal) :
    OpensLiteral source (p.afterMatch f) := by
  obtain ⟨hmem, hdef, hread, hmatch⟩ := find?_spec hl hf
  have hcontext : (f.rule.definition.transition.apply p.mode).context = .literal := hcontext
  have htransition : f.rule.definition.transition = .literal := by
    refine eq_literal_of_apply (fun h => ?_) hcontext
    -- what closes a literal block leads out of it
    have hcloses := (find?_finds hl hf).2.1
    rw [(find?_literal hl h hf).1] at hcloses
    rw [hcloses] at hcontext
    cases hcontext
  have hrule := rule_eq (spells_of_transition hmem htransition) hread
  have hmatch : f.rule.matchAt? (p.atMatch f).before (p.atMatch f).rest = some f.length := hmatch
  rw [hrule, Rule.matchAt?_fixed] at hmatch
  split at hmatch
  next hat =>
    have hle := Lexicon.find?_le hf
    have hwithin : (p.atMatch f).Within source := hp.advance (by omega)
    obtain ⟨after, hafter⟩ := hat
    obtain ⟨before, hsource, hoffset, -⟩ := hwithin
    have hlength : literalOpenText.length = f.length := Option.some.inj hmatch
    have hrest : (p.afterMatch f).rest = after := by
      show (p.atMatch f).rest.drop f.length = after
      rw [← hafter, ← hlength, List.drop_left]
    have hbytes : (p.afterMatch f).offset = (p.atMatch f).offset + byteLength literalOpenText := by
      show _ + byteLength ((p.atMatch f).rest.take f.length) = _
      rw [← hafter, ← hlength, List.take_left]
    refine ⟨before, ?_, ?_⟩
    · rw [hrest, List.append_assoc, hafter]
      exact hsource
    · rw [hbytes, Text.byteLength_append]
      exact congrArg (· + _) hoffset.symm
  next => cases hmatch

/-- From what opens a literal block to what closes it there is one slice. -/
theorem OpensLiteral.inLiteral (hl : lexicon = .ok l) {source : List Char}
    (hopens : OpensLiteral source p) (hcontext : p.mode.context = .literal)
    (hf : l.find? p = some f) :
    InLiteral source ⟨p.offset, String.ofList (Text.charsBefore literalCloseText p.rest)⟩ := by
  obtain ⟨before, hsource, hoffset⟩ := hopens
  obtain ⟨-, -, ⟨after, hafter⟩, htext⟩ := find?_literal hl hcontext hf
  have hrest : p.text f.skipped ++ literalCloseText ++ after = p.rest := by
    rw [List.append_assoc, hafter]
    exact List.take_append_drop _ _
  refine ⟨before, after, ?_, hoffset, ?_⟩
  · rw [String.toList_ofList, htext, hrest]
    exact hsource
  · rw [String.toList_ofList, htext, hrest, ← htext]
    exact Text.not_prefix_of_charsBefore _ _

/-- **A slice of an accepted source** is a fragment, or stands in a literal block. -/
theorem fragment_or_inLiteral (hl : lexicon = .ok l) {source : List Char} (p : Place) (i : Stage)
    (hp : p.Within source) (hopens : p.mode.context = .literal → OpensLiteral source p)
    (h : Followed l p i) : ∀ s ∈ l.textSlices p,
      (∃ t ∈ l.scan p, t.kind = .fragment ∧ t.slice = s) ∨ InLiteral source s := by
  rcases Nat.eq_zero_or_pos p.rest.length with hz | hpos
  · rw [Lexicon.textSlices_of_end hz]
    exact List.forall_mem_nil _
  · intro s hs
    cases hf : l.find? p with
    | none =>
      have htakes := h.takes
      rw [Lexicon.scan_of_none hpos hf] at htakes ⊢
      rw [Lexicon.textSlices_of_none hpos hf] at hs
      rcases Place.eq_of_mem_textSlices hs with ⟨-, -, rfl⟩ | ⟨hcontext, -⟩
      · exact .inl ⟨_, List.mem_singleton_self _, rfl, rfl⟩
      · -- a literal block that is not closed is not accepted
        have hstage : i.after .fragment = .text := htakes.2
        rw [after_fragment] at hstage
        rw [h.mode, hstage] at hcontext
        cases hcontext
    | some f =>
      rw [Lexicon.textSlices_of_some hpos hf, List.mem_append] at hs
      rw [Lexicon.scan_of_some hpos hf]
      rcases hs with hs | hs
      · rcases Place.eq_of_mem_textSlices hs with ⟨-, hne, rfl⟩ | ⟨hcontext, rfl⟩
        · refine .inl ⟨p.token .fragment f.skipped, ?_, rfl, rfl⟩
          rw [Place.fragmentBefore, if_neg hne]
          exact List.mem_append_left _ (List.mem_append_left _ (List.mem_singleton_self _))
        · exact .inr ((hopens hcontext).inLiteral hl hcontext hf)
      · have hwithin := hp.afterMatch (Lexicon.find?_le hf)
        have hopens' := opensLiteral_afterMatch hl hp hf
        obtain ⟨i', h', -⟩ := h.carries hl hf
        rcases fragment_or_inLiteral hl (p.afterMatch f) i' hwithin hopens' h' s hs with
          ⟨t, ht, hslice⟩ | hliteral
        · exact .inl ⟨t, List.mem_append_right _ ht, hslice⟩
        · exact .inr hliteral
termination_by p.rest.length
decreasing_by exact Lexicon.length_rest_afterMatch_lt ‹_›

/-- **No text of a template is lost, changed or reordered.** The texts in the tree of a source, in
the order of the source, are those of the fragments that are found between blocks and of the insides
of the literal blocks. They are slices of the source which follow each other without overlap, and
none of them meets a delimiter, a comment or a block. -/
theorem itemsTexts_parseTemplate {source : String} {t : Template}
    (h : parseTemplate source = .ok t) : ∃ l, lexicon = .ok l ∧
      itemsTexts t.items = (l.textSlices (Place.start source .template)).map Slice.text ∧
      (∀ s ∈ l.textSlices (Place.start source .template), s.Of source.toList ∧
        ((∃ u ∈ l.scan (Place.start source .template), u.kind = .fragment ∧ u.slice = s) ∨
          InLiteral source.toList s)) ∧
      (l.textSlices (Place.start source .template)).Pairwise (fun s s' => s.stop ≤ s'.start) ∧
      ∀ q f, l.Visits (Place.start source .template) q → l.find? q = some f →
        ∀ s ∈ l.textSlices (Place.start source .template),
          s.stop ≤ q.markupFrom f ∨ (q.afterMatch f).offset ≤ s.start := by
  obtain ⟨l, hl⟩ := exists_lexicon
  have hbody := body_of_parseTemplate hl h
  have hfollowed := followed_of_body hbody
  have hwithin := Place.within_start source .template
  have hlaid := laysOut_textSlices hl _ hwithin
  have hkinds := fragment_or_inLiteral hl _ _ hwithin nofun hfollowed
  have hcarries := Derives.carries_of_body hbody []
  rw [List.append_nil, texts_scan hl _ _ hfollowed] at hcarries
  refine ⟨l, hl, ?_, fun s hs => ⟨hlaid.slices s hs, hkinds s hs⟩, hlaid.ordered, hlaid.clear⟩
  exact (List.append_nil _).symm.trans hcarries.symm

/-- A fragment, a comment, and a condition with a literal block and a fragment in its arm. -/
def mixedSource : String :=
  "a\x7b\x7b*b*\x7d\x7d\x7b\x7bif c\x7d\x7d\x7b\x7b%\x7b\x7b%\x7d\x7dd\x7b\x7b/if\x7d\x7d"

/-- The tokens of `mixedSource`. -/
def mixedTokens : List Token := [
    ⟨.fragment, some 1, "a"⟩, ⟨.commentOpen, some 2, "\x7b\x7b*"⟩, ⟨.fragment, some 5, "b"⟩,
    ⟨.commentClose, some 6, "*\x7d\x7d"⟩, ⟨.blockOpen, some 9, "\x7b\x7b"⟩,
    ⟨.ifWord, some 11, "if"⟩, ⟨.identifier, some 14, "c"⟩, ⟨.blockClose, some 15, "\x7d\x7d"⟩,
    ⟨.literalOpen, some 17, "\x7b\x7b%"⟩, ⟨.fragment, some 20, "\x7b\x7b"⟩,
    ⟨.literalClose, some 22, "%\x7d\x7d"⟩, ⟨.fragment, some 25, "d"⟩,
    ⟨.blockOpen, some 26, "\x7b\x7b"⟩, ⟨.slash, some 28, "/"⟩, ⟨.ifWord, some 29, "if"⟩,
    ⟨.blockClose, some 31, "\x7d\x7d"⟩]

/-- The text of the comment is not among the texts, and what stands in the literal block is one. -/
theorem itemsTexts_parseTemplate_mixed :
    ∃ t, parseTemplate mixedSource = .ok t ∧ itemsTexts t.items = ["a", "\x7b\x7b", "d"] ∧
      readLexicon.textSlices (Place.start mixedSource .template) =
        [⟨0, "a"⟩, ⟨19, "\x7b\x7b"⟩, ⟨24, "d"⟩] := by
  have hrun : readLexicon.scan (Place.start mixedSource .template) = mixedTokens ∧
      readLexicon.textSlices (Place.start mixedSource .template) =
        [⟨0, "a"⟩, ⟨19, "\x7b\x7b"⟩, ⟨24, "d"⟩] := by
    decide +kernel
  obtain ⟨hscan, hslices⟩ := hrun
  have hread : ∃ items, Grammar.template.runTokens mixedTokens = .ok (items, []) := ⟨_, rfl⟩
  obtain ⟨items, hitems⟩ := hread
  have hparse : parseTemplate mixedSource = .ok { items } := by
    rw [parseTemplate_eq lexicon_eq, Lexicon.parse_eq (checkStart_eq lexicon_eq .template), hscan,
      hitems]
    rfl
  obtain ⟨l, hl, htexts, -⟩ := itemsTexts_parseTemplate hparse
  cases lexicon_eq.symm.trans hl
  rw [hslices] at htexts
  exact ⟨_, hparse, htexts, hslices⟩

end Standard

end Stencil
