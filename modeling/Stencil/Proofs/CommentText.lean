import Stencil.Proofs.CommentExact
import Stencil.Proofs.StandardScan

/-!
# Comments in a source

A text is a comment if its delimiters pair up when it is read from the left. The scanner finds just
these delimiters, and whatever stands between them becomes fragments, so that the tokens of such a
text are a comment of the grammar.

> `Standard.spells_of_mem`: outside blocks the standard table finds fixed texts, the delimiters.
> `Standard.ClosesComments`: texts that close the comments which are open in front of them.
> `Standard.isComment_of_closesComments`: a text whose delimiters pair up is a comment.
-/

namespace Stencil

/-- A rule for a fixed text matches where the text stands. -/
theorem Rule.matchAt?_fixed {d : TokenDef} {w x : List Char} {before : Option Char} :
    (Rule.mk d (.fixed w)).matchAt? before x = if w <+: x then some w.length else none := by
  rw [matchAt?, Pattern.preferred?, Pattern.lengths_fixed]
  split <;> rfl

theorem Rule.not_matches_fixed {d : TokenDef} {w x : List Char} {before : Option Char}
    (h : ¬w <+: x) : ¬(Rule.mk d (.fixed w)).Matches before x := by
  rintro ⟨n, hn, -⟩
  rw [matchAt?_fixed, if_neg h] at hn
  cases hn

namespace Standard

open Derives (Unwinds depthBehind)

/-- What opens a comment. -/
def openText : List Char :=
  ['\x7b', '\x7b', '*']

/-- What closes a comment. -/
def closeText : List Char :=
  ['*', '\x7d', '\x7d']

/-- What opens a literal block. -/
def literalOpenText : List Char :=
  ['\x7b', '\x7b', '%']

/-- What closes a literal block. -/
def literalCloseText : List Char :=
  ['%', '\x7d', '\x7d']

/-- What opens a block, and with what all that ends the text between blocks starts. -/
def blockText : List Char :=
  ['\x7b', '\x7b']

/-- The text is a delimiter of comments, of a kind. -/
def Delimits (w : List Char) (kind : TokenKind) : Prop :=
  w = openText ∧ kind = .commentOpen ∨ w = closeText ∧ kind = .commentClose

/-- Text that is read from the left inside a number of comments, closes all of them with its last
character, and is never inside more than `most` comments. -/
inductive ClosesComments (most : Nat) : Nat → List Char → Prop
  | done : ClosesComments most 0 []
  | opening {depth rest} : depth + 2 ≤ most → ClosesComments most (depth + 2) rest →
    ClosesComments most (depth + 1) (openText ++ rest)
  | closing {depth rest} : ClosesComments most depth rest →
    ClosesComments most (depth + 1) (closeText ++ rest)
  | other {depth c rest} : ¬openText <+: c :: rest → ¬closeText <+: c :: rest →
    ClosesComments most (depth + 1) rest → ClosesComments most (depth + 1) (c :: rest)

/-- The source is one comment, with whatever comments are inside it. -/
def IsComment (source : String) : Prop :=
  ∃ l left us right, lexicon = .ok l ∧
    l.scan (Place.start source .template) = left :: (us ++ [right]) ∧
    left.kind = .commentOpen ∧ Derives.Balanced us ∧ right.kind = .commentClose

/-- Up to the first delimiter there is none, and behind it the comments are closed that are open
there. -/
theorem ClosesComments.exists_first {most depth : Nat} {x : List Char}
    (h : ClosesComments most (depth + 1) x) (hle : depth + 1 ≤ most) :
    ∃ before w rest kind, x = before ++ w ++ rest ∧ Delimits w kind ∧
      (∀ k < before.length, ¬openText <+: x.drop k ∧ ¬closeText <+: x.drop k) ∧
      depthBehind (depth + 1) kind ≤ most ∧
      ClosesComments most (depthBehind (depth + 1) kind) rest := by
  generalize hd : depth + 1 = d at h
  induction h with
  | done => cases hd
  | @opening depth' rest hle' h _ =>
    cases hd
    exact ⟨[], _, rest, .commentOpen, rfl, .inl ⟨rfl, rfl⟩, nofun, hle', h⟩
  | @closing depth' rest h _ =>
    cases hd
    exact ⟨[], _, rest, .commentClose, rfl, .inr ⟨rfl, rfl⟩, nofun, Nat.le_of_succ_le hle, h⟩
  | @other depth' c rest hopen hclose _ ih =>
    cases hd
    obtain ⟨before, w, rest, kind, rfl, hdelimits, hnone, hbehind⟩ := ih rfl
    refine ⟨c :: before, w, rest, kind, rfl, hdelimits, fun k hk => ?_, hbehind⟩
    cases k with
    | zero => exact ⟨hopen, hclose⟩
    | succ k => exact hnone k (Nat.lt_of_succ_lt_succ hk)

/-! ## Delimiters that are found -/

/-- The definition finds a text, which becomes a token of a kind. -/
def Spells (d : TokenDef) (kind : TokenKind) (w : List Char) : Prop :=
  d.kind = kind ∧ d.cls = .normal ∧ Pattern.read? d.pattern = some (.fixed w)

instance (d : TokenDef) (kind : TokenKind) (w : List Char) : Decidable (Spells d kind w) :=
  inferInstanceAs (Decidable (_ ∧ _ ∧ _))

/-- The text of a token that is found outside blocks. -/
def delimiterText : TokenKind → List Char
  | .commentOpen => openText
  | .commentClose => closeText
  | .literalOpen => literalOpenText
  | .literalClose => literalCloseText
  | _ => blockText

theorem delimiterDefinitions : ∀ d ∈ table, d.context ≠ .block →
    Spells d d.kind (delimiterText d.kind) := by
  decide +kernel

/-- Outside blocks, the definitions of a context find the delimiters of their kinds. -/
theorem spells_of_mem {c : Context} (hc : c ≠ .block) {d : TokenDef}
    (hd : d ∈ table.filter (·.context == c)) : Spells d d.kind (delimiterText d.kind) := by
  obtain ⟨hmem, hcontext⟩ := List.mem_filter.mp hd
  refine delimiterDefinitions d hmem ?_
  rw [beq_iff_eq.mp hcontext]
  exact hc

/-- Between blocks, all delimiters start with the same text. -/
theorem delimiterText_of_finds {kind : TokenKind} (h : finds .template kind = true) :
    ∃ w, delimiterText kind = blockText ++ w := by
  cases kind <;> first | exact ⟨_, rfl⟩ | cases h

/-- Between blocks, what opens a comment comes first, and all definitions start with the same
text. -/
theorem templateDefinitions :
    (∃ d, (table.filter (·.context == .template))[0]? = some d ∧ Spells d .commentOpen openText) ∧
      ∀ d ∈ table.filter (·.context == .template), ∃ kind w, Spells d kind (blockText ++ w) := by
  have hne : Context.template ≠ .block := nofun
  constructor
  · exact ⟨_, rfl, spells_of_mem hne (List.mem_cons_self ..)⟩
  · intro d hd
    obtain ⟨hmem, hcontext⟩ := List.mem_filter.mp hd
    have hfinds := (table_finds d hmem).1
    rw [beq_iff_eq.mp hcontext] at hfinds
    obtain ⟨w, hw⟩ := delimiterText_of_finds hfinds
    exact ⟨d.kind, w, hw ▸ spells_of_mem hne hd⟩

/-- Inside comments there are only the delimiters of comments. -/
theorem commentDefinitions : ∃ d d', table.filter (·.context == .comment) = [d, d'] ∧
    Spells d .commentOpen openText ∧ Spells d' .commentClose closeText := by
  have hne : Context.comment ≠ .block := nofun
  refine ⟨_, _, rfl, ?_, ?_⟩
  · exact spells_of_mem hne (List.mem_cons_self ..)
  · exact spells_of_mem hne (List.mem_cons_of_mem _ (List.mem_cons_self ..))

/-- Inside a literal block there is only what closes it. -/
theorem literalDefinitions : ∃ d, table.filter (·.context == .literal) = [d] ∧
    Spells d .literalClose literalCloseText := by
  have hne : Context.literal ≠ .block := nofun
  exact ⟨_, rfl, spells_of_mem hne (List.mem_cons_self ..)⟩

variable {l : Lexicon} {m : Matcher} {p : Place} {x : List Char}

/-- A rule of a context reads its definition. -/
theorem rule_eq {r : Rule} {kind : TokenKind} {w : List Char} (h : Spells r.definition kind w)
    (hread : Pattern.read? r.definition.pattern = some r.pattern) :
    r = ⟨r.definition, .fixed w⟩ := by
  rw [h.2.2] at hread
  cases r
  rw [Option.some.inj hread]

/-- The definition whose text stands at a place makes the hit there, if those before it are spelled
otherwise. -/
theorem hit?_of_spells (hl : lexicon = .ok l) {c : Context} (hm : l.matcher? c = some m)
    (before : Option Char) {d : TokenDef} {kind : TokenKind} {w : List Char} {i : Nat}
    (hd : (table.filter (·.context == c))[i]? = some d) (hspells : Spells d kind w)
    (hw : 0 < w.length) (hx : w <+: x)
    (hfirst : ∀ j < i, ∀ d', (table.filter (·.context == c))[j]? = some d' →
      ∃ kind' w', Spells d' kind' w' ∧ ¬w' <+: x) :
    Rule.hit? m.rules before x = some (⟨d, .fixed w⟩, w.length) := by
  have hcompile := Lexicon.compile_of_matcher? hl hm
  have hrule : m.rules[i]? = some ⟨d, .fixed w⟩ :=
    (Matcher.getElem?_rules hcompile).mpr ⟨hd, hspells.2.2⟩
  refine Rule.hit?_eq_some_iff.mpr ⟨hw, i, hrule, ?_, fun j hj t ht => ?_⟩
  · rw [Rule.matchAt?_fixed, if_pos hx]
  · obtain ⟨hd', hread⟩ := (Matcher.getElem?_rules hcompile).mp ht
    obtain ⟨kind', w', hspells', hnot⟩ := hfirst j hj t.definition hd'
    rw [rule_eq hspells' hread]
    exact Rule.not_matches_fixed hnot

/-- From the place on, a delimiter of a comment is found behind so many characters. -/
def FindsDelimiter (l : Lexicon) (p : Place) (skipped : Nat) (kind : TokenKind) : Prop :=
  ∃ f, l.find? p = some f ∧ f.skipped = skipped ∧ f.length = 3 ∧
    f.rule.definition.kind = kind ∧ f.rule.definition.cls = .normal

/-- Between blocks, what opens a comment is found behind the text. -/
theorem findsDelimiter_behind (hl : lexicon = .ok l) (hcontext : p.mode.context = .template)
    {text rest : List Char} (hrest : p.rest = text ++ openText ++ rest)
    (hnone : ∀ k < text.length, ¬blockText <+: p.rest.drop k) :
    FindsDelimiter l p text.length .commentOpen := by
  obtain ⟨m, hm⟩ := exists_matcher hl .template
  obtain ⟨⟨d, hd, hspells⟩, hall⟩ := templateDefinitions
  have hle : text.length ≤ p.rest.length := by
    rw [hrest, List.append_assoc, List.length_append]
    exact Nat.le_add_right _ _
  have hat : openText <+: p.rest.drop text.length := by
    rw [hrest, List.append_assoc, List.drop_left]
    exact List.prefix_append openText rest
  refine ⟨⟨text.length, 3, ⟨d, .fixed openText⟩⟩, ?_, rfl, rfl, hspells.1, hspells.2.1⟩
  rw [find?_eq hl (hcontext ▸ hm)]
  refine Found.search?_of_hits hle ?_ fun k hk => Rule.hit?_eq_none_iff.mpr fun r hr => ?_
  · exact hit?_of_spells hl hm _ hd hspells (by decide) hat
      fun j hj => absurd hj (Nat.not_lt_zero j)
  · obtain ⟨hmem, hread⟩ := (Matcher.compile_spec (Lexicon.compile_of_matcher? hl hm)).2 r hr
    obtain ⟨kind, w, hspells'⟩ := hall r.definition hmem
    rw [rule_eq hspells' hread]
    exact Rule.not_matches_fixed fun hx => hnone k hk ((List.prefix_append _ _).trans hx)

/-- Inside a comment there is no hit where no delimiter stands. -/
theorem hit?_of_no_delimiter (hl : lexicon = .ok l) (hm : l.matcher? .comment = some m)
    (before : Option Char) (hopen : ¬openText <+: x) (hclose : ¬closeText <+: x) :
    Rule.hit? m.rules before x = none := by
  obtain ⟨d, d', hdefs, hspells, hspells'⟩ := commentDefinitions
  refine Rule.hit?_eq_none_iff.mpr fun r hr => ?_
  obtain ⟨hmem, hread⟩ := (Matcher.compile_spec (Lexicon.compile_of_matcher? hl hm)).2 r hr
  rw [hdefs, List.mem_cons, List.mem_singleton] at hmem
  rcases hmem with hmem | hmem
  · rw [rule_eq (hmem ▸ hspells) hread]
    exact Rule.not_matches_fixed hopen
  · rw [rule_eq (hmem ▸ hspells') hread]
    exact Rule.not_matches_fixed hclose

theorem not_openText_of_closeText (h : closeText <+: x) : ¬openText <+: x := by
  rintro ⟨y, rfl⟩
  obtain ⟨z, hz⟩ := h
  cases hz

/-- Inside a comment a delimiter is the hit where it stands. -/
theorem hit?_of_delimits (hl : lexicon = .ok l) (hm : l.matcher? .comment = some m)
    (before : Option Char) {w : List Char} {kind : TokenKind} (hw : Delimits w kind)
    (hx : w <+: x) :
    ∃ d, Spells d kind w ∧ Rule.hit? m.rules before x = some (⟨d, .fixed w⟩, 3) := by
  obtain ⟨d, d', hdefs, hopen, hclose⟩ := commentDefinitions
  rcases hw with ⟨rfl, rfl⟩ | ⟨rfl, rfl⟩
  · have hd : (table.filter (·.context == .comment))[0]? = some d := by rw [hdefs]; rfl
    exact ⟨d, hopen, hit?_of_spells hl hm before hd hopen (by decide) hx
      fun j hj => absurd hj (Nat.not_lt_zero j)⟩
  · have hd : (table.filter (·.context == .comment))[1]? = some d' := by rw [hdefs]; rfl
    refine ⟨d', hclose, hit?_of_spells hl hm before hd hclose (by decide) hx fun j hj e he => ?_⟩
    -- the definition before it is spelled otherwise
    obtain rfl : j = 0 := Nat.lt_one_iff.mp hj
    rw [hdefs] at he
    cases he
    exact ⟨_, _, hopen, not_openText_of_closeText hx⟩

/-- Inside a comment, the first delimiter is found. -/
theorem findsDelimiter_first (hl : lexicon = .ok l) (hcontext : p.mode.context = .comment)
    {before w rest : List Char} {kind : TokenKind} (hrest : p.rest = before ++ w ++ rest)
    (hnone : ∀ k < before.length, ¬openText <+: p.rest.drop k ∧ ¬closeText <+: p.rest.drop k)
    (hw : Delimits w kind) : FindsDelimiter l p before.length kind := by
  obtain ⟨m, hm⟩ := exists_matcher hl .comment
  have hle : before.length ≤ p.rest.length := by
    rw [hrest, List.append_assoc, List.length_append]
    exact Nat.le_add_right _ _
  have hat : w <+: p.rest.drop before.length := by
    rw [hrest, List.append_assoc, List.drop_left]
    exact List.prefix_append w rest
  obtain ⟨d, hspells, hit⟩ := hit?_of_delimits hl hm _ hw hat
  refine ⟨⟨before.length, 3, ⟨d, .fixed w⟩⟩, ?_, rfl, rfl, hspells.1, hspells.2.1⟩
  rw [find?_eq hl (hcontext ▸ hm)]
  refine Found.search?_of_hits hle hit fun k hk => ?_
  exact hit?_of_no_delimiter hl hm _ (hnone k hk).1 (hnone k hk).2

/-- A delimiter that is found becomes a token, with a fragment before it unless it is found here. -/
theorem FindsDelimiter.scan_eq (hl : lexicon = .ok l) {n : Nat} {kind : TokenKind}
    (h : FindsDelimiter l p n kind) :
    ∃ t q, l.scan p = (if n = 0 then [] else [p.token .fragment n]) ++ t :: l.scan q ∧
      t.kind = kind ∧ q.rest = p.rest.drop (n + 3) ∧ q.mode = p.mode.behind kind := by
  obtain ⟨f, hf, rfl, hlength, rfl, hcls⟩ := h
  have hle := Lexicon.find?_le hf
  refine ⟨(p.atMatch f).token f.rule.definition.kind f.length, p.afterMatch f, ?_, rfl, ?_,
    mode_afterMatch hl hf⟩
  · have htokens : p.matchTokens f = [(p.atMatch f).token f.rule.definition.kind f.length] := by
      unfold Place.matchTokens
      rw [hcls, if_neg nofun]
    rw [Lexicon.scan_of_some (by omega) hf, htokens, List.append_assoc]
    rfl
  · rw [rest_afterMatch, List.drop_drop, hlength]

/-! ## Comments that are scanned -/

/-- A delimiter leads from one number of open comments to the next. -/
theorem behind_delimiter {depth : Nat} {w : List Char} {kind : TokenKind} (h : Delimits w kind)
    (hsize : depth + 1 < UInt32.size) : (Stage.comment (depth + 1)).mode.behind kind =
      (Stage.ofDepth (depthBehind (depth + 1) kind)).mode := by
  rcases h with ⟨-, rfl⟩ | ⟨-, rfl⟩
  · exact Stage.mode_after (i := .comment (depth + 1)) rfl rfl nofun hsize
  · exact Stage.behind_commentClose hsize

/-- **Text that closes the open comments** is scanned to tokens that do. -/
theorem unwinds_scan (hl : lexicon = .ok l) {most : Nat} (hmost : most < UInt32.size) (p : Place)
    (depth : Nat) (hle : depth ≤ most) (hmode : p.mode = (Stage.ofDepth depth).mode)
    (h : ClosesComments most depth p.rest) : Unwinds depth (l.scan p) := by
  cases depth with
  | zero =>
    have hrest : p.rest = [] := by
      generalize p.rest = x at h
      cases h
      rfl
    rw [Lexicon.scan_of_end (List.length_eq_zero_iff.mpr hrest)]
    exact .zero
  | succ depth =>
    obtain ⟨before, w, rest, kind, hrest, hdelimits, hnone, hle', hcloses⟩ := h.exists_first hle
    have hcontext : p.mode.context = .comment := by rw [hmode]; rfl
    obtain ⟨t, q, hscan, rfl, hq, hmode'⟩ :=
      (findsDelimiter_first hl hcontext hrest hnone hdelimits).scan_eq hl
    have hw : w.length = 3 := by
      rcases hdelimits with ⟨rfl, -⟩ | ⟨rfl, -⟩ <;> rfl
    have hbehind : q.rest = rest := by
      rw [hq, hrest, ← hw, ← List.length_append, List.drop_left]
    have hmode' : q.mode = (Stage.ofDepth (depthBehind (depth + 1) t.kind)).mode := by
      rw [hmode', hmode]
      exact behind_delimiter hdelimits (Nat.lt_of_le_of_lt hle hmost)
    have hend : t.kind ≠ .eof := by
      rcases hdelimits with ⟨-, hkind⟩ | ⟨-, hkind⟩ <;> rw [hkind] <;> nofun
    have hlt : q.rest.length < p.rest.length := by
      rw [hbehind, hrest, List.length_append, List.length_append]
      omega
    have hrec := unwinds_scan hl hmost q _ hle' hmode' (hbehind ▸ hcloses)
    rw [hscan]
    have hdelimiter : Unwinds (depth + 1) (t :: l.scan q) := .cons hend hrec
    split
    · exact hdelimiter
    · -- a fragment before the delimiter changes nothing
      have hfragment : (p.token .fragment before.length).kind ≠ .eof := nofun
      exact .cons hfragment hdelimiter
termination_by p.rest.length

/-- The tokens of a text that is followed by a comment. -/
theorem exists_scan_comment (hl : lexicon = .ok l) {text x : List Char}
    (hnone : ∀ k < text.length, ¬blockText <+: (text ++ openText ++ x).drop k)
    (h : ClosesComments (UInt32.size - 1) 1 x) :
    ∃ left us right, l.scan (Place.start (String.ofList (text ++ openText ++ x)) .template) =
      (if text.length = 0 then [] else [⟨.fragment, some 1, String.ofList text⟩]) ++
        left :: (us ++ [right]) ∧
      left.kind = .commentOpen ∧ Derives.Balanced us ∧ right.kind = .commentClose := by
  generalize hp : Place.start (String.ofList (text ++ openText ++ x)) .template = p
  have hrest : p.rest = text ++ openText ++ x := by
    rw [← hp]
    exact String.toList_ofList
  have hmode : p.mode = ⟨.template, 0⟩ := by
    rw [← hp]
    rfl
  rw [← hrest] at hnone
  obtain ⟨left, q, hscan, hleft, hq, hmode'⟩ :=
    (findsDelimiter_behind hl (by rw [hmode]) hrest hnone).scan_eq hl
  have hbehind : q.rest = x := by
    have hlength : (text ++ openText).length = text.length + 3 := List.length_append
    rw [hq, hrest, ← hlength, List.drop_left]
  have hfragment : p.token .fragment text.length = ⟨.fragment, some 1, String.ofList text⟩ := by
    unfold Place.token Place.text
    rw [hrest, List.append_assoc, List.take_left, ← hp]
    rfl
  have hmost : UInt32.size - 1 < UInt32.size := by decide
  have hunwinds := unwinds_scan hl hmost q 1 (by decide) (by rw [hmode', hmode]; rfl) (hbehind ▸ h)
  generalize l.scan q = ts at hscan hunwinds
  rw [hfragment] at hscan
  cases hunwinds with
  | @close _ us right vs hus hright hvs =>
    cases hvs
    exact ⟨left, us, right, hscan, hleft, hus, hright⟩

/-- **A text whose delimiters pair up** is a comment, if no more comments are open at once than the
scanner can count. -/
theorem isComment_of_closesComments {x : List Char} (h : ClosesComments (UInt32.size - 1) 1 x) :
    IsComment (String.ofList (openText ++ x)) := by
  obtain ⟨l, hl⟩ := exists_lexicon
  have hnone : ∀ k < ([] : List Char).length, ¬blockText <+: ([] ++ openText ++ x).drop k :=
    fun k hk => absurd hk (Nat.not_lt_zero k)
  obtain ⟨left, us, right, hscan, hcomment⟩ := exists_scan_comment hl hnone h
  exact ⟨l, left, us, right, hl, hscan, hcomment⟩

end Standard

end Stencil
