import Stencil.Proofs.InStep
import Stencil.Proofs.Settled
import Stencil.Proofs.TemplateAppend

/-!
# Scanning in front of more text

A scan looks ahead as far as it likes, so that more text behind a source may change what is made of
the source itself. With the standard table it does not, provided that the source ends between
blocks and that nothing in a block is left unmatched. Outside blocks the patterns have two or three
characters. Inside, they avoid closing braces, and the block is closed further on, or they are
texts in quotes, which are closed as well. The source and the text behind it are then scanned one
after the other.

> `Standard.Sealed`: the scan from a place ends between blocks and leaves nothing of a block out.
> `Standard.Sealed.scan_extend`: such a scan is not changed by the text behind it.
> `Standard.scan_shift`: between blocks it does not matter what stood before.
> `Standard.scan_append`: two sources one after the other.
-/

namespace Stencil

namespace Standard

open Pattern (quoted)

/-! ## The patterns of the standard table -/

/-- The end of a block. -/
def closePattern : Pattern :=
  .fixed ['\x7d', '\x7d']

/-- The pattern avoids whatever may end the text in front of it: closing braces and quotes. -/
def Plain (p : Pattern) : Prop :=
  p.avoids '\x7d' = true ∧ p.avoids '"' = true ∧ p.avoids '\'' = true

instance (p : Pattern) : Decidable (Plain p) :=
  inferInstanceAs (Decidable (_ ∧ _ ∧ _))

/-- What a pattern of the block context looks like. -/
def ShapedInBlock (d : TokenDef) (p : Pattern) : Prop :=
  p = closePattern ∨ d.transition = .stay ∧ (p = quoted '"' ∨ p = quoted '\'' ∨ Plain p)

instance (d : TokenDef) (p : Pattern) : Decidable (ShapedInBlock d p) :=
  inferInstanceAs (Decidable (_ ∨ _ ∧ _))

/-- What a pattern of another context looks like. -/
def ShapedOutside (d : TokenDef) (p : Pattern) : Prop :=
  p.width? = some 3 ∨ p.width? = some 2 ∧ d.kind = .blockOpen

instance (d : TokenDef) (p : Pattern) : Decidable (ShapedOutside d p) :=
  inferInstanceAs (Decidable (_ ∨ _ ∧ _))

/-- The patterns of the standard table, by what they look like in each context. -/
theorem table_shaped : ∀ d ∈ table, ∀ p ∈ Pattern.read? d.pattern,
    (d.context = .block → ShapedInBlock d p) ∧ (d.context ≠ .block → ShapedOutside d p) := by
  decide +kernel

variable {l : Lexicon} {p : Place} {f : Found}

/-- The rules of a context are shaped as its definitions. -/
theorem rule_shaped (hl : lexicon = .ok l) {c : Context} {m : Matcher}
    (hm : l.matcher? c = some m) {r : Rule} (hr : r ∈ m.rules) :
    (c = .block → ShapedInBlock r.definition r.pattern) ∧
      (c ≠ .block → ShapedOutside r.definition r.pattern) := by
  obtain ⟨hmem, rfl, hread⟩ := Lexicon.compile_spec hl hm r hr
  exact table_shaped _ hmem _ hread

/-- So a match in a block is the end of the block, a text in quotes, or free of both; elsewhere it
has a fixed width. -/
theorem find?_shaped (hl : lexicon = .ok l) (h : l.find? p = some f) :
    ((p.mode.context = .block → ShapedInBlock f.rule.definition f.rule.pattern) ∧
      (p.mode.context ≠ .block → ShapedOutside f.rule.definition f.rule.pattern)) ∧
      f.length ∈ f.rule.pattern.lengths (p.atMatch f).before (p.atMatch f).rest := by
  obtain ⟨m, hm, hfind⟩ := search?_of_find? hl h
  obtain ⟨-, hr, hmatch⟩ := Found.search?_spec hfind
  exact ⟨rule_shaped hl hm hr, List.mem_of_head? hmatch⟩

/-! ## Outside blocks -/

/-- The patterns outside blocks look at three characters at most. -/
theorem ShapedOutside.lengths_append {d : TokenDef} {q : Pattern} (h : ShapedOutside d q)
    {x : List Char} (hx : 3 ≤ x.length) (before : Option Char) (y : List Char) :
    q.lengths before (x ++ y) = q.lengths before x := by
  rcases h with hw | ⟨hw, -⟩
  · exact Pattern.lengths_append_of_width hw before hx y
  · exact Pattern.lengths_append_of_width hw before (Nat.le_of_succ_le hx) y

/-! ## Inside blocks -/

/-- The end of a block is two closing braces. -/
theorem lengths_closePattern {before : Option Char} {x : List Char} {n : Nat}
    (h : n ∈ closePattern.lengths before x) : n = 2 ∧ ∃ rest, x = '\x7d' :: '\x7d' :: rest := by
  rw [closePattern, Pattern.lengths_fixed] at h
  split at h
  next hprefix =>
    obtain ⟨rest, rfl⟩ := hprefix
    exact ⟨List.mem_singleton.mp h, rest, rfl⟩
  next => cases h

/-- A character with which a text in quotes starts. -/
def IsQuote (c : Char) : Prop :=
  c = '"' ∨ c = '\''

theorem IsQuote.ne {quote : Char} (h : IsQuote quote) : quote ≠ '\\' := by
  rcases h with rfl | rfl <;> decide

/-- The patterns of the block context, with the texts in quotes taken together. -/
theorem shapedInBlock_cases {d : TokenDef} {q : Pattern} (h : ShapedInBlock d q) :
    q = closePattern ∨ d.transition = .stay ∧ ((∃ quote, IsQuote quote ∧ q = quoted quote) ∨
      Plain q) := by
  rcases h with h | ⟨hstay, h | h | h⟩
  · exact .inl h
  · exact .inr ⟨hstay, .inl ⟨_, .inl rfl, h⟩⟩
  · exact .inr ⟨hstay, .inl ⟨_, .inr rfl, h⟩⟩
  · exact .inr ⟨hstay, .inr h⟩

/-- Only a text in quotes starts at a quote. -/
theorem ShapedInBlock.eq_quoted {d : TokenDef} {q : Pattern} (h : ShapedInBlock d q) {quote : Char}
    (hquote : IsQuote quote) {before : Option Char} {rest : List Char} {n : Nat}
    (hn : n ∈ q.lengths before (quote :: rest)) (hpos : 0 < n) : q = quoted quote := by
  rcases shapedInBlock_cases h with rfl | ⟨-, ⟨quote', hquote', rfl⟩ | hplain⟩
  · obtain ⟨-, rest', hrest⟩ := lengths_closePattern hn
    cases hrest
    rcases hquote with hbrace | hbrace <;> cases hbrace
  · rw [Pattern.lengths_quoted hquote'.ne] at hn
    split at hn
    next heq => rw [heq]
    next => cases hn
  · have havoids : q.avoids quote = true := by
      rcases hquote with rfl | rfl
      · exact hplain.2.1
      · exact hplain.2.2
    have hzero := Pattern.eq_zero_of_avoids havoids hn
    omega

/-- The patterns of the block context do not look past the end of the block. A text in quotes that
starts here must be closed. -/
theorem ShapedInBlock.lengths_append {d : TokenDef} {q : Pattern} (h : ShapedInBlock d q)
    {before : Option Char} {c : Char} {rest : List Char}
    (hclosed : IsQuote c → ∃ n, n ∈ (quoted c).lengths before (c :: rest))
    (hbrace : '\x7d' ∈ c :: rest) (hlen : 2 ≤ (c :: rest).length) (y : List Char) :
    q.lengths before (c :: rest ++ y) = q.lengths before (c :: rest) := by
  rcases shapedInBlock_cases h with rfl | ⟨-, ⟨quote, hquote, rfl⟩ | hplain⟩
  · exact Pattern.lengths_append_of_width rfl before hlen y
  · by_cases hc : c = quote
    · subst hc
      obtain ⟨n, hn⟩ := hclosed hquote
      exact Pattern.lengths_quoted_append hquote.ne hn y
    · rw [List.cons_append, Pattern.lengths_quoted hquote.ne, Pattern.lengths_quoted hquote.ne,
        if_neg hc, if_neg hc]
  · exact Pattern.lengths_append_of_avoids hplain.1 before hbrace y

/-! ## Scans that end between blocks -/

/-- The scan from the place ends between blocks and finds everything in blocks. -/
inductive Sealed (l : Lexicon) : Place → Prop
  | done {p : Place} : p.rest = [] → p.mode = ⟨.template, 0⟩ → Sealed l p
  | step {p : Place} {f : Found} : l.find? p = some f → (p.mode.context = .block → f.skipped = 0) →
    Sealed l (p.afterMatch f) → Sealed l p

theorem rest_afterMatch (p : Place) (f : Found) :
    (p.afterMatch f).rest = (p.rest.drop f.skipped).drop f.length :=
  rfl

/-- A block is closed before such a scan ends. -/
theorem Sealed.closes (hl : lexicon = .ok l) (h : Sealed l p) (hblock : p.mode.context = .block) :
    '\x7d' ∈ p.rest ∧ 2 ≤ p.rest.length := by
  induction h with
  | done _ hmode =>
    rw [hmode] at hblock
    cases hblock
  | @step p f hf hskipped _ ih =>
    obtain ⟨⟨hshaped, -⟩, hlength⟩ := find?_shaped hl hf
    have hrest : (p.atMatch f).rest = p.rest := by
      show p.rest.drop f.skipped = p.rest
      rw [hskipped hblock, List.drop_zero]
    rw [hrest] at hlength
    rcases hshaped hblock with hclose | ⟨hstay, -⟩
    · rw [hclose] at hlength
      obtain ⟨-, rest, hrest⟩ := lengths_closePattern hlength
      rw [hrest]
      exact ⟨List.mem_cons_self .., Nat.le_add_left _ _⟩
    · -- still in the block behind the match
      have hmode : (p.afterMatch f).mode = p.mode := by
        show f.rule.definition.transition.apply p.mode = p.mode
        rw [hstay]
        rfl
      obtain ⟨hmem, hle⟩ := ih (hmode ▸ hblock)
      rw [rest_afterMatch] at hmem hle
      refine ⟨List.mem_of_mem_drop (List.mem_of_mem_drop hmem), ?_⟩
      rw [List.length_drop, List.length_drop] at hle
      omega

end Standard

namespace Place

/-- The place with more text behind the source. -/
def extend (p : Place) (y : List Char) : Place :=
  { p with rest := p.rest ++ y }

variable {p : Place} {f : Found} {n : Nat}

/-- Text behind the source changes nothing that lies in it. -/
theorem text_extend (h : n ≤ p.rest.length) (y : List Char) : (p.extend y).text n = p.text n :=
  List.take_append_of_le_length h

theorem token_extend (h : n ≤ p.rest.length) (kind : TokenKind) (y : List Char) :
    (p.extend y).token kind n = p.token kind n := by
  unfold token
  rw [text_extend h]
  rfl

theorem advance_extend (h : n ≤ p.rest.length) (y : List Char) :
    (p.extend y).advance n = (p.advance n).extend y := by
  unfold advance extend
  dsimp only
  rw [Pattern.beforeAt_append h, List.drop_append_of_le_length h, List.take_append_of_le_length h]

/-- The place behind a match that lies in the source is the same with more text behind. -/
theorem afterMatch_extend (h : f.skipped + f.length ≤ p.rest.length) (y : List Char) :
    (p.extend y).afterMatch f = (p.afterMatch f).extend y := by
  have hlength : f.length ≤ (p.atMatch f).rest.length := by
    show f.length ≤ (p.rest.drop f.skipped).length
    rw [List.length_drop]
    omega
  unfold afterMatch
  have hat : (p.extend y).atMatch f = (p.atMatch f).extend y := advance_extend (by omega) y
  rw [hat, advance_extend hlength]
  rfl

/-- A place and the text behind it keep the end of the source where it is. -/
theorem offset_add_advance (p : Place) (n : Nat) :
    (p.advance n).offset + Text.byteLength (p.advance n).rest =
      p.offset + Text.byteLength p.rest := by
  show p.offset + Text.byteLength (p.rest.take n) + Text.byteLength (p.rest.drop n) = _
  rw [Nat.add_assoc, ← Text.byteLength_append, List.take_append_drop]

/-- The bytes read and those left are together the same at all places. -/
theorem offset_add_afterMatch (p : Place) (f : Found) :
    (p.afterMatch f).offset + Text.byteLength (p.afterMatch f).rest =
      p.offset + Text.byteLength p.rest :=
  ((p.atMatch f).offset_add_advance f.length).trans (p.offset_add_advance f.skipped)

end Place

namespace Standard

variable {l : Lexicon} {p : Place} {f : Found}

/-- What is found is found in front of more text, if the rules hit alike up to there. -/
private theorem find?_extend_of_hits (hl : lexicon = .ok l) {m : Matcher}
    (hm : l.matcher? p.mode.context = some m)
    (hf : Found.search? m.rules p.before p.rest = some f) {y : List Char}
    (hsame : ∀ k ≤ f.skipped, ∀ r ∈ m.rules,
      r.pattern.lengths (Pattern.beforeAt p.before p.rest k) (p.rest.drop k ++ y) =
        r.pattern.lengths (Pattern.beforeAt p.before p.rest k) (p.rest.drop k)) :
    l.find? (p.extend y) = some f := by
  obtain ⟨hle, hit, hnone⟩ := Found.search?_eq_some hf
  have hhits : ∀ k ≤ f.skipped,
      Rule.hit? m.rules (Pattern.beforeAt p.before (p.rest ++ y) k) ((p.rest ++ y).drop k) =
        Rule.hit? m.rules (Pattern.beforeAt p.before p.rest k) (p.rest.drop k) := by
    intro k hk
    have hkle := Nat.le_trans hk hle
    rw [Pattern.beforeAt_append hkle, List.drop_append_of_le_length hkle]
    exact Rule.hit?_congr (hsame k hk)
  rw [find?_eq hl (show l.matcher? (p.extend y).mode.context = some m from hm)]
  show Found.search? m.rules p.before (p.rest ++ y) = some f
  refine Found.search?_of_hits ?_ ?_ fun k hk => ?_
  · rw [List.length_append]
    exact Nat.le_trans hle (Nat.le_add_right _ _)
  · rw [hhits _ (Nat.le_refl _), hit]
  · rw [hhits k (Nat.le_of_lt hk), hnone k hk]

/-- Outside blocks a match that has three characters from its start on is found in front of more
text. -/
theorem find?_extend_outside (hl : lexicon = .ok l) (hf : l.find? p = some f)
    (hblock : p.mode.context ≠ .block) (hlen : 3 ≤ (p.rest.drop f.skipped).length)
    (y : List Char) : l.find? (p.extend y) = some f := by
  obtain ⟨m, hm, hfind⟩ := search?_of_find? hl hf
  refine find?_extend_of_hits hl hm hfind fun k hk r hr => ?_
  have hlen' : 3 ≤ (p.rest.drop k).length := by
    rw [List.length_drop] at hlen ⊢
    omega
  exact ((rule_shaped hl hm hr).2 hblock).lengths_append hlen' _ y

/-- Inside a block that is closed further on, a match here is found in front of more text. -/
theorem find?_extend_inside (hl : lexicon = .ok l) (hf : l.find? p = some f)
    (hblock : p.mode.context = .block) (hskipped : f.skipped = 0) (hbrace : '\x7d' ∈ p.rest)
    (hlen : 2 ≤ p.rest.length) (y : List Char) : l.find? (p.extend y) = some f := by
  obtain ⟨m, hm, hfind⟩ := search?_of_find? hl hf
  obtain ⟨⟨hshaped, -⟩, hlength⟩ := find?_shaped hl hf
  have hat : (p.atMatch f).before = p.before ∧ (p.atMatch f).rest = p.rest := by
    unfold Place.atMatch Place.advance
    rw [hskipped]
    exact ⟨rfl, rfl⟩
  rw [hat.1, hat.2] at hlength
  refine find?_extend_of_hits hl hm hfind fun k hk r hr => ?_
  obtain rfl : k = 0 := by omega
  show r.pattern.lengths p.before (p.rest ++ y) = r.pattern.lengths p.before p.rest
  cases hrest : p.rest with
  | nil => rw [hrest] at hbrace; cases hbrace
  | cons c rest =>
    rw [hrest] at hbrace hlen hlength
    refine ((rule_shaped hl hm hr).1 hblock).lengths_append (fun hquote => ?_) hbrace hlen y
    -- the match that was found here is the text in quotes, so it is closed
    have hquoted := (hshaped hblock).eq_quoted hquote hlength (Lexicon.find?_length_pos hf)
    exact ⟨f.length, hquoted ▸ hlength⟩

/-- In front of more text the scanner finds what it found without it. -/
theorem Sealed.find?_extend (hl : lexicon = .ok l) (hf : l.find? p = some f)
    (hskipped : p.mode.context = .block → f.skipped = 0) (h : Sealed l (p.afterMatch f))
    (y : List Char) : l.find? (p.extend y) = some f := by
  have hle := Lexicon.find?_le hf
  by_cases hblock : p.mode.context = .block
  · obtain ⟨hbrace, hlen⟩ := (Sealed.step hf hskipped h).closes hl hblock
    exact find?_extend_inside hl hf hblock (hskipped hblock) hbrace hlen y
  · obtain ⟨⟨-, hshaped⟩, hlength⟩ := find?_shaped hl hf
    have hbehind : (p.rest.drop f.skipped).length = f.length + (p.afterMatch f).rest.length := by
      rw [Place.length_rest_afterMatch, List.length_drop]
      omega
    refine find?_extend_outside hl hf hblock ?_ y
    rcases hshaped hblock with hw | ⟨hw, hkind⟩
    · have hthree := Pattern.eq_of_width hw hlength
      omega
    · -- two characters open a block, which is closed further on
      have htwo := Pattern.eq_of_width hw hlength
      have hmode := mode_afterMatch hl hf
      rw [hkind] at hmode
      have hcloses := h.closes hl (by rw [hmode]; rfl)
      omega

/-- **A scan that ends between blocks** is not changed by the text behind it, which is scanned from
the place where it ends. -/
theorem Sealed.scan_extend (hl : lexicon = .ok l) (h : Sealed l p) (y : List Char) :
    ∃ q : Place, q.rest = y ∧ q.mode = ⟨.template, 0⟩ ∧
      q.offset = p.offset + Text.byteLength p.rest ∧
      l.scan (p.extend y) = l.scan p ++ l.scan q := by
  induction h with
  | @done p hrest hmode =>
    refine ⟨p.extend y, ?_, hmode, ?_, ?_⟩
    · show p.rest ++ y = y
      rw [hrest, List.nil_append]
    · rw [hrest]
      rfl
    · rw [Lexicon.scan_of_end (l := l) (List.length_eq_zero_iff.mpr hrest), List.nil_append]
  | @step p f hf hskipped hsealed ih =>
    obtain ⟨q, hrest, hmode, hoffset, hscan⟩ := ih
    have hle := Lexicon.find?_le hf
    have hpos := Lexicon.find?_length_pos hf
    have hextend := hsealed.find?_extend hl hf hskipped y
    have hmatch : f.length ≤ (p.atMatch f).rest.length := by
      show f.length ≤ (p.rest.drop f.skipped).length
      rw [List.length_drop]
      omega
    refine ⟨q, hrest, hmode, ?_, ?_⟩
    · rw [hoffset, Place.offset_add_afterMatch]
    · have hlength : 0 < (p.extend y).rest.length := by
        show 0 < (p.rest ++ y).length
        rw [List.length_append]
        omega
      have hfragment : (p.extend y).fragmentBefore f = p.fragmentBefore f := by
        unfold Place.fragmentBefore
        rw [Place.token_extend (by omega)]
      have htokens : (p.extend y).matchTokens f = p.matchTokens f := by
        unfold Place.matchTokens
        have hat : (p.extend y).atMatch f = (p.atMatch f).extend y :=
          Place.advance_extend (by omega) y
        rw [hat, Place.token_extend hmatch]
      rw [Lexicon.scan_of_some hlength hextend, Lexicon.scan_of_some (by omega) hf, hfragment,
        htokens, Place.afterMatch_extend hle, hscan]
      simp only [List.append_assoc]

end Standard

/-! ## Scans from another place -/

namespace Place

/-- The place `n` bytes further on in another source, in front of the same text. What stood before
it is the same too if the scanner looks at it, which it does in blocks only. -/
structure ShiftOf (n : Nat) (p q : Place) : Prop where
  rest : p.rest = q.rest
  mode : p.mode = q.mode
  offset : p.offset = q.offset + n
  before : p.mode.context = .block → p.before = q.before

variable {n : Nat} {p q : Place}

theorem ShiftOf.text (h : ShiftOf n p q) (k : Nat) : p.text k = q.text k :=
  congrArg (List.take k) h.rest

/-- The token at the shifted place is the shifted token. -/
theorem ShiftOf.token (h : ShiftOf n p q) (kind : TokenKind) (k : Nat) :
    p.token kind k = (q.token kind k).shift n := by
  unfold Place.token Token.shift
  rw [h.text, h.offset, Option.map_some, Nat.add_right_comm]

/-- Places stay shifted by as much when both go on by as many characters. -/
theorem ShiftOf.advance (h : ShiftOf n p q) (k : Nat) : ShiftOf n (p.advance k) (q.advance k) where
  rest := congrArg (List.drop k) h.rest
  mode := h.mode
  offset := by
    show p.offset + Text.byteLength (p.rest.take k) = q.offset + Text.byteLength (q.rest.take k) + n
    rw [h.rest, h.offset, Nat.add_right_comm]
  before hblock := by
    show Pattern.beforeAt p.before p.rest k = Pattern.beforeAt q.before q.rest k
    rw [h.before hblock, h.rest]

/-- Behind a match the character before the place lies in the text. -/
theorem ShiftOf.afterMatch {f : Found} (h : ShiftOf n p q) (hpos : 0 < f.length) :
    ShiftOf n (p.afterMatch f) (q.afterMatch f) := by
  have hbehind := (h.advance f.skipped).advance f.length
  refine ⟨hbehind.rest, congrArg f.rule.definition.transition.apply h.mode, hbehind.offset, ?_⟩
  intro _
  show Pattern.beforeAt _ (p.rest.drop f.skipped) f.length =
    Pattern.beforeAt _ (q.rest.drop f.skipped) f.length
  unfold Pattern.beforeAt
  rw [if_neg (Nat.ne_of_gt hpos), if_neg (Nat.ne_of_gt hpos), h.rest]

end Place

namespace Standard

variable {l : Lexicon} {n : Nat} {p q : Place} {f : Found}

/-- The next match does not depend on where in a source the place is. Outside blocks no pattern
looks at the character before. -/
theorem find?_shift (hl : lexicon = .ok l) (h : p.ShiftOf n q) : l.find? p = l.find? q := by
  obtain ⟨m, hm⟩ := exists_matcher hl q.mode.context
  have hm' : l.matcher? p.mode.context = some m := h.mode ▸ hm
  rw [find?_eq hl hm', find?_eq hl hm, h.rest]
  by_cases hblock : p.mode.context = .block
  · rw [h.before hblock]
  · -- only the patterns of the block context look at the character before a place
    have hhit : ∀ x, Rule.hit? m.rules p.before x = Rule.hit? m.rules q.before x := by
      intro x
      refine Rule.hit?_congr fun r hr => ?_
      rw [h.mode] at hblock
      rcases (rule_shaped hl hm hr).2 hblock with hw | ⟨hw, -⟩
      · exact Pattern.lengths_before_of_width hw _ _ x
      · exact Pattern.lengths_before_of_width hw _ _ x
    cases q.rest with
    | nil => rw [Found.search?, Found.search?, hhit]
    | cons c rest => rw [Found.search?, Found.search?, hhit]

/-- **The scan from a place further on** in front of the same text gives the same tokens, further
on. -/
theorem scan_shift (hl : lexicon = .ok l) (p q : Place) (h : p.ShiftOf n q) :
    l.scan p = (l.scan q).map (Token.shift n) := by
  have hfind := find?_shift hl h
  rcases Nat.eq_zero_or_pos p.rest.length with hz | hpos
  · rw [Lexicon.scan_of_end hz, Lexicon.scan_of_end (h.rest ▸ hz)]
    rfl
  · have hpos' : 0 < q.rest.length := h.rest ▸ hpos
    cases hf : l.find? p with
    | none =>
      rw [Lexicon.scan_of_none hpos hf, Lexicon.scan_of_none hpos' (hfind ▸ hf), h.rest, h.token]
      rfl
    | some f =>
      have hafter := h.afterMatch (Lexicon.find?_length_pos hf)
      have hfragment : p.fragmentBefore f = (q.fragmentBefore f).map (Token.shift n) := by
        unfold Place.fragmentBefore
        split
        · rfl
        · rw [h.token]
          rfl
      have hmatch : p.matchTokens f = (q.matchTokens f).map (Token.shift n) := by
        unfold Place.matchTokens
        split
        · rfl
        · exact congrArg (fun t => [t]) ((h.advance f.skipped).token _ _)
      rw [Lexicon.scan_of_some hpos hf, Lexicon.scan_of_some hpos' (hfind ▸ hf), hfragment, hmatch,
        scan_shift hl _ _ hafter, List.map_append, List.map_append]
termination_by p.rest.length
decreasing_by exact Lexicon.length_rest_afterMatch_lt ‹_›

/-- **A source that ends between blocks** and the source behind it are scanned one after the
other. -/
theorem scan_append (hl : lexicon = .ok l) {a : String}
    (h : Sealed l (Place.start a .template)) (b : String) :
    l.scan (Place.start (a ++ b) .template) = l.scan (Place.start a .template) ++
      (l.scan (Place.start b .template)).map (Token.shift (Text.byteLength a.toList)) := by
  obtain ⟨q, hrest, hmode, hoffset, hscan⟩ := h.scan_extend hl b.toList
  have hextend : Place.start (a ++ b) .template = (Place.start a .template).extend b.toList := by
    unfold Place.start Place.extend
    rw [String.toList_append]
  have hshift : q.ShiftOf (Text.byteLength a.toList) (Place.start b .template) := by
    refine ⟨hrest, hmode, ?_, fun hblock => ?_⟩
    · rw [hoffset]
      rfl
    · rw [hmode] at hblock
      cases hblock
  rw [hextend, hscan, scan_shift hl _ _ hshift]

end Standard

end Stencil
