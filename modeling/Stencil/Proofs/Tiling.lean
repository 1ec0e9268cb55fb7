import Stencil.Proofs.CursorStream

/-!
# The tokens tile the source

Nothing of a source gets lost between its tokens. Each token is a slice of the source, the slices
follow each other without overlap, and what lies between them is a match that went to a definition
which says to ignore it, in the context in which the scanner was then. That this definition matches
there by itself is another matter: where the groups of a context are looked up under wrong numbers,
a match can go to a definition that does not (`Cursor.collect_drops_token`).

The proof follows the scan from match to match. `Place.Within` ties a place to the source it was
reached in; `Lexicon.Covers` says what the scan makes of the bytes from a place on.

> `Lexicon.covers_scan`: the bytes from a place on are in a token or in an ignored match.
> `Cursor.collect_tiles`: so are all bytes of a source, once its tokens are collected.
-/

namespace Stencil

open Text (byteLength)

/-! ## Bytes and spans -/

theorem Text.byteLength_append (xs ys : List Char) :
    byteLength (xs ++ ys) = byteLength xs + byteLength ys := by
  induction xs with
  | nil => simp [byteLength]
  | cons c xs ih =>
    show c.utf8Size + byteLength (xs ++ ys) = c.utf8Size + byteLength xs + byteLength ys
    rw [ih]
    omega

theorem Text.byteLength_pos {cs : List Char} (h : cs ≠ []) : 0 < byteLength cs := by
  cases cs with
  | nil => exact absurd rfl h
  | cons c cs =>
    show 0 < c.utf8Size + byteLength cs
    have hc := Char.utf8Size_pos c
    omega

namespace Token

/-- The first byte of a token, counted from zero. -/
def firstByte (t : Token) : Nat :=
  t.offset.getD 0 - 1

/-- The byte after the last one of a token. -/
def stopByte (t : Token) : Nat :=
  t.firstByte + byteLength t.text.toList

/-- The token is a slice of the source, cut between characters at the place it names, and not
empty. -/
def SliceOf (t : Token) (source : List Char) : Prop :=
  t.text.toList ≠ [] ∧ ∃ before after, source = before ++ t.text.toList ++ after ∧
    t.offset = some (byteLength before + 1)

/-- A slice ends behind its first byte. -/
theorem SliceOf.firstByte_lt {t : Token} {source : List Char} (h : t.SliceOf source) :
    t.firstByte < t.stopByte :=
  Nat.lt_add_of_pos_right (Text.byteLength_pos h.1)

end Token

/-- A byte of a source lies in a match of the rule, tried on its own, that is not empty. -/
def Rule.MatchesOver (r : Rule) (source : List Char) (b : Nat) : Prop :=
  ∃ before word after, source = before ++ word ++ after ∧ word ≠ [] ∧
    r.matchAt? before.getLast? (word ++ after) = some word.length ∧
    byteLength before ≤ b ∧ b < byteLength before + byteLength word

/-! ## Places in a source -/

namespace Place

/-- The place lies in the source, with the right text, byte and character before it. -/
def Within (source : List Char) (p : Place) : Prop :=
  ∃ read, source = read ++ p.rest ∧ p.offset = byteLength read ∧ p.before = read.getLast?

/-- A scan starts within its source, with nothing read. -/
theorem within_start (source : String) (context : Context) :
    (start source context).Within source.toList :=
  ⟨[], rfl, rfl, rfl⟩

/-- Going on within what is left stays within the source. -/
theorem Within.advance {source : List Char} {p : Place} {n : Nat} (h : p.Within source)
    (hn : n ≤ p.rest.length) : (p.advance n).Within source := by
  obtain ⟨read, hsource, hoffset, hbefore⟩ := h
  refine ⟨read ++ p.rest.take n, ?_, ?_, Pattern.beforeAt_eq_getLast? hbefore hn⟩
  · show source = read ++ p.rest.take n ++ p.rest.drop n
    rw [List.append_assoc, List.take_append_drop]
    exact hsource
  · show p.offset + byteLength (p.rest.take n) = _
    rw [Text.byteLength_append, hoffset]

theorem Within.enter {source : List Char} {p : Place} (h : p.Within source) (t : Transition) :
    (p.enter t).Within source :=
  h

/-- Behind a match that lies in what is left, the place is still within the source. -/
theorem Within.afterMatch {source : List Char} {p : Place} {f : Found} (h : p.Within source)
    (hle : f.skipped + f.length ≤ p.rest.length) : (p.afterMatch f).Within source := by
  have hlen : f.length ≤ (p.atMatch f).rest.length := by
    show f.length ≤ (p.rest.drop f.skipped).length
    rw [List.length_drop]
    omega
  exact ((h.advance (by omega)).advance hlen).enter _

/-- The bytes from a place to the end of the source. -/
theorem Within.offset_add {source : List Char} {p : Place} (h : p.Within source) :
    p.offset + byteLength p.rest = byteLength source := by
  obtain ⟨read, hsource, hoffset, -⟩ := h
  rw [hsource, Text.byteLength_append, hoffset]

theorem firstByte_token (p : Place) (kind : TokenKind) (n : Nat) :
    (p.token kind n).firstByte = p.offset :=
  rfl

/-- A token ends where the scanner goes on. -/
theorem stopByte_token (p : Place) (kind : TokenKind) (n : Nat) :
    (p.token kind n).stopByte = (p.advance n).offset := by
  show p.offset + byteLength (String.ofList (p.rest.take n)).toList = _
  rw [String.toList_ofList]
  rfl

/-- A token of at least one character is a slice of the source. -/
theorem Within.sliceOf_token {source : List Char} {p : Place} {n : Nat} (h : p.Within source)
    (hpos : 0 < n) (hn : n ≤ p.rest.length) (kind : TokenKind) :
    (p.token kind n).SliceOf source := by
  obtain ⟨read, hsource, hoffset, -⟩ := h
  have htext : (p.token kind n).text.toList = p.rest.take n := String.toList_ofList
  constructor
  · rw [htext]
    intro he
    have hlen := congrArg List.length he
    rw [List.length_take, List.length_nil] at hlen
    omega
  · refine ⟨read, p.rest.drop n, ?_, ?_⟩
    · rw [htext, List.append_assoc, List.take_append_drop]
      exact hsource
    · show some (p.offset + 1) = _
      rw [hoffset]

theorem atMatch_le_afterMatch (p : Place) (f : Found) :
    (p.atMatch f).offset ≤ (p.afterMatch f).offset :=
  Nat.le_add_right _ _

end Place

/-! ## What the scanner passes over -/

namespace Lexicon

/-- The scanner goes from place to place, each time behind the next match and its transition. -/
inductive Visits (l : Lexicon) (start : Place) : Place → Prop where
  | here : Visits l start start
  | next {p : Place} {f : Found} : Visits l start p → l.find? p = some f →
      Visits l start (p.afterMatch f)

/-- Places that are visited from a visited place are visited. -/
theorem Visits.trans {l : Lexicon} {p q r : Place} (hpq : l.Visits p q) (hqr : l.Visits q r) :
    l.Visits p r := by
  induction hqr with
  | here => exact hpq
  | next _ hf ih => exact .next ih hf

/-- A byte lies in a match that its definition ignores. The match is the next one from a place where
the scanner stops, so it is found in the context of that place. -/
def Ignores (l : Lexicon) (start : Place) (b : Nat) : Prop :=
  ∃ p f, l.Visits start p ∧ l.find? p = some f ∧ f.rule.definition.cls = .ignore ∧
    (p.atMatch f).offset ≤ b ∧ b < (p.afterMatch f).offset

/-- What is ignored behind a match is ignored from the place in front of it on. -/
theorem Ignores.of_afterMatch {l : Lexicon} {p : Place} {f : Found} {b : Nat}
    (hf : l.find? p = some f) (h : l.Ignores (p.afterMatch f) b) : l.Ignores p b := by
  obtain ⟨q, g, hvisit, hg, hcls, hlo, hhi⟩ := h
  exact ⟨q, g, (Visits.here.next hf).trans hvisit, hg, hcls, hlo, hhi⟩

/-- The tokens `ts` account for a source from the byte `lo` on: they are slices of it that lie
behind `lo`, one after the other, and what they leave out is ignored by a scan that goes on from
`p`. -/
structure Covers (l : Lexicon) (source : List Char) (p : Place) (lo : Nat) (ts : List Token) :
    Prop where
  slices : ∀ t ∈ ts, t.SliceOf source
  behind : ∀ t ∈ ts, lo ≤ t.firstByte
  ordered : ts.Pairwise fun t u => t.stopByte ≤ u.firstByte
  complete : ∀ b, lo ≤ b → b < byteLength source →
    (∃ t ∈ ts, t.firstByte ≤ b ∧ b < t.stopByte) ∨ l.Ignores p b

/-- One more token, right in front of the bytes that are accounted for. -/
theorem Covers.cons {l : Lexicon} {source : List Char} {p : Place} {ts : List Token} {t : Token}
    (h : l.Covers source p t.stopByte ts) (ht : t.SliceOf source) :
    l.Covers source p t.firstByte (t :: ts) := by
  have hlt := ht.firstByte_lt
  refine ⟨?_, ?_, ?_, ?_⟩
  · exact List.forall_mem_cons.mpr ⟨ht, h.slices⟩
  · refine List.forall_mem_cons.mpr ⟨Nat.le_refl _, fun u hu => ?_⟩
    have hu' := h.behind u hu
    omega
  · exact List.pairwise_cons.mpr ⟨h.behind, h.ordered⟩
  · intro b hlo hhi
    rcases Nat.lt_or_ge b t.stopByte with hb | hb
    · exact Or.inl ⟨t, List.mem_cons_self .., hlo, hb⟩
    · rcases h.complete b hb hhi with ⟨u, hu, hin⟩ | hign
      · exact Or.inl ⟨u, List.mem_cons_of_mem _ hu, hin⟩
      · exact Or.inr hign

/-- Ignored text, right in front of the bytes that are accounted for. -/
theorem Covers.skip {l : Lexicon} {source : List Char} {p : Place} {lo hi : Nat} {ts : List Token}
    (h : l.Covers source p hi ts) (hle : lo ≤ hi)
    (hgap : ∀ b, lo ≤ b → b < hi → l.Ignores p b) : l.Covers source p lo ts := by
  refine ⟨h.slices, fun t ht => Nat.le_trans hle (h.behind t ht), h.ordered, fun b hlo hhi => ?_⟩
  rcases Nat.lt_or_ge b hi with hb | hb
  · exact Or.inr (hgap b hlo hb)
  · exact h.complete b hb hhi

/-- What is ignored behind a match is ignored by the scan that comes to the match. -/
theorem Covers.of_afterMatch {l : Lexicon} {source : List Char} {p : Place} {f : Found} {lo : Nat}
    {ts : List Token} (hf : l.find? p = some f) (h : l.Covers source (p.afterMatch f) lo ts) :
    l.Covers source p lo ts := by
  refine ⟨h.slices, h.behind, h.ordered, fun b hlo hhi => ?_⟩
  rcases h.complete b hlo hhi with hin | hign
  · exact Or.inl hin
  · exact Or.inr (Ignores.of_afterMatch hf hign)

/-- A match is a token, or ignored. -/
theorem Covers.matchTokens {l : Lexicon} {source : List Char} {p : Place} {f : Found}
    {ts : List Token} (hp : p.Within source) (hf : l.find? p = some f)
    (h : l.Covers source p (p.afterMatch f).offset ts) :
    l.Covers source p (p.atMatch f).offset (p.matchTokens f ++ ts) := by
  have hlen := find?_length_pos hf
  have hle := find?_le hf
  unfold Place.matchTokens
  split
  · next hcls =>
    exact h.skip (p.atMatch_le_afterMatch f) fun b hlo hhi =>
      ⟨p, f, Visits.here, hf, hcls, hlo, hhi⟩
  · have hat : (p.atMatch f).Within source := hp.advance (by omega)
    have hroom : f.length ≤ (p.atMatch f).rest.length := by
      show f.length ≤ (p.rest.drop f.skipped).length
      rw [List.length_drop]
      omega
    have hslice := hat.sliceOf_token hlen hroom f.rule.definition.kind
    rw [← Place.firstByte_token (p.atMatch f) f.rule.definition.kind f.length]
    refine Covers.cons ?_ hslice
    rw [Place.stopByte_token]
    exact h

/-- The text before a match is a fragment. -/
theorem Covers.fragmentBefore {l : Lexicon} {source : List Char} {p : Place} {f : Found}
    {ts : List Token} (hp : p.Within source) (hf : l.find? p = some f)
    (h : l.Covers source p (p.atMatch f).offset ts) :
    l.Covers source p p.offset (p.fragmentBefore f ++ ts) := by
  have hle := find?_le hf
  unfold Place.fragmentBefore
  split
  · next hs =>
    have hsame : (p.atMatch f).offset = p.offset := by
      show p.offset + byteLength (p.rest.take f.skipped) = p.offset
      rw [hs]
      rfl
    rw [← hsame]
    exact h
  · have hslice := hp.sliceOf_token (by omega) (show f.skipped ≤ p.rest.length by omega) .fragment
    rw [← Place.firstByte_token p .fragment f.skipped]
    refine Covers.cons ?_ hslice
    rw [Place.stopByte_token]
    exact h

/-- **The scan covers the source**, from any place on. -/
theorem covers_scan (l : Lexicon) {source : List Char} (p : Place) (hp : p.Within source) :
    l.Covers source p p.offset (l.scan p) := by
  have htotal := hp.offset_add
  have hend : l.Covers source p (byteLength source) [] :=
    ⟨nofun, nofun, List.Pairwise.nil, fun b hlo hhi => by omega⟩
  rcases Nat.eq_zero_or_pos p.rest.length with hz | hpos
  · rw [List.length_eq_zero_iff.mp hz] at htotal
    rw [scan_of_end hz, show p.offset = byteLength source from htotal]
    exact hend
  · cases hf : l.find? p with
    | none =>
      -- nothing matches any more: one fragment up to the end
      have hstop : (p.token .fragment p.rest.length).stopByte = byteLength source := by
        rw [Place.stopByte_token]
        show p.offset + byteLength (p.rest.take p.rest.length) = _
        rw [List.take_length]
        exact htotal
      rw [scan_of_none hpos hf, ← Place.firstByte_token p .fragment p.rest.length]
      refine Covers.cons ?_ (hp.sliceOf_token hpos (Nat.le_refl _) _)
      rw [hstop]
      exact hend
    | some f =>
      -- the induction is on the text that is left: the match is not empty
      have hrec := covers_scan l (p.afterMatch f) (hp.afterMatch (find?_le hf))
      rw [scan_of_some hpos hf, List.append_assoc]
      exact Covers.fragmentBefore hp hf (Covers.matchTokens hp hf (Covers.of_afterMatch hf hrec))
termination_by p.rest.length
decreasing_by exact length_rest_afterMatch_lt ‹_›

/-! ## Kinds of tokens -/

/-- A token of a scan is a fragment, or it is the text of a match under the kind of its rule. -/
theorem exists_match_of_mem_scan (l : Lexicon) (p : Place) {t : Token} (ht : t ∈ l.scan p) :
    t.kind = .fragment ∨ ∃ q f, l.find? q = some f ∧
      t = (q.atMatch f).token f.rule.definition.kind f.length := by
  rcases Nat.eq_zero_or_pos p.rest.length with hz | hpos
  · rw [scan_of_end hz] at ht
    cases ht
  · cases hf : l.find? p with
    | none =>
      rw [scan_of_none hpos hf, List.mem_singleton] at ht
      rw [ht]
      exact Or.inl rfl
    | some f =>
      rw [scan_of_some hpos hf, List.mem_append, List.mem_append] at ht
      rcases ht with (ht | ht) | ht
      · unfold Place.fragmentBefore at ht
        split at ht
        · cases ht
        · rw [List.mem_singleton.mp ht]
          exact Or.inl rfl
      · unfold Place.matchTokens at ht
        split at ht
        · cases ht
        · exact Or.inr ⟨p, f, hf, List.mem_singleton.mp ht⟩
      · exact exists_match_of_mem_scan l (p.afterMatch f) ht
termination_by p.rest.length
decreasing_by exact length_rest_afterMatch_lt ‹_›

/-- A scan gives no token of a kind that no definition has, fragments apart. -/
theorem kind_ne_of_mem_scan {table : TokenTable} {l : Lexicon} (hl : l.Serves table)
    {kind : TokenKind} (hkind : kind ≠ .fragment) (hdef : ∀ d ∈ table, d.kind ≠ kind) (p : Place) :
    ∀ t ∈ l.scan p, t.kind ≠ kind := by
  intro t ht
  rcases exists_match_of_mem_scan l p ht with hfragment | ⟨q, f, hf, rfl⟩
  · rw [hfragment]
    exact hkind.symm
  · exact hdef _ (hl.mem_table hf).1

/-- Tokens without an end among them are all given out before the end. -/
theorem untilEof_of_forall_ne : ∀ {ts : List Token}, (∀ t ∈ ts, t.kind ≠ .eof) →
    untilEof ts = ts ++ [Token.eof]
  | [], _ => rfl
  | t :: ts, h => by
    have ht : t.isEof = false := beq_eq_false_iff_ne.mpr (h t (List.mem_cons_self ..))
    have hrec := untilEof_of_forall_ne fun u hu => h u (List.mem_cons_of_mem _ hu)
    rw [untilEof, ht, if_neg Bool.false_ne_true, hrec, List.cons_append]

/-- A match that is found is that of its rule on its own if the search goes by the joined pattern
with the right numbers. -/
theorem matchesOver_of_find? {l : Lexicon} {p : Place} {m : Matcher} {f : Found}
    (hm : l.matcher? p.mode.context = some m) (hf : l.find? p = some f)
    (hjoins : m.Joins m.groups) {source : List Char} (hp : p.Within source) {b : Nat}
    (hlo : (p.atMatch f).offset ≤ b) (hhi : b < (p.afterMatch f).offset) :
    f.rule.MatchesOver source b := by
  have hle := find?_le hf
  have hpos := find?_length_pos hf
  have hfind : Found.search? m.rules p.before p.rest = some f := by
    rw [find?, hm, Option.bind_some, Matcher.find?_eq_search? hjoins] at hf
    exact hf
  obtain ⟨-, -, hmatch⟩ := Found.search?_spec hfind
  obtain ⟨before, hsource, hoffset, hbefore⟩ : (p.atMatch f).Within source :=
    hp.advance (by omega)
  have hroom : f.length ≤ (p.atMatch f).rest.length := Pattern.preferred?_le hmatch
  have hword : ((p.atMatch f).rest.take f.length).length = f.length := by
    rw [List.length_take, Nat.min_eq_left hroom]
  refine ⟨before, (p.atMatch f).rest.take f.length, (p.atMatch f).rest.drop f.length,
    ?_, ?_, ?_, ?_, ?_⟩
  · rw [List.append_assoc, List.take_append_drop]
    exact hsource
  · intro he
    rw [he, List.length_nil] at hword
    omega
  · rw [List.take_append_drop, hword, ← hbefore]
    exact hmatch
  · rw [← hoffset]
    exact hlo
  · rw [← hoffset]
    exact hhi

/-- Every place where the scanner stops lies in the source. -/
theorem Visits.within {l : Lexicon} {source : List Char} {start p : Place} (h : l.Visits start p)
    (hstart : start.Within source) : p.Within source := by
  induction h with
  | here => exact hstart
  | next _ hf ih => exact ih.afterMatch (find?_le hf)

/-- Ignored text is a match of the matcher of the context in which the scanner was. It goes to a
definition of this context that says to ignore it. -/
theorem Ignores.exists_rule {table : TokenTable} {l : Lexicon} (hl : l.Serves table)
    {source : List Char} {start : Place} (hstart : start.Within source) {b : Nat}
    (h : l.Ignores start b) :
    ∃ p m f, l.Visits start p ∧ l.matcher? p.mode.context = some m ∧ l.find? p = some f ∧
      (p.atMatch f).offset ≤ b ∧ b < (p.afterMatch f).offset ∧ f.rule ∈ m.rules ∧
      f.rule.definition ∈ table ∧ f.rule.definition.context = p.mode.context ∧
      f.rule.definition.cls = .ignore ∧
      (m.Joins m.groups → f.rule.MatchesOver source b) := by
  obtain ⟨p, f, hvisit, hf, hcls, hlo, hhi⟩ := h
  obtain ⟨m, hm, -, hr, -⟩ := find?_eq_some hf
  obtain ⟨hd, hc⟩ := hl.mem_table hf
  exact ⟨p, m, f, hvisit, hm, hf, hlo, hhi, hr, hd, hc, hcls,
    fun hjoins => matchesOver_of_find? hm hf hjoins (hvisit.within hstart) hlo hhi⟩

end Lexicon

/-- **The tokens of a source tile it.** Scanning can start in every context that has definitions.
All tokens are given out, and the end behind them: slices of the source that are not empty, in
order and without overlap. A byte outside them lies in a match that goes to a definition of the
current context which says to ignore it. If the groups of that context are looked up under the right
numbers, the match is the definition's own. -/
theorem Cursor.collect_tiles {table : TokenTable} {l : Lexicon} (hl : l.Serves table)
    (hkind : ∀ d ∈ table, d.kind ≠ .eof) {context : Context}
    (hcontext : ∃ d ∈ table, d.context = context) (source : String) :
    ∃ c ts, Cursor.start l source context = .ok c ∧ c.collect.1 = ts ++ [Token.eof] ∧
      (∀ t ∈ ts, t.kind ≠ .eof ∧ t.SliceOf source.toList) ∧
      ts.Pairwise (fun t u => t.stopByte ≤ u.firstByte) ∧
      ∀ b < byteLength source.toList, (∀ t ∈ ts, ¬(t.firstByte ≤ b ∧ b < t.stopByte)) →
        ∃ p m f, l.Visits (Place.start source context) p ∧
          l.matcher? p.mode.context = some m ∧ l.find? p = some f ∧
          (p.atMatch f).offset ≤ b ∧ b < (p.afterMatch f).offset ∧ f.rule ∈ m.rules ∧
          f.rule.definition ∈ table ∧ f.rule.definition.context = p.mode.context ∧
          f.rule.definition.cls = .ignore ∧
          (m.Joins m.groups → f.rule.MatchesOver source.toList b) := by
  obtain ⟨d, hd, rfl⟩ := hcontext
  have hwithin := Place.within_start source d.context
  have hcovers := Lexicon.covers_scan l _ hwithin
  have hkinds := Lexicon.kind_ne_of_mem_scan hl (by decide) hkind (Place.start source d.context)
  have hstart : Cursor.start l source d.context
      = .ok { lexicon := l, source, place := Place.start source d.context } := by
    unfold Cursor.start
    rw [hl.checkStart hd]
    rfl
  refine ⟨_, l.scan (Place.start source d.context), hstart, ?_, ?_, hcovers.ordered, ?_⟩
  · rw [Cursor.collect_eq_untilEof, Cursor.remaining_start hstart,
      Lexicon.untilEof_of_forall_ne hkinds]
  · exact fun t ht => ⟨hkinds t ht, hcovers.slices t ht⟩
  · intro b hb hout
    rcases hcovers.complete b (Nat.zero_le b) hb with ⟨t, ht, hin⟩ | hign
    · exact absurd hin (hout t ht)
    · exact hign.exists_rule hl hwithin

/-- A table with a definition that matches nothing at all at most places, one that is ignored, and
one that leads to a context without definitions. -/
def patchyTable : TokenTable := [
    ⟨.block, .int, .literal, "[0-9]*", .stay⟩,
    ⟨.block, .whitespace, .ignore, " +", .stay⟩,
    ⟨.block, .literalOpen, .normal, "%", .literal⟩]

/-- A fragment, an ignored blank, a number, the way out, and the rest of the source. -/
theorem Cursor.collect_tiles_patchy :
    ∃ l c ts, l.Serves patchyTable ∧ Cursor.start l "é 12% 3" .block = .ok c ∧
      c.collect.1 = ts ++ [Token.eof] ∧ (∀ t ∈ ts, t.kind ≠ .eof ∧ t.SliceOf "é 12% 3".toList) ∧
      ts.Pairwise (fun t u => t.stopByte ≤ u.firstByte) := by
  have hrun : (Lexicon.compile patchyTable).isOk = true := by decide +kernel
  cases hl : Lexicon.compile patchyTable with
  | error e => rw [hl] at hrun; cases hrun
  | ok l =>
    have hserves := Lexicon.serves_of_compile hl
    obtain ⟨c, ts, hc, hts, hslices, hordered, -⟩ :=
      Cursor.collect_tiles hserves (by decide) ⟨_, List.mem_cons_self .., rfl⟩ "é 12% 3"
    exact ⟨l, c, ts, hserves, hc, hts, hslices, hordered⟩

/-- The first definition repeats a group zero times, and the group of the last one is therefore
looked up under the number of the group inside the second. -/
def droppedGroupTable : TokenTable := [
    ⟨.block, .int, .literal, "x(a){0}", .stay⟩,
    ⟨.block, .identifier, .literal, "y(b)", .stay⟩,
    ⟨.block, .whitespace, .ignore, "z", .stay⟩]

/-- The rules of this table, with their patterns as they are read. -/
def droppedGroupRules : List Rule :=
  droppedGroupTable.zipWith Rule.mk [
    .seq (.one (.single 'x')) .empty,
    .seq (.one (.single 'y')) (.group 1 (.one (.single 'b'))),
    .one (.single 'z')]

def droppedGroupLexicon : Lexicon :=
  ⟨[⟨.block, droppedGroupRules, Rule.alternation [1, 3, 5] droppedGroupRules⟩]⟩

/-- A rule for one character matches over no source without it. -/
theorem Rule.not_matchesOver_single {r : Rule} {c : Char} (hr : r.pattern = .one (.single c))
    {source : List Char} (hc : c ∉ source) (b : Nat) : ¬r.MatchesOver source b := by
  rintro ⟨before, word, after, hsource, hne, hmatch, -⟩
  cases word with
  | nil => exact hne rfl
  | cons a word =>
    rw [matchAt?, hr] at hmatch
    have hlength := List.mem_of_head? hmatch
    rw [List.cons_append, Pattern.lengths_single] at hlength
    split at hlength
    · next heq => exact hc (by simp [hsource, heq])
    · cases hlength

/-- **A source can be dropped that no definition ignores.** On `yb` the match of the second
definition goes to the last one, which says to ignore it. Nothing but the end is given out, while
the last definition matches nowhere in the source. -/
theorem Cursor.collect_drops_token :
    Lexicon.compile droppedGroupTable = .ok droppedGroupLexicon ∧
      ∃ c, Cursor.start droppedGroupLexicon "yb" .block = .ok c ∧ c.collect.1 = [Token.eof] ∧
        ∀ r ∈ droppedGroupRules, r.definition.cls = .ignore →
          ∀ b, ¬r.MatchesOver "yb".toList b := by
  have hstart : Cursor.start droppedGroupLexicon "yb" .block = .ok
      { lexicon := droppedGroupLexicon, source := "yb", place := Place.start "yb" .block } :=
    rfl
  refine ⟨?_, _, hstart, ?_, fun r hr hcls b => ?_⟩
  · have hrun : (Lexicon.compile droppedGroupTable).toOption = some droppedGroupLexicon := by
      decide +kernel
    cases hl : Lexicon.compile droppedGroupTable with
    | error e => rw [hl] at hrun; cases hrun
    | ok l => rw [hl] at hrun; cases hrun; rfl
  · have hscan : droppedGroupLexicon.scan (Place.start "yb" .block) = [] := by
      decide +kernel
    rw [Cursor.collect_eq_untilEof, Cursor.remaining_start hstart, hscan]
    rfl
  · have hpattern : ∀ r ∈ droppedGroupRules, r.definition.cls = .ignore →
        r.pattern = .one (.single 'z') := by
      decide
    exact Rule.not_matchesOver_single (hpattern r hr hcls) (by decide) b

end Stencil
