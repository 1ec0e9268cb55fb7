import Stencil.Proofs.MatchStart
import Stencil.Proofs.StandardScan
import Stencil.Proofs.StandardTable

/-!
# Where a word ends

Reserved words and identifiers end at different places. A reserved word ends where a word ends in
the sense of patterns, an identifier in front of the first character that it cannot hold. A dollar
sign may stand in an identifier but is no word character, and letters beyond ASCII are word
characters but stand in no identifier. So a reserved word is cut off in front of a dollar sign, and
is an identifier in front of such a letter. Everywhere else the two ideas of a word agree.

> `Standard.hit?_block`: the rules that can match where an identifier can start.
> `Standard.scan_word`: the token of a reserved word or an identifier.
-/

namespace Stencil

/-! ## Matches of words -/

/-- The text is empty or starts with a character outside a class. -/
def Text.Leaves (holds : Char → Bool) (s : List Char) : Prop :=
  s.head?.any holds = false

instance (holds : Char → Bool) (s : List Char) : Decidable (Text.Leaves holds s) :=
  inferInstanceAs (Decidable (_ = _))

/-- Characters of a class up to a place where the class is left. -/
theorem Text.takeWhile_append {holds : Char → Bool} {w s : List Char}
    (hw : ∀ c ∈ w, holds c = true) (hs : Text.Leaves holds s) :
    (w ++ s).takeWhile holds = w := by
  rw [List.takeWhile_append_of_pos hw]
  cases s with
  | nil => rw [List.takeWhile_nil, List.append_nil]
  | cons c s =>
    have hc : holds c = false := hs
    rw [List.takeWhile_cons_of_neg (by simp [hc]), List.append_nil]

/-- What is left behind characters of a class starts with none of it. -/
theorem Text.leaves_dropWhile (holds : Char → Bool) (s : List Char) :
    Text.Leaves holds (s.dropWhile holds) := by
  have hnot := List.head?_dropWhile_not holds s
  unfold Leaves
  cases hc : (s.dropWhile holds).head? with
  | none => rfl
  | some c =>
    rw [hc] at hnot
    simpa using hnot

namespace Pattern

/-- The pattern of a text that ends where a word ends. -/
def wordPattern (w : List Char) : Pattern :=
  sequence (w.map (fun c => one (.single c)) ++ [edge (.word false .either)])

theorem wordPattern_cons (c : Char) (w : List Char) :
    wordPattern (c :: w) = seq (one (.single c)) (wordPattern w) := by
  cases w <;> rfl

/-- The pattern of a word matches the word itself, where a word edge lies behind it. The induction
is on the word; the edge is the last part of the sequence. -/
theorem lengths_wordPattern : ∀ (w : List Char) (before : Option Char) (x : List Char),
    (wordPattern w).lengths before x =
      if w <+: x ∧
        (Edge.word false .either).holds (beforeAt before x w.length) (x.drop w.length).head? = true
      then [w.length] else [] := by
  intro w
  induction w with
  | nil =>
    intro before x
    show (if (Edge.word false .either).holds before x.head? = true then [0] else []) = _
    simp only [List.nil_prefix, true_and]
    rfl
  | cons c w ih =>
    intro before x
    rw [wordPattern_cons, lengths]
    cases x with
    | nil => simp [lengths]
    | cons d x =>
      rw [lengths_single]
      by_cases hd : d = c
      · subst hd
        have hbefore : beforeAt before (d :: x) 1 = some d := rfl
        rw [if_pos rfl, List.flatMap_singleton, List.drop_one, List.tail_cons, hbefore, ih,
          List.length_cons, Found.beforeAt_succ, List.drop_succ_cons]
        simp only [List.cons_prefix_cons, true_and]
        split
        · rw [List.map_singleton, Nat.add_comm]
        · rfl
      · rw [if_neg hd, if_neg fun h => hd (List.cons_prefix_cons.mp h.1).1.symm]
        rfl

/-- Behind a word there is an edge unless a word character follows. -/
theorem wordEdge_iff {w : List Char} (hne : w ≠ []) (hword : ∀ c ∈ w, Text.isWord c = true)
    (before : Option Char) (t : List Char) :
    (Edge.word false .either).holds (beforeAt before (w ++ t) w.length) t.head? = true ↔
      Text.Leaves Text.isWord t := by
  have hlast : (beforeAt before (w ++ t) w.length).any Text.isWord = true := by
    have hlt : w.length - 1 < w.length := by
      have hpos := List.length_pos_iff.mpr hne
      omega
    rw [beforeAt, if_neg (by simpa using hne), List.getElem?_append_left hlt,
      List.getElem?_eq_getElem hlt]
    exact hword _ (List.getElem_mem hlt)
  rw [Edge.holds, hlast]
  cases t with
  | nil => simp [WordEdge.holds, Text.Leaves]
  | cons c t => simp [WordEdge.holds, Text.Leaves]

/-- **A word is matched** where the word characters from here on are that word. -/
theorem preferred?_wordPattern {w : List Char} (hne : w ≠ [])
    (hword : ∀ c ∈ w, Text.isWord c = true) (before : Option Char) {x : List Char} {n : Nat} :
    (wordPattern w).preferred? before x = some n ↔
      x.takeWhile Text.isWord = w ∧ n = w.length := by
  have hmatch : (w <+: x ∧ (Edge.word false .either).holds (beforeAt before x w.length)
      (x.drop w.length).head? = true) ↔ x.takeWhile Text.isWord = w := by
    constructor
    · rintro ⟨⟨t, rfl⟩, hedge⟩
      rw [List.drop_left, wordEdge_iff hne hword] at hedge
      exact Text.takeWhile_append hword hedge
    · intro hx
      have hleaves := Text.leaves_dropWhile Text.isWord x
      have hsplit : w ++ x.dropWhile Text.isWord = x := by
        rw [← hx]
        exact List.takeWhile_append_dropWhile
      generalize x.dropWhile Text.isWord = t at hleaves hsplit
      subst hsplit
      rw [List.drop_left, wordEdge_iff hne hword]
      exact ⟨List.prefix_append w t, hleaves⟩
  rw [preferred?, lengths_wordPattern]
  simp only [hmatch]
  split
  · next hx => simp [hx, eq_comm]
  · next hx => simp [hx]

end Pattern

/-! ## The words of the standard table -/

namespace Standard

open Pattern (CharSet wordPattern)

/-- A character with which an identifier can start. -/
def startsIdentifier (c : Char) : Bool :=
  ('A' ≤ c && c ≤ 'Z') || ('a' ≤ c && c ≤ 'z') || decide (c = '_') || decide (c = '$')

/-- A character that can stand in an identifier. -/
def inIdentifier (c : Char) : Bool :=
  startsIdentifier c || ('0' ≤ c && c ≤ '9')

theorem inIdentifier_of_starts {c : Char} (h : startsIdentifier c = true) :
    inIdentifier c = true := by
  rw [inIdentifier, h, Bool.true_or]

/-- Identifiers are written in ASCII. -/
theorem lt_of_inIdentifier {c : Char} (h : inIdentifier c = true) : c.toNat < 128 := by
  have hbelow : ∀ d : Char, d.toNat < 128 → c ≤ d → c.toNat < 128 :=
    fun d hd hle => Nat.lt_of_le_of_lt (UInt32.le_iff_toNat_le.mp hle) hd
  simp only [inIdentifier, startsIdentifier, Bool.or_eq_true, Bool.and_eq_true,
    decide_eq_true_eq] at h
  rcases h with (((h | h) | rfl) | rfl) | h
  · exact hbelow 'Z' (by decide) h.2
  · exact hbelow 'z' (by decide) h.2
  · decide
  · decide
  · exact hbelow '9' (by decide) h.2

/-- Among ASCII characters, those of identifiers are the word characters and the dollar sign. -/
theorem inIdentifier_of_ascii : ∀ n < 128,
    inIdentifier (Char.ofNat n) = (Text.isWord (Char.ofNat n) || decide (Char.ofNat n = '$')) := by
  decide +kernel

/-- The dollar sign is the only character of identifiers that is no word character. -/
theorem eq_dollar {c : Char} (hc : inIdentifier c = true) (hword : Text.isWord c = false) :
    c = '$' := by
  have hascii := inIdentifier_of_ascii c.toNat (lt_of_inIdentifier hc)
  rw [Char.ofNat_toNat, hc, hword, Bool.false_or] at hascii
  exact of_decide_eq_true hascii.symm

/-- The text is spelled as an identifier. -/
def IsIdentifier (w : List Char) : Prop :=
  w.head?.any startsIdentifier = true ∧ w.all inIdentifier = true

instance (w : List Char) : Decidable (IsIdentifier w) :=
  inferInstanceAs (Decidable (_ ∧ _))

/-- An identifier has a first character, with which identifiers can start. -/
theorem IsIdentifier.exists_cons {w : List Char} (h : IsIdentifier w) :
    ∃ c rest, w = c :: rest ∧ startsIdentifier c = true := by
  cases w with
  | nil => cases h.1
  | cons c rest => exact ⟨c, rest, rfl, h.1⟩

/-- All characters of an identifier can stand in one. -/
theorem IsIdentifier.inIdentifier {w : List Char} (h : IsIdentifier w) :
    ∀ c ∈ w, inIdentifier c = true :=
  List.all_eq_true.mp h.2

/-- The text is spelled as a word of the table, and gives a token of this kind. -/
def Reserved (kind : TokenKind) (w : List Char) : Prop :=
  word kind (String.ofList w) ∈ wordTable

instance (kind : TokenKind) (w : List Char) : Decidable (Reserved kind w) :=
  inferInstanceAs (Decidable (_ ∈ _))

/-- The text of a word, without the condition behind it. -/
def spelling (d : TokenDef) : List Char :=
  d.pattern.toList.dropLast.dropLast

theorem spelling_word (kind : TokenKind) (w : List Char) :
    spelling (word kind (String.ofList w)) = w := by
  simp [spelling, word, List.dropLast_append_of_ne_nil]

/-- The words of the table: each pattern is read as that of its spelling, which is made of letters,
and no spelling stands for two kinds. -/
theorem wordTable_spelled : ∀ d ∈ wordTable,
    d = word d.kind (String.ofList (spelling d)) ∧
    Pattern.read? d.pattern = some (wordPattern (spelling d)) ∧
    spelling d ≠ [] ∧
    (spelling d).all Text.isWord = true ∧ (spelling d).all startsIdentifier = true ∧
    ∀ d' ∈ wordTable, spelling d' = spelling d → d' = d := by
  decide +kernel

section

variable {kind kind' : TokenKind} {w : List Char}

theorem Reserved.ne_nil (h : Reserved kind w) : w ≠ [] :=
  spelling_word kind w ▸ (wordTable_spelled _ h).2.2.1

/-- Reserved words are word characters throughout. -/
theorem Reserved.isWord (h : Reserved kind w) : ∀ c ∈ w, Text.isWord c = true :=
  List.all_eq_true.mp (spelling_word kind w ▸ (wordTable_spelled _ h).2.2.2.1)

/-- They are also letters with which identifiers can start, so each is spelled like an identifier.
-/
theorem Reserved.starts (h : Reserved kind w) : ∀ c ∈ w, startsIdentifier c = true :=
  List.all_eq_true.mp (spelling_word kind w ▸ (wordTable_spelled _ h).2.2.2.2.1)

/-- A word could be an identifier. -/
theorem Reserved.isIdentifier (h : Reserved kind w) : IsIdentifier w := by
  refine ⟨?_, List.all_eq_true.mpr fun c hc => ?_⟩
  · cases w with
    | nil => exact absurd rfl h.ne_nil
    | cons c w => exact h.starts c List.mem_cons_self
  · exact inIdentifier_of_starts (h.starts c hc)

/-- A word gives tokens of one kind only. -/
theorem Reserved.unique (h : Reserved kind w) (h' : Reserved kind' w) : kind' = kind := by
  have hsame := (wordTable_spelled _ h).2.2.2.2.2 _ h' (by rw [spelling_word, spelling_word])
  exact congrArg TokenDef.kind hsame

/-- The rule of a word. -/
def wordRule (kind : TokenKind) (w : List Char) : Rule :=
  ⟨word kind (String.ofList w), wordPattern w⟩

/-- The rules of definitions are the definitions with their patterns read. -/
theorem mem_readRules {definitions : List TokenDef} {r : Rule} :
    r ∈ Matcher.readRules definitions ↔ r.definition ∈ definitions ∧
      Pattern.read? r.definition.pattern = some r.pattern := by
  rw [Matcher.readRules, List.mem_filterMap]
  constructor
  · rintro ⟨d, hd, hr⟩
    obtain ⟨p, hp, rfl⟩ := Option.map_eq_some_iff.mp hr
    exact ⟨hd, hp⟩
  · rintro ⟨hd, hp⟩
    exact ⟨r.definition, hd, Option.map_eq_some_iff.mpr ⟨r.pattern, hp, rfl⟩⟩

/-- The spelling of a word in the table is reserved for its kind. -/
theorem reserved_of_mem {d : TokenDef} (h : d ∈ wordTable) : Reserved d.kind (spelling d) := by
  rw [Reserved, ← (wordTable_spelled d h).1]
  exact h

/-- The definition of a reserved word is read as the pattern of its spelling. -/
theorem read_word (h : Reserved kind w) :
    Pattern.read? (word kind (String.ofList w)).pattern = some (wordPattern w) := by
  have hread := (wordTable_spelled _ h).2.1
  rw [spelling_word] at hread
  exact hread

/-- The rules of the words. -/
theorem mem_wordRules {r : Rule} :
    r ∈ Matcher.readRules wordTable ↔ ∃ kind w, Reserved kind w ∧ r = wordRule kind w := by
  rw [mem_readRules]
  constructor
  · rintro ⟨hd, hp⟩
    obtain ⟨hword, hread, -⟩ := wordTable_spelled _ hd
    rw [hp] at hread
    refine ⟨r.definition.kind, spelling r.definition, reserved_of_mem hd, ?_⟩
    obtain ⟨d, p⟩ := r
    rw [wordRule, ← hword]
    exact congrArg (Rule.mk d) (Option.some.inj hread)
  · rintro ⟨kind, w, h, rfl⟩
    exact ⟨h, read_word h⟩

/-- **Where a reserved word stands,** its rule makes the hit. -/
theorem hit?_of_reserved {before : Option Char} {x : List Char}
    (h : Reserved kind (x.takeWhile Text.isWord)) :
    Rule.hit? (Matcher.readRules wordTable) before x =
      some (wordRule kind (x.takeWhile Text.isWord), (x.takeWhile Text.isWord).length) := by
  have hmatch := (Pattern.preferred?_wordPattern h.ne_nil h.isWord before).mpr ⟨rfl, rfl⟩
  cases hhit : Rule.hit? (Matcher.readRules wordTable) before x with
  | none =>
    have hnone := Rule.hit?_eq_none_iff.mp hhit _ (mem_wordRules.mpr ⟨kind, _, h, rfl⟩)
    exact absurd ⟨_, hmatch, List.length_pos_iff.mpr h.ne_nil⟩ hnone
  | some hit =>
    obtain ⟨r, n⟩ := hit
    obtain ⟨hr, hn⟩ := Rule.hit?_spec hhit
    obtain ⟨kind', w, h', rfl⟩ := mem_wordRules.mp hr
    obtain ⟨rfl, rfl⟩ := (Pattern.preferred?_wordPattern h'.ne_nil h'.isWord before).mp hn
    rw [h'.unique h]

/-- Where no reserved word stands, no rule of a word matches. -/
theorem hit?_of_not_reserved {before : Option Char} {x : List Char}
    (h : ∀ kind, ¬ Reserved kind (x.takeWhile Text.isWord)) :
    Rule.hit? (Matcher.readRules wordTable) before x = none := by
  refine Rule.hit?_eq_none_iff.mpr fun r hr => ?_
  rintro ⟨n, hn, -⟩
  obtain ⟨kind, w, hw, rfl⟩ := mem_wordRules.mp hr
  obtain ⟨rfl, -⟩ := (Pattern.preferred?_wordPattern hw.ne_nil hw.isWord before).mp hn
  exact h kind hw

end

/-! ## Identifiers -/

/-- The characters with which an identifier can start, as its pattern writes them. -/
def startSet : CharSet :=
  .union (.union (.union (.union .nothing (.range 'A' 'Z')) (.range 'a' 'z')) (.single '_'))
    (.single '$')

/-- The characters of identifiers, as their pattern writes them. -/
def identifierSet : CharSet :=
  .union (.union (.union (.union (.union .nothing (.range 'A' 'Z')) (.range 'a' 'z'))
    (.range '0' '9')) (.single '_')) (.single '$')

theorem has_startSet (c : Char) : startSet.has c = startsIdentifier c := by
  simp only [startSet, CharSet.has, Pattern.has_single, startsIdentifier, Bool.false_or]

/-- The pattern has the digits in front of the underscore. -/
theorem has_identifierSet (c : Char) : identifierSet.has c = inIdentifier c := by
  simp only [identifierSet, CharSet.has, Pattern.has_single, inIdentifier, startsIdentifier,
    Bool.false_or]
  simp only [Bool.or_comm, Bool.or_left_comm]

/-- The rule of identifiers. -/
def identifierRule : Rule :=
  ⟨value .identifier "[A-Za-z_$][A-Za-z0-9_$]*",
    .seq (.one startSet) (.star true (.one identifierSet))⟩

/-- The rule of identifiers takes all characters up to the first that cannot stand in one. -/
theorem hit?_identifier {c : Char} (hc : startsIdentifier c = true) (before : Option Char)
    (rest : List Char) : Rule.hit? [identifierRule] before (c :: rest) =
      some (identifierRule, 1 + (rest.takeWhile inIdentifier).length) := by
  have hset : identifierSet.has = inIdentifier := funext has_identifierSet
  have hmatch : identifierRule.matchAt? before (c :: rest) =
      some (1 + (rest.takeWhile inIdentifier).length) := by
    rw [← hset]
    exact Pattern.preferred?_run ((has_startSet c).trans hc) before rest
  exact Rule.hit?_cons_of_match hmatch (by omega)

/-! ## The block context -/

/-- The definitions of the block context besides those of words and identifiers. -/
def otherTable : TokenTable :=
  layoutTable ++ symbolTable ++ valueTable.dropLast

/-- Apart from words and identifiers, no pattern of the block context begins with a character that
an identifier can start with. -/
theorem otherTable_opens : ∀ d ∈ otherTable, ∀ p ∈ Pattern.read? d.pattern, ∀ n < 128,
    startsIdentifier (Char.ofNat n) = true → p.opens (Char.ofNat n) = false := by
  decide +kernel

/-- No other definition matches where an identifier can start. -/
theorem hit?_other {definitions : List TokenDef} (hsub : ∀ d ∈ definitions, d ∈ otherTable)
    {c : Char} (hc : startsIdentifier c = true) (before : Option Char) (rest : List Char) :
    Rule.hit? (Matcher.readRules definitions) before (c :: rest) = none := by
  refine Rule.hit?_eq_none_iff.mpr fun r hr => Rule.not_matches_of_opens ?_
  obtain ⟨hd, hp⟩ := mem_readRules.mp hr
  have hopens := otherTable_opens _ (hsub _ hd) _ hp c.toNat
    (lt_of_inIdentifier (inIdentifier_of_starts hc))
  rw [Char.ofNat_toNat] at hopens
  exact hopens hc

/-- The definitions of the block context. -/
theorem filter_block : table.filter (·.context == .block) =
    layoutTable ++ wordTable ++ symbolTable ++ valueTable.dropLast ++ [identifierRule.definition] :=
  rfl

theorem read_identifier : Pattern.read? identifierRule.definition.pattern =
    some identifierRule.pattern := by
  decide +kernel

theorem readRules_append (xs ys : List TokenDef) :
    Matcher.readRules (xs ++ ys) = Matcher.readRules xs ++ Matcher.readRules ys :=
  List.filterMap_append

theorem readRules_identifier : Matcher.readRules [identifierRule.definition] = [identifierRule] :=
  List.filterMap_cons_some (congrArg (Option.map (Rule.mk _)) read_identifier)

/-- **Where an identifier can start,** the rules of the words are tried first, and then that of
identifiers. -/
theorem hit?_block {l : Lexicon} (hl : lexicon = .ok l) {m : Matcher}
    (hm : l.matcher? .block = some m) {c : Char} (hc : startsIdentifier c = true)
    (before : Option Char) (rest : List Char) :
    Rule.hit? m.rules before (c :: rest) =
      (Rule.hit? (Matcher.readRules wordTable) before (c :: rest)).or
        (some (identifierRule, 1 + (rest.takeWhile inIdentifier).length)) := by
  have hlayout : ∀ d ∈ layoutTable, d ∈ otherTable :=
    fun d hd => List.mem_append_left _ (List.mem_append_left _ hd)
  have hsymbol : ∀ d ∈ symbolTable, d ∈ otherTable :=
    fun d hd => List.mem_append_left _ (List.mem_append_right _ hd)
  have hvalue : ∀ d ∈ valueTable.dropLast, d ∈ otherTable :=
    fun d hd => List.mem_append_right _ hd
  rw [rules_eq hl hm, filter_block]
  simp only [readRules_append, Rule.hit?_append, readRules_identifier, hit?_other hlayout hc,
    hit?_other hsymbol hc, hit?_other hvalue hc, hit?_identifier hc, Option.none_or, Option.or_none]

/-! ## Scanning words -/

variable {l : Lexicon} {p : Place} {w s : List Char} {kind : TokenKind}

/-- A hit right here gives a token, unless its definition drops it, and is followed by the place
behind its transition. -/
theorem scan_hit (hl : lexicon = .ok l) {m : Matcher} (hm : l.matcher? p.mode.context = some m)
    {r : Rule} {n : Nat} (hhit : Rule.hit? m.rules p.before p.rest = some (r, n)) :
    l.scan p = (if r.definition.cls = .ignore then [] else [p.token r.definition.kind n]) ++
      l.scan ((p.advance n).enter r.definition.transition) := by
  have hfind : l.find? p = some ⟨0, n, r⟩ := by
    rw [find?_eq hl hm]
    exact Found.search?_of_hits (Nat.zero_le _) hhit fun j hj => absurd hj (Nat.not_lt_zero j)
  have hpos : 0 < p.rest.length := by
    have hle := Lexicon.find?_le hfind
    have hlength := Lexicon.find?_length_pos hfind
    dsimp only at hle hlength
    omega
  rw [Lexicon.scan_of_some hpos hfind]
  rfl

/-- A hit right here gives a token, if its definition neither drops it nor leaves the context. -/
theorem scan_of_hit (hl : lexicon = .ok l) {m : Matcher} (hm : l.matcher? p.mode.context = some m)
    {r : Rule} {n : Nat} (hhit : Rule.hit? m.rules p.before p.rest = some (r, n))
    (hcls : r.definition.cls ≠ .ignore)
    (hstay : r.definition.transition = .stay) :
    l.scan p = p.token r.definition.kind n :: l.scan (p.advance n) := by
  rw [scan_hit hl hm hhit, if_neg hcls, hstay]
  rfl

/-- The token of a prefix of the text. -/
theorem token_word (hrest : p.rest = w ++ s) :
    p.token kind w.length = ⟨kind, some (p.offset + 1), String.ofList w⟩ := by
  rw [Place.token, Place.text, hrest, List.take_left]

section

variable (hl : lexicon = .ok l) (hblock : p.mode.context = .block)

include hl hblock

/-- **A reserved word** is a token where it makes up all word characters that follow. -/
theorem scan_of_reserved (hw : Reserved kind w) (hs : Text.Leaves Text.isWord s)
    (hrest : p.rest = w ++ s) :
    l.scan p = ⟨kind, some (p.offset + 1), String.ofList w⟩ :: l.scan (p.advance w.length) := by
  obtain ⟨c, rest, hcons, hc⟩ := hw.isIdentifier.exists_cons
  have hword := Text.takeWhile_append hw.isWord hs
  obtain ⟨m, hm⟩ := exists_matcher hl .block
  have hhit : Rule.hit? m.rules p.before p.rest = some (wordRule kind w, w.length) := by
    rw [hrest, hcons, List.cons_append, hit?_block hl hm hc, ← List.cons_append, ← hcons,
      hit?_of_reserved (hword.symm ▸ hw), hword, Option.some_or]
  rw [← hblock] at hm
  rw [← token_word hrest]
  exact scan_of_hit hl hm hhit (fun h => by cases h) rfl

/-- **An identifier** is a token where the word characters that follow are no reserved word. -/
theorem scan_of_not_reserved (hw : IsIdentifier w) (hs : Text.Leaves inIdentifier s)
    (hrest : p.rest = w ++ s) (hnot : ∀ kind, ¬ Reserved kind ((w ++ s).takeWhile Text.isWord)) :
    l.scan p = ⟨.identifier, some (p.offset + 1), String.ofList w⟩ ::
      l.scan (p.advance w.length) := by
  obtain ⟨c, rest, rfl, hc⟩ := hw.exists_cons
  have hrun : ((rest ++ s).takeWhile inIdentifier).length = rest.length :=
    congrArg List.length (Text.takeWhile_append (List.forall_mem_cons.mp hw.inIdentifier).2 hs)
  obtain ⟨m, hm⟩ := exists_matcher hl .block
  have hhit : Rule.hit? m.rules p.before p.rest = some (identifierRule, (c :: rest).length) := by
    rw [hrest, List.cons_append, hit?_block hl hm hc, ← List.cons_append, hit?_of_not_reserved hnot,
      Option.none_or, hrun, Nat.add_comm]
    rfl
  rw [← hblock] at hm
  rw [← token_word hrest]
  exact scan_of_hit hl hm hhit (by decide) rfl

end

/-- Both ideas of a word let it end at the same place: no reserved word stands in front of a dollar
sign in the identifier, and an identifier that is a reserved word stands in front of no further word
character. -/
def EndsAlike (w s : List Char) : Prop :=
  (∀ kind r, Reserved kind r → ¬ r ++ ['$'] <+: w) ∧
    ∀ kind, Reserved kind w → Text.Leaves Text.isWord s

/-- Where the two ideas agree, a reserved word at the start of an identifier is all of it. -/
theorem EndsAlike.eq_of_reserved (h : EndsAlike w s) (hw : IsIdentifier w)
    (hs : Text.Leaves inIdentifier s) {r t : List Char} (hr : Reserved kind r)
    (ht : Text.Leaves Text.isWord t) (hsplit : r ++ t = w ++ s) : r = w := by
  rcases List.append_eq_append_iff.mp hsplit with ⟨u, rfl, rfl⟩ | ⟨u, rfl, rfl⟩
  · cases u with
    | nil => rw [List.append_nil]
    | cons d u =>
      have hd : d = '$' := eq_dollar (hw.inIdentifier d (by simp)) ht
      exact absurd ⟨u, by simp [hd]⟩ (h.1 kind r hr)
  · cases u with
    | nil => rw [List.append_nil]
    | cons d u =>
      have hin := hr.isIdentifier.inIdentifier d (by simp)
      have hout : inIdentifier d = false := hs
      rw [hout] at hin
      cases hin

/-- **Reserved words and identifiers.** Where an identifier stands, the first token is a reserved
word if one makes up all word characters that follow, and the identifier otherwise. So the token is
the identifier as a whole, and of the kind that its spelling says, unless the two ideas of a word
differ there. -/
theorem scan_word (hl : lexicon = .ok l) (hblock : p.mode.context = .block) (hw : IsIdentifier w)
    (hs : Text.Leaves inIdentifier s) (hrest : p.rest = w ++ s) :
    (∀ kind r t, Reserved kind r → Text.Leaves Text.isWord t → r ++ t = w ++ s →
      l.scan p = ⟨kind, some (p.offset + 1), String.ofList r⟩ :: l.scan (p.advance r.length)) ∧
    ((∀ kind r t, Reserved kind r → Text.Leaves Text.isWord t → r ++ t ≠ w ++ s) →
      l.scan p = ⟨.identifier, some (p.offset + 1), String.ofList w⟩ ::
        l.scan (p.advance w.length)) ∧
    (EndsAlike w s → ∃ kind,
      l.scan p = ⟨kind, some (p.offset + 1), String.ofList w⟩ :: l.scan (p.advance w.length) ∧
        (Reserved kind w ∨ kind = .identifier ∧ ∀ k, ¬ Reserved k w)) := by
  have hreserved : ∀ kind r t, Reserved kind r → Text.Leaves Text.isWord t → r ++ t = w ++ s →
      l.scan p = ⟨kind, some (p.offset + 1), String.ofList r⟩ :: l.scan (p.advance r.length) :=
    fun kind r t hr ht hsplit => scan_of_reserved hl hblock hr ht (hrest.trans hsplit.symm)
  have hidentifier : (∀ kind r t, Reserved kind r → Text.Leaves Text.isWord t → r ++ t ≠ w ++ s) →
      l.scan p = ⟨.identifier, some (p.offset + 1), String.ofList w⟩ ::
        l.scan (p.advance w.length) :=
    fun hnot => scan_of_not_reserved hl hblock hw hs hrest fun kind hr =>
      hnot kind _ _ hr (Text.leaves_dropWhile _ _) List.takeWhile_append_dropWhile
  refine ⟨hreserved, hidentifier, fun halike => ?_⟩
  by_cases hword : ∃ kind, Reserved kind w
  · obtain ⟨kind, hkind⟩ := hword
    exact ⟨kind, hreserved kind w s hkind (halike.2 kind hkind) rfl, .inl hkind⟩
  · refine ⟨.identifier, hidentifier fun kind r t hr ht hsplit => ?_, .inr ⟨rfl, ?_⟩⟩
    · obtain rfl := halike.eq_of_reserved hw hs hr ht hsplit
      exact hword ⟨kind, hr⟩
    · exact fun k hk => hword ⟨k, hk⟩

/-- A word that begins like a reserved word, in front of a blank. -/
theorem scan_word_island :
    IsIdentifier "island".toList ∧ Text.Leaves inIdentifier " is".toList ∧
      EndsAlike "island".toList " is".toList ∧ ∃ l, lexicon = .ok l ∧
      l.scan (Place.start "island is" .block) = ⟨.identifier, some 1, "island"⟩ ::
        l.scan ((Place.start "island is" .block).advance 6) := by
  have hw : IsIdentifier "island".toList := by decide
  have hs : Text.Leaves inIdentifier " is".toList := by decide
  have hnot : ∀ kind, ¬ Reserved kind "island".toList := by
    intro kind
    cases kind <;> decide
  have halike : EndsAlike "island".toList " is".toList := by
    refine ⟨fun kind r _ hprefix => ?_, fun kind hkind => absurd hkind (hnot kind)⟩
    have hdollar : '$' ∈ "island".toList := hprefix.subset (by simp)
    exact absurd hdollar (by decide)
  obtain ⟨kind, hscan, hkind⟩ := (scan_word lexicon_eq rfl hw hs
    (show (Place.start "island is" .block).rest = _ from by decide)).2.2 halike
  obtain ⟨rfl, -⟩ := hkind.resolve_left (hnot kind)
  exact ⟨hw, hs, halike, readLexicon, lexicon_eq, hscan⟩

/-- A dollar sign cuts a reserved word off an identifier. A letter beyond ASCII makes an identifier
of one. -/
theorem scan_divided_words :
    IsIdentifier "var$x".toList ∧ Reserved .varWord "var".toList ∧
      Text.Leaves inIdentifier "é".toList ∧ ∃ l, lexicon = .ok l ∧
      l.scan (Place.start "var$x" .block) =
        [⟨.varWord, some 1, "var"⟩, ⟨.identifier, some 4, "$x"⟩] ∧
      ∃ later, l.scan (Place.start "varé" .block) = ⟨.identifier, some 1, "var"⟩ :: later := by
  have hvar : Reserved .varWord "var".toList := by decide
  refine ⟨by decide, hvar, by decide, readLexicon, lexicon_eq, ?_, ?_⟩
  · have hnot : ∀ kind, ¬ Reserved kind (("$x".toList ++ []).takeWhile Text.isWord) := by
      intro kind
      cases kind <;> decide
    rw [scan_of_reserved (s := "$x".toList) lexicon_eq rfl hvar (by decide) (by decide),
      scan_of_not_reserved (w := "$x".toList) (s := []) lexicon_eq rfl (by decide) (by decide)
        (by decide) hnot, Lexicon.scan_of_end (by decide)]
    decide
  · have hnot : ∀ kind, ¬ Reserved kind (("var".toList ++ "é".toList).takeWhile Text.isWord) := by
      intro kind
      cases kind <;> decide
    exact ⟨_, scan_of_not_reserved lexicon_eq rfl (by decide) (by decide) (by decide) hnot⟩

end Standard

end Stencil
