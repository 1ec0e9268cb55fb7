import Stencil.Lexer.Standard
import Stencil.Proofs.CompiledTable

/-!
# The standard table compiles

Whether a table compiles is a matter of its patterns: each must be sound, and so must the
alternation of those of one context. For a given table this can be computed. It is computed on lists
of characters here, since joining strings takes much longer.

The alternations of the standard table are read as what they are meant to be: the patterns of the
definitions in groups, under the numbers that are looked up. So the scanner finds what it would find
with one definition after the other, and the properties of the standard scanner are proved of that
search.

> `Lexicon.compile_eq`: what a table compiles to, with each pattern read by itself, if the
> alternations are read right.
> `Standard.lexicon_eq`: this is so for the standard table.
> `Standard.find?_eq_search?`: the standard scanner tries its definitions one by one.
-/

namespace Stencil

/-- The pattern that a list of characters writes, if it writes one. -/
def Pattern.readChars? (chars : List Char) : Option Pattern :=
  match (Reader.alternation (chars.length + 1)).run { rest := chars } with
  | some (p, { rest := [], .. }) => some p
  | _ => none

theorem Pattern.read?_eq_readChars? (text : String) : read? text = readChars? text.toList :=
  rfl

namespace Matcher

/-- The characters of the alternation of several patterns. -/
def joinedChars (patterns : List String) : List Char :=
  List.intercalate ['|'] (patterns.map fun p => '(' :: (p.toList ++ [')']))

theorem toList_joined (patterns : List String) :
    (joined patterns).toList = joinedChars patterns := by
  unfold joined joinedChars
  rw [String.toList_intercalate, List.map_map]
  congr 1
  apply List.map_congr_left
  intro p _
  simp

/-- The rules that definitions give, if their patterns are sound. -/
def readRules (definitions : List TokenDef) : List Rule :=
  definitions.filterMap fun d => (Pattern.read? d.pattern).map (Rule.mk d)

/-- If each pattern is sound, so are all together. -/
theorem mapM_readRule {definitions : List TokenDef}
    (h : ∀ d ∈ definitions, (Pattern.read? d.pattern).isSome = true) :
    definitions.mapM readRule = .ok (readRules definitions) := by
  rw [mapM_eq_ok_iff]
  induction definitions with
  | nil => rfl
  | cons d definitions ih =>
    obtain ⟨hd, hrest⟩ := List.forall_mem_cons.mp h
    obtain ⟨p, hp⟩ := Option.isSome_iff_exists.mp hd
    have hread : readRules (d :: definitions) = ⟨d, p⟩ :: readRules definitions :=
      List.filterMap_cons_some (congrArg (Option.map (Rule.mk d)) hp)
    rw [hread, List.map_cons, List.map_cons, ih hrest]
    congr 1
    exact readRule_eq_ok_iff.mpr ⟨rfl, hp⟩

/-- The matcher of rules whose patterns are joined in the groups that are looked up. -/
def ofRules (c : Context) (rules : List Rule) : Matcher :=
  ⟨c, rules, Rule.alternation (Rule.groupsFrom 1 rules) rules⟩

theorem ofRules_joins (c : Context) (rules : List Rule) :
    (ofRules c rules).Joins (ofRules c rules).groups :=
  joins_of_eq (Rule.length_groupsFrom 1 rules) rfl

/-- The alternation of the patterns of the definitions is read as the patterns, in the groups that
are looked up. -/
def ReadsJoined (definitions : List TokenDef) : Prop :=
  Pattern.readChars? (joinedChars (definitions.map (·.pattern))) =
    some (Rule.alternation (Rule.groupsFrom 1 (readRules definitions)) (readRules definitions))

instance (definitions : List TokenDef) : Decidable (ReadsJoined definitions) :=
  inferInstanceAs (Decidable (_ = _))

/-- The definitions of a context compile if their patterns are sound one by one and together. -/
theorem compile_eq_ofRules (c : Context) {definitions : List TokenDef}
    (hone : ∀ d ∈ definitions, (Pattern.read? d.pattern).isSome = true)
    (hall : ReadsJoined definitions) :
    compile c definitions = .ok (ofRules c (readRules definitions)) := by
  have hwhole : Pattern.read? (joined (definitions.map (·.pattern))) =
      some (ofRules c (readRules definitions)).whole := by
    rw [Pattern.read?_eq_readChars?, toList_joined]
    exact hall
  simp only [compile, mapM_readRule hone, hwhole, bind, Except.bind]
  rfl

end Matcher

/-- The contexts that have definitions in a table, with these. -/
def TokenTable.used (table : TokenTable) : List (Context × List TokenDef) :=
  (Context.all.map fun c => (c, table.filter (·.context == c))).filter fun x => !x.2.isEmpty

/-- A table compiles if its patterns are sound one by one and context by context. -/
theorem Lexicon.compile_eq {table : TokenTable}
    (hone : ∀ d ∈ table, (Pattern.read? d.pattern).isSome = true)
    (hall : ∀ c ∈ Context.all, Matcher.ReadsJoined (table.filter (·.context == c))) :
    compile table =
      .ok ⟨table.used.map fun x => Matcher.ofRules x.1 (Matcher.readRules x.2)⟩ := by
  have hmatchers : List.mapM (fun (x : Context × List TokenDef) => Matcher.compile x.1 x.2)
      table.used = .ok (table.used.map fun x => Matcher.ofRules x.1 (Matcher.readRules x.2)) := by
    rw [mapM_eq_ok_iff, List.map_map]
    refine List.map_congr_left fun x hx => ?_
    obtain ⟨c, hc, rfl⟩ := List.mem_map.mp (List.mem_filter.mp hx).1
    exact Matcher.compile_eq_ofRules c (fun d hd => hone d (List.mem_filter.mp hd).1) (hall c hc)
  unfold compile
  dsimp only
  rw [show List.filter _ _ = table.used from rfl, hmatchers]
  rfl

namespace Standard

theorem patterns_sound : ∀ d ∈ table, (Pattern.read? d.pattern).isSome = true := by
  decide +kernel

/-- In every context the joined pattern is read as the alternation of the patterns, in groups with
the numbers that are looked up. -/
theorem contexts_sound : ∀ c ∈ Context.all,
    Matcher.ReadsJoined (table.filter (·.context == c)) := by
  decide +kernel

/-- The standard table, context by context. Patterns are read one by one here, and not together, so
that runs on fixed sources can be computed. -/
def readLexicon : Lexicon :=
  ⟨Context.all.map fun c =>
    Matcher.ofRules c (Matcher.readRules (table.filter (·.context == c)))⟩

/-- **What the standard table compiles to.** -/
theorem lexicon_eq : lexicon = .ok readLexicon := by
  have hused : TokenTable.used table =
      Context.all.map fun c => (c, table.filter (·.context == c)) :=
    rfl
  have hcompile := Lexicon.compile_eq patterns_sound contexts_sound
  rw [hused, List.map_map] at hcompile
  exact hcompile

/-- **The standard table compiles.** -/
theorem exists_lexicon : ∃ l, lexicon = .ok l :=
  ⟨readLexicon, lexicon_eq⟩

variable {l : Lexicon}

/-- Every context has a matcher, for the rules of its definitions. -/
theorem matcher?_eq (hl : lexicon = .ok l) (c : Context) :
    l.matcher? c =
      some (Matcher.ofRules c (Matcher.readRules (table.filter (·.context == c)))) := by
  obtain rfl : readLexicon = l := Except.ok.inj (lexicon_eq.symm.trans hl)
  cases c <;> rfl

theorem exists_matcher (hl : lexicon = .ok l) (c : Context) : ∃ m, l.matcher? c = some m :=
  ⟨_, matcher?_eq hl c⟩

/-- A scan can start in every context. -/
theorem checkStart_eq (hl : lexicon = .ok l) (c : Context) : l.checkStart c = .ok () := by
  rw [Lexicon.checkStart, matcher?_eq hl c]
  rfl

section

variable {c : Context} {m : Matcher}

theorem rules_eq (hl : lexicon = .ok l) (hm : l.matcher? c = some m) :
    m.rules = Matcher.readRules (table.filter (·.context == c)) := by
  obtain rfl := Option.some.inj ((matcher?_eq hl c).symm.trans hm)
  rfl

/-- **The standard scanner tries its definitions one by one.** -/
theorem find?_eq_search? (hl : lexicon = .ok l) (hm : l.matcher? c = some m) :
    m.find? = Found.search? m.rules := by
  obtain rfl := Option.some.inj ((matcher?_eq hl c).symm.trans hm)
  exact Matcher.find?_eq_search? (Matcher.ofRules_joins c _)

end

/-- So the standard table finds what the plain search over its rules finds. -/
theorem find?_eq (hl : lexicon = .ok l) {p : Place} {m : Matcher}
    (hm : l.matcher? p.mode.context = some m) :
    l.find? p = Found.search? m.rules p.before p.rest := by
  rw [Lexicon.find?, hm, Option.bind_some, find?_eq_search? hl hm]

/-- What is found from a place is found by the rules of its context, one by one. -/
theorem search?_of_find? (hl : lexicon = .ok l) {p : Place} {f : Found} (hf : l.find? p = some f) :
    ∃ m, l.matcher? p.mode.context = some m ∧
      Found.search? m.rules p.before p.rest = some f := by
  obtain ⟨m, hm, hfind, -⟩ := Lexicon.find?_eq_some hf
  rw [find?_eq_search? hl hm] at hfind
  exact ⟨m, hm, hfind⟩

/-- A match is that of a definition of the current context, tried on its own at its place. -/
theorem find?_spec (hl : lexicon = .ok l) {p : Place} {f : Found} (hf : l.find? p = some f) :
    f.rule.definition ∈ table ∧ f.rule.definition.context = p.mode.context ∧
      Pattern.read? f.rule.definition.pattern = some f.rule.pattern ∧
      f.rule.matchAt? (p.atMatch f).before (p.atMatch f).rest = some f.length := by
  obtain ⟨m, hm, hfind⟩ := search?_of_find? hl hf
  obtain ⟨-, hr, hmatch⟩ := Found.search?_spec hfind
  obtain ⟨hd, hc, hread⟩ := Lexicon.compile_spec hl hm f.rule hr
  exact ⟨hd, hc, hread, hmatch⟩

end Standard

end Stencil
