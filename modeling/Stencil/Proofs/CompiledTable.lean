import Stencil.Proofs.JoinedPattern

/-!
# The definitions of a compiled table

A compiled context has its definitions as rules, in order, and the alternation of their patterns as
read. Two things follow for every lexicon that has the definitions of a table, however their
patterns are read: a scan can start wherever there is a definition, and a match goes to a definition
of the context that the scanner is in.

> `Matcher.getElem?_rules`: the rules of a compiled context.
> `Lexicon.serves_of_compile`: a compiled lexicon serves its table.
> `Lexicon.Serves.mem_table`: a match goes to a definition of the current context.
-/

namespace Stencil

/-! ## Reading a list -/

section

variable {ε α β : Type} {f : α → Except ε β} {xs : List α} {ys : List β}

/-- A reader over a list succeeds if it reads every element. -/
theorem mapM_eq_ok_iff : xs.mapM f = .ok ys ↔ xs.map f = ys.map .ok := by
  induction xs generalizing ys with
  | nil =>
    cases ys with
    | nil => exact iff_of_true rfl rfl
    | cons y ys => exact iff_of_false nofun nofun
  | cons x xs ih =>
    rw [List.mapM_cons, List.map_cons]
    cases hx : f x with
    | error e =>
      refine iff_of_false nofun ?_
      cases ys <;> nofun
    | ok z =>
      cases hxs : xs.mapM f with
      | error e =>
        refine iff_of_false nofun fun h => ?_
        cases ys with
        | nil => cases h
        | cons y ys =>
          have hread := ih.mpr (List.cons.inj h).2
          rw [hxs] at hread
          cases hread
      | ok zs =>
        have hzs := ih.mp hxs
        rw [hzs]
        show Except.ok (z :: zs) = Except.ok ys ↔ (z :: zs).map Except.ok = ys.map Except.ok
        constructor
        · intro h
          rw [Except.ok.inj h]
        · intro h
          rw [(List.map_inj_right fun _ _ => Except.ok.inj).mp h]

/-- Every result of a reader over a list comes from an element. -/
theorem exists_of_mem_mapM (h : xs.mapM f = .ok ys) : ∀ y ∈ ys, ∃ x ∈ xs, f x = .ok y := by
  intro y hy
  have hmem : Except.ok y ∈ xs.map f := by
    rw [mapM_eq_ok_iff.mp h]
    exact List.mem_map_of_mem hy
  exact List.mem_map.mp hmem

/-- Every element has a result. -/
theorem exists_mem_of_mapM (h : xs.mapM f = .ok ys) : ∀ x ∈ xs, ∃ y ∈ ys, f x = .ok y := by
  intro x hx
  have hmem : f x ∈ ys.map Except.ok := by
    rw [← mapM_eq_ok_iff.mp h]
    exact List.mem_map_of_mem hx
  obtain ⟨y, hy, hread⟩ := List.mem_map.mp hmem
  exact ⟨y, hy, hread.symm⟩

/-- A reader over a list reads every element in its place. -/
theorem getElem?_mapM (h : xs.mapM f = .ok ys) {i : Nat} {y : β} :
    ys[i]? = some y ↔ ∃ x, xs[i]? = some x ∧ f x = .ok y := by
  have hplace := congrArg (fun zs => zs[i]?) (mapM_eq_ok_iff.mp h)
  simp only [List.getElem?_map] at hplace
  constructor
  · intro hy
    rw [hy] at hplace
    exact Option.map_eq_some_iff.mp hplace
  · rintro ⟨x, hx, hread⟩
    rw [hx, Option.map_some, hread] at hplace
    obtain ⟨z, hz, heq⟩ := Option.map_eq_some_iff.mp hplace.symm
    rw [hz, Except.ok.inj heq]

end

namespace Matcher

/-- A rule is its definition with the pattern read. -/
theorem readRule_eq_ok_iff {d : TokenDef} {r : Rule} :
    readRule d = .ok r ↔ d = r.definition ∧ Pattern.read? d.pattern = some r.pattern := by
  unfold readRule
  split
  · next p hp =>
    rw [hp]
    constructor
    · intro hr
      cases hr
      exact ⟨rfl, rfl⟩
    · rintro ⟨rfl, hpattern⟩
      cases hpattern
      rfl
  · next hp => simp [hp]

/-- The rules of a compiled context are read from its definitions, and the whole from their
alternation. -/
theorem compile_eq_ok {c : Context} {definitions : List TokenDef} {m : Matcher}
    (h : compile c definitions = .ok m) :
    m.context = c ∧ definitions.mapM readRule = .ok m.rules ∧
      ∀ whole, Pattern.read? (joined (definitions.map (·.pattern))) = some whole →
        m.whole = whole := by
  unfold compile at h
  cases hr : definitions.mapM readRule with
  | error e => rw [hr] at h; cases h
  | ok rules =>
    simp only [hr, bind, Except.bind] at h
    split at h
    next whole hwhole =>
      cases h
      exact ⟨rfl, rfl, fun whole' h' => Option.some.inj (hwhole.symm.trans h')⟩
    next => cases h
    next hwhole =>
      cases h
      refine ⟨rfl, rfl, fun whole' h' => ?_⟩
      rw [hwhole] at h'
      cases h'

/-- The rules of a compiled context are its definitions, in order, with their patterns read. -/
theorem getElem?_rules {c : Context} {definitions : List TokenDef} {m : Matcher}
    (h : compile c definitions = .ok m) {i : Nat} {r : Rule} :
    m.rules[i]? = some r ↔ definitions[i]? = some r.definition ∧
      Pattern.read? r.definition.pattern = some r.pattern := by
  rw [getElem?_mapM (compile_eq_ok h).2.1]
  constructor
  · rintro ⟨d, hd, hr⟩
    obtain ⟨rfl, hp⟩ := readRule_eq_ok_iff.mp hr
    exact ⟨hd, hp⟩
  · rintro ⟨hd, hp⟩
    exact ⟨r.definition, hd, readRule_eq_ok_iff.mpr ⟨rfl, hp⟩⟩

/-- Compiling keeps all definitions, in their order. -/
theorem definitions_of_compile {c : Context} {definitions : List TokenDef} {m : Matcher}
    (h : compile c definitions = .ok m) : m.definitions = definitions := by
  refine List.ext_getElem? fun i => ?_
  have hrules := mapM_eq_ok_iff.mp (compile_eq_ok h).2.1
  have hat := congrArg (fun xs => xs[i]?) hrules
  simp only [List.getElem?_map] at hat
  unfold Matcher.definitions
  rw [List.getElem?_map]
  cases hd : definitions[i]? with
  | none =>
    rw [hd] at hat
    rw [Option.map_eq_none_iff.mp hat.symm]
    rfl
  | some d =>
    rw [hd, Option.map_some] at hat
    obtain ⟨r, hr, hread⟩ := Option.map_eq_some_iff.mp hat.symm
    rw [hr, Option.map_some, (readRule_eq_ok_iff.mp hread.symm).1]

/-- Each rule of a compiled context reads the pattern of one of its definitions. -/
theorem compile_spec {c : Context} {definitions : List TokenDef} {m : Matcher}
    (h : compile c definitions = .ok m) :
    m.context = c ∧ ∀ r ∈ m.rules, r.definition ∈ definitions ∧
      Pattern.read? r.definition.pattern = some r.pattern := by
  refine ⟨(compile_eq_ok h).1, fun r hmem => ?_⟩
  obtain ⟨i, hi⟩ := List.getElem?_of_mem hmem
  obtain ⟨hd, hread⟩ := (getElem?_rules h).mp hi
  exact ⟨List.mem_of_getElem? hd, hread⟩

end Matcher

namespace Lexicon

/-- The matcher of a context compiles the definitions of the context. -/
theorem compile_of_matcher? {table : TokenTable} {l : Lexicon} (h : compile table = .ok l)
    {c : Context} {m : Matcher} (hm : l.matcher? c = some m) :
    Matcher.compile c (table.filter (·.context == c)) = .ok m := by
  unfold compile at h
  dsimp only at h
  cases hs : List.mapM (fun (x : Context × List TokenDef) => Matcher.compile x.1 x.2) _ with
  | error e => rw [hs] at h; cases h
  | ok matchers =>
    rw [hs] at h
    cases h
    have hctx : m.context = c := by simpa using List.find?_some hm
    obtain ⟨⟨c', definitions⟩, hused, hcompile⟩ :=
      exists_of_mem_mapM hs m (List.mem_of_find?_eq_some hm)
    simp only [List.mem_filter, List.mem_map] at hused
    obtain ⟨⟨c'', -, heq⟩, -⟩ := hused
    cases heq
    obtain rfl : c' = c := (Matcher.compile_spec hcompile).1.symm.trans hctx
    exact hcompile

/-- Each rule of a context comes from a definition of the table that belongs to the context. -/
theorem compile_spec {table : TokenTable} {l : Lexicon} (h : compile table = .ok l) {c : Context}
    {m : Matcher} (hm : l.matcher? c = some m) :
    ∀ r ∈ m.rules, r.definition ∈ table ∧ r.definition.context = c ∧
      Pattern.read? r.definition.pattern = some r.pattern := by
  intro r hr
  obtain ⟨-, hrules⟩ := Matcher.compile_spec (compile_of_matcher? h hm)
  obtain ⟨hdef, hread⟩ := hrules r hr
  rw [List.mem_filter] at hdef
  exact ⟨hdef.1, beq_iff_eq.mp hdef.2, hread⟩

/-- Every context that has a definition has a matcher. -/
theorem isSome_matcher? {table : TokenTable} {l : Lexicon} (hl : compile table = .ok l)
    {d : TokenDef} (hd : d ∈ table) : (l.matcher? d.context).isSome = true := by
  unfold compile at hl
  dsimp only at hl
  cases hs : List.mapM (fun (x : Context × List TokenDef) => Matcher.compile x.1 x.2) _ with
  | error e => rw [hs] at hl; cases hl
  | ok matchers =>
    rw [hs] at hl
    cases hl
    have hused : (d.context, table.filter (·.context == d.context)) ∈
        (Context.all.map fun c => (c, table.filter (·.context == c))).filter
          fun used => !used.2.isEmpty := by
      refine List.mem_filter.mpr ⟨List.mem_map.mpr ⟨d.context, ?_, rfl⟩, ?_⟩
      · -- every context is in the list of all contexts
        cases d.context <;> decide
      · have hmem : d ∈ table.filter (·.context == d.context) :=
          List.mem_filter.mpr ⟨hd, beq_self_eq_true _⟩
        simpa using ⟨d, hd, rfl⟩
    obtain ⟨m, hm, hcompile⟩ := exists_mem_of_mapM hs _ hused
    have hctx : m.context = d.context := (Matcher.compile_spec hcompile).1
    exact List.find?_isSome.mpr ⟨m, hm, beq_iff_eq.mpr hctx⟩

/-! ## Lexicons of a table -/

/-- The lexicon serves a table: every context that has definitions has a matcher, and a matcher has
the definitions of its context. It does not matter how their patterns are read. -/
structure Serves (l : Lexicon) (table : TokenTable) : Prop where
  isSome_matcher? : ∀ d ∈ table, (l.matcher? d.context).isSome = true
  definitions_eq : ∀ {c m}, l.matcher? c = some m →
    m.definitions = table.filter (·.context == c)

/-- **A compiled lexicon serves its table.** -/
theorem serves_of_compile {table : TokenTable} {l : Lexicon} (hl : compile table = .ok l) :
    l.Serves table :=
  ⟨fun _ hd => isSome_matcher? hl hd,
    fun hm => Matcher.definitions_of_compile (compile_of_matcher? hl hm)⟩

/-- A scan can start in every context that has a definition. -/
theorem Serves.checkStart {table : TokenTable} {l : Lexicon} (hl : l.Serves table) {d : TokenDef}
    (hd : d ∈ table) : l.checkStart d.context = .ok () := by
  rw [Lexicon.checkStart, if_pos (hl.isSome_matcher? d hd)]

theorem checkStart_of_mem {table : TokenTable} {l : Lexicon} (hl : compile table = .ok l)
    {d : TokenDef} (hd : d ∈ table) : l.checkStart d.context = .ok () :=
  (serves_of_compile hl).checkStart hd

/-- A match goes to a rule of the current context, within the text that is left. -/
theorem find?_eq_some {l : Lexicon} {p : Place} {f : Found} (h : l.find? p = some f) :
    ∃ m, l.matcher? p.mode.context = some m ∧ m.find? p.before p.rest = some f ∧
      f.rule ∈ m.rules ∧ f.skipped + f.length ≤ p.rest.length := by
  obtain ⟨m, hm, hf⟩ := Option.bind_eq_some_iff.mp h
  exact ⟨m, hm, hf, Matcher.find?_spec hf⟩

/-- A match lies within the text that is left. -/
theorem find?_le {l : Lexicon} {p : Place} {f : Found} (h : l.find? p = some f) :
    f.skipped + f.length ≤ p.rest.length := by
  obtain ⟨_, -, -, -, hle⟩ := find?_eq_some h
  exact hle

/-- A match goes to a definition of the table that belongs to the current context. -/
theorem Serves.mem_table {table : TokenTable} {l : Lexicon} (hl : l.Serves table) {p : Place}
    {f : Found} (h : l.find? p = some f) :
    f.rule.definition ∈ table ∧ f.rule.definition.context = p.mode.context := by
  obtain ⟨m, hm, -, hr, -⟩ := find?_eq_some h
  have hmem : f.rule.definition ∈ m.definitions := List.mem_map_of_mem hr
  rw [hl.definitions_eq hm, List.mem_filter] at hmem
  exact ⟨hmem.1, beq_iff_eq.mp hmem.2⟩

end Lexicon

end Stencil
