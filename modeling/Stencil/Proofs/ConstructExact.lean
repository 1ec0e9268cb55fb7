import Stencil.Proofs.ClauseExact

/-!
# The parsers of constructs are exact

The parsers of the constructs are functions of the parser of bodies, and the lemmas about them take
what that parser does on short lists as their hypothesis (`Derives.BodyReader`). A body ends where
the source ends, or behind the opening of a block that starts with one of the words that end it; the
construct around it can only go on in the second case.

> `Derives.BodyReader.exact_varBlock`, `Derives.BodyReader.exact_macroBlock`,
> `Derives.BodyReader.exact_callBlock`: the constructs with one body.
> `Derives.BodyReader.exact_forBlock`, `Derives.BodyReader.exact_ifBlock`: those with `else`.
-/

namespace Stencil.Derives

open Grammar Parse

/-! ## Constructs -/

/-- The parser of bodies reads the bodies of a relation, on short lists. It ends in front of the end
of the source, or behind the opening of a block that ends the body. -/
structure BodyReader (limit size : Nat) (B : List Token → List Item → List TokenKind → Prop)
    (body : Grammar.Body) : Prop where
  exact : ∀ {stops : List TokenKind}, .blockClose ∉ stops →
    Exact limit size (body stops) fun us items k =>
      B us items stops ∧ k = .eof ∨ Inner B us items stops ∧ k ∈ stops
  size_lt : size < limit

section

variable {limit size : Nat} {B : List Token → List Item → List TokenKind → Prop}
  {body : Grammar.Body} {ts rest : List Token} {n : Node}

/-- A body that only its close sequence ends. -/
theorem BodyReader.reads_closedBody (h : BodyReader limit size B body) (hlen : ts.length < size)
    {keyword : TokenKind} (hkeyword : keyword ≠ .eof) {name : String} {β : Type}
    {f : List Item → β} {b : β} :
    (body [.slash] >>= fun items => closing keyword name >>= fun _ => pure (f items)).Reads
        limit ts b rest ↔
      ∃ us items vs, ts = us ++ (vs ++ rest) ∧ Inner B us items [.slash] ∧ Closing keyword vs ∧
        b = f items := by
  rw [reads_bind]
  constructor
  · intro hr
    obtain ⟨items, mid, hitems, hr⟩ := hr
    obtain ⟨us, rfl, hus⟩ := (h.exact (by decide) hlen).mp hitems
    obtain ⟨vs, mid, rfl, hclosing, hr⟩ := (reads_closing hkeyword).mp hr
    obtain ⟨rfl, rfl⟩ := reads_pure.mp hr
    refine ⟨us, items, vs, rfl, ?_, hclosing, rfl⟩
    -- a close sequence was read behind the body, so it did not end with the source
    rcases hus with ⟨_, hend⟩ | ⟨hus, _⟩
    · rw [hclosing.kindAhead_append] at hend
      cases hend
    · exact hus
  · intro hr
    obtain ⟨us, items, vs, rfl, hus, hclosing, rfl⟩ := hr
    refine ⟨items, vs ++ rest, (h.exact (by decide) hlen).mpr ⟨us, rfl, .inr ⟨hus, ?_⟩⟩, ?_⟩
    · rw [hclosing.kindAhead_append]
      exact List.mem_singleton_self _
    · exact (reads_closing hkeyword).mpr ⟨vs, rest, rfl, hclosing, reads_pure.mpr ⟨rfl, rfl⟩⟩

/-- An import is its word, a path in quotes and the end of the block. -/
theorem exact_importBlock : Exact limit size importBlock fun us n _ => ImportBlock us n := by
  intro ts n rest _
  unfold importBlock
  rw [reads_expect (by decide)]
  constructor
  · intro hr
    obtain ⟨word, us, rfl, hword, hr⟩ := hr
    obtain ⟨path, us, rfl, hpath, hr⟩ := (reads_expect (by decide)).mp hr
    obtain ⟨close, us, rfl, hclose, hr⟩ := (reads_expect (by decide)).mp hr
    obtain ⟨rfl, rfl⟩ := reads_pure.mp hr
    exact ⟨[word, path, close], rfl, .mk hword hpath hclose⟩
  · intro hr
    obtain ⟨us, rfl, himport⟩ := hr
    cases himport with
    | @mk word path close hword hpath hclose =>
      refine ⟨word, path :: close :: rest, rfl, hword, ?_⟩
      refine (reads_expect (by decide)).mpr ⟨path, close :: rest, rfl, hpath, ?_⟩
      exact (reads_expect (by decide)).mpr ⟨close, rest, rfl, hclose, reads_pure.mpr ⟨rfl, rfl⟩⟩

/-- An assignment is read as one: with a value where `=` follows the name, or else with a body. -/
theorem BodyReader.exact_varBlock (h : BodyReader limit size B body) :
    Exact limit size (varBlock body) fun us n _ => VarBlock B us n := by
  intro ts n rest hlen
  have hlimit := h.size_lt
  unfold varBlock
  rw [reads_expect (by decide)]
  constructor
  · intro hr
    obtain ⟨word, s, rfl, hword, hr⟩ := hr
    obtain ⟨name, mid, hread, hr'⟩ := reads_bind.mp hr
    obtain ⟨us, rfl, hus⟩ := reads_boundName.mp hread
    rw [List.length_cons, List.length_append] at hlen
    rcases (reads_ifAccept (by decide)).mp hr' with ⟨assign, s, rfl, hassign, hr⟩ | ⟨_, hr⟩
    · rw [List.length_cons] at hlen
      obtain ⟨vs, value, mid, rfl, hvalue, hr⟩ := (reads_closed (by omega)).mp hr
      obtain ⟨rfl, rfl⟩ := reads_pure.mp hr
      exact ⟨word :: (us ++ assign :: vs), by simp, .value hword hus hassign hvalue⟩
    · obtain ⟨close, s, rfl, hclose, hr⟩ := (reads_expectAs (by decide)).mp hr
      rw [List.length_cons] at hlen
      obtain ⟨vs, items, ws, rfl, hvs, hws, rfl⟩ :=
        (h.reads_closedBody (by omega) (by decide)).mp hr
      exact ⟨word :: (us ++ close :: (vs ++ ws)), by simp, .body hword hus hclose hvs hws⟩
  · intro hr
    obtain ⟨us, rfl, hvar⟩ := hr
    cases hvar with
    | @value word us name assign vs value hword hus hassign hvalue =>
      simp only [List.cons_append, List.append_assoc, List.length_cons, List.length_append]
        at hlen ⊢
      refine ⟨word, _, rfl, hword, reads_bind.mpr ⟨name, _, reads_boundName.mpr ⟨us, rfl, hus⟩, ?_⟩⟩
      refine (reads_ifAccept (by decide)).mpr (.inl ⟨assign, _, rfl, hassign, ?_⟩)
      refine (reads_closed ?_).mpr ⟨vs, value, rest, rfl, hvalue, reads_pure.mpr ⟨rfl, rfl⟩⟩
      rw [List.length_append]
      omega
    | @body word us name close vs items ws hword hus hclose hvs hws =>
      simp only [List.cons_append, List.append_assoc, List.length_cons, List.length_append]
        at hlen ⊢
      refine ⟨word, _, rfl, hword, reads_bind.mpr ⟨name, _, reads_boundName.mpr ⟨us, rfl, hus⟩, ?_⟩⟩
      refine (reads_ifAccept (by decide)).mpr (.inr ⟨Token.kind_ne hclose (by decide), ?_⟩)
      refine (reads_expectAs (by decide)).mpr ⟨close, _, rfl, hclose, ?_⟩
      refine (h.reads_closedBody ?_ (by decide)).mpr ⟨vs, items, ws, rfl, hvs, hws, rfl⟩
      simp only [List.length_append]
      omega

/-! ### Constructs with a list in their header -/

/-- A construct with a name and a list in its header, and one body. -/
inductive Headed {α : Type} (B : List Token → List Item → List TokenKind → Prop)
    (keyword : TokenKind) (list : List Token → α → Prop) (node : String → α → List Item → Node) :
    List Token → Node → Prop
  | mk {word us name as a close vs items ws} : word.kind = keyword → BoundName us name →
      list as a → close.kind = .blockClose → Inner B vs items [.slash] → Closing keyword ws →
      Headed B keyword list node (word :: (us ++ (as ++ close :: (vs ++ ws)))) (node name a items)

/-- The parser of such a construct. The header reads the list and the end of its block, and goes on
with the body. -/
def headedBlock {α : Type} (body : Grammar.Body) (keyword : TokenKind)
    (header : (α → Parse Node) → Parse Node) (word : String)
    (node : String → α → List Item → Node) : Parse Node :=
  expect keyword >>= fun _ => boundName >>= fun name => header fun a =>
    body [.slash] >>= fun items => closing keyword word >>= fun _ => pure (node name a items)

/-- The header reads exactly the lists of a relation, up to and with the end of the block. -/
def ReadsHeader {α : Type} (limit : Nat) (header : (α → Parse Node) → Parse Node)
    (list : List Token → α → Prop) : Prop :=
  ∀ {ts rest : List Token} {f : α → Parse Node} {n : Node}, ts.length < limit →
    ((header f).Reads limit ts n rest ↔
      ∃ as a close mid, ts = as ++ close :: mid ∧ list as a ∧ close.kind = .blockClose ∧
        (f a).Reads limit mid n rest)

/-- A construct is read exactly if its header is. -/
theorem BodyReader.exact_headedBlock (h : BodyReader limit size B body) {α : Type}
    {keyword : TokenKind} (hkeyword : keyword ≠ .eof) {header : (α → Parse Node) → Parse Node}
    {list : List Token → α → Prop} (hheader : ReadsHeader limit header list) {word : String}
    {node : String → α → List Item → Node} :
    Exact limit size (headedBlock body keyword header word node) fun us n _ =>
      Headed B keyword list node us n := by
  intro ts n rest hlen
  have hlimit := h.size_lt
  unfold headedBlock
  rw [reads_expect hkeyword]
  constructor
  · intro hr
    obtain ⟨word, s, rfl, hword, hr⟩ := hr
    obtain ⟨name, mid, hread, hr'⟩ := reads_bind.mp hr
    obtain ⟨us, rfl, hus⟩ := reads_boundName.mp hread
    rw [List.length_cons, List.length_append] at hlen
    obtain ⟨as, a, close, s, rfl, has, hclose, hr⟩ := (hheader (by omega)).mp hr'
    rw [List.length_append, List.length_cons] at hlen
    obtain ⟨vs, items, ws, rfl, hvs, hws, rfl⟩ := (h.reads_closedBody (by omega) hkeyword).mp hr
    exact ⟨word :: (us ++ (as ++ close :: (vs ++ ws))), by simp, .mk hword hus has hclose hvs hws⟩
  · intro hr
    obtain ⟨us, rfl, hheaded⟩ := hr
    cases hheaded with
    | @mk word us name as a close vs items ws hword hus has hclose hvs hws =>
      simp only [List.cons_append, List.append_assoc, List.length_cons, List.length_append]
        at hlen ⊢
      refine ⟨word, _, rfl, hword, reads_bind.mpr ?_⟩
      refine ⟨name, as ++ close :: (vs ++ (ws ++ rest)), ?_, ?_⟩
      · exact reads_boundName.mpr ⟨us, rfl, hus⟩
      refine (hheader ?_).mpr ⟨as, a, close, _, rfl, has, hclose, ?_⟩
      · simp only [List.length_append, List.length_cons]
        omega
      refine (h.reads_closedBody ?_ hkeyword).mpr ⟨vs, items, ws, rfl, hvs, hws, rfl⟩
      simp only [List.length_append]
      omega

/-- A macro has its parameters in the header. -/
theorem headed_iff_macroBlock {us : List Token} :
    Headed B .macroWord Parameters .macroDef us n ↔ MacroBlock B us n := by
  constructor
  · rintro ⟨hword, hus, hps, hclose, hvs, hws⟩
    exact .mk hword hus hps hclose hvs hws
  · rintro ⟨hword, hus, hps, hclose, hvs, hws⟩
    exact .mk hword hus hps hclose hvs hws

/-- A call with a body has its arguments in the header. -/
theorem headed_iff_callBlock {us : List Token} :
    Headed B .callWord CallArguments
        (fun name args items => .call none (.name name) (args ++ [.statements items])) us n ↔
      CallBlock B us n := by
  constructor
  · rintro ⟨hword, hus, has, hclose, hvs, hws⟩
    exact .mk hword hus has hclose hvs hws
  · rintro ⟨hword, hus, has, hclose, hvs, hws⟩
    exact .mk hword hus has hclose hvs hws

/-- The parameters of a macro up to the end of its header. -/
def macroHeader (f : List String → Parse Node) : Parse Node :=
  parameters >>= fun params => expect .blockClose >>= fun _ => f params

/-- The arguments of a call with a body up to the end of its header. -/
def callHeader (f : List Node → Parse Node) : Parse Node :=
  accept .leftParen >>= fun given =>
    if given = true then arguments expression >>= fun args => expect .blockClose >>= fun _ => f args
    else expect .blockClose >>= fun _ => f []

theorem macroBlock_eq (body : Grammar.Body) :
    macroBlock body = headedBlock body .macroWord macroHeader "macro" .macroDef :=
  rfl

theorem callBlock_eq (body : Grammar.Body) :
    callBlock body = headedBlock body .callWord callHeader "call"
      (fun name args items => .call none (.name name) (args ++ [.statements items])) :=
  rfl

/-- A macro with its name, its parameters and its body. -/
theorem BodyReader.exact_macroBlock (h : BodyReader limit size B body) :
    Exact limit size (macroBlock body) fun us n _ => MacroBlock B us n := by
  have hheader : ReadsHeader limit macroHeader Parameters := fun hlen => reads_parameters hlen
  rw [macroBlock_eq]
  exact (h.exact_headedBlock (by decide) hheader).imp fun _ _ _ => headed_iff_macroBlock

/-- A call with its name, its arguments and a body. -/
theorem BodyReader.exact_callBlock (h : BodyReader limit size B body) :
    Exact limit size (callBlock body) fun us n _ => CallBlock B us n := by
  have hheader : ReadsHeader limit callHeader CallArguments := fun hlen => reads_callArguments hlen
  rw [callBlock_eq]
  exact (h.exact_headedBlock (by decide) hheader).imp fun _ _ _ => headed_iff_callBlock

/-! ### Constructs with `else` -/

/-- The rest of a construct that may have an `else`: the parts of the two endings are read by the
same parser of bodies. -/
theorem BodyReader.reads_otherwise (h : BodyReader limit size B body) (hlen : ts.length < size)
    {keyword : TokenKind} (hkeyword : keyword ≠ .eof) {name : String} {β : Type}
    {f : Option (List Item) → β} {b : β} :
    (accept .elseWord >>= fun found => if found = true then expect .blockClose >>= fun _ =>
        body [.slash] >>= fun items => closing keyword name >>= fun _ => pure (f (some items))
      else closing keyword name >>= fun _ => pure (f none)).Reads limit ts b rest ↔
      ∃ os otherwise vs, ts = os ++ (vs ++ rest) ∧ Otherwise B os otherwise ∧ Closing keyword vs ∧
        b = f otherwise := by
  rw [reads_ifAccept (by decide)]
  constructor
  · intro hr
    rcases hr with ⟨word, s, rfl, hword, hr⟩ | ⟨_, hr⟩
    · obtain ⟨close, s, rfl, hclose, hr⟩ := (reads_expect (by decide)).mp hr
      rw [List.length_cons, List.length_cons] at hlen
      obtain ⟨us, items, vs, rfl, hus, hvs, rfl⟩ :=
        (h.reads_closedBody (by omega) hkeyword).mp hr
      exact ⟨word :: close :: us, some items, vs, rfl, .some hword hclose hus, hvs, rfl⟩
    · obtain ⟨vs, mid, rfl, hvs, hr⟩ := (reads_closing hkeyword).mp hr
      obtain ⟨rfl, rfl⟩ := reads_pure.mp hr
      exact ⟨[], none, vs, rfl, .none, hvs, rfl⟩
  · intro hr
    obtain ⟨os, otherwise, vs, rfl, hos, hvs, rfl⟩ := hr
    cases hos with
    | none =>
      refine .inr ⟨?_, (reads_closing hkeyword).mpr ⟨vs, rest, rfl, hvs, reads_pure.mpr ⟨rfl, rfl⟩⟩⟩
      rw [List.nil_append, hvs.kindAhead_append]
      decide
    | @some word close us items hword hclose hus =>
      simp only [List.cons_append, List.length_cons] at hlen ⊢
      refine .inl ⟨word, _, rfl, hword, (reads_expect (by decide)).mpr ⟨close, _, rfl, hclose, ?_⟩⟩
      exact (h.reads_closedBody (by omega) hkeyword).mpr ⟨us, items, vs, rfl, hus, hvs, rfl⟩

/-- Behind a body comes `else` or the slash of the close sequence. -/
theorem Otherwise.kindAhead_append {os vs : List Token} {otherwise : Option (List Item)}
    {keyword : TokenKind} (h : Otherwise B os otherwise) (hvs : Closing keyword vs)
    (ws : List Token) : kindAhead (os ++ (vs ++ ws)) ∈ [.slash, .elseWord] := by
  cases h with
  | none =>
    rw [List.nil_append, hvs.kindAhead_append]
    decide
  | some hword =>
    rw [List.cons_append, kindAhead_cons, hword]
    decide

/-- A body that its close sequence or an `else` ends. -/
theorem BodyReader.reads_bodyOtherwise (h : BodyReader limit size B body) (hlen : ts.length < size)
    {keyword : TokenKind} (hkeyword : keyword ≠ .eof) {name : String} {β : Type}
    {f : List Item → Option (List Item) → β} {b : β} :
    (body [.slash, .elseWord] >>= fun items => accept .elseWord >>= fun found =>
      if found = true then expect .blockClose >>= fun _ =>
        body [.slash] >>= fun others => closing keyword name >>= fun _ =>
          pure (f items (some others))
      else closing keyword name >>= fun _ => pure (f items none)).Reads limit ts b rest ↔
      ∃ us items os otherwise vs, ts = us ++ (os ++ (vs ++ rest)) ∧
        Inner B us items [.slash, .elseWord] ∧ Otherwise B os otherwise ∧ Closing keyword vs ∧
        b = f items otherwise := by
  rw [reads_bind]
  constructor
  · intro hr
    obtain ⟨items, mid, hitems, hr⟩ := hr
    obtain ⟨us, rfl, hus⟩ := (h.exact (by decide) hlen).mp hitems
    rw [List.length_append] at hlen
    obtain ⟨os, otherwise, vs, rfl, hos, hvs, rfl⟩ :=
      (h.reads_otherwise (by omega) hkeyword).mp hr
    refine ⟨us, items, os, otherwise, vs, rfl, ?_, hos, hvs, rfl⟩
    -- what was read behind the body is not the end of the source
    rcases hus with ⟨_, hend⟩ | ⟨hus, _⟩
    · have hnext := hos.kindAhead_append hvs rest
      rw [hend] at hnext
      exact absurd hnext (by decide)
    · exact hus
  · intro hr
    obtain ⟨us, items, os, otherwise, vs, rfl, hus, hos, hvs, rfl⟩ := hr
    refine ⟨items, os ++ (vs ++ rest), (h.exact (by decide) hlen).mpr ⟨us, rfl, .inr ⟨hus, ?_⟩⟩, ?_⟩
    · exact hos.kindAhead_append hvs rest
    · rw [List.length_append] at hlen
      exact (h.reads_otherwise (by omega) hkeyword).mpr ⟨os, otherwise, vs, rfl, hos, hvs, rfl⟩

/-- A loop behind its names. -/
def loopBehindNames (body : Grammar.Body) (names : List String) : Parse Node := do
  let collection ← expression
  let _ ← expect .blockClose
  let items ← body [.slash, .elseWord]
  if ← accept .elseWord then
    let _ ← expect .blockClose
    let otherwise ← body [.slash]
    closing .forWord "for"
    return .loop names collection items (some otherwise)
  else
    closing .forWord "for"
    return .loop names collection items none

/-- A loop with its names, its collection and its bodies. -/
theorem BodyReader.exact_forBlock (h : BodyReader limit size B body) :
    Exact limit size (forBlock body) fun us n _ => ForBlock B us n := by
  intro ts n rest hlen
  have hlimit := h.size_lt
  unfold forBlock
  rw [reads_expect (by decide)]
  constructor
  · intro hr
    obtain ⟨word, s, rfl, hword, hr⟩ := hr
    obtain ⟨ns, names, inWord, s, rfl, hns, hin, hr⟩ :=
      (reads_loopNames (f := loopBehindNames body)).mp hr
    rw [List.length_cons, List.length_append, List.length_cons] at hlen
    obtain ⟨us, c, s, rfl, hus, hr⟩ := (reads_closed (by omega)).mp hr
    rw [List.length_append] at hlen
    obtain ⟨vs, items, os, otherwise, ws, rfl, hvs, hos, hws, rfl⟩ :=
      (h.reads_bodyOtherwise (f := Node.loop names c)
        (by omega) (by decide)).mp hr
    exact ⟨word :: (ns ++ inWord :: (us ++ (vs ++ (os ++ ws)))), by simp,
      .mk hword hns hin hus hvs hos hws⟩
  · intro hr
    obtain ⟨us, rfl, hfor⟩ := hr
    cases hfor with
    | @mk word ns names inWord us c vs items os otherwise ws hword hns hin hus hvs hos hws =>
      simp only [List.cons_append, List.append_assoc, List.length_cons, List.length_append]
        at hlen ⊢
      refine ⟨word, _, rfl, hword, (reads_loopNames (f := loopBehindNames body)).mpr
        ⟨ns, names, inWord, _, rfl, hns, hin, (reads_closed ?_).mpr ⟨us, c, _, rfl, hus, ?_⟩⟩⟩
      · simp only [List.length_append]
        omega
      refine (h.reads_bodyOtherwise (f := Node.loop names c)
        ?_ (by decide)).mpr ⟨vs, items, os, otherwise, ws, rfl, hvs, hos, hws, rfl⟩
      simp only [List.length_append]
      omega

/-- The kinds of tokens behind which an arm of an `if` ends. -/
def armStops : List TokenKind :=
  [.slash, .elseIfWord, .elseWord]

variable (B) in
/-- An arm in front of a token of a kind, which may also be the end of the source. -/
inductive ArmBefore (k : TokenKind) : List Token → Arm → Prop
  | stopped {us a} : ArmOf B us a → k ∈ armStops → ArmBefore k us a
  | ended {us c vs items} : Closed us c → B vs items armStops → k = .eof →
      ArmBefore k (us ++ vs) (.mk c items)

/-- In front of another arm, or of what ends a condition, an arm is any arm of the grammar. -/
theorem armBefore_iff {us : List Token} {a : Arm} {k : TokenKind}
    (hk : k = .elseIfWord ∨ k ∈ [.slash, .elseWord]) : ArmBefore B k us a ↔ ArmOf B us a := by
  have hstop : k ∈ armStops := by
    simp only [List.mem_cons, List.not_mem_nil, or_false] at hk
    rcases hk with rfl | rfl | rfl <;> decide
  constructor
  · intro h
    cases h with
    | stopped ha => exact ha
    | ended _ _ hend =>
      rw [hend] at hstop
      exact absurd hstop (by decide)
  · intro ha
    exact .stopped ha hstop

/-- An arm ends behind the opening of the block that ends its body; the word in that block is left.
-/
theorem BodyReader.exact_arm (h : BodyReader limit size B body) :
    Exact limit size (arm body) fun us a k => ArmBefore B k us a := by
  intro ts a rest hlen
  have hlimit := h.size_lt
  unfold arm
  rw [reads_closed (by omega)]
  constructor
  · intro hr
    obtain ⟨us, c, mid, rfl, hus, hr⟩ := hr
    obtain ⟨items, mid, hitems, hr⟩ := reads_bind.mp hr
    obtain ⟨rfl, rfl⟩ := reads_pure.mp hr
    rw [List.length_append] at hlen
    obtain ⟨vs, rfl, hvs⟩ := (h.exact (by decide) (by omega)).mp hitems
    refine ⟨us ++ vs, by simp, ?_⟩
    rcases hvs with ⟨hvs, hend⟩ | ⟨hvs, hstop⟩
    · exact .ended hus hvs hend
    · exact .stopped (.mk hus hvs) hstop
  · intro hr
    obtain ⟨us, rfl, ha⟩ := hr
    cases ha with
    | stopped ha hstop =>
      cases ha with
      | @mk us c vs items hus hvs =>
        rw [List.append_assoc] at hlen ⊢
        refine ⟨us, c, vs ++ rest, rfl, hus, reads_bind.mpr ?_⟩
        refine ⟨items, rest, ?_, reads_pure.mpr ⟨rfl, rfl⟩⟩
        rw [List.length_append] at hlen
        exact (h.exact (by decide) (by omega)).mpr ⟨vs, rfl, .inr ⟨hvs, hstop⟩⟩
    | @ended us c vs items hus hvs hend =>
      rw [List.append_assoc] at hlen ⊢
      refine ⟨us, c, vs ++ rest, rfl, hus, reads_bind.mpr ?_⟩
      refine ⟨items, rest, ?_, reads_pure.mpr ⟨rfl, rfl⟩⟩
      rw [List.length_append] at hlen
      exact (h.exact (by decide) (by omega)).mpr ⟨vs, rfl, .inl ⟨hvs, hend⟩⟩

/-- The node of an `if` whose arms have been read, the last one first. -/
def conditionalOf (arms : List Arm) : Option (List Item) → Node
  | none => .conditional arms.reverse
  | some items => .conditional (Arm.mk (.bool true) items :: arms).reverse

/-- Arms are gathered from the last to the first and turned round at the end. -/
private theorem conditionalOf_reverse (arms : List Arm) (otherwise : Option (List Item)) :
    conditionalOf arms.reverse otherwise = .conditional (arms ++ lastArm otherwise) := by
  cases otherwise with
  | none => rw [conditionalOf, List.reverse_reverse, lastArm, List.append_nil]
  | some items => rw [conditionalOf, List.reverse_cons, List.reverse_reverse, lastArm]

/-- A condition: the loop over its arms reads a list with `elseif` between them, and behind it comes
`else` or the close sequence. -/
theorem BodyReader.exact_ifBlock (h : BodyReader limit size B body) :
    Exact limit size (ifBlock body) fun us n _ => IfBlock B us n := by
  intro ts n rest hlen
  have hlimit := h.size_lt
  have hloops : ∀ {first : Arm} {arms : List Arm} {s r : List Token}, s.length < limit →
      ((iterate (furtherItem .elseIfWord (arm body)) [first]).Reads limit s arms r ↔
        Loops limit (furtherItem .elseIfWord (arm body)) [first] s arms r) :=
    fun hs => reads_iterate (fun _ => length_lt_of_furtherItem (by decide)) hs
  -- the loop of the arms is that of a list with commas, with another token between the items
  have harms : ∀ {s r : List Token} {arms : List Arm}, s.length < size →
      kindAhead r ∈ [.slash, .elseWord] →
      ((∃ first mid, (arm body).Reads limit s first mid ∧
        Loops limit (furtherItem .elseIfWord (arm body)) [first] mid arms r) ↔
        ∃ us as, s = us ++ r ∧ Separated .elseIfWord (ArmOf B) us as ∧ arms = as.reverse) :=
    fun hs hr => separated_iff (by decide) h.exact_arm armBefore_iff (by decide) hs hr
  unfold ifBlock
  rw [reads_expect (by decide)]
  constructor
  · intro hr
    obtain ⟨word, s, rfl, hword, hr⟩ := hr
    obtain ⟨first, mid, hfirst, hr⟩ := reads_bind.mp hr
    obtain ⟨arms, mid, hloop, hr⟩ := reads_bind.mp hr
    have hle := hfirst.length_le
    have hle' := hloop.length_le
    rw [List.length_cons] at hlen
    obtain ⟨os, otherwise, ws, rfl, hos, hws, rfl⟩ :=
      (h.reads_otherwise (f := conditionalOf arms) (by omega) (by decide)).mp hr
    -- the token behind the last arm is known only after the rest of the construct has been read
    obtain ⟨us, as, rfl, has, rfl⟩ := (harms (by omega) (hos.kindAhead_append hws rest)).mp
      ⟨first, _, hfirst, (hloops (by omega)).mp hloop⟩
    refine ⟨word :: (us ++ (os ++ ws)), by simp, ?_⟩
    rw [conditionalOf_reverse]
    exact .mk hword has hos hws
  · intro hr
    obtain ⟨us, rfl, hif⟩ := hr
    cases hif with
    | @mk word us arms os otherwise ws hword harm hos hws =>
      simp only [List.cons_append, List.append_assoc, List.length_cons] at hlen ⊢
      obtain ⟨first, mid, hfirst, hloop⟩ := (harms (by omega) (hos.kindAhead_append hws rest)).mpr
        ⟨us, arms, rfl, harm, rfl⟩
      have hle := hfirst.length_le
      refine ⟨word, _, rfl, hword, reads_bind.mpr ⟨first, mid, hfirst, reads_bind.mpr
        ⟨arms.reverse, os ++ (ws ++ rest), (hloops (by omega)).mpr hloop, ?_⟩⟩⟩
      rw [← conditionalOf_reverse]
      rw [List.length_append] at hlen
      exact (h.reads_otherwise (f := conditionalOf arms.reverse) (by omega) (by decide)).mpr
        ⟨os, otherwise, ws, rfl, hos, hws, rfl⟩

end

end Stencil.Derives
