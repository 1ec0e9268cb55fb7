import Stencil.Proofs.ChainExact

/-!
# The expression parsers are exact

Level by level, the parser reads what the rule of the level derives, and nothing else: from the
chains up through the signs, the operators with two operands and the choice. If the parser of whole
expressions is exact on short lists, the level is exact on lists with one token more. So
`reader_expressionWithin` is an induction over the depth alone.

> `Derives.exact_expression`: the parser of expressions reads exactly the expressions that end in
> front of the token behind them.
> `Derives.bareExpression_iff`: a list of tokens is parsed as a bare expression if and only if the
> part of it in front of the end of the source derives the tree.
-/

namespace Stencil.Derives

open Grammar Parse

section

variable {limit size : Nat} {E : Bool → List Token → Node → Prop} {e : Parse Node}
  {ts rest : List Token} {n : Node}

/-! ## Signs and negations -/

/-- An operand with its steps, behind a negation or not. -/
theorem Reader.exact_primary (h : Reader limit size E e) :
    Exact limit (size + 1) (primary e) fun us n k => Primary E us n ∧ startsPostfix k = false := by
  intro ts n rest hlen
  have hchain : ∀ {s : List Token} {f : Node → Node}, s.length < size + 1 →
      ((simple e >>= fun first => iterate (postfixStep e) first >>= fun m => pure (f m)).Reads
          limit s n rest ↔
        ∃ us m, s = us ++ rest ∧ Chain E us m ∧ startsPostfix (kindAhead rest) = false ∧
          n = f m) := by
    intro s f hs
    rw [← reads_bind_assoc, reads_bind]
    constructor
    · intro hr
      obtain ⟨m, mid, hm, hr⟩ := hr
      obtain ⟨rfl, rfl⟩ := reads_pure.mp hr
      obtain ⟨us, rfl, hchain, hends⟩ := (h.exact_chain hs).mp hm
      exact ⟨us, m, rfl, hchain, hends, rfl⟩
    · intro hr
      obtain ⟨us, m, rfl, hchain, hends, rfl⟩ := hr
      exact ⟨m, rest, (h.exact_chain hs).mpr ⟨us, rfl, hchain, hends⟩, reads_pure.mpr ⟨rfl, rfl⟩⟩
  unfold primary
  rw [reads_ifAccept (by decide)]
  simp only [if_true, Bool.false_eq_true, if_false]
  constructor
  · intro hr
    rcases hr with ⟨minus, s, rfl, hminus, hr⟩ | ⟨_, hr⟩
    · rw [List.length_cons] at hlen
      obtain ⟨us, m, rfl, hm, hends, rfl⟩ := (hchain (by omega)).mp hr
      exact ⟨minus :: us, rfl, .negated hminus hm, hends⟩
    · obtain ⟨us, m, rfl, hm, hends, rfl⟩ := (hchain hlen).mp hr
      exact ⟨us, rfl, .plain hm, hends⟩
  · intro hr
    obtain ⟨us, rfl, hprimary, hends⟩ := hr
    cases hprimary with
    | plain hm =>
      -- a chain does not start with a minus sign
      refine .inr ⟨hm.begins.kindAhead_ne rfl rest, ?_⟩
      exact (hchain hlen).mpr ⟨us, n, rfl, hm, hends, rfl⟩
    | @negated minus us m hminus hm =>
      rw [List.cons_append, List.length_cons] at hlen
      exact .inl ⟨minus, us ++ rest, rfl, hminus,
        (hchain (by omega)).mpr ⟨us, m, rfl, hm, hends, rfl⟩⟩

/-- Every sign and every negation takes a token, so that there is fuel for all of them. -/
private theorem Reader.exact_unaryUpTo (h : Reader limit size E e) {fuel : Nat}
    (hlen : ts.length < size + 1) (hfuel : ts.length < fuel) :
    (unaryUpTo (primary e) fuel).Reads limit ts n rest ↔
      ∃ us, ts = us ++ rest ∧ Unary E us n ∧ startsPostfix (kindAhead rest) = false := by
  -- the induction is on the fuel, of which there is more than there are tokens
  induction fuel generalizing ts n with
  | zero => omega
  | succ fuel ih =>
    unfold unaryUpTo
    rw [reads_ifAccept (by decide)]
    simp only [if_true, Bool.false_eq_true, if_false]
    constructor
    · intro hr
      rcases hr with ⟨t, s, rfl, ht, hr⟩ | ⟨_, hr⟩
      · rw [List.length_cons] at hlen hfuel
        obtain ⟨m, mid, hm, hr⟩ := reads_bind.mp hr
        obtain ⟨rfl, rfl⟩ := reads_pure.mp hr
        obtain ⟨us, rfl, hunary, hends⟩ := (ih (by omega) (by omega)).mp hm
        exact ⟨t :: us, rfl, .not ht hunary, hends⟩
      rcases (reads_ifAccept (by decide)).mp hr with ⟨t, s, rfl, ht, hr⟩ | ⟨_, hr⟩
      · rw [List.length_cons] at hlen hfuel
        obtain ⟨us, rfl, hunary, hends⟩ := (ih (by omega) (by omega)).mp hr
        exact ⟨t :: us, rfl, .plus ht hunary, hends⟩
      · obtain ⟨us, rfl, hprimary, hends⟩ := (h.exact_primary hlen).mp hr
        exact ⟨us, rfl, .primary hprimary, hends⟩
    · intro hr
      obtain ⟨us, rfl, hunary, hends⟩ := hr
      cases hunary with
      | primary hprimary =>
        -- a primary expression starts with neither of the two tokens
        refine .inr ⟨hprimary.begins.kindAhead_ne rfl rest, ?_⟩
        refine (reads_ifAccept (by decide)).mpr (.inr ?_)
        refine ⟨hprimary.begins.kindAhead_ne rfl rest, ?_⟩
        exact (h.exact_primary hlen).mpr ⟨us, rfl, hprimary, hends⟩
      | @not t us m ht hunary =>
        rw [List.cons_append, List.length_cons] at hlen hfuel
        exact .inl ⟨t, us ++ rest, rfl, ht, reads_bind.mpr
          ⟨m, rest, (ih (by omega) (by omega)).mpr ⟨us, rfl, hunary, hends⟩,
            reads_pure.mpr ⟨rfl, rfl⟩⟩⟩
      | @plus t us m ht hunary =>
        rw [List.cons_append, List.length_cons] at hlen hfuel
        refine .inr ⟨Token.kind_ne ht (by decide), (reads_ifAccept (by decide)).mpr ?_⟩
        refine .inl ⟨t, us ++ rest, rfl, ht, ?_⟩
        exact (ih (by omega) (by omega)).mpr ⟨us, rfl, hunary, hends⟩

theorem Reader.exact_unary (h : Reader limit size E e) :
    Exact limit (size + 1) (unary (primary e)) fun us n k =>
      Unary E us n ∧ startsPostfix k = false := by
  intro ts n rest hlen
  have hlt := h.size_lt
  exact h.exact_unaryUpTo hlen (by omega)

/-! ## Operators with two operands -/

/-- No operator of a level goes on with an operand of the levels that bind tighter, and none is the
end of the source. -/
def Apart : List Operators → Prop
  | [] => True
  | ops :: tighter =>
    (∀ k, (ops.lookup k).isSome = true → continues tighter k = false ∧ k ≠ .eof) ∧ Apart tighter

/-- No operator stands in two levels. -/
theorem apart_levels : Apart levels := by
  refine ⟨?_, ?_, ?_, ?_, ?_, ?_, trivial⟩ <;>
  · intro k
    cases k <;> decide

theorem continues_cons {ops : Operators} {tighter : List Operators} {k : TokenKind} :
    continues (ops :: tighter) k = false ↔ ops.lookup k = none ∧ continues tighter k = false := by
  unfold continues
  rw [List.any_cons]
  cases ops.lookup k <;> cases startsPostfix k <;> simp

/-- The operator of a level is taken if one of them is next, and nothing otherwise. -/
theorem reads_acceptOperator {β : Type} {ops : Operators} (hops : ops.lookup .eof = none)
    {f : Option BinaryOp → Parse β} {b : β} :
    (acceptOperator ops >>= f).Reads limit ts b rest ↔
      (∃ t us op, ts = t :: us ∧ ops.lookup t.kind = some op ∧
        (f (some op)).Reads limit us b rest) ∨
        ops.lookup (kindAhead ts) = none ∧ (f none).Reads limit ts b rest := by
  unfold acceptOperator
  rw [reads_bind_assoc, reads_peek]
  have hhead : (ts.headD Token.eof).kind = kindAhead ts := rfl
  rw [hhead]
  cases hop : ops.lookup (kindAhead ts) with
  | none =>
    constructor
    · intro hr
      exact .inr ⟨rfl, hr⟩
    · intro hr
      rcases hr with ⟨t, us, op, rfl, ht, _⟩ | ⟨_, hr⟩
      · rw [kindAhead_cons, ht] at hop
        cases hop
      · exact hr
  | some op =>
    have hne : kindAhead ts ≠ .eof := by
      intro heof
      rw [heof, hops] at hop
      cases hop
    obtain ⟨t, us, rfl⟩ := exists_cons_of_kindAhead hne
    rw [kindAhead_cons] at hop
    constructor
    · intro hr
      exact .inl ⟨t, us, op, rfl, hop, hr⟩
    · intro hr
      rcases hr with ⟨u, vs, op', heq, hu, hr⟩ | ⟨hnone, _⟩
      · cases heq
        rw [hop] at hu
        cases hu
        exact hr
      · cases hnone

/-- A further operator with its operand. -/
private def operatorStep (ops : Operators) (operand : Parse Node) (left : Node) :
    Parse (Option Node) := do
  match ← acceptOperator ops with
  | none => return none
  | some op => return some (.binary op left (← operand))

/-- A turn of the loop over the operators takes one of them and its right operand. -/
private theorem reads_operatorStep {ops : Operators} {operand : Parse Node}
    (hops : ops.lookup .eof = none) {found : Option Node} :
    (operatorStep ops operand n).Reads limit ts found rest ↔
      (∃ t us op right, ts = t :: us ∧ ops.lookup t.kind = some op ∧
        operand.Reads limit us right rest ∧ found = some (.binary op n right)) ∨
        ops.lookup (kindAhead ts) = none ∧ rest = ts ∧ found = none := by
  unfold operatorStep
  rw [reads_acceptOperator hops]
  constructor
  · intro hr
    rcases hr with ⟨t, us, op, rfl, hop, hr⟩ | ⟨hnone, hr⟩
    · obtain ⟨right, mid, hright, hr⟩ := reads_bind.mp hr
      obtain ⟨rfl, rfl⟩ := reads_pure.mp hr
      exact .inl ⟨t, us, op, right, rfl, hop, hright, rfl⟩
    · obtain ⟨rfl, rfl⟩ := reads_pure.mp hr
      exact .inr ⟨hnone, rfl, rfl⟩
  · intro hr
    rcases hr with ⟨t, us, op, right, rfl, hop, hright, rfl⟩ | ⟨hnone, rfl, rfl⟩
    · exact .inl ⟨t, us, op, rfl, hop, reads_bind.mpr
        ⟨right, rest, hright, reads_pure.mpr ⟨rfl, rfl⟩⟩⟩
    · exact .inr ⟨hnone, reads_pure.mpr ⟨rfl, rfl⟩⟩

section

variable {ops : Operators} {tighter : List Operators} {operand : Parse Node}

/-- What the loop of a level reads behind an operation makes a longer operation of it. -/
private theorem binary_of_loops (hops : ops.lookup .eof = none)
    (hoperand : Exact limit (size + 1) operand fun us n k =>
      Binary E tighter us n ∧ continues tighter k = false)
    {m : Node} {us : List Token} (hloop : Loops limit (operatorStep ops operand) n ts m rest)
    (hlen : ts.length ≤ size) (hus : Binary E (ops :: tighter) us n)
    (hnext : continues tighter (kindAhead ts) = false) :
    ∃ vs, ts = vs ++ rest ∧ Binary E (ops :: tighter) (us ++ vs) m ∧
      continues (ops :: tighter) (kindAhead rest) = false := by
  induction hloop generalizing us with
  | stop hfound =>
    rcases (reads_operatorStep hops).mp hfound with ⟨_, _, _, _, _, _, _, hsome⟩ | ⟨hnone, rfl, _⟩
    · cases hsome
    · exact ⟨[], rfl, by rwa [List.append_nil], continues_cons.mpr ⟨hnone, hnext⟩⟩
  | turn hfound _ ih =>
    rcases (reads_operatorStep hops).mp hfound with
      ⟨t, s, op, right, rfl, hop, hright, hsome⟩ | ⟨_, _, hsome⟩
    · cases hsome
      rw [List.length_cons] at hlen
      obtain ⟨vs, rfl, hvs, hnext'⟩ := (hoperand (by omega)).mp hright
      rw [List.length_append] at hlen
      obtain ⟨ws, rfl, hws, hends⟩ := ih (by omega) (.operation hus hop hvs) hnext'
      exact ⟨t :: (vs ++ ws), by simp, by simpa using hws, hends⟩
    · cases hsome

/-- An operation is read from the left: what a loop reads behind the operation, it also reads behind
the first operand. -/
private theorem loops_of_binary (hops : ops.lookup .eof = none)
    (happart : ∀ k, (ops.lookup k).isSome = true → continues tighter k = false)
    (hoperand : Exact limit (size + 1) operand fun us n k =>
      Binary E tighter us n ∧ continues tighter k = false)
    {m : Node} {us : List Token} (hus : Binary E (ops :: tighter) us n)
    (hlen : (us ++ ts).length ≤ size) (hnext : continues tighter (kindAhead ts) = false)
    (hloop : Loops limit (operatorStep ops operand) n ts m rest) :
    ∃ first mid, operand.Reads limit (us ++ ts) first mid ∧
      Loops limit (operatorStep ops operand) first mid m rest := by
  generalize hls : ops :: tighter = ls at hus
  induction hus generalizing ts with
  | unary => cases hls
  | @operand _ _ us n hus =>
    cases hls
    exact ⟨n, ts, (hoperand (by omega)).mpr ⟨us, rfl, hus, hnext⟩, hloop⟩
  | @operation _ _ us left t op vs right hleft hop hright ih _ =>
    cases hls
    rw [List.append_assoc, List.cons_append] at hlen ⊢
    -- the operator of this level ends the operand in front of it
    refine ih hlen (by rw [kindAhead_cons]; exact happart _ (by rw [hop]; rfl)) ?_ rfl
    refine .turn ((reads_operatorStep hops).mpr (.inl ⟨t, vs ++ ts, op, right, rfl, hop, ?_, rfl⟩))
      hloop
    rw [List.length_append, List.length_cons] at hlen
    exact (hoperand (by omega)).mpr ⟨vs, rfl, hright, hnext⟩

/-- One level of operators over the exact parser of its operands. -/
theorem exact_binaryLevel (hlimit : size < limit) (hapart : Apart (ops :: tighter))
    (hoperand : Exact limit (size + 1) operand fun us n k =>
      Binary E tighter us n ∧ continues tighter k = false) :
    Exact limit (size + 1) (binaryLevel ops operand) fun us n k =>
      Binary E (ops :: tighter) us n ∧ continues (ops :: tighter) k = false := by
  intro ts n rest hlen
  have hops : ops.lookup .eof = none := by
    cases hop : ops.lookup .eof with
    | none => rfl
    | some op => exact absurd rfl (hapart.1 .eof (by rw [hop]; rfl)).2
  have hloops : ∀ {first : Node} {mid : List Token}, mid.length ≤ ts.length →
      ((iterate (operatorStep ops operand) first).Reads limit mid n rest ↔
        Loops limit (operatorStep ops operand) first mid n rest) := by
    intro first mid hle
    refine reads_iterate (fun {a s b r} _ hstep => ?_) (by omega)
    rcases (reads_operatorStep hops).mp hstep with ⟨t, us, _, _, rfl, _, hright, _⟩ | ⟨_, _, hsome⟩
    · have hright := hright.length_le
      rw [List.length_cons]
      omega
    · cases hsome
  show (operand >>= iterate (operatorStep ops operand)).Reads limit ts n rest ↔ _
  rw [reads_bind]
  constructor
  · intro hr
    obtain ⟨first, mid, hfirst, hr⟩ := hr
    have hloop := (hloops hfirst.length_le).mp hr
    obtain ⟨us, rfl, hus, hnext⟩ := (hoperand hlen).mp hfirst
    rw [List.length_append] at hlen
    obtain ⟨vs, rfl, hvs, hends⟩ :=
      binary_of_loops hops hoperand hloop (by omega) (.operand hus) hnext
    exact ⟨us ++ vs, by simp, hvs, hends⟩
  · intro hr
    obtain ⟨us, rfl, hus, hends⟩ := hr
    obtain ⟨hnone, hnext⟩ := continues_cons.mp hends
    have hstop : Loops limit (operatorStep ops operand) n rest n rest :=
      .stop ((reads_operatorStep hops).mpr (.inr ⟨hnone, rfl, rfl⟩))
    obtain ⟨first, mid, hfirst, hloop⟩ :=
      loops_of_binary hops (fun k hk => (hapart.1 k hk).1) hoperand hus (by omega) hnext hstop
    exact ⟨first, mid, hfirst, (hloops hfirst.length_le).mpr hloop⟩

/-- All levels over the exact parser of unary expressions. -/
theorem exact_levels (hlimit : size < limit) {unary : Parse Node}
    (hunary : Exact limit (size + 1) unary fun us n k => Unary E us n ∧ startsPostfix k = false) :
    ∀ {ls : List Operators}, Apart ls →
      Exact limit (size + 1) (ls.foldr binaryLevel unary) fun us n k =>
        Binary E ls us n ∧ continues ls k = false := by
  intro ls
  induction ls with
  | nil =>
    intro _
    refine hunary.imp fun us n k => ?_
    -- below all levels, only a step after a simple expression goes on
    have hcontinues : continues [] k = startsPostfix k := Bool.or_false _
    rw [hcontinues]
    refine and_congr_left fun _ => ⟨.unary, fun h => ?_⟩
    cases h with
    | unary h => exact h
  | cons ops ls ih =>
    intro hapart
    exact exact_binaryLevel hlimit hapart (ih hapart.2)

end

/-! ## Choices and whole expressions -/

variable (E) in
/-- The branches of a choice in front of a token of a kind, behind the question mark. -/
inductive BranchesBefore (k : TokenKind) : List Token → Node → Option Node → Prop
  | short {isOpen vs p} : E isOpen vs p → Ends isOpen k → k ≠ .colon →
      BranchesBefore k vs p none
  | full {vs p colon isOpen ws m} : E false vs p → colon.kind = .colon → E isOpen ws m →
      Ends isOpen k → BranchesBefore k (vs ++ colon :: ws) p (some m)

/-- Behind the question mark stand whole expressions. A colon that the first one leaves belongs to
this choice. -/
theorem Reader.reads_branches (h : Reader limit size E e) (hlen : ts.length < size) {c : Node} :
    (e >>= fun p => accept .colon >>= fun found =>
      if found = true then e >>= fun m => pure (.ternary c p (some m))
      else pure (.ternary c p none)).Reads limit ts n rest ↔
      ∃ vs p m, ts = vs ++ rest ∧ BranchesBefore E (kindAhead rest) vs p m ∧
        n = .ternary c p m := by
  rw [reads_bind]
  constructor
  · intro hr
    obtain ⟨p, mid, hread, hr⟩ := hr
    obtain ⟨vs, rfl, isOpen, hp, hendsp⟩ := (h.exact hlen).mp hread
    rcases (reads_ifAccept (by decide)).mp hr with ⟨colon, s, rfl, hcolon, hr⟩ | ⟨hnecolon, hr⟩
    · -- the colon was left for this choice, so the branch before it is closed
      rw [kindAhead_cons, hcolon, ends_colon] at hendsp
      subst hendsp
      obtain ⟨m, mid, hm, hr⟩ := reads_bind.mp hr
      obtain ⟨rfl, rfl⟩ := reads_pure.mp hr
      rw [List.length_append, List.length_cons] at hlen
      obtain ⟨ws, rfl, isOpen, hm, hendsm⟩ := (h.exact (by omega)).mp hm
      exact ⟨vs ++ colon :: ws, p, some m, by simp, .full hp hcolon hm hendsm, rfl⟩
    · obtain ⟨rfl, rfl⟩ := reads_pure.mp hr
      exact ⟨vs, p, none, rfl, .short hp hendsp hnecolon, rfl⟩
  · intro hr
    obtain ⟨vs, p, m, rfl, hbranches, rfl⟩ := hr
    cases hbranches with
    | @short isOpen _ _ hp hends hne =>
      refine ⟨p, rest, (h.exact hlen).mpr ⟨vs, rfl, isOpen, hp, hends⟩, ?_⟩
      exact (reads_ifAccept (by decide)).mpr (.inr ⟨hne, reads_pure.mpr ⟨rfl, rfl⟩⟩)
    | @full vs _ colon isOpen ws m hp hcolon hm hends =>
      rw [List.append_assoc, List.cons_append] at hlen ⊢
      have hpositive : e.Reads limit (vs ++ colon :: (ws ++ rest)) p (colon :: (ws ++ rest)) := by
        refine (h.exact hlen).mpr ⟨vs, rfl, false, hp, ?_⟩
        rw [kindAhead_cons, hcolon]
        exact ends_colon.mpr rfl
      have hnegative : e.Reads limit (ws ++ rest) m rest := by
        rw [List.length_append, List.length_cons] at hlen
        exact (h.exact (by omega)).mpr ⟨ws, rfl, isOpen, hm, hends⟩
      refine ⟨p, _, hpositive, (reads_ifAccept (by decide)).mpr (.inl ?_)⟩
      exact ⟨colon, _, rfl, hcolon, reads_bind.mpr ⟨m, rest, hnegative, reads_pure.mpr ⟨rfl, rfl⟩⟩⟩

/-- A choice is read as its condition, which stands alone if no question mark follows. Its branches
are whole expressions on a shorter list. -/
theorem Reader.exact_ternary (h : Reader limit size E e) :
    Exact limit (size + 1) (ternary e) fun us n k => ∃ isOpen, Ternary E isOpen us n ∧
      Ends isOpen k := by
  have hcondition : Exact limit (size + 1) (binaryLevels (unary (primary e))) fun us n k =>
      Binary E levels us n ∧ continues levels k = false :=
    exact_levels h.size_lt h.exact_unary apart_levels
  intro ts n rest hlen
  unfold ternary
  rw [reads_bind]
  constructor
  · intro hr
    obtain ⟨c, mid, hread, hr⟩ := hr
    obtain ⟨us, rfl, hc, hends⟩ := (hcondition hlen).mp hread
    rcases (reads_ifAccept (by decide)).mp hr with ⟨question, s, rfl, hquestion, hr⟩ | ⟨hne, hr⟩
    · rw [List.length_append, List.length_cons] at hlen
      obtain ⟨vs, p, m, rfl, hbranches, rfl⟩ := (h.reads_branches (by omega)).mp hr
      refine ⟨us ++ question :: vs, by simp, ?_⟩
      cases hbranches with
      | short hp hbranch hne =>
        -- no colon is next, and this is what the end of an open choice asks for
        exact ⟨true, .short hc hquestion hp, hbranch.1, hbranch.2.1, fun _ => hne⟩
      | full hp hcolon hm hbranch => exact ⟨_, .full hc hquestion hp hcolon hm, hbranch⟩
    · obtain ⟨rfl, rfl⟩ := reads_pure.mp hr
      exact ⟨us, rfl, false, .plain hc, hends, hne, fun hfalse => nomatch hfalse⟩
  · intro hr
    obtain ⟨us, rfl, isOpen, hternary, hends⟩ := hr
    -- a condition ends in front of its question mark, and the branches stand behind it
    have hbranches : ∀ {us vs c question p m}, Binary E levels us c → question.kind = .question →
        (us ++ question :: (vs ++ rest)).length < size + 1 →
        BranchesBefore E (kindAhead rest) vs p m →
        (ternary e).Reads limit (us ++ question :: (vs ++ rest)) (.ternary c p m) rest := by
      intro us vs c question p m hc hquestion hlen hbranches
      refine reads_bind.mpr ⟨c, _, (hcondition hlen).mpr ⟨us, rfl, hc, ?_⟩, ?_⟩
      · rw [kindAhead_cons, hquestion]
        decide
      rw [List.length_append, List.length_cons] at hlen
      refine (reads_ifAccept (by decide)).mpr (.inl ⟨question, _, rfl, hquestion, ?_⟩)
      exact (h.reads_branches (by omega)).mpr ⟨vs, p, m, rfl, hbranches, rfl⟩
    rw [← reads_bind]
    cases hternary with
    | plain hc =>
      refine reads_bind.mpr ⟨n, rest, (hcondition hlen).mpr ⟨us, rfl, hc, hends.1⟩, ?_⟩
      exact (reads_ifAccept (by decide)).mpr (.inr ⟨hends.2.1, reads_pure.mpr ⟨rfl, rfl⟩⟩)
    | short hc hquestion hp =>
      rw [List.append_assoc, List.cons_append] at hlen ⊢
      -- the whole choice is open, so what follows is no colon and ends the branch, too
      have hne : kindAhead rest ≠ .colon := hends.2.2 rfl
      exact hbranches hc hquestion hlen (.short hp ⟨hends.1, hends.2.1, fun _ => hne⟩ hne)
    | full hc hquestion hp hcolon hm =>
      rw [List.append_assoc, List.cons_append] at hlen ⊢
      exact hbranches hc hquestion hlen (.full hp hcolon hm hends)

end

/-- The induction over the depth: the parts of an expression stand on lists with fewer tokens. -/
theorem reader_expressionWithin {limit : Nat} : ∀ {depth : Nat}, depth < limit →
    Reader limit depth Expression (expressionWithin depth) := by
  intro depth
  induction depth with
  | zero =>
    intro hlimit
    exact ⟨fun ts n rest hlen => absurd hlen (Nat.not_lt_zero _), Expression.begins, hlimit⟩
  | succ depth ih =>
    intro hlimit
    refine ⟨fun ts n rest hlen => ?_, Expression.begins, hlimit⟩
    simp only [expression_iff]
    exact (ih (by omega)).exact_ternary hlen

/-- The parser of expressions reads exactly the expressions that end in front of the token behind
them. -/
theorem exact_expression {limit : Nat} : Exact limit limit expression fun us n k =>
    ∃ isOpen, Expression isOpen us n ∧ Ends isOpen k := by
  intro ts n rest hlen
  cases limit with
  | zero => exact absurd hlen (Nat.not_lt_zero _)
  | succ depth =>
    simp only [expression_iff]
    exact (reader_expressionWithin (Nat.lt_succ_self depth)).exact_ternary hlen

theorem reader_expression {limit size : Nat} (h : size < limit) :
    Reader limit size Expression expression :=
  ⟨fun _ _ _ hlen => exact_expression (by omega), Expression.begins, h⟩

theorem BareExpression.noEnd {us : List Token} {n : Node} (h : BareExpression us n) : NoEnd us := by
  cases h with
  | plain h => exact h.insideBlock.noEnd
  | closed h hclose => exact h.insideBlock.noEnd.around hclose (by decide) avoids_nil

/-- A bare expression is read up to the end of the source. -/
theorem reads_bareExpression {limit : Nat} {ts rest : List Token} {n : Node}
    (hlen : ts.length < limit) :
    bareExpression.Reads limit ts n rest ↔
      ∃ us, ts = us ++ rest ∧ BareExpression us n ∧ kindAhead rest = .eof := by
  have hend : ∀ {s : List Token} {m : Node},
      (isNext .eof >>= fun found => if found = true then pure m
        else reject "\"\x7d\x7d\" or end of input" >>= fun _ : PUnit => pure m).Reads
          limit s n rest ↔
        n = m ∧ rest = s ∧ kindAhead s = .eof := by
    intro s m
    rw [reads_isNext, reads_unless (f := fun _ => pure m), beq_iff_eq, reads_pure]
    exact ⟨fun h => ⟨h.2.1, h.2.2, h.1⟩, fun h => ⟨h.2.2, h.1, h.2.1⟩⟩
  unfold bareExpression
  rw [reads_bind]
  constructor
  · intro hr
    obtain ⟨m, mid, hm, hr⟩ := hr
    obtain ⟨us, rfl, isOpen, hus, _⟩ := (exact_expression hlen).mp hm
    rcases (reads_ifAccept (by decide)).mp hr with ⟨close, s, rfl, hclose, hr⟩ | ⟨_, hr⟩
    · obtain ⟨rfl, rfl, heof⟩ := hend.mp hr
      exact ⟨us ++ [close], by simp, .closed hus hclose, heof⟩
    · obtain ⟨rfl, rfl, heof⟩ := hend.mp hr
      exact ⟨us, rfl, .plain hus, heof⟩
  · intro hr
    obtain ⟨us, rfl, hbare, heof⟩ := hr
    cases hbare with
    | @plain isOpen _ _ hus =>
      refine ⟨n, rest, (exact_expression hlen).mpr ⟨us, rfl, isOpen, hus, heof ▸ ends_eof⟩, ?_⟩
      exact (reads_ifAccept (by decide)).mpr (.inr ⟨by rw [heof]; decide,
        hend.mpr ⟨rfl, rfl, heof⟩⟩)
    | @closed isOpen us _ close hus hclose =>
      rw [List.append_assoc] at hlen ⊢
      refine ⟨n, close :: rest, (exact_expression hlen).mpr ⟨us, rfl, isOpen, hus, ?_⟩, ?_⟩
      · rw [kindAhead_cons, hclose]
        exact ends_of_mem_closers (by decide)
      · exact (reads_ifAccept (by decide)).mpr (.inl ⟨close, rest, rfl, hclose,
          hend.mpr ⟨rfl, rfl, heof⟩⟩)

/-- A list of tokens is parsed as a bare expression if and only if the part of it in front of the
end of the source derives the tree. -/
theorem bareExpression_iff (ts : List Token) (n : Node) :
    (∃ rest, runTokens bareExpression ts = .ok (n, rest)) ↔ BareExpression (beforeEnd ts) n := by
  constructor
  · intro h
    obtain ⟨rest, hrun⟩ := h
    obtain ⟨us, heq, hbare, hend⟩ := (reads_bareExpression (Nat.lt_succ_self _)).mp hrun
    rw [heq, beforeEnd_append hbare.noEnd hend]
    exact hbare
  · intro hbare
    obtain ⟨rest, heq, hend⟩ := exists_beforeEnd ts
    exact ⟨rest, (reads_bareExpression (Nat.lt_succ_self _)).mpr ⟨beforeEnd ts, heq, hbare, hend⟩⟩

/-- A colon belongs to the inner choice, and the outer one has no second branch. -/
example :
    runTokens bareExpression [
        ⟨.identifier, some 1, "a"⟩, ⟨.question, some 3, "?"⟩, ⟨.identifier, some 5, "b"⟩,
        ⟨.question, some 7, "?"⟩, ⟨.identifier, some 9, "c"⟩, ⟨.colon, some 11, ":"⟩,
        ⟨.identifier, some 13, "d"⟩] =
      .ok (.ternary (.ofName "a") (.ternary (.ofName "b") (.ofName "c") (some (.ofName "d"))) none,
        []) := by
  rfl

end Stencil.Derives
