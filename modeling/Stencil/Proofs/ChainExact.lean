import Stencil.Proofs.ExpressionGrammar

/-!
# The parsers of chains are exact

A simple expression and the steps behind it, with which a property is named, an index is given or a
call is made. Each lemma is about the parsers as functions of the parser of whole expressions: if
that one is exact on short lists (`Derives.Reader`), these are exact on lists with one token more,
because each of them takes a token before it asks for a whole expression.

A parser takes as much as it can. An exact parser therefore also says in front of which tokens it
ends: not in front of one with which what it has read could go on (`continues`, `Ends`).

> `Derives.Reader.exact_simple`: literals, names, lists, maps and expressions in brackets.
> `Derives.Reader.exact_chain`: a chain ends in front of a token that starts no further step.
-/

namespace Stencil.Derives

open Grammar Parse

/-! ## Where expressions end -/

/-- The kinds of tokens that start a step after a simple expression. -/
def startsPostfix : TokenKind → Bool
  | .dot | .leftBracket | .leftParen => true
  | _ => false

/-- The kinds of tokens with which an operand of the levels goes on. -/
def continues (ls : List Operators) (k : TokenKind) : Bool :=
  startsPostfix k || ls.any fun ops => (ops.lookup k).isSome

/-- An expression ends in front of a token with which it cannot go on. A colon goes on with an open
one. -/
def Ends (isOpen : Bool) (k : TokenKind) : Prop :=
  continues levels k = false ∧ k ≠ .question ∧ (isOpen = true → k ≠ .colon)

/-- The kinds of tokens behind which every expression ends. -/
def closers : List TokenKind :=
  [.rightParen, .rightBracket, .comma, .blockClose]

/-- No expression goes on with a closing bracket, a comma or the end of its block. -/
theorem ends_of_mem_closers {isOpen : Bool} {k : TokenKind} (h : k ∈ closers) : Ends isOpen k := by
  simp only [closers, List.mem_cons, List.not_mem_nil, or_false] at h
  rcases h with rfl | rfl | rfl | rfl <;> exact ⟨by decide, by decide, fun _ => by decide⟩

theorem ends_eof {isOpen : Bool} : Ends isOpen .eof :=
  ⟨by decide, by decide, fun _ => by decide⟩

/-- An open expression, a choice without its last part, takes a colon that follows; a closed one
ends in front of it. -/
theorem ends_colon {isOpen : Bool} : Ends isOpen .colon ↔ isOpen = false := by
  constructor
  · intro h
    cases isOpen with
    | false => rfl
    | true => exact absurd rfl (h.2.2 rfl)
  · intro heq
    subst heq
    exact ⟨by decide, by decide, fun h => nomatch h⟩

/-- The parser of whole expressions reads the expressions of a relation. -/
structure Reader (limit size : Nat) (E : Bool → List Token → Node → Prop) (e : Parse Node) :
    Prop where
  exact : Exact limit size e fun us n k => ∃ isOpen, E isOpen us n ∧ Ends isOpen k
  begins : ∀ {isOpen us n}, E isOpen us n → Begins startsExpression us
  size_lt : size < limit

section

variable {limit size : Nat} {E : Bool → List Token → Node → Prop} {e : Parse Node}
  {ts rest : List Token} {n : Node}

/-- An expression up to a token behind which every expression ends. -/
theorem Reader.reads_upTo {β : Type} (h : Reader limit size E e) {close : TokenKind}
    (hclose : close ∈ closers) {f : Node → Parse β} {b : β}
    (hlen : ts.length < size) :
    (e >>= fun n => expect close >>= fun _ => f n).Reads limit ts b rest ↔
      ∃ us c mid isOpen n, ts = us ++ c :: mid ∧ E isOpen us n ∧ c.kind = close ∧
        (f n).Reads limit mid b rest := by
  have hend : close ≠ .eof := by
    intro heq
    subst heq
    exact absurd hclose (by decide)
  rw [reads_bind]
  constructor
  · intro hr
    obtain ⟨n, mid, hn, hr⟩ := hr
    obtain ⟨c, mid, rfl, hc, hr⟩ := (reads_expect hend).mp hr
    obtain ⟨us, rfl, isOpen, hE, _⟩ := (h.exact hlen).mp hn
    exact ⟨us, c, mid, isOpen, n, rfl, hE, hc, hr⟩
  · intro hr
    obtain ⟨us, c, mid, isOpen, n, rfl, hE, hc, hr⟩ := hr
    refine ⟨n, c :: mid, (h.exact hlen).mpr ⟨us, rfl, isOpen, hE, ?_⟩, ?_⟩
    · rw [kindAhead_cons, hc]
      exact ends_of_mem_closers hclose
    · exact (reads_expect hend).mpr ⟨c, mid, rfl, hc, hr⟩

/-! ## Simple expressions -/

theorem reads_leaf {t : Token} {m : Node} :
    (leaf m).Reads limit (t :: ts) n rest ↔ n = m ∧ rest = ts := by
  unfold leaf
  rw [reads_advance]
  exact reads_pure

/-- The parser of simple expressions takes literals and names by their kind. -/
theorem reads_simple_leaf {t : Token} (h : Leaf t n) :
    (simple e).Reads limit (t :: rest) n rest := by
  unfold simple
  rw [reads_peek, List.headD_cons]
  cases h with
  | nullWord hk | trueWord hk | falseWord hk | string hk =>
    rw [hk]
    exact reads_leaf.mpr ⟨rfl, rfl⟩
  | int hk hn | double hk hn =>
    simp only [hk, hn]
    exact reads_leaf.mpr ⟨rfl, rfl⟩
  | name hk =>
    simp only [List.mem_cons, List.not_mem_nil, or_false] at hk
    rcases hk with hk | hk | hk | hk <;>
    · rw [hk]
      exact reads_leaf.mpr ⟨rfl, rfl⟩

variable (E) in
/-- An entry of a map in front of a token of a kind. -/
inductive EntryBefore (k : TokenKind) : List Token → Entry → Prop
  | plain {isOpen us n} : E isOpen us n → Ends isOpen k → k ≠ .colon →
      EntryBefore k us (.mk none n)
  | keyed {us m key colon isOpen vs n} : E false us m → mapKey? m = some key →
      colon.kind = .colon → E isOpen vs n → Ends isOpen k →
      EntryBefore k (us ++ colon :: vs) (.mk (some key) n)

/-- In front of a comma or the closing bracket an entry is any entry of the grammar. -/
theorem entryBefore_iff {us : List Token} {entry : Entry} {k : TokenKind}
    (hk : k = .comma ∨ k = .rightBracket) : EntryBefore E k us entry ↔ MapEntry E us entry := by
  have hk : k ∈ closers := by rcases hk with rfl | rfl <;> decide
  constructor
  · intro h
    cases h with
    | plain h => exact .plain h
    | keyed hkey hm hcolon hvalue => exact .keyed hkey hm hcolon hvalue
  · intro h
    cases h with
    | plain h =>
      refine .plain h (ends_of_mem_closers hk) ?_
      intro heq
      subst heq
      exact absurd hk (by decide)
    | keyed hkey hm hcolon hvalue =>
      exact .keyed hkey hm hcolon hvalue (ends_of_mem_closers hk)

/-- A map entry is read as an expression first; a colon behind it decides that it was the key. -/
theorem Reader.exact_mapEntry (h : Reader limit size E e) :
    Exact limit size (mapEntry e) fun us entry k => EntryBefore E k us entry := by
  intro ts entry rest hlen
  unfold mapEntry
  rw [reads_bind]
  constructor
  · intro hr
    obtain ⟨first, mid, hfirst, hr⟩ := hr
    obtain ⟨us, rfl, isOpen, hE, hends⟩ := (h.exact hlen).mp hfirst
    -- the colon was left for the entry, so the key lacks no second branch
    rcases (reads_ifNext (by decide)).mp hr with ⟨colon, mid, rfl, hc, hr⟩ | ⟨hne, hr⟩
    · rw [kindAhead_cons, hc, ends_colon] at hends
      subst hends
      simp only [if_true] at hr
      split at hr
      next key hkey =>
        obtain ⟨value, r, hvalue, hr⟩ := reads_bind.mp (reads_advance.mp hr)
        obtain ⟨rfl, rfl⟩ := reads_pure.mp hr
        rw [List.length_append, List.length_cons] at hlen
        obtain ⟨vs, rfl, isOpen, hE', hends'⟩ := (h.exact (by omega)).mp hvalue
        exact ⟨us ++ colon :: vs, by simp, .keyed hE hkey hc hE' hends'⟩
      next => exact (reads_reject.mp hr).elim
    · obtain ⟨rfl, rfl⟩ := reads_pure.mp hr
      exact ⟨us, rfl, .plain hE hends hne⟩
  · intro hr
    obtain ⟨us, rfl, hentry⟩ := hr
    cases hentry with
    | @plain isOpen us n hE hends hne =>
      refine ⟨n, rest, (h.exact hlen).mpr ⟨us, rfl, isOpen, hE, hends⟩, ?_⟩
      exact (reads_ifNext (by decide)).mpr (.inr ⟨hne, reads_pure.mpr ⟨rfl, rfl⟩⟩)
    | @keyed us m key colon isOpen vs n hE hkey hcolon hE' hends =>
      rw [List.append_assoc, List.cons_append] at hlen ⊢
      have hfirst : e.Reads limit (us ++ colon :: (vs ++ rest)) m (colon :: (vs ++ rest)) := by
        refine (h.exact hlen).mpr ⟨us, rfl, false, hE, ?_⟩
        rw [kindAhead_cons, hcolon]
        exact ends_colon.mpr rfl
      have hvalue : e.Reads limit (vs ++ rest) n rest := by
        rw [List.length_append, List.length_cons] at hlen
        exact (h.exact (by omega)).mpr ⟨vs, rfl, isOpen, hE', hends⟩
      refine ⟨m, _, hfirst, (reads_ifNext (by decide)).mpr (.inl ⟨colon, _, rfl, hcolon, ?_⟩)⟩
      rw [if_pos rfl, hkey]
      exact reads_advance.mpr (reads_bind.mpr ⟨n, rest, hvalue, reads_pure.mpr ⟨rfl, rfl⟩⟩)

/-- An entry begins as an expression does, with its key or with its value. -/
theorem Reader.mapEntry_begins (h : Reader limit size E e) {us : List Token} {entry : Entry}
    (hentry : MapEntry E us entry) : Begins startsExpression us := by
  cases hentry with
  | plain hE => exact h.begins hE
  | keyed hE => exact (h.begins hE).append _

/-- A list begins as its first item does. -/
theorem Begins.of_separated {α : Type} {sep : TokenKind} {starts : TokenKind → Bool}
    {item : List Token → α → Prop}
    (hitem : ∀ {us a}, item us a → Begins starts us) {us : List Token} {as : List α}
    (h : Separated sep item us as) : Begins starts us := by
  cases h with
  | one ha => exact hitem ha
  | more ha => exact (hitem ha).append _

/-- A map after its opening bracket. -/
theorem Reader.reads_mapLiteral (h : Reader limit size E e) (hlen : ts.length < size) :
    (mapLiteral e).Reads limit ts n rest ↔
      (∃ right, ts = right :: rest ∧ right.kind = .rightBracket ∧ n = .map []) ∨
        ∃ us entries right, ts = us ++ right :: rest ∧ Separated .comma (MapEntry E) us entries ∧
          right.kind = .rightBracket ∧ n = .map entries := by
  unfold mapLiteral
  rw [reads_ifAccept (by decide)]
  constructor
  · intro hr
    rcases hr with ⟨right, us, rfl, hright, hr⟩ | ⟨_, hr⟩
    · obtain ⟨rfl, rfl⟩ := reads_pure.mp hr
      exact .inl ⟨right, rfl, hright, rfl⟩
    · obtain ⟨us, right, mid, entries, rfl, hentries, hright, hr⟩ :=
        (reads_commaList h.exact_mapEntry entryBefore_iff (by decide) (by decide) hlen
          (Nat.le_of_lt h.size_lt)).mp hr
      obtain ⟨rfl, rfl⟩ := reads_pure.mp hr
      exact .inr ⟨us, entries, right, rfl, hentries, hright, rfl⟩
  · intro hr
    rcases hr with ⟨right, rfl, hright, rfl⟩ | ⟨us, entries, right, rfl, hentries, hright, rfl⟩
    · exact .inl ⟨right, rest, rfl, hright, reads_pure.mpr ⟨rfl, rfl⟩⟩
    · -- an entry does not start with the closing bracket
      refine .inr ⟨(Begins.of_separated h.mapEntry_begins hentries).kindAhead_ne rfl _, ?_⟩
      exact (reads_commaList h.exact_mapEntry entryBefore_iff (by decide) (by decide) hlen
          (Nat.le_of_lt h.size_lt)).mpr
            ⟨us, right, rest, entries, rfl, hentries, hright, reads_pure.mpr ⟨rfl, rfl⟩⟩

/-- The parser of simple expressions is exact, kind by kind. Inside its brackets it needs whole
expressions only on shorter lists, so it is exact on lists with one token more than they are. -/
theorem Reader.exact_simple (h : Reader limit size E e) :
    Exact limit (size + 1) (simple e) fun us n _ => Simple E us n := by
  intro ts n rest hlen
  constructor
  · intro hr
    unfold simple at hr
    rw [reads_peek] at hr
    cases ts with
    | nil => exact (reads_reject.mp hr).elim
    | cons t ts =>
      simp only [List.headD_cons] at hr
      have hlen' : ts.length < size := by
        rw [List.length_cons] at hlen
        omega
      -- a leaf is one token, which the parser takes
      have hleaf : ∀ {m : Node}, Leaf t m → (leaf m).Reads limit (t :: ts) n rest →
          ∃ us, t :: ts = us ++ rest ∧ Simple E us n := by
        intro m hm hr
        obtain ⟨rfl, rfl⟩ := reads_leaf.mp hr
        exact ⟨[t], rfl, .leaf hm⟩
      split at hr
      next hk => exact hleaf (.nullWord hk) hr
      next hk => exact hleaf (.trueWord hk) hr
      next hk => exact hleaf (.falseWord hk) hr
      next hk =>
        split at hr
        next hn => exact hleaf (.int hk hn) hr
        next => exact (reads_reject.mp hr).elim
      next hk =>
        split at hr
        next hd => exact hleaf (.double hk hd) hr
        next => exact (reads_reject.mp hr).elim
      next hk => exact hleaf (.string hk) hr
      next hk => exact hleaf (.name (by rw [hk]; decide)) hr
      next hk => exact hleaf (.name (by rw [hk]; decide)) hr
      next hk => exact hleaf (.name (by rw [hk]; decide)) hr
      next hk => exact hleaf (.name (by rw [hk]; decide)) hr
      next hk =>
        rcases (h.reads_mapLiteral hlen').mp (reads_advance.mp hr) with
          ⟨right, rfl, hright, rfl⟩ | ⟨us, entries, right, rfl, hentries, hright, rfl⟩
        · exact ⟨[t, right], rfl, .emptyMap hk hright⟩
        · exact ⟨t :: (us ++ [right]), by simp, .map hk hentries hright⟩
      next hk =>
        obtain ⟨us, right, mid, isOpen, m, rfl, hE, hright, hr⟩ :=
          (h.reads_upTo (by decide) hlen').mp (reads_advance.mp hr)
        obtain ⟨rfl, rfl⟩ := reads_pure.mp hr
        exact ⟨t :: (us ++ [right]), by simp, .group hk hE hright⟩
      next => exact (reads_reject.mp hr).elim
  · intro hr
    obtain ⟨us, rfl, hsimple⟩ := hr
    cases hsimple with
    | leaf hleaf => exact reads_simple_leaf hleaf
    | @emptyMap left right hleft hright =>
      unfold simple
      rw [reads_peek]
      simp only [List.cons_append, List.nil_append, List.headD_cons, hleft]
      refine reads_advance.mpr ((h.reads_mapLiteral ?_).mpr (.inl ⟨right, rfl, hright, rfl⟩))
      simp only [List.length_append, List.length_cons, List.length_nil] at hlen
      rw [List.length_cons]
      omega
    | @map left us entries right hleft hentries hright =>
      unfold simple
      rw [reads_peek]
      simp only [List.cons_append, List.append_assoc, List.nil_append, List.headD_cons, hleft,
        List.length_cons] at hlen ⊢
      exact reads_advance.mpr ((h.reads_mapLiteral (by omega)).mpr
        (.inr ⟨us, entries, right, rfl, hentries, hright, rfl⟩))
    | @group left isOpen us n right hleft hE hright =>
      unfold simple
      rw [reads_peek]
      simp only [List.cons_append, List.append_assoc, List.nil_append, List.headD_cons, hleft,
        List.length_cons] at hlen ⊢
      exact reads_advance.mpr ((h.reads_upTo (by decide) (by omega)).mpr
        ⟨us, right, rest, isOpen, n, rfl, hE, hright, reads_pure.mpr ⟨rfl, rfl⟩⟩)

/-! ## Chains -/

/-- A part of a list begins as an expression does. -/
theorem Reader.part_begins (h : Reader limit size E e) {us : List Token} (hpart : Part E us n) :
    Begins startsExpression us := by
  cases hpart with
  | mk hE => exact h.begins hE

/-- Arguments up to and with the closing bracket. -/
theorem Reader.reads_arguments (h : Reader limit size E e) {args : List Node}
    (hlen : ts.length < size) :
    (arguments e).Reads limit ts args rest ↔
      ∃ us right, ts = us ++ right :: rest ∧ Arguments E us args ∧ right.kind = .rightParen := by
  have hpart : ∀ {us : List Token} {m : Node} {k : TokenKind}, k = .comma ∨ k = .rightParen →
      ((∃ isOpen, E isOpen us m ∧ Ends isOpen k) ↔ Part E us m) := by
    intro us m k hk
    have hk : k ∈ closers := by rcases hk with rfl | rfl <;> decide
    constructor
    · intro hr
      obtain ⟨isOpen, hE, _⟩ := hr
      exact .mk hE
    · intro hr
      obtain ⟨hE⟩ := hr
      exact ⟨_, hE, ends_of_mem_closers hk⟩
  unfold arguments
  rw [reads_ifAccept (by decide)]
  constructor
  · intro hr
    rcases hr with ⟨right, us, rfl, hright, hr⟩ | ⟨_, hr⟩
    · obtain ⟨rfl, rfl⟩ := reads_pure.mp hr
      exact ⟨[], right, rfl, .none, hright⟩
    · obtain ⟨us, right, mid, as, rfl, has, hright, hr⟩ :=
        (reads_commaList h.exact hpart (by decide) (by decide) hlen (Nat.le_of_lt h.size_lt)).mp hr
      obtain ⟨rfl, rfl⟩ := reads_pure.mp hr
      exact ⟨us, right, rfl, .some has, hright⟩
  · intro hr
    obtain ⟨us, right, rfl, hargs, hright⟩ := hr
    cases hargs with
    | none => exact .inl ⟨right, rest, rfl, hright, reads_pure.mpr ⟨rfl, rfl⟩⟩
    | some has =>
      -- an argument does not start with the closing bracket
      refine .inr ⟨(Begins.of_separated h.part_begins has).kindAhead_ne rfl _, ?_⟩
      exact (reads_commaList h.exact hpart (by decide) (by decide) hlen
        (Nat.le_of_lt h.size_lt)).mpr
          ⟨us, right, rest, args, rfl, has, hright, reads_pure.mpr ⟨rfl, rfl⟩⟩

/-- Behind a point any word may stand, keywords among them. -/
theorem reads_propertyName {s : String} :
    propertyName.Reads limit ts s rest ↔
      ∃ t, ts = t :: rest ∧ t.kind.isWord = true ∧ s = t.text := by
  unfold propertyName
  rw [reads_peek]
  cases ts with
  | nil =>
    refine ⟨fun h => (reads_reject.mp h).elim, ?_⟩
    intro hr
    obtain ⟨_, hnil, _⟩ := hr
    cases hnil
  | cons t ts =>
    rw [List.headD_cons]
    constructor
    · intro h
      split at h
      next hword =>
        have hr := reads_advance.mp h
        obtain ⟨rfl, rfl⟩ := reads_pure.mp hr
        exact ⟨t, rfl, hword, rfl⟩
      next => exact (reads_reject.mp h).elim
    · intro hr
      obtain ⟨_, heq, hword, rfl⟩ := hr
      cases heq
      rw [if_pos hword]
      exact reads_advance.mpr (reads_pure.mpr ⟨rfl, rfl⟩)

/-- A call in front of its opening bracket. -/
theorem Reader.reads_call (h : Reader limit size E e) {callee : Node} (hlen : ts.length ≤ size) :
    (call e callee).Reads limit ts n rest ↔
      ∃ path name left us args right, callee = .selector (path ++ [name]) ∧
        ts = left :: (us ++ right :: rest) ∧ left.kind = .leftParen ∧ Arguments E us args ∧
        right.kind = .rightParen ∧ n = .call (target path) name args := by
  unfold call
  constructor
  · intro hr
    split at hr
    next path =>
      split at hr
      next name hname =>
        obtain ⟨left, us, rfl, hleft, hr⟩ := (reads_expect (by decide)).mp hr
        obtain ⟨args, mid, hargs, hr⟩ := reads_bind.mp hr
        obtain ⟨rfl, rfl⟩ := reads_pure.mp hr
        rw [List.length_cons] at hlen
        obtain ⟨us, right, rfl, hargs, hright⟩ := (h.reads_arguments (by omega)).mp hargs
        obtain ⟨path, rfl⟩ := List.getLast?_eq_some_iff.mp hname
        refine ⟨path, name, left, us, args, right, rfl, rfl, hleft, hargs, hright, ?_⟩
        rw [List.dropLast_concat, target]
      next => exact (reads_reject.mp hr).elim
    next => exact (reads_reject.mp hr).elim
  · intro hr
    obtain ⟨path, name, left, us, args, right, rfl, rfl, hleft, hargs, hright, rfl⟩ := hr
    have hname : (path ++ [name]).getLast? = some name := List.getLast?_concat
    simp only [hname]
    rw [List.length_cons] at hlen
    refine (reads_expect (by decide)).mpr ⟨left, _, rfl, hleft, reads_bind.mpr ⟨args, rest, ?_, ?_⟩⟩
    · exact (h.reads_arguments (by omega)).mpr ⟨us, right, rfl, hargs, hright⟩
    · rw [List.dropLast_concat]
      exact reads_pure.mpr ⟨rfl, rfl⟩

/-- A chain ends where none of the three kinds follows. -/
theorem startsPostfix_eq_false {k : TokenKind} :
    startsPostfix k = false ↔ k ≠ .dot ∧ k ≠ .leftBracket ∧ k ≠ .leftParen := by
  cases k <;> decide

/-- A step takes what makes one node of another, and leaves what starts no step. -/
theorem Reader.reads_postfixStep (h : Reader limit size E e) {found : Option Node}
    (hlen : ts.length ≤ size) :
    (postfixStep e n).Reads limit ts found rest ↔
      (∃ us m, ts = us ++ rest ∧ Postfix E n us m ∧ found = some m) ∨
        startsPostfix (kindAhead ts) = false ∧ rest = ts ∧ found = none := by
  unfold postfixStep
  rw [reads_ifAccept (by decide)]
  simp only [if_true, Bool.false_eq_true, if_false]
  constructor
  · intro hr
    rcases hr with ⟨dot, us, rfl, hdot, hr⟩ | ⟨hdot, hr⟩
    · obtain ⟨name, mid, hname, hr⟩ := reads_bind.mp hr
      obtain ⟨word, rfl, hword, rfl⟩ := reads_propertyName.mp hname
      obtain ⟨rfl, rfl⟩ := reads_pure.mp hr
      exact .inl ⟨[dot, word], _, rfl, .property hdot hword, rfl⟩
    -- an index, which the parser rejects if it is empty
    rcases (reads_ifAccept (by decide)).mp hr with ⟨left, us, rfl, hleft, hr⟩ | ⟨hleft, hr⟩
    · rcases (reads_ifNext (by decide)).mp hr with ⟨t, ws, rfl, ht, hr⟩ | ⟨hne, hr⟩
      · obtain ⟨_, _, hr, _⟩ := reads_bind.mp hr
        exact (reads_reject.mp hr).elim
      · rw [List.length_cons] at hlen
        obtain ⟨us, right, mid, isOpen, i, rfl, hE, hright, hr⟩ :=
          (h.reads_upTo (by decide) (by omega)).mp hr
        obtain ⟨rfl, rfl⟩ := reads_pure.mp hr
        exact .inl ⟨left :: (us ++ [right]), _, by simp, .index hleft hE hright, rfl⟩
    -- a call leaves its opening bracket to the parser of calls
    rcases (reads_ifNext (by decide)).mp hr with ⟨t, ws, rfl, ht, hr⟩ | ⟨hparen, hr⟩
    · obtain ⟨m, mid, hm, hr⟩ := reads_bind.mp hr
      obtain ⟨rfl, rfl⟩ := reads_pure.mp hr
      obtain ⟨path, name, left, us, args, right, rfl, heq, hleft, hargs, hright, rfl⟩ :=
        (h.reads_call hlen).mp hm
      refine .inl ⟨left :: (us ++ [right]), _, by simp [heq], .call hleft hargs hright, rfl⟩
    · obtain ⟨rfl, rfl⟩ := reads_pure.mp hr
      exact .inr ⟨startsPostfix_eq_false.mpr ⟨hdot, hleft, hparen⟩, rfl, rfl⟩
  · intro hr
    rcases hr with ⟨us, m, rfl, hstep, rfl⟩ | ⟨hends, rfl, rfl⟩
    · cases hstep with
      | @property n dot word hdot hword =>
        refine .inl ⟨dot, word :: rest, rfl, hdot, reads_bind.mpr ⟨word.text, rest, ?_, ?_⟩⟩
        · exact reads_propertyName.mpr ⟨word, rfl, hword, rfl⟩
        · exact reads_pure.mpr ⟨rfl, rfl⟩
      | @index n left isOpen us i right hleft hE hright =>
        simp only [List.cons_append, List.append_assoc, List.nil_append, List.length_cons] at hlen ⊢
        refine .inr ⟨Token.kind_ne hleft (by decide), (reads_ifAccept (by decide)).mpr
          (.inl ⟨left, _, rfl, hleft, ?_⟩)⟩
        -- an index does not start with the closing bracket
        refine (reads_ifNext (by decide)).mpr (.inr ⟨(h.begins hE).kindAhead_ne rfl _, ?_⟩)
        exact (h.reads_upTo (by decide) (by omega)).mpr
          ⟨us, right, rest, isOpen, i, rfl, hE, hright, reads_pure.mpr ⟨rfl, rfl⟩⟩
      | @call path name left us args right hleft hargs hright =>
        simp only [List.cons_append, List.append_assoc, List.nil_append] at hlen ⊢
        refine .inr ⟨Token.kind_ne hleft (by decide), (reads_ifAccept (by decide)).mpr
          (.inr ⟨Token.kind_ne hleft (by decide), (reads_ifNext (by decide)).mpr
            (.inl ⟨left, _, rfl, hleft, reads_bind.mpr
              ⟨_, rest, (h.reads_call hlen).mpr ?_, reads_pure.mpr ⟨rfl, rfl⟩⟩⟩)⟩)⟩
        exact ⟨path, name, left, us, args, right, rfl, rfl, hleft, hargs, hright, rfl⟩
    · obtain ⟨hdot, hleft, hparen⟩ := startsPostfix_eq_false.mp hends
      exact .inr ⟨hdot, (reads_ifAccept (by decide)).mpr (.inr ⟨hleft,
        (reads_ifNext (by decide)).mpr (.inr ⟨hparen, reads_pure.mpr ⟨rfl, rfl⟩⟩)⟩)⟩

theorem Postfix.ne_nil {m : Node} {us : List Token} (h : Postfix E n us m) : us ≠ [] := by
  cases h <;> exact List.cons_ne_nil _ _

/-- What the loop reads behind a chain makes a longer chain of it. -/
private theorem Reader.chain_of_loops (h : Reader limit size E e) {m : Node} {us : List Token}
    (hloop : Loops limit (postfixStep e) n ts m rest) (hlen : ts.length ≤ size)
    (hchain : Chain E us n) :
    ∃ vs, ts = vs ++ rest ∧ Chain E (us ++ vs) m ∧ startsPostfix (kindAhead rest) = false := by
  induction hloop generalizing us with
  | stop hfound =>
    rcases (h.reads_postfixStep hlen).mp hfound with ⟨_, _, _, _, hsome⟩ | ⟨hends, rfl, _⟩
    · cases hsome
    · exact ⟨[], rfl, by rwa [List.append_nil], hends⟩
  | turn hfound _ ih =>
    rcases (h.reads_postfixStep hlen).mp hfound with ⟨vs, m, rfl, hstep, hsome⟩ | ⟨_, _, hsome⟩
    · cases hsome
      rw [List.length_append] at hlen
      obtain ⟨ws, rfl, hlonger, hends⟩ := ih (by omega) (.step hchain hstep)
      exact ⟨vs ++ ws, by simp, by rwa [← List.append_assoc], hends⟩
    · cases hsome

/-- A chain is read from the left: what a loop reads behind the chain, it also reads behind the
simple expression at the front. -/
private theorem Reader.loops_of_chain (h : Reader limit size E e) {m : Node} {us : List Token}
    (hchain : Chain E us n) (hlen : (us ++ ts).length ≤ size)
    (hloop : Loops limit (postfixStep e) n ts m rest) :
    ∃ first mid, (simple e).Reads limit (us ++ ts) first mid ∧
      Loops limit (postfixStep e) first mid m rest := by
  induction hchain generalizing ts with
  | @simple us n hsimple =>
    exact ⟨n, ts, (h.exact_simple (by omega)).mpr ⟨us, rfl, hsimple⟩, hloop⟩
  | @step us n vs m hchain hstep ih =>
    rw [List.append_assoc] at hlen ⊢
    -- the last step of the chain is one more turn of the loop behind the shorter chain
    refine ih hlen (.turn ((h.reads_postfixStep ?_).mpr (.inl ⟨vs, m, rfl, hstep, rfl⟩)) hloop)
    rw [List.length_append] at hlen
    omega

/-- A step takes at least one token, so that the loop over the steps ends. -/
theorem Reader.length_lt_of_postfixStep (h : Reader limit size E e) {m : Node}
    (hlen : ts.length ≤ size) (hr : (postfixStep e n).Reads limit ts (some m) rest) :
    rest.length < ts.length := by
  rcases (h.reads_postfixStep hlen).mp hr with ⟨us, _, rfl, hstep, _⟩ | ⟨_, _, hsome⟩
  · have hpos := List.length_pos_iff.mpr hstep.ne_nil
    rw [List.length_append]
    omega
  · cases hsome

/-- A chain is read up to the first token that starts no step. -/
theorem Reader.exact_chain (h : Reader limit size E e) :
    Exact limit (size + 1) (simple e >>= iterate (postfixStep e)) fun us n k =>
      Chain E us n ∧ startsPostfix k = false := by
  intro ts n rest hlen
  have hloops : ∀ {first : Node} {mid : List Token}, mid.length ≤ ts.length →
      ((iterate (postfixStep e) first).Reads limit mid n rest ↔
        Loops limit (postfixStep e) first mid n rest) := by
    intro first mid hle
    have hlt := h.size_lt
    -- a step takes a token, so the loop ends before its fuel does
    exact reads_iterate (fun hs => h.length_lt_of_postfixStep (by omega)) (by omega)
  rw [reads_bind]
  constructor
  · intro hr
    obtain ⟨first, mid, hfirst, hr⟩ := hr
    have hloop := (hloops hfirst.length_le).mp hr
    obtain ⟨us, rfl, hsimple⟩ := (h.exact_simple hlen).mp hfirst
    rw [List.length_append] at hlen
    obtain ⟨vs, rfl, hchain, hends⟩ := h.chain_of_loops hloop (by omega) (.simple hsimple)
    exact ⟨us ++ vs, by simp, hchain, hends⟩
  · intro hr
    obtain ⟨us, rfl, hchain, hends⟩ := hr
    have hstop : Loops limit (postfixStep e) n rest n rest := by
      rw [List.length_append] at hlen
      exact .stop ((h.reads_postfixStep (by omega)).mpr (.inr ⟨hends, rfl, rfl⟩))
    obtain ⟨first, mid, hfirst, hloop⟩ := h.loops_of_chain hchain (by omega) hstop
    exact ⟨first, mid, hfirst, (hloops hfirst.length_le).mpr hloop⟩

end

end Stencil.Derives
