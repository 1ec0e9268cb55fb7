import Stencil.Grammar.Parse

/-!
# Parsers on lists of tokens

A run on a list of tokens either refuses or ends with a value in front of the rest of the list.
`Parse.Reads` names the second outcome, and the lemmas here take it apart step by step: for every
building block of the parsers they say when it reads something, in terms of the list alone.

Loops are where the fuel would show. A loop whose turns each take a token never uses up its fuel,
so that it can be described by its turns.

> `Parse.reads_bind`: one parser after the other.
> `Parse.reads_iterate`: a loop reads what its turns read one after the other (`Parse.Loops`).
> `Parse.Exact`: a parser reads exactly what a relation derives.
> `Parse.reads_commaList`: a comma list is read as exactly as its items are.
-/

namespace Stencil

/-- The kind of the first token; behind the last token comes the end of the source. -/
def kindAhead (ts : List Token) : TokenKind :=
  (ts.headD Token.eof).kind

@[simp] theorem kindAhead_cons (t : Token) (ts : List Token) : kindAhead (t :: ts) = t.kind :=
  rfl

@[simp] theorem kindAhead_nil : kindAhead [] = .eof :=
  rfl

/-- A kind other than the end stands in front of a list only if the list is not empty. -/
theorem exists_cons_of_kindAhead {ts : List Token} (h : kindAhead ts ≠ .eof) :
    ∃ t us, ts = t :: us := by
  cases ts with
  | nil => exact absurd rfl h
  | cons t us => exact ⟨t, us, rfl⟩

/-- A kind ahead that is not the end is that of a first token. -/
theorem exists_cons_of_kindAhead_eq {ts : List Token} {k : TokenKind} (h : kindAhead ts = k)
    (hk : k ≠ .eof) : ∃ t us, ts = t :: us ∧ t.kind = k := by
  obtain ⟨t, us, rfl⟩ := exists_cons_of_kindAhead (h ▸ hk)
  exact ⟨t, us, rfl, h⟩

/-- A token of one kind is of no other. -/
theorem Token.kind_ne {t : Token} {k k' : TokenKind} (ht : t.kind = k) (h : k ≠ k') :
    t.kind ≠ k' :=
  ht ▸ h

/-- What is ahead of tokens that are there does not depend on those behind them. -/
theorem kindAhead_append {us : List Token} (h : kindAhead us ≠ .eof) (vs : List Token) :
    kindAhead (us ++ vs) = kindAhead us := by
  obtain ⟨t, us, rfl⟩ := exists_cons_of_kindAhead h
  rfl

namespace Parse

variable {α β : Type} {limit : Nat} {ts rest : List Token} {b : β} {kind : TokenKind}

/-- The parser ends with `a` in front of `rest` when it runs on `ts`. -/
def Reads (limit : Nat) (p : Parse α) (ts : List Token) (a : α) (rest : List Token) : Prop :=
  p.run limit ts = .ok (a, rest)

theorem reads_pure {a : β} : (pure a : Parse β).Reads limit ts b rest ↔ b = a ∧ rest = ts := by
  constructor
  · intro h
    cases h
    exact ⟨rfl, rfl⟩
  · intro hr
    obtain ⟨rfl, rfl⟩ := hr
    rfl

theorem reads_reject {expected : String} :
    (reject expected : Parse β).Reads limit ts b rest ↔ False :=
  ⟨fun h => (nomatch h), False.elim⟩

/-- Two parsers in a row read what the first one reads, and then what the second one does. -/
theorem reads_bind {p : Parse α} {f : α → Parse β} :
    (p >>= f).Reads limit ts b rest ↔
      ∃ a mid, p.Reads limit ts a mid ∧ (f a).Reads limit mid b rest := by
  induction p generalizing ts with
  | done a =>
    constructor
    · intro h
      exact ⟨a, ts, rfl, h⟩
    · intro hr
      obtain ⟨_, _, h, hf⟩ := hr
      cases h
      exact hf
  | reject expected =>
    constructor
    · intro h
      cases h
    · intro hr
      obtain ⟨_, _, h, _⟩ := hr
      cases h
  | look next ih => exact ih (ts.headD Token.eof)
  | take next ih => exact ih (ts.headD Token.eof)
  | bound next ih => exact ih limit
  | pass l next ih => exact ih

/-- One parser after another, on any source. -/
theorem run_bind {σ : Type} [TokenSource σ] (p : Parse α) (f : α → Parse β) (s : σ) :
    (p >>= f).run limit s = p.run limit s >>= fun r => (f r.1).run limit r.2 := by
  induction p generalizing s with
  | done a => rfl
  | reject expected => rfl
  | look next ih => exact ih _ _
  | take next ih => exact ih _ _
  | bound next ih => exact ih _ _
  | pass l next ih => exact ih _

/-- The brackets around parsers in a row do not matter. -/
theorem reads_bind_assoc {γ : Type} {p : Parse α} {f : α → Parse γ} {g : γ → Parse β} :
    ((p >>= f) >>= g).Reads limit ts b rest ↔ (p >>= fun a => f a >>= g).Reads limit ts b rest := by
  simp only [reads_bind]
  constructor
  · intro hr
    obtain ⟨c, mid, ⟨a, s, ha, hc⟩, hb⟩ := hr
    exact ⟨a, s, ha, c, mid, hc, hb⟩
  · intro hr
    obtain ⟨a, s, ha, c, mid, hc, hb⟩ := hr
    exact ⟨c, mid, ⟨a, s, ha, hc⟩, hb⟩

/-- Looking at the next token takes nothing; behind the last one stands the end of the source. -/
theorem reads_peek {f : Token → Parse β} :
    (peek >>= f).Reads limit ts b rest ↔ (f (ts.headD Token.eof)).Reads limit ts b rest :=
  Iff.rfl

theorem reads_advance {f : Token → Parse β} {t : Token} :
    (advance >>= f).Reads limit (t :: ts) b rest ↔ (f t).Reads limit ts b rest :=
  Iff.rfl

theorem reads_advance_pure {g : Token → β} {t : Token} :
    (advance >>= fun t => pure (g t)).Reads limit (t :: ts) b rest ↔ b = g t ∧ rest = ts := by
  rw [reads_advance]
  exact reads_pure

/-- A question about the next kind is answered by the list. -/
theorem reads_isNext {f : Bool → Parse β} :
    (isNext kind >>= f).Reads limit ts b rest ↔ (f (kindAhead ts == kind)).Reads limit ts b rest :=
  Iff.rfl

/-- A refusal under a condition leaves the case in which it does not hold. -/
theorem reads_unless {c : Bool} {expected : String} {f : PUnit → Parse β} :
    (if c = true then f ⟨⟩ else reject expected >>= f).Reads limit ts b rest ↔
      c = true ∧ (f ⟨⟩).Reads limit ts b rest := by
  cases c with
  | true => exact ⟨fun h => ⟨rfl, h⟩, fun h => h.2⟩
  | false => exact ⟨fun h => (nomatch h), fun h => (nomatch h.1)⟩

/-- A run never puts a token back. -/
theorem Reads.length_le {p : Parse β} (h : p.Reads limit ts b rest) : rest.length ≤ ts.length := by
  induction p generalizing ts with
  | done a => cases h; exact Nat.le_refl _
  | reject expected => cases h
  | look next ih => exact ih _ h
  | take next ih =>
    have hdrop : rest.length ≤ (ts.drop 1).length := ih _ h
    rw [List.length_drop] at hdrop
    omega
  | bound next ih => exact ih _ h
  | pass l next ih => exact ih h

/-! ## Taking a token of a kind -/

/-- A parser that goes one way if a token of a kind is next, and another way if not. -/
theorem reads_ifNext (hkind : kind ≠ .eof) {f : Bool → Parse β} :
    (isNext kind >>= f).Reads limit ts b rest ↔
      (∃ t us, ts = t :: us ∧ t.kind = kind ∧ (f true).Reads limit (t :: us) b rest) ∨
        kindAhead ts ≠ kind ∧ (f false).Reads limit ts b rest := by
  rw [reads_isNext]
  by_cases hnext : kindAhead ts = kind
  · obtain ⟨t, us, rfl⟩ := exists_cons_of_kindAhead (hnext ▸ hkind)
    rw [beq_iff_eq.mpr hnext]
    constructor
    · intro h
      exact .inl ⟨t, us, rfl, hnext, h⟩
    · intro hr
      rcases hr with ⟨_, _, heq, _, h⟩ | ⟨hne, _⟩
      · cases heq
        exact h
      · exact absurd hnext hne
  · rw [beq_eq_false_iff_ne.mpr hnext]
    constructor
    · intro h
      exact .inr ⟨hnext, h⟩
    · intro hr
      rcases hr with ⟨t, us, rfl, ht, _⟩ | ⟨_, h⟩
      · exact absurd ht hnext
      · exact h

theorem run_accept :
    (accept kind).run limit ts =
      .ok (if kindAhead ts = kind then (true, ts.drop 1) else (false, ts)) := by
  by_cases hnext : kindAhead ts = kind
  · have heq : ((ts.headD Token.eof).kind == kind) = true := beq_iff_eq.mpr hnext
    rw [if_pos hnext]
    simp only [accept, isNext, peek, advance, Bind.bind, Pure.pure, bind, run, TokenSource.peek,
      heq, if_true, TokenSource.next]
  · have hne : ((ts.headD Token.eof).kind == kind) = false := beq_eq_false_iff_ne.mpr hnext
    rw [if_neg hnext]
    simp only [accept, isNext, peek, Bind.bind, Pure.pure, bind, run, TokenSource.peek, hne]
    rfl

/-- A token of the kind is taken if it is next, and nothing otherwise. -/
theorem reads_accept (hkind : kind ≠ .eof) {taken : Bool} :
    (accept kind).Reads limit ts taken rest ↔
      (∃ t, ts = t :: rest ∧ t.kind = kind ∧ taken = true) ∨
        kindAhead ts ≠ kind ∧ rest = ts ∧ taken = false := by
  unfold Reads
  rw [run_accept]
  by_cases hnext : kindAhead ts = kind
  · obtain ⟨t, us, rfl⟩ := exists_cons_of_kindAhead (hnext ▸ hkind)
    rw [kindAhead_cons] at hnext
    constructor
    · intro h
      rw [kindAhead_cons, if_pos hnext] at h
      cases h
      exact .inl ⟨t, rfl, hnext, rfl⟩
    · intro hr
      rcases hr with ⟨_, heq, _, rfl⟩ | ⟨hne, _⟩
      · cases heq
        rw [kindAhead_cons, if_pos hnext]
        rfl
      · exact absurd hnext hne
  · rw [if_neg hnext]
    constructor
    · intro h
      cases h
      exact .inr ⟨hnext, rfl, rfl⟩
    · intro hr
      rcases hr with ⟨t, rfl, ht, _⟩ | ⟨_, rfl, rfl⟩
      · exact absurd ht hnext
      · rfl

/-- A parser that goes one way if it can take a token of a kind, and another way if not. -/
theorem reads_ifAccept (hkind : kind ≠ .eof) {f : Bool → Parse β} :
    (accept kind >>= f).Reads limit ts b rest ↔
      (∃ t us, ts = t :: us ∧ t.kind = kind ∧ (f true).Reads limit us b rest) ∨
        kindAhead ts ≠ kind ∧ (f false).Reads limit ts b rest := by
  rw [reads_bind]
  constructor
  · intro hr
    obtain ⟨taken, mid, htaken, h⟩ := hr
    rcases (reads_accept hkind).mp htaken with ⟨t, rfl, ht, rfl⟩ | ⟨hne, rfl, rfl⟩
    · exact .inl ⟨t, mid, rfl, ht, h⟩
    · exact .inr ⟨hne, h⟩
  · intro hr
    rcases hr with ⟨t, us, rfl, ht, h⟩ | ⟨hne, h⟩
    · exact ⟨true, us, (reads_accept hkind).mpr (.inl ⟨t, rfl, ht, rfl⟩), h⟩
    · exact ⟨false, ts, (reads_accept hkind).mpr (.inr ⟨hne, rfl, rfl⟩), h⟩

/-- A token of the kind is next, and is taken. -/
theorem reads_expect (hkind : kind ≠ .eof) {f : Token → Parse β} :
    (expect kind >>= f).Reads limit ts b rest ↔
      ∃ t us, ts = t :: us ∧ t.kind = kind ∧ (f t).Reads limit us b rest := by
  show ((isNext kind >>= fun found => if found = true then advance else reject kind.description)
    >>= f).Reads limit ts b rest ↔ _
  rw [reads_bind]
  simp only [reads_isNext, beq_iff_eq]
  constructor
  · intro hr
    obtain ⟨t, mid, ht, h⟩ := hr
    split at ht
    next hnext =>
      obtain ⟨u, us, rfl⟩ := exists_cons_of_kindAhead (hnext ▸ hkind)
      cases ht
      exact ⟨u, us, rfl, hnext, h⟩
    next => cases ht
  · intro hr
    obtain ⟨t, us, rfl, ht, h⟩ := hr
    refine ⟨t, us, ?_, h⟩
    rw [if_pos (show kindAhead (t :: us) = kind from ht)]
    rfl

/-! ## Loops -/

/-- The turns of a loop, which goes from `a` in front of the first list to the last value in front
of the last list. -/
inductive Loops (limit : Nat) (step : α → Parse (Option α)) :
    α → List Token → α → List Token → Prop
  | stop {a ts rest} : (step a).Reads limit ts none rest → Loops limit step a ts a rest
  | turn {a ts b mid c rest} : (step a).Reads limit ts (some b) mid →
      Loops limit step b mid c rest → Loops limit step a ts c rest

section

variable {step : α → Parse (Option α)} {a c : α}

/-- A loop whose turns each take a token reads what its turns read, if it has more rounds than there
are tokens. The induction is over the rounds. -/
private theorem reads_iterateUpTo {size : Nat}
    (hturn : ∀ {a ts b mid}, ts.length ≤ size → (step a).Reads limit ts (some b) mid →
      mid.length < ts.length) {fuel : Nat} (hsize : ts.length ≤ size) (hfuel : ts.length < fuel) :
    (iterateUpTo step fuel a).Reads limit ts c rest ↔ Loops limit step a ts c rest := by
  induction fuel generalizing a ts with
  | zero => omega
  | succ fuel ih =>
    rw [iterateUpTo, reads_bind]
    constructor
    · intro hr
      obtain ⟨found, mid, hfound, h⟩ := hr
      cases found with
      | none =>
        obtain ⟨rfl, rfl⟩ := reads_pure.mp h
        exact .stop hfound
      | some b =>
        -- the turn has taken a token, so the list and the fuel shrink together
        have hlt := hturn hsize hfound
        exact .turn hfound ((ih (by omega) (by omega)).mp h)
    · intro h
      cases h with
      | stop hfound => exact ⟨none, rest, hfound, reads_pure.mpr ⟨rfl, rfl⟩⟩
      | turn hfound h =>
        have hlt := hturn hsize hfound
        exact ⟨_, _, hfound, (ih (by omega) (by omega)).mpr h⟩

/-- A loop whose turns each take a token ends before its fuel does. -/
theorem reads_iterate
    (hturn : ∀ {a s b mid}, s.length ≤ ts.length → (step a).Reads limit s (some b) mid →
      mid.length < s.length) (h : ts.length < limit) :
    (iterate step a).Reads limit ts c rest ↔ Loops limit step a ts c rest :=
  reads_iterateUpTo hturn (Nat.le_refl _) h

end

/-! ## Exact parsers -/

/-- On a list of fewer than `size` tokens, the parser reads exactly what the relation derives. The
relation is about the tokens that are taken, their value, and the kind of the token behind them. -/
def Exact (limit size : Nat) (p : Parse α) (derives : List Token → α → TokenKind → Prop) : Prop :=
  ∀ ⦃ts : List Token⦄ ⦃a : α⦄ ⦃rest : List Token⦄, ts.length < size →
    (p.Reads limit ts a rest ↔ ∃ us, ts = us ++ rest ∧ derives us a (kindAhead rest))

/-- An exact parser may be described by any relation that says the same. -/
theorem Exact.imp {size : Nat} {p : Parse α} {D D' : List Token → α → TokenKind → Prop}
    (hp : Exact limit size p D) (h : ∀ us a k, D us a k ↔ D' us a k) : Exact limit size p D' := by
  intro ts a rest hlen
  rw [hp hlen]
  simp only [h]

end Parse

/-! ## Lists with a separator -/

/-- One or more items with tokens of one kind between them. -/
inductive Separated {α : Type} (sep : TokenKind) (item : List Token → α → Prop) :
    List Token → List α → Prop
  | one {us a} : item us a → Separated sep item us [a]
  | more {us a t vs as} : item us a → t.kind = sep → Separated sep item vs as →
      Separated sep item (us ++ t :: vs) (a :: as)

namespace Parse

section

variable {α β : Type} {limit size : Nat} {sep : TokenKind} {item : Parse α} {ts rest : List Token}

/-- One more item behind a separator, put before those already read. -/
def furtherItem (sep : TokenKind) (item : Parse α) (items : List α) : Parse (Option (List α)) := do
  if ← accept sep then return some ((← item) :: items) else return none

/-- A turn of a list takes a separator and an item, or ends where no separator follows. -/
theorem reads_furtherItem (hsep : sep ≠ .eof) {items : List α} {found : Option (List α)} :
    (furtherItem sep item items).Reads limit ts found rest ↔
      (∃ t us a, ts = t :: us ∧ t.kind = sep ∧ item.Reads limit us a rest ∧
        found = some (a :: items)) ∨
        kindAhead ts ≠ sep ∧ rest = ts ∧ found = none := by
  unfold furtherItem
  rw [reads_ifAccept hsep]
  constructor
  · intro h
    rcases h with ⟨t, us, rfl, ht, h⟩ | ⟨hne, h⟩
    · obtain ⟨a, mid, ha, h⟩ := reads_bind.mp h
      obtain ⟨rfl, rfl⟩ := reads_pure.mp h
      exact .inl ⟨t, us, a, rfl, ht, ha, rfl⟩
    · obtain ⟨rfl, rfl⟩ := reads_pure.mp h
      exact .inr ⟨hne, rfl, rfl⟩
  · intro h
    rcases h with ⟨t, us, a, rfl, ht, ha, rfl⟩ | ⟨hne, rfl, rfl⟩
    · exact .inl ⟨t, us, rfl, ht, reads_bind.mpr ⟨a, rest, ha, reads_pure.mpr ⟨rfl, rfl⟩⟩⟩
    · exact .inr ⟨hne, reads_pure.mpr ⟨rfl, rfl⟩⟩

/-- A turn that goes on has taken a token. -/
theorem length_lt_of_furtherItem (hsep : sep ≠ .eof) {acc items : List α}
    (h : (furtherItem sep item acc).Reads limit ts (some items) rest) :
    rest.length < ts.length := by
  rcases (reads_furtherItem hsep).mp h with ⟨t, us, a, rfl, _, ha, _⟩ | ⟨_, _, hsome⟩
  · have hle := ha.length_le
    rw [List.length_cons]
    omega
  · cases hsome

variable {derives : List Token → α → TokenKind → Prop} {D : List Token → α → Prop}
  {ends : TokenKind → Prop}

/-- What the loop has read behind the first item completes it to a list. -/
private theorem separated_of_loops (hsep : sep ≠ .eof) (hitem : Exact limit size item derives)
    (hD : ∀ {us a k}, k = sep ∨ ends k → (derives us a k ↔ D us a)) {acc items : List α}
    (h : Loops limit (furtherItem sep item) acc ts items rest) (hlen : ts.length ≤ size)
    (hends : ends (kindAhead rest)) :
    (kindAhead ts = sep ∨ ends (kindAhead ts)) ∧
      ∀ {us a}, D us a → ∃ vs as, ts = vs ++ rest ∧ items = as.reverse ++ acc ∧
        Separated sep D (us ++ vs) (a :: as) := by
  induction h with
  | stop hfound =>
    rcases (reads_furtherItem hsep).mp hfound with ⟨_, _, _, _, _, _, hsome⟩ | ⟨_, rfl, _⟩
    · cases hsome
    · refine ⟨.inr hends, fun {us a} ha => ⟨[], [], rfl, rfl, ?_⟩⟩
      rw [List.append_nil]
      exact .one ha
  | turn hfound hloop ih =>
    rcases (reads_furtherItem hsep).mp hfound with ⟨t, us, a, rfl, ht, ha, hsome⟩ | ⟨_, _, hsome⟩
    · cases hsome
      obtain ⟨vs, rfl, hder⟩ := (hitem hlen).mp ha
      simp only [List.length_cons, List.length_append] at hlen
      -- what follows decides where this item ends: the induction says what follows
      obtain ⟨hnext, ih⟩ := ih (by omega) hends
      obtain ⟨ws, as, rfl, rfl, hlist⟩ := ih ((hD hnext).mp hder)
      refine ⟨.inl ht, fun {us' b} hb => ⟨t :: (vs ++ ws), a :: as, by simp, by simp, ?_⟩⟩
      exact .more hb ht hlist
    · cases hsome

/-- A list is read item by item. -/
private theorem loops_of_separated (hsep : sep ≠ .eof) (hitem : Exact limit size item derives)
    (hD : ∀ {us a k}, k = sep ∨ ends k → (derives us a k ↔ D us a)) (hne : ¬ends sep)
    {us : List Token} {as : List α} (h : Separated sep D us as) (hlen : (us ++ rest).length < size)
    (hends : ends (kindAhead rest)) (acc : List α) :
    ∃ first mid, item.Reads limit (us ++ rest) first mid ∧
      Loops limit (furtherItem sep item) (first :: acc) mid (as.reverse ++ acc) rest := by
  induction h generalizing acc with
  | one ha =>
    -- the last item ends the loop, since no separator is next
    refine ⟨_, rest, (hitem hlen).mpr ⟨_, rfl, (hD (.inr hends)).mpr ha⟩, .stop ?_⟩
    exact (reads_furtherItem hsep).mpr (.inr ⟨fun heq => hne (heq ▸ hends), rfl, rfl⟩)
  | @more us a t vs as ha ht _ ih =>
    rw [List.append_assoc, List.cons_append] at hlen ⊢
    have hlen' : (vs ++ rest).length < size := by
      rw [List.length_append, List.length_cons] at hlen
      omega
    obtain ⟨first, mid, hfirst, hloop⟩ := ih hlen' (a :: acc)
    refine ⟨a, t :: (vs ++ rest), (hitem hlen).mpr ⟨us, rfl, (hD (.inl ht)).mpr ha⟩, ?_⟩
    rw [List.reverse_cons, List.append_assoc]
    exact .turn ((reads_furtherItem hsep).mpr (.inl ⟨t, _, first, rfl, ht, hfirst, rfl⟩)) hloop

/-- An item and the loop behind it read a list, if the list stops where no further item starts. The
items end in front of separators and in front of what ends the list. -/
theorem separated_iff (hsep : sep ≠ .eof) (hitem : Exact limit size item derives)
    (hD : ∀ {us a k}, k = sep ∨ ends k → (derives us a k ↔ D us a)) (hne : ¬ends sep)
    (hlen : ts.length < size) (hends : ends (kindAhead rest)) {items : List α} :
    (∃ first mid, item.Reads limit ts first mid ∧
      Loops limit (furtherItem sep item) [first] mid items rest) ↔
      ∃ us as, ts = us ++ rest ∧ Separated sep D us as ∧ items = as.reverse := by
  constructor
  · intro h
    obtain ⟨first, mid, hfirst, hloop⟩ := h
    obtain ⟨us, rfl, hder⟩ := (hitem hlen).mp hfirst
    rw [List.length_append] at hlen
    obtain ⟨hnext, hlists⟩ := separated_of_loops hsep hitem hD hloop (by omega) hends
    obtain ⟨vs, as, rfl, rfl, hlist⟩ := hlists ((hD hnext).mp hder)
    exact ⟨us ++ vs, first :: as, by simp, hlist, by simp⟩
  · intro h
    obtain ⟨us, as, rfl, hlist, rfl⟩ := h
    obtain ⟨first, mid, hfirst, hloop⟩ :=
      loops_of_separated hsep hitem hD hne hlist hlen hends []
    exact ⟨first, mid, hfirst, by simpa using hloop⟩

/-! ## Lists with commas -/

/-- A list with commas is a first item and a loop. -/
private theorem reads_commaList_loops {as : List α} (hlen : ts.length < limit) :
    (commaList item).Reads limit ts as rest ↔
      ∃ items, (∃ first mid, item.Reads limit ts first mid ∧
        Loops limit (furtherItem .comma item) [first] mid items rest) ∧ as = items.reverse := by
  show (item >>= fun first => iterate (furtherItem .comma item) [first] >>= fun items =>
    pure items.reverse).Reads limit ts as rest ↔ _
  have hloops : ∀ {first : α} {mid r : List Token} {items : List α}, mid.length ≤ ts.length →
      ((iterate (furtherItem .comma item) [first]).Reads limit mid items r ↔
        Loops limit (furtherItem .comma item) [first] mid items r) := by
    intro first mid r items hle
    exact reads_iterate (fun _ => length_lt_of_furtherItem (by decide)) (by omega)
  rw [reads_bind]
  constructor
  · intro h
    obtain ⟨first, mid, hfirst, h⟩ := h
    obtain ⟨items, r, hloop, h⟩ := reads_bind.mp h
    obtain ⟨rfl, rfl⟩ := reads_pure.mp h
    exact ⟨items, ⟨first, mid, hfirst, (hloops hfirst.length_le).mp hloop⟩, rfl⟩
  · intro h
    obtain ⟨items, ⟨first, mid, hfirst, hloop⟩, rfl⟩ := h
    refine ⟨first, mid, hfirst, reads_bind.mpr ⟨items, rest, ?_, reads_pure.mpr ⟨rfl, rfl⟩⟩⟩
    exact (hloops hfirst.length_le).mpr hloop

/-- A list with commas up to a closing token, which is a token behind which an item may end. -/
theorem reads_commaList {close : TokenKind} (hitem : Exact limit size item derives)
    (hD : ∀ {us a k}, k = .comma ∨ k = close → (derives us a k ↔ D us a)) (hne : close ≠ .comma)
    (hend : close ≠ .eof) {f : List α → Parse β} {b : β} (hlen : ts.length < size)
    (hlimit : size ≤ limit) :
    (commaList item >>= fun as => expect close >>= fun _ => f as).Reads limit ts b rest ↔
      ∃ us c mid as, ts = us ++ c :: mid ∧ Separated .comma D us as ∧ c.kind = close ∧
        (f as).Reads limit mid b rest := by
  have hlist : ∀ {c : Token} {mid : List Token} {items : List α}, c.kind = close →
      ((∃ first r, item.Reads limit ts first r ∧
        Loops limit (furtherItem .comma item) [first] r items (c :: mid)) ↔
        ∃ us as, ts = us ++ c :: mid ∧ Separated .comma D us as ∧ items = as.reverse) := by
    intro c mid items hc
    have hahead : kindAhead (c :: mid) = close := hc
    exact separated_iff (by decide) hitem hD hne.symm hlen hahead
  rw [reads_bind]
  constructor
  · intro h
    obtain ⟨as, mid, has, h⟩ := h
    obtain ⟨c, mid, rfl, hc, h⟩ := (reads_expect hend).mp h
    obtain ⟨items, hitems, rfl⟩ := (reads_commaList_loops (by omega)).mp has
    obtain ⟨us, as, heq, hsep, rfl⟩ := (hlist hc).mp hitems
    rw [List.reverse_reverse] at h
    exact ⟨us, c, mid, as, heq, hsep, hc, h⟩
  · intro h
    obtain ⟨us, c, mid, as, heq, hsep, hc, h⟩ := h
    refine ⟨as, c :: mid, ?_, (reads_expect hend).mpr ⟨c, mid, rfl, hc, h⟩⟩
    refine (reads_commaList_loops (by omega)).mpr ⟨as.reverse, ?_, by simp⟩
    exact (hlist hc).mpr ⟨us, as, heq, hsep, rfl⟩

end

end Parse

end Stencil
