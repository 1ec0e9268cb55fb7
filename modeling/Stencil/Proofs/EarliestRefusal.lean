import Stencil.Proofs.CollectedTokens
import Stencil.Proofs.TemplateViable

/-!
# Errors blame the earliest impossible token

The token that an error is about is the first one that cannot be there. The tokens in front of it
are the beginning of something that is accepted (`Stencil.Proofs.TemplateViable`), so that none of
them could have been blamed. And with these tokens in front of it, the token is refused in the same
words whatever follows: the parser has not looked any further.

> `Parse.run_of_same`: a refusal depends on the tokens up to the refused one, and on their kinds and
> texts only.
> `Parse.blames_earliest`: every error blames the earliest impossible token.
-/

namespace Stencil

namespace Parse

open Derives

/-- Two lists of tokens that have the same kinds and texts one by one. -/
structure Matched (x : Position) (ts us : List Token) : Prop where
  pairs : List.Forall₂ Token.Same ts us
  seen : ∀ k, x.seen = some k → kindAhead ts = k
  left : ts.length ≤ x.left

/-- Lists with the same kinds and texts one by one are sources that can be compared. -/
theorem linked_matched : Linked Matched where
  peek := by
    intro x ts us h
    have hhead : (ts.headD Token.eof).Same (us.headD Token.eof) := by
      cases h.pairs with
      | nil => exact ⟨rfl, rfl⟩
      | cons hsame _ => exact hsame
    refine ⟨hhead, fun k hk => (h.seen k hk).symm, h.pairs, fun k hk => ?_, h.left⟩
    cases hk
    rfl
  next := by
    intro x ts us k h hseen htakes
    obtain ⟨t, ts, rfl, ht⟩ :=
      exists_cons_of_kindAhead_eq (h.seen k hseen) (Stage.takes_ne_eof htakes)
    have hleft := h.left
    rw [List.length_cons] at hleft
    cases h.pairs with
    | cons hsame hpairs =>
      refine ⟨by omega, hsame, ht, hpairs, nofun, ?_⟩
      show ts.length ≤ x.left - 1
      omega

variable {α : Type} {p : Parse α}

/-- A refusal depends on nothing but the kinds and the texts of the tokens up to the refused one. -/
theorem run_of_same (hp : p.Steady) {limit limit' : Nat} {e : String} {us us' vs vs' : List Token}
    {t t' : Token} (hlimit : (us ++ t :: vs).length < limit)
    (hlimit' : (us' ++ t' :: vs').length < limit')
    (hrun : p.run limit (us ++ t :: vs) = .error ⟨e, t :: vs⟩)
    (hsame : List.Forall₂ Token.Same (us ++ [t]) (us' ++ [t'])) :
    p.run limit' (us' ++ t' :: vs') = .error ⟨e, t' :: vs'⟩ := by
  obtain ⟨stage, halike⟩ := hp
  have hmatched : Matched ⟨stage, none, us.length + 1⟩ (us ++ [t]) (us' ++ [t']) :=
    ⟨hsame, nofun, by simp⟩
  have hlength := hsame.length_eq
  simp only [List.length_append, List.length_cons, List.length_nil] at hlimit hlimit' hlength
  have hends := run_alike linked_matched (halike _) hmatched
    (show us.length + 1 < limit by omega) (show us.length + 1 < limit' by omega)
  rw [run_of_refused hrun []] at hends
  generalize hout : p.run limit' (us' ++ [t']) = outcome at hends
  cases hends with
  | @error _ _ rest hrest =>
    obtain ⟨y, -, hy⟩ := hrest
    -- one token is left of the first list, and so one token is left of the second
    have hone := hy.pairs.length_eq
    obtain ⟨u, rfl⟩ := List.length_eq_one_iff.mp hone.symm
    obtain ⟨ws, hws⟩ := exists_append_of_refused hout
    obtain ⟨rfl, hu⟩ := List.append_inj' hws rfl
    cases hu
    exact run_of_refused hout vs'

/-- What is the same as a list with a token at its end is such a list itself. -/
theorem exists_concat_of_same {us ws : List Token} {t : Token}
    (h : List.Forall₂ Token.Same (us ++ [t]) ws) : ∃ us' t', ws = us' ++ [t'] ∧ t.Same t' := by
  have hlength := h.length_eq
  rw [List.length_append, List.length_singleton] at hlength
  obtain rfl | ⟨us', t', rfl⟩ := List.eq_nil_or_concat' ws
  · cases hlength
  · rw [List.length_append, List.length_singleton] at hlength
    have hlast := List.forall₂_drop_append _ _ _ h
    rw [← Nat.succ.inj hlength, List.drop_left] at hlast
    exact ⟨us', t', rfl, (List.forall₂_cons.mp hlast).1⟩

/-- The error is about a token of the list. With the same tokens up to it, every list is refused in
the same words. Without it, the tokens in front of it are the beginning of a list that is
accepted. -/
def Blames (p : Parse α) (source : String) (ts : List Token) (e : SyntaxError) : Prop :=
  ∃ k, ∃ h : k < ts.length,
    e.found = ts[k].found ∧ e.line = Text.lineAt source.toList ts[k].offset ∧
    (∀ (us : List Token) (source' : String),
      List.Forall₂ Token.Same (ts.take (k + 1)) (us.take (k + 1)) →
      ∃ e', reported source' (p.runTokens us) = .error (.grammar e') ∧
        e'.expected = e.expected ∧ e'.found = e.found) ∧
    ∃ us a, us.take k = ts.take k ∧ us.getLast? = some Token.eof ∧
      reported source (p.runTokens us) = .ok a

/-- A parser that refuses in time blames the earliest impossible token. -/
theorem blames_of_refusesAfter {D : List Token → α → Prop} (hp : p.Steady)
    (hreads : ∀ {limit : Nat} {us : List Token} {a : α}, (us ++ [Token.eof]).length < limit →
      D us a → p.Reads limit (us ++ [Token.eof]) a [Token.eof])
    (hrefuses : ∀ {limit : Nat} {ts : List Token}, ts.length < limit →
      p.RefusesAfter limit (Viable D) ts)
    (hnoEnd : ∀ {us a}, D us a → NoEnd us) {source : String} {ts : List Token}
    (hend : ∃ t, ts.getLast? = some t ∧ t.kind = .eof) {f : Failure}
    (h : reported source (p.runTokens ts) = .error f) :
    ∃ e, f = .grammar e ∧ p.Blames source ts e := by
  cases hrun : p.runTokens ts with
  | ok r =>
    rw [hrun] at h
    cases h
  | error r =>
    rw [hrun] at h
    cases h
    obtain ⟨expected, rest⟩ := r
    refine ⟨_, rfl, ?_⟩
    obtain ⟨us, rfl, vs, a, ha⟩ := hrefuses (Nat.lt_succ_self _) hrun
    -- the end of the source cannot have been taken, so that a token is left
    cases rest with
    | nil =>
      obtain ⟨t, hlast, ht⟩ := hend
      rw [List.append_nil] at hlast
      have hmem : t ∈ us ++ vs := List.mem_append_left _ (List.mem_of_getLast? hlast)
      exact absurd (List.mem_singleton.mpr ht) (hnoEnd ha t hmem)
    | cons t rest =>
      have hlt : us.length < (us ++ t :: rest).length := by simp
      have hget : (us ++ t :: rest)[us.length] = t := by simp
      refine ⟨us.length, hlt, ?_, ?_, fun us' source' hsame => ?_, ?_⟩
      · rw [hget]
        rfl
      · rw [hget]
        rfl
      · have htake : (us ++ t :: rest).take (us.length + 1) = us ++ [t] := by
          rw [List.append_cons, List.take_left' (by simp)]
        rw [htake] at hsame
        obtain ⟨ws, t', hws, ht⟩ := exists_concat_of_same hsame
        have hus' : us' = ws ++ t' :: us'.drop (us.length + 1) := by
          rw [List.append_cons, ← hws, List.take_append_drop]
        rw [hws] at hsame
        generalize us'.drop (us.length + 1) = vs' at hus'
        subst hus'
        have hrefused : p.runTokens (ws ++ t' :: vs') = .error ⟨expected, t' :: vs'⟩ :=
          run_of_same hp (Nat.lt_succ_self _) (Nat.lt_succ_self _) hrun hsame
        refine ⟨.ofTokens source' ⟨expected, t' :: vs'⟩, ?_, rfl, ht.found.symm⟩
        rw [hrefused]
        rfl
      · refine ⟨us ++ vs ++ [Token.eof], a, ?_, ?_, ?_⟩
        · simp
        · simp
        · have hread := hreads (Nat.lt_succ_self (us ++ vs ++ [Token.eof]).length) ha
          unfold Reads at hread
          rw [runTokens, hread]
          rfl

/-- **Errors blame the earliest impossible token**, for lists of tokens that end with the end of the
source, and so for sources. -/
theorem blames_earliest :
    (∀ (source : String) (ts : List Token) (f : Failure),
      (∃ t, ts.getLast? = some t ∧ t.kind = .eof) →
      (reported source (Grammar.template.runTokens ts) = .error f →
        ∃ e, f = .grammar e ∧ Grammar.template.Blames source ts e) ∧
      (reported source (Grammar.bareExpression.runTokens ts) = .error f →
        ∃ e, f = .grammar e ∧ Grammar.bareExpression.Blames source ts e)) ∧
    ∀ (l : Lexicon) (source : String) (start : Context) (c : Cursor) (f : Failure),
      Cursor.start l source start = .ok c →
      (l.parseFrom source start = .error f →
        ∃ e, f = .grammar e ∧ Grammar.template.Blames source c.collect.1 e) ∧
      (start = .block → l.parseExpression source = .error f →
        ∃ e, f = .grammar e ∧ Grammar.bareExpression.Blames source c.collect.1 e) := by
  have hlists : ∀ (source : String) (ts : List Token) (f : Failure),
      (∃ t, ts.getLast? = some t ∧ t.kind = .eof) →
      (reported source (Grammar.template.runTokens ts) = .error f →
        ∃ e, f = .grammar e ∧ Grammar.template.Blames source ts e) ∧
      (reported source (Grammar.bareExpression.runTokens ts) = .error f →
        ∃ e, f = .grammar e ∧ Grammar.bareExpression.Blames source ts e) := by
    intro source ts f hend
    constructor
    · refine blames_of_refusesAfter steady_template ?_ refusesAfter_template Body.noEnd hend
      exact fun hlen hus => (reads_template hlen).mpr ⟨_, rfl, hus, rfl⟩
    · refine blames_of_refusesAfter steady_bareExpression ?_ refusesAfter_bareExpression
        BareExpression.noEnd hend
      exact fun hlen hus => (reads_bareExpression hlen).mpr ⟨_, rfl, hus, rfl⟩
  refine ⟨hlists, fun l source start c f hc => ?_⟩
  have hend : ∃ t, c.collect.1.getLast? = some t ∧ t.kind = .eof := by
    rw [Lexicon.collect_of_start hc]
    exact Lexicon.exists_getLast?_untilEof _
  obtain ⟨htemplate, hexpression⟩ := hlists source c.collect.1 f hend
  constructor
  · intro h
    exact htemplate ((Lexicon.parseWith_of_start steady_template hc).symm.trans h)
  · rintro rfl h
    exact hexpression ((Lexicon.parseWith_of_start steady_bareExpression hc).symm.trans h)

/-- A block with a map in it, one entry of which has a second key. -/
def secondKey : List Token :=
  [⟨.blockOpen, some 1, "\x7b\x7b"⟩, ⟨.leftBracket, some 3, "["⟩, ⟨.identifier, some 4, "a"⟩,
    ⟨.colon, some 5, ":"⟩, ⟨.int, some 7, "1"⟩, ⟨.colon, some 8, ":"⟩, Token.eof]

/-- The second colon is blamed, both in the template and in the bare expression, and a number that
stands between blocks is. -/
theorem blames_earliest_second_key :
    (∃ e, reported "\x7b\x7b[a:\n1:" (Grammar.template.runTokens secondKey) =
        .error (.grammar e) ∧ Grammar.template.Blames "\x7b\x7b[a:\n1:" secondKey e) ∧
      (∃ e, reported "\x7b\x7b[a:\n1:" (Grammar.bareExpression.runTokens secondKey.tail) =
        .error (.grammar e) ∧ Grammar.bareExpression.Blames "\x7b\x7b[a:\n1:" secondKey.tail e) ∧
      ∃ l c e, Lexicon.compile Lexicon.digitTable = .ok l ∧ Cursor.start l "7" .block = .ok c ∧
        l.parseFrom "7" .block = .error (.grammar e) ∧
        Grammar.template.Blames "7" c.collect.1 e := by
  have hrun : reported "\x7b\x7b[a:\n1:" (Grammar.template.runTokens secondKey) =
      .error (.grammar ⟨2, "\"]\"", ":"⟩) := rfl
  have hrun' : reported "\x7b\x7b[a:\n1:" (Grammar.bareExpression.runTokens secondKey.tail) =
      .error (.grammar ⟨2, "\"]\"", ":"⟩) := rfl
  obtain ⟨hlists, hsources⟩ := blames_earliest
  obtain ⟨_, hf, hblames⟩ := (hlists _ secondKey _ ⟨Token.eof, rfl, rfl⟩).1 hrun
  cases hf
  obtain ⟨_, hf, hblames'⟩ := (hlists _ secondKey.tail _ ⟨Token.eof, rfl, rfl⟩).2 hrun'
  cases hf
  refine ⟨⟨_, hrun, hblames⟩, ⟨_, hrun', hblames'⟩, ?_⟩
  have htokens : ((Lexicon.compile Lexicon.digitTable).bind fun l =>
      l.tokens "7" .block).toOption = some [⟨.int, some 1, "7"⟩, Token.eof] := by decide +kernel
  obtain ⟨l, c, hl, hc, hts⟩ := Lexicon.exists_collect htokens
  have hparse : l.parseFrom "7" .block =
      .error (.grammar ⟨1, "template text or \"\x7b\x7b\"", "7"⟩) := by
    rw [Lexicon.parseFrom, Lexicon.parseWith_of_start steady_template hc, hts]
    rfl
  obtain ⟨_, hf, hblames''⟩ := (hsources l "7" .block c _ hc).1 hparse
  cases hf
  exact ⟨l, c, _, hl, hc, hparse, hblames''⟩

end Parse

end Stencil
