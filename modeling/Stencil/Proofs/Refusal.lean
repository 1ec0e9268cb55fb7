import Stencil.Proofs.ParseRun

/-!
# Where parsers refuse

A run that refuses a list of tokens has taken some of them and stands in front of the one that it
refuses. `Parse.RefusesAfter` says what the tokens taken until then have in common, and the lemmas
here follow a parser forward: each step hands on what is left to show about the tokens behind it.

A refusal comes too late if tokens were taken that lead nowhere. So the property to show is mostly
that the tokens taken can still become something that a relation derives (`Viable`).

> `Parse.refusesAfter_bind`, `Parse.refusesAfter_iterate`: parsers one after the other, and loops.
> `Parse.refusesAfter_separated`: lists with a separator.
> `Parse.run_of_refused`: a refusal does not depend on what stands behind the refused token.
-/

namespace Stencil

/-- A token of a kind, of which nothing else matters. -/
def Token.ofKind (k : TokenKind) : Token :=
  ⟨k, none, ""⟩

theorem Token.kind_ofKind (k : TokenKind) : (ofKind k).kind = k :=
  rfl

/-- The tokens are the first ones of a list that the relation derives something from. -/
def Viable {α : Type} (D : List Token → α → Prop) (us : List Token) : Prop :=
  ∃ vs a, D (us ++ vs) a

section

variable {α β : Type} {D : List Token → α → Prop} {us ws : List Token}

/-- Tokens that something is derived from lack nothing. -/
theorem viable_of_derives {a : α} (h : D us a) : Viable D us :=
  ⟨[], a, by rwa [List.append_nil]⟩

/-- Fewer of the tokens can be completed as well. -/
theorem Viable.of_isPrefix (h : Viable D ws) (hus : us <+: ws) : Viable D us := by
  obtain ⟨vs, a, ha⟩ := h
  obtain ⟨xs, rfl⟩ := hus
  exact ⟨xs ++ vs, a, by rwa [← List.append_assoc]⟩

theorem Viable.nil (h : Viable D us) : Viable D [] :=
  h.of_isPrefix List.nil_prefix

/-- What can be completed to a part can be completed to a whole behind what stands before the part,
if the part itself can. -/
theorem Viable.lift {D' : List Token → β → Prop} (h : Viable D us)
    (hD : ∀ {vs a}, D vs a → Viable D' (ws ++ vs)) : Viable D' (ws ++ us) := by
  obtain ⟨vs, a, ha⟩ := h
  obtain ⟨xs, b, hb⟩ := hD ha
  exact ⟨vs ++ xs, b, by simpa using hb⟩

/-- What can be completed for one relation can be for another that derives at least as much. -/
theorem Viable.imp {D' : List Token → β → Prop} (h : Viable D us)
    (hD : ∀ {vs a}, D vs a → Viable D' vs) : Viable D' us :=
  show Viable D' ([] ++ us) from h.lift hD

end

namespace Parse

variable {α β : Type} {limit : Nat} {ts : List Token} {kind : TokenKind} {p : Parse α}
  {f : α → Parse β} {V : List Token → Prop}

/-- If the parser refuses the list, then the tokens that it has taken before have the property. -/
def RefusesAfter (limit : Nat) (p : Parse α) (V : List Token → Prop) (ts : List Token) : Prop :=
  ∀ ⦃e : String⦄ ⦃rest : List Token⦄, p.run limit ts = .error ⟨e, rest⟩ →
    ∃ us, ts = us ++ rest ∧ V us

/-- It is enough to show a stronger property of the tokens taken. -/
theorem RefusesAfter.imp {V' : List Token → Prop} (h : p.RefusesAfter limit V ts)
    (himp : ∀ us, V us → V' us) : p.RefusesAfter limit V' ts := by
  intro e rest hrun
  obtain ⟨us, hus, hV⟩ := h hrun
  exact ⟨us, hus, himp us hV⟩

/-- A parser that has its result refuses nothing. -/
theorem refusesAfter_pure {a : α} : (pure a : Parse α).RefusesAfter limit V ts := by
  intro e rest hrun
  cases hrun

/-- A parser that refuses at once has taken no tokens. -/
theorem refusesAfter_reject {expected : String} (h : V []) :
    (reject expected : Parse α).RefusesAfter limit V ts := by
  intro e rest hrun
  cases hrun
  exact ⟨[], rfl, h⟩

/-- What a run leaves is the end of the list. -/
theorem Reads.exists_append {a : α} {rest : List Token} (h : p.Reads limit ts a rest) :
    ∃ us, ts = us ++ rest := by
  induction p generalizing ts with
  | done b =>
    cases h
    exact ⟨[], rfl⟩
  | reject expected => cases h
  | look next ih => exact ih _ h
  | take next ih =>
    obtain ⟨us, hus⟩ : ∃ us, ts.drop 1 = us ++ rest := ih _ h
    exact ⟨ts.take 1 ++ us, by rw [List.append_assoc, ← hus, List.take_append_drop]⟩
  | bound next ih => exact ih _ h
  | pass l next ih => exact ih h

/-- What an exact parser reads is derived, in front of the token behind it. -/
theorem Exact.derives {size : Nat} {derives : List Token → α → TokenKind → Prop} {a : α}
    {us rest : List Token} (h : Exact limit size p derives) (hlen : ts.length < size)
    (hread : p.Reads limit ts a rest) (hts : ts = us ++ rest) : derives us a (kindAhead rest) := by
  obtain ⟨vs, hvs, hderives⟩ := (h hlen).mp hread
  obtain rfl : us = vs := List.append_cancel_right (hts.symm.trans hvs)
  exact hderives

/-- The second parser refuses behind the tokens that the first one has taken. -/
theorem refusesAfter_bind (hp : p.RefusesAfter limit V ts)
    (hf : ∀ a us mid, ts = us ++ mid → p.Reads limit ts a mid →
      (f a).RefusesAfter limit (fun vs => V (us ++ vs)) mid) :
    (p >>= f).RefusesAfter limit V ts := by
  intro e rest hrun
  rw [run_bind] at hrun
  cases hread : p.run limit ts with
  | error r =>
    rw [hread] at hrun
    cases hrun
    exact hp hread
  | ok r =>
    rw [hread] at hrun
    have hreads : p.Reads limit ts r.1 r.2 := hread
    obtain ⟨us, hus⟩ := hreads.exists_append
    obtain ⟨vs, hvs, hV⟩ := hf r.1 us r.2 hus hreads hrun
    exact ⟨us ++ vs, by rw [hus, hvs, List.append_assoc], hV⟩

/-- A parser that only changes its result refuses where the first one does. -/
theorem refusesAfter_bind_pure {f : α → β} (hp : p.RefusesAfter limit V ts) :
    (p >>= fun a => pure (f a)).RefusesAfter limit V ts :=
  refusesAfter_bind hp fun _ _ _ _ _ => refusesAfter_pure

theorem bind_bind {γ : Type} (p : Parse α) (f : α → Parse β) (g : β → Parse γ) :
    (p >>= f) >>= g = p >>= fun a => f a >>= g := by
  induction p with
  | done a => rfl
  | reject expected => rfl
  | look next ih => exact congrArg look (funext ih)
  | take next ih => exact congrArg take (funext ih)
  | bound next ih => exact congrArg bound (funext ih)
  | pass l next ih => exact congrArg (pass l) ih

/-- The brackets around parsers in a row do not matter. -/
theorem refusesAfter_bind_assoc {γ : Type} {g : β → Parse γ}
    (h : (p >>= fun a => f a >>= g).RefusesAfter limit V ts) :
    ((p >>= f) >>= g).RefusesAfter limit V ts := by
  rwa [bind_bind]

/-- Looking at a token takes nothing. -/
theorem refusesAfter_peek {f : Token → Parse β}
    (h : (f (ts.headD Token.eof)).RefusesAfter limit V ts) :
    (peek >>= f).RefusesAfter limit V ts :=
  h

/-- Passing a landmark takes nothing. -/
theorem refusesAfter_reach {f : Unit → Parse β} {l : Landmark}
    (h : (f ()).RefusesAfter limit V ts) : (reach l >>= f).RefusesAfter limit V ts :=
  h

/-- The token that is taken counts among those in front of the refusal. -/
theorem refusesAfter_advance {f : Token → Parse β} {t : Token}
    (h : (f t).RefusesAfter limit (fun us => V (t :: us)) ts) :
    (advance >>= f).RefusesAfter limit V (t :: ts) := by
  intro e rest hrun
  obtain ⟨us, rfl, hV⟩ := h hrun
  exact ⟨t :: us, rfl, hV⟩

/-- A question about the next kind, by its two answers. -/
theorem refusesAfter_ifNext {f : Bool → Parse β}
    (hnext : kindAhead ts = kind → (f true).RefusesAfter limit V ts)
    (hother : kindAhead ts ≠ kind → (f false).RefusesAfter limit V ts) :
    (isNext kind >>= f).RefusesAfter limit V ts := by
  show (f (kindAhead ts == kind)).RefusesAfter limit V ts
  by_cases hkind : kindAhead ts = kind
  · rw [beq_iff_eq.mpr hkind]
    exact hnext hkind
  · rw [beq_eq_false_iff_ne.mpr hkind]
    exact hother hkind

/-- If the kind is next, its token is taken; otherwise nothing is. -/
theorem refusesAfter_ifAccept (hkind : kind ≠ .eof) {f : Bool → Parse β}
    (hnext : ∀ t us, ts = t :: us → t.kind = kind →
      (f true).RefusesAfter limit (fun vs => V (t :: vs)) us)
    (hother : kindAhead ts ≠ kind → (f false).RefusesAfter limit V ts) :
    (accept kind >>= f).RefusesAfter limit V ts := by
  refine refusesAfter_bind (fun e rest hrun => ?_) fun taken us mid hts hread => ?_
  · rw [run_accept] at hrun
    cases hrun
  · rcases (reads_accept hkind).mp hread with ⟨t, rfl, ht, rfl⟩ | ⟨hne, rfl, rfl⟩
    · have hus : us = [t] := List.append_cancel_right hts.symm
      rw [hus]
      exact hnext t mid rfl ht
    · have hus : us = [] := List.append_cancel_right (hts.symm.trans (List.nil_append _).symm)
      rw [hus]
      exact hother hne

/-- The expected token may be missing, and then nothing was taken by this parser. -/
theorem refusesAfter_expect (hkind : kind ≠ .eof) {f : Token → Parse β} (hV : V [])
    (hf : ∀ t us, ts = t :: us → t.kind = kind →
      (f t).RefusesAfter limit (fun vs => V (t :: vs)) us) :
    (expect kind >>= f).RefusesAfter limit V ts := by
  refine refusesAfter_bind_assoc (refusesAfter_ifNext (fun hnext => ?_) fun _ => ?_)
  · obtain ⟨t, us, rfl, ht⟩ := exists_cons_of_kindAhead_eq hnext hkind
    exact refusesAfter_advance (hf t us rfl ht)
  · exact refusesAfter_reject hV

/-- The name under which a token is expected does not matter here. -/
theorem refusesAfter_expectAs (hkind : kind ≠ .eof) {expected : String} {f : Unit → Parse β}
    (hV : V [])
    (hf : ∀ t us, ts = t :: us → t.kind = kind →
      (f ()).RefusesAfter limit (fun vs => V (t :: vs)) us) :
    (expectAs kind expected >>= f).RefusesAfter limit V ts :=
  refusesAfter_bind_assoc (refusesAfter_ifAccept hkind hf fun _ => refusesAfter_reject hV)

/-! ## Loops -/

/-- Rounds of a loop, by induction over their number: the invariant ties what the loop holds to the
tokens that were taken. -/
private theorem refusesAfter_iterateUpTo {step : α → Parse (Option α)} {I : α → List Token → Prop}
    (hstep : ∀ b us mid, ts = us ++ mid → I b us →
      (step b).RefusesAfter limit (fun vs => V (us ++ vs)) mid)
    (hturn : ∀ b c us vs mid, ts = us ++ (vs ++ mid) → I b us →
      (step b).Reads limit (vs ++ mid) (some c) mid → I c (us ++ vs)) (fuel : Nat) {a : α}
    {us mid : List Token} (hts : ts = us ++ mid) (ha : I a us) :
    (iterateUpTo step fuel a).RefusesAfter limit (fun vs => V (us ++ vs)) mid := by
  induction fuel generalizing a us mid with
  | zero => exact refusesAfter_pure
  | succ fuel ih =>
    refine refusesAfter_bind (hstep a us mid hts ha) fun found vs rest hmid hread => ?_
    cases found with
    | none => exact refusesAfter_pure
    | some b =>
      subst hmid
      have hb := hturn a b us vs rest hts ha hread
      have hlonger := ih (hts.trans (List.append_assoc us vs rest).symm) hb
      simpa only [List.append_assoc] using hlonger

/-- A loop refuses where one of its turns does. The invariant says what the turns before it have
read. -/
theorem refusesAfter_iterate {step : α → Parse (Option α)} {a : α} (I : α → List Token → Prop)
    (ha : I a [])
    (hstep : ∀ b us mid, ts = us ++ mid → I b us →
      (step b).RefusesAfter limit (fun vs => V (us ++ vs)) mid)
    (hturn : ∀ b c us vs mid, ts = us ++ (vs ++ mid) → I b us →
      (step b).Reads limit (vs ++ mid) (some c) mid → I c (us ++ vs)) :
    (iterate step a).RefusesAfter limit V ts :=
  refusesAfter_iterateUpTo hstep hturn limit (List.nil_append ts).symm ha

/-- What the turns of a loop keep holds in front of the turn that ends it. -/
theorem exists_of_loops {step : α → Parse (Option α)} {a c : α} {rest : List Token}
    (I : α → List Token → Prop) (ha : I a [])
    (hturn : ∀ b c us vs mid, ts = us ++ (vs ++ mid) → I b us →
      (step b).Reads limit (vs ++ mid) (some c) mid → I c (us ++ vs))
    (h : Loops limit step a ts c rest) :
    ∃ us vs, ts = us ++ (vs ++ rest) ∧ I c us ∧ (step c).Reads limit (vs ++ rest) none rest := by
  suffices haux : ∀ {b c us mid}, ts = us ++ mid → I b us → Loops limit step b mid c rest →
      ∃ us vs, ts = us ++ (vs ++ rest) ∧ I c us ∧ (step c).Reads limit (vs ++ rest) none rest from
    haux (List.nil_append ts).symm ha h
  clear h
  intro b c us mid hts hb hloop
  induction hloop generalizing us with
  | stop hfound =>
    obtain ⟨vs, rfl⟩ := hfound.exists_append
    exact ⟨us, vs, hts, hb, hfound⟩
  | turn hfound _ ih =>
    obtain ⟨vs, rfl⟩ := hfound.exists_append
    exact ih (hts.trans (List.append_assoc ..).symm) (hturn _ _ _ _ _ hts hb hfound)

/-! ## Lists with a separator -/

/-- The tokens are items with a separator behind each, so that a further item makes a list. -/
def Leads {α : Type} (sep : TokenKind) (D : List Token → α → Prop) (us : List Token) : Prop :=
  ∀ ⦃vs a⦄, D vs a → ∃ as, Separated sep D (us ++ vs) as

section

variable {sep : TokenKind} {D : List Token → α → Prop} {us vs : List Token}

theorem leads_nil : Leads sep D [] :=
  fun _ a ha => ⟨[a], .one ha⟩

/-- A list goes on at its end with a separator and one more item. -/
theorem separated_snoc {as : List α} {b : α} {t : Token} (h : Separated sep D us as)
    (ht : t.kind = sep) (hb : D vs b) : Separated sep D (us ++ t :: vs) (as ++ [b]) := by
  induction h with
  | one ha => exact .more ha ht (.one hb)
  | more ha hu _ ih =>
    rw [List.append_assoc]
    exact .more ha hu ih

/-- Items with separators go on with one item and its separator. -/
theorem Leads.snoc {a : α} {t : Token} (h : Leads sep D us) (ha : D vs a) (ht : t.kind = sep) :
    Leads sep D (us ++ (vs ++ [t])) := by
  intro ws b hb
  obtain ⟨as, has⟩ := h ha
  exact ⟨as ++ [b], by simpa using separated_snoc has ht hb⟩

/-- Behind separators an item is missing, or the rest of one. -/
theorem Leads.viable (h : Leads sep D us) (hvs : Viable D vs) :
    Viable (Separated sep D) (us ++ vs) :=
  hvs.lift fun ha => viable_of_derives (h ha).choose_spec

/-- Items with separators and one item more, whose end the kind of the token behind it decides. -/
def Listed (sep : TokenKind) (D : List Token → α → Prop)
    (derives : List Token → α → TokenKind → Prop) (us : List Token) (k : TokenKind) : Prop :=
  ∃ vs ws a, us = vs ++ ws ∧ Leads sep D vs ∧ derives ws a k

/-- Once its separator is there, the last item leads on like those in front of it. -/
theorem Listed.leads {derives : List Token → α → TokenKind → Prop} {t : Token}
    (hD : ∀ {vs a}, derives vs a sep → D vs a) (ht : t.kind = sep)
    (h : Listed sep D derives us t.kind) : Leads sep D (us ++ [t]) := by
  obtain ⟨vs, ws, a, rfl, hvs, hws⟩ := h
  rw [ht] at hws
  rw [List.append_assoc]
  exact hvs.snoc (hD hws) ht

/-- A list of items with separators, and what comes behind it. -/
theorem refusesAfter_separated {size : Nat} {item : Parse α} {g : List α → Parse β}
    {derives : List Token → α → TokenKind → Prop} (hsep : sep ≠ .eof)
    (hexact : Exact limit size item derives) (hD : ∀ {vs a}, derives vs a sep → D vs a)
    (hitem : ∀ {s}, s.length < size → item.RefusesAfter limit (Viable D) s)
    (hlen : ts.length < size) (hlimit : size ≤ limit)
    (hV : ∀ {vs}, Viable (Separated sep D) vs → V vs)
    (hg : ∀ items us mid, ts = us ++ mid → Listed sep D derives us (kindAhead mid) →
      (g items).RefusesAfter limit (fun ws => V (us ++ ws)) mid) :
    (item >>= fun first => iterate (furtherItem sep item) [first] >>= g).RefusesAfter limit V
      ts := by
  have hfirst : item.RefusesAfter limit V ts :=
    (hitem hlen).imp fun vs hvs => hV (leads_nil.viable hvs)
  refine refusesAfter_bind hfirst fun first us mid hts hread => ?_
  obtain ⟨us, rfl, hus⟩ := (hexact hlen).mp hread
  obtain rfl := List.append_cancel_right hts
  rw [List.length_append] at hlen
  -- the invariant of the loop: together with the first item, a list has been read
  have hstart : ∀ rest, mid = [] ++ rest → Listed sep D derives (us ++ []) (kindAhead rest) := by
    intro rest hrest
    rw [hrest] at hus
    exact ⟨[], us, first, List.append_nil us, leads_nil, hus⟩
  have hshort : ∀ {taken xs : List Token} {t : Token}, mid = taken ++ t :: xs →
      xs.length < size := by
    intro taken xs t hmid
    have hle := congrArg List.length hmid
    rw [List.length_append, List.length_cons] at hle
    omega
  have hturn : ∀ (items items' : List α) (taken vs rest : List Token), mid = taken ++ (vs ++ rest) →
      (∀ r, mid = taken ++ r → Listed sep D derives (us ++ taken) (kindAhead r)) →
      (furtherItem sep item items).Reads limit (vs ++ rest) (some items') rest →
      ∀ r, mid = taken ++ vs ++ r → Listed sep D derives (us ++ (taken ++ vs)) (kindAhead r) := by
    intro items items' taken vs rest hmid hlisted hread r hr
    rcases (reads_furtherItem hsep).mp hread with ⟨t, xs, a, hxs, ht, ha, _⟩ | ⟨_, _, hnone⟩
    · rw [hxs] at hmid
      obtain ⟨ws, rfl, hws⟩ := (hexact (hshort hmid)).mp ha
      obtain rfl : vs = t :: ws := List.append_cancel_right hxs
      obtain rfl : rest = r := by simpa [hmid] using hr
      have hlisted' : Listed sep D derives (us ++ taken) t.kind := hlisted _ hmid
      exact ⟨us ++ taken ++ [t], ws, a, by simp, hlisted'.leads hD ht, hws⟩
    · cases hnone
  refine refusesAfter_bind (refusesAfter_iterate _ hstart ?_ hturn)
    fun items vs rest hmid hread => ?_
  · intro items taken rest hmid hlisted
    refine refusesAfter_ifAccept hsep (fun t xs hxs ht => ?_) fun _ => refusesAfter_pure
    subst hxs
    refine refusesAfter_bind_pure ((hitem (hshort hmid)).imp fun ws hws => hV ?_)
    have hlisted' : Listed sep D derives (us ++ taken) t.kind := hlisted _ hmid
    simpa using (hlisted'.leads hD ht).viable hws
  · have hloop : Loops limit (furtherItem sep item) [first] mid items rest :=
      (reads_iterate (fun _ => length_lt_of_furtherItem hsep) (by omega)).mp hread
    obtain ⟨taken, xs, hmid', hlisted, hstop⟩ := exists_of_loops _ hstart hturn hloop
    rcases (reads_furtherItem hsep).mp hstop with ⟨_, _, _, _, _, _, hsome⟩ | ⟨_, heq, _⟩
    · cases hsome
    · obtain rfl : xs = [] := List.append_cancel_right (heq.symm.trans (List.nil_append _).symm)
      obtain rfl : vs = taken := List.append_cancel_right (hmid.symm.trans hmid')
      subst hmid
      have hrest := hg items (us ++ vs) rest (List.append_assoc ..).symm (hlisted rest rfl)
      simpa only [List.append_assoc] using hrest

/-- A list with commas up to a closing token. -/
theorem refusesAfter_commaList {size : Nat} {item : Parse α} {g : List α → Parse β}
    {derives : List Token → α → TokenKind → Prop} {close : TokenKind} (hclose : close ≠ .eof)
    (hexact : Exact limit size item derives) (hD : ∀ {vs a k}, derives vs a k → D vs a)
    (hitem : ∀ {s}, s.length < size → item.RefusesAfter limit (Viable D) s)
    (hlen : ts.length < size) (hlimit : size ≤ limit)
    (hV : ∀ {vs}, Viable (Separated .comma D) vs → V vs)
    (hg : ∀ items vs as c mid, ts = vs ++ c :: mid → Separated .comma D vs as → c.kind = close →
      (g items).RefusesAfter limit (fun ws => V (vs ++ c :: ws)) mid) :
    (commaList item >>= fun items => expect close >>= fun _ => g items).RefusesAfter limit V
      ts := by
  have hlist : (item >>= fun first => iterate (furtherItem .comma item) [first] >>= fun items =>
      expect close >>= fun _ => g items.reverse).RefusesAfter limit V ts := by
    refine refusesAfter_separated (by decide) hexact hD hitem hlen hlimit hV ?_
    intro items us mid hts hlisted
    obtain ⟨vs, ws, a, rfl, hleads, hws⟩ := hlisted
    obtain ⟨as, has⟩ := hleads (hD hws)
    refine refusesAfter_expect hclose ?_ fun c rest hmid hc => ?_
    · rw [List.append_nil]
      exact hV (viable_of_derives has)
    · subst hmid
      exact hg items.reverse (vs ++ ws) as c rest hts has hc
  unfold commaList
  simp only [bind_bind]
  exact hlist

end

/-! ## What stands behind the refused token -/

/-- What a refusal leaves is the end of the list. -/
theorem exists_append_of_refused {e : String} {rest : List Token}
    (h : p.run limit ts = .error ⟨e, rest⟩) : ∃ us, ts = us ++ rest := by
  induction p generalizing ts with
  | done a => cases h
  | reject expected =>
    cases h
    exact ⟨[], rfl⟩
  | look next ih => exact ih _ h
  | take next ih =>
    obtain ⟨us, hus⟩ : ∃ us, ts.drop 1 = us ++ rest := ih _ h
    exact ⟨ts.take 1 ++ us, by rw [List.append_assoc, ← hus, List.take_append_drop]⟩
  | bound next ih => exact ih _ h
  | pass l next ih => exact ih h

/-- The tokens behind the refused one have not been looked at, so that others could stand in their
place. -/
theorem run_of_refused {e : String} {us vs : List Token} {t : Token}
    (h : p.run limit (us ++ t :: vs) = .error ⟨e, t :: vs⟩) (vs' : List Token) :
    p.run limit (us ++ t :: vs') = .error ⟨e, t :: vs'⟩ := by
  induction p generalizing us with
  | done a => cases h
  | reject expected =>
    have hrest : us ++ t :: vs = t :: vs := congrArg Rejection.rest (Except.error.inj h)
    obtain rfl : us = [] := List.append_cancel_right (hrest.trans (List.nil_append _).symm)
    cases h
    rfl
  | look next ih =>
    have hhead : ∀ ws, (us ++ t :: ws).headD Token.eof = us.headD t := by
      intro ws
      cases us <;> rfl
    have hnext : (next (us.headD t)).run limit (us ++ t :: vs) = .error ⟨e, t :: vs⟩ := by
      rw [← hhead vs]
      exact h
    show (next ((us ++ t :: vs').headD Token.eof)).run limit (us ++ t :: vs') = _
    rw [hhead]
    exact ih _ hnext
  | take next ih =>
    cases us with
    | nil =>
      -- the refused token itself would have been taken, but it is left
      obtain ⟨ws, hws⟩ := exists_append_of_refused (show (next t).run limit vs = _ from h)
      have hlength := congrArg List.length hws
      rw [List.length_append, List.length_cons] at hlength
      omega
    | cons u us => exact ih u h
  | bound next ih => exact ih limit h
  | pass l next ih => exact ih h

end Parse

end Stencil
