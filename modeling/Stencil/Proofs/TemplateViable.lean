import Stencil.Proofs.ClauseViable
import Stencil.Proofs.TemplateExact

/-!
# The template parsers refuse in time

Whenever the parser of templates refuses a token, the tokens in front of it can be completed to a
template. What is missing behind the header of a construct is its body, which may be empty, and its
close sequence. A body that the source ends in is complete but for the opening of the block that
ends it.

> `Derives.BodyCompleter.refusesAfter_block`: the inside of a block, construct by construct.
> `Derives.bodyCompleter_bodyWithin`: the induction over the depth of the bodies.
> `Derives.refusesAfter_template`: the parser of templates.
-/

namespace Stencil.Derives

open Grammar Parse

/-! ## Constructs -/

/-- The parser of bodies is exact, and what it has taken when it refuses can become a body. -/
structure BodyCompleter (limit size : Nat) (B : List Token → List Item → List TokenKind → Prop)
    (body : Grammar.Body) : Prop extends BodyReader limit size B body where
  refusesAfter : ∀ {stops : List TokenKind} {ts : List Token}, .blockClose ∉ stops →
    ts.length < size → (body stops).RefusesAfter limit (Viable fun us items => B us items stops) ts
  nil : ∀ stops, B [] [] stops

/-- A body up to and with its close sequence. -/
def ClosedBody (B : List Token → List Item → List TokenKind → Prop) (keyword : TokenKind)
    (us : List Token) (items : List Item) : Prop :=
  ∃ vs ws, us = vs ++ ws ∧ Inner B vs items [.slash] ∧ Closing keyword ws

/-- The rest of a construct that may have an `else`, up to and with its close sequence. -/
def Ending (B : List Token → List Item → List TokenKind → Prop) (keyword : TokenKind)
    (us : List Token) (otherwise : Option (List Item)) : Prop :=
  ∃ vs ws, us = vs ++ ws ∧ Otherwise B vs otherwise ∧ Closing keyword ws

section

variable {limit size : Nat} {B : List Token → List Item → List TokenKind → Prop}
  {body : Grammar.Body} {ts : List Token} {V : List Token → Prop} {keyword : TokenKind}
  {stops : List TokenKind} {β : Type}

/-- A body lacks only the opening of the block that ends it. -/
theorem inner_ofKind {us : List Token} {items : List Item} (h : B us items stops) :
    Inner B (us ++ [.ofKind .blockOpen]) items stops :=
  .mk h rfl

/-- Behind a body, the opening of a block and a close sequence are missing. -/
theorem viable_closedBody_of_body {us : List Token} {items : List Item}
    (h : B us items [.slash]) : Viable (ClosedBody B keyword) us :=
  ⟨[.ofKind .blockOpen] ++ _, items, _, _, (List.append_assoc ..).symm, inner_ofKind h,
    closing_ofKind keyword⟩

/-- A body with its close sequence can stand where nothing has been read yet, since bodies may be
empty. -/
theorem BodyCompleter.viable_closedBody (h : BodyCompleter limit size B body)
    (keyword : TokenKind) : Viable (ClosedBody B keyword) [] :=
  viable_closedBody_of_body (h.nil _)

/-- A body that only its close sequence ends. If the source ends the body, nothing of a close
sequence follows. -/
theorem BodyCompleter.refusesAfter_closedBody (h : BodyCompleter limit size B body)
    (hlen : ts.length < size) (hkeyword : keyword ≠ .eof) {name : String} {f : List Item → β}
    (hV : ∀ {us}, Viable (ClosedBody B keyword) us → V us) :
    (body [.slash] >>= fun items => closing keyword name >>= fun _ => pure (f items)).RefusesAfter
      limit V ts := by
  have hbody : (body [.slash]).RefusesAfter limit V ts :=
    (h.refusesAfter (by decide) hlen).imp fun us hus => hV (hus.imp viable_closedBody_of_body)
  refine refusesAfter_bind hbody fun items us mid hts hread => ?_
  rcases (h.exact (by decide)).derives hlen hread hts with ⟨hus, hend⟩ | ⟨hus, _⟩
  · refine refusesAfter_closing hkeyword ?_ fun hslash => ?_
    · rw [List.append_nil]
      exact hV (viable_closedBody_of_body hus)
    · rw [hend] at hslash
      cases hslash
  · have hclosed : ∀ vs ws, Closing keyword (vs ++ ws) → V (us ++ vs) := by
      intro vs ws hvs
      exact hV ⟨ws, items, us, vs ++ ws, List.append_assoc .., hus, hvs⟩
    exact refusesAfter_closing hkeyword (hclosed [] _ (closing_ofKind keyword)) fun _ => hclosed

/-- An import lacks its path and the end of its block, in this order. -/
theorem refusesAfter_importBlock : importBlock.RefusesAfter limit (Viable ImportBlock) ts := by
  have hmk : ∀ {word path close : Token}, word.kind = .importWord → path.kind = .string →
      close.kind = .blockClose →
      ImportBlock [word, path, close] (.importFile (unquote path.text)) :=
    fun hword hpath hclose => .mk hword hpath hclose
  unfold importBlock
  refine refusesAfter_expect (by decide) ?_ fun word us _ hword => ?_
  · exact ⟨_, _, hmk (Token.kind_ofKind .importWord) (Token.kind_ofKind .string)
      (Token.kind_ofKind .blockClose)⟩
  refine refusesAfter_expect (by decide) ?_ fun path us _ hpath => ?_
  · exact ⟨_, _, hmk hword (Token.kind_ofKind .string) (Token.kind_ofKind .blockClose)⟩
  refine refusesAfter_expect (by decide) ?_ fun _ _ _ _ => refusesAfter_pure
  exact ⟨_, _, hmk hword hpath (Token.kind_ofKind .blockClose)⟩

/-- An assignment: behind the name it is open whether a value or a body follows. -/
theorem BodyCompleter.refusesAfter_varBlock (h : BodyCompleter limit size B body)
    (hlen : ts.length < size) : (varBlock body).RefusesAfter limit (Viable (VarBlock B)) ts := by
  have hlimit := h.size_lt
  -- from the back: what is missing behind the header, behind the name, and behind the first word
  have hbody : ∀ {word close : Token} {us vs : List Token} {name : String}, word.kind = .varWord →
      BoundName us name → close.kind = .blockClose → Viable (ClosedBody B .varWord) vs →
      Viable (VarBlock B) (word :: (us ++ close :: vs)) := by
    intro word close us vs name hword hus hclose hvs
    obtain ⟨ws, items, as, bs, heq, has, hbs⟩ := hvs
    refine ⟨ws, .binding name (.statements items), ?_⟩
    simpa [heq] using VarBlock.body hword hus hclose has hbs
  have hname : ∀ {word : Token} {us : List Token} {name : String}, word.kind = .varWord →
      BoundName us name → Viable (VarBlock B) (word :: us) := by
    intro word us name hword hus
    have hwhole := hbody hword hus (Token.kind_ofKind .blockClose) (h.viable_closedBody .varWord)
    exact hwhole.of_isPrefix (by simp)
  have hword : ∀ {word : Token}, word.kind = .varWord → Viable (VarBlock B) [word] := by
    intro word hword
    exact (hname hword boundName_ofKind).of_isPrefix (by simp)
  unfold varBlock
  refine refusesAfter_expect (by decide) (hword (Token.kind_ofKind .varWord)).nil ?_
  intro word s hs hw
  refine refusesAfter_boundName (hword hw) fun name us mid hmid hus => ?_
  subst hs
  subst hmid
  rw [List.length_cons, List.length_append] at hlen
  refine refusesAfter_ifAccept (by decide) (fun assign r hr hassign => ?_) fun _ => ?_
  · subst hr
    rw [List.length_cons] at hlen
    refine refusesAfter_closed (by omega) ?_ fun _ _ _ _ _ => refusesAfter_pure
    intro vs hvs
    obtain ⟨ws, value, hvalue⟩ := hvs
    exact ⟨ws, .binding name value, by simpa using VarBlock.value hw hus hassign hvalue⟩
  · refine refusesAfter_expectAs (by decide) ?_ fun close r hr hclose => ?_
    · rw [List.append_nil]
      exact hname hw hus
    · subst hr
      rw [List.length_cons] at hlen
      exact h.refusesAfter_closedBody (by omega) (by decide) (hbody hw hus hclose)

/-- A construct with a word, a name and a list in its header: behind the header it lacks no more
than its body does. -/
def NeedsBody {α : Type} (B : List Token → List Item → List TokenKind → Prop)
    (keyword : TokenKind) (list : List Token → α → Prop) (construct : List Token → Node → Prop) :
    Prop :=
  ∀ {word close : Token} {us as vs : List Token} {name : String} {a : α}, word.kind = keyword →
    BoundName us name → list as a → close.kind = .blockClose → Viable (ClosedBody B keyword) vs →
    Viable construct (word :: (us ++ (as ++ close :: vs)))

/-- The list can be completed, and the construct with it. -/
theorem NeedsBody.viable_list {α : Type} {list : List Token → α → Prop}
    {construct : List Token → Node → Prop} (h : NeedsBody B keyword list construct)
    (hbody : Viable (ClosedBody B keyword) []) {word : Token} {us as : List Token} {name : String}
    (hword : word.kind = keyword) (hus : BoundName us name) (has : Viable list as) :
    Viable construct (word :: (us ++ as)) := by
  obtain ⟨bs, a, hbs⟩ := has
  have hwhole := h hword hus hbs (Token.kind_ofKind .blockClose) hbody
  exact hwhole.of_isPrefix (by simp)

/-- Behind the word, a name and the list are missing. -/
theorem NeedsBody.viable_word {α : Type} {list : List Token → α → Prop}
    {construct : List Token → Node → Prop} (h : NeedsBody B keyword list construct)
    (hbody : Viable (ClosedBody B keyword) []) (hlist : Viable list []) {word : Token}
    (hword : word.kind = keyword) : Viable construct [word] := by
  have hname := h.viable_list hbody hword boundName_ofKind hlist
  exact hname.of_isPrefix (by simp)

/-- Such a construct lacks its body once its header is complete. -/
theorem needsBody_headed {α : Type} {list : List Token → α → Prop}
    {node : String → α → List Item → Node} :
    NeedsBody B keyword list (Headed B keyword list node) := by
  intro word close us as vs name a hword hus has hclose hvs
  obtain ⟨ws, items, bs, cs, heq, hbs, hcs⟩ := hvs
  refine ⟨ws, node name a items, ?_⟩
  have hheaded : Headed B keyword list node (word :: (us ++ (as ++ close :: (bs ++ cs))))
      (node name a items) := .mk hword hus has hclose hbs hcs
  simpa [heq] using hheaded

/-- A header refuses behind tokens that a list can begin with, or behind the whole list and the end
of the block, where the rest of the construct does. -/
def HeaderRefuses {α : Type} (limit : Nat) (header : (α → Parse Node) → Parse Node)
    (list : List Token → α → Prop) : Prop :=
  ∀ {ts : List Token} {f : α → Parse Node} {V : List Token → Prop}, ts.length < limit →
    (∀ {us}, Viable list us → V us) →
    (∀ a us as close mid, ts = us ++ close :: mid → list us as → close.kind = .blockClose →
      (f a).RefusesAfter limit (fun vs => V (us ++ close :: vs)) mid) →
    (header f).RefusesAfter limit V ts

/-- Word, name, header and body of a construct. Whatever is missing when it refuses can follow,
since the list may be missing and the body may be empty. -/
theorem BodyCompleter.refusesAfter_headedBlock (h : BodyCompleter limit size B body)
    (hlen : ts.length < size) {α : Type} (hkeyword : keyword ≠ .eof)
    {header : (α → Parse Node) → Parse Node} {list : List Token → α → Prop}
    (hheader : HeaderRefuses limit header list) (hmissing : Viable list []) {name : String}
    {node : String → α → List Item → Node} :
    (headedBlock body keyword header name node).RefusesAfter limit
      (Viable (Headed B keyword list node)) ts := by
  have hlimit := h.size_lt
  have hbody := h.viable_closedBody keyword
  have hneeds : NeedsBody B keyword list (Headed B keyword list node) := needsBody_headed
  have hword : ∀ {word : Token}, word.kind = keyword → Viable (Headed B keyword list node) [word] :=
    hneeds.viable_word hbody hmissing
  unfold headedBlock
  refine refusesAfter_expect hkeyword (hword (Token.kind_ofKind keyword)).nil ?_
  intro word s hs hw
  refine refusesAfter_boundName (hword hw) fun name us mid hmid hus => ?_
  subst hs
  subst hmid
  rw [List.length_cons, List.length_append] at hlen
  refine hheader (by omega) (hneeds.viable_list hbody hw hus) ?_
  intro a as b close r hr has hclose
  subst hr
  rw [List.length_append, List.length_cons] at hlen
  exact h.refusesAfter_closedBody (by omega) hkeyword (hneeds hw hus has hclose)

/-- A macro lacks the rest of its parameters, or its body. -/
theorem BodyCompleter.refusesAfter_macroBlock (h : BodyCompleter limit size B body)
    (hlen : ts.length < size) :
    (macroBlock body).RefusesAfter limit (Viable (MacroBlock B)) ts := by
  have hheader : HeaderRefuses limit macroHeader Parameters := refusesAfter_parameters
  have hmissing : Viable Parameters [] := viable_of_derives .missing
  rw [macroBlock_eq]
  exact (h.refusesAfter_headedBlock hlen (by decide) hheader hmissing).imp
    fun _ hus => hus.imp fun hn => viable_of_derives (headed_iff_macroBlock.mp hn)

/-- A call with a body lacks the rest of its arguments, or its body. -/
theorem BodyCompleter.refusesAfter_callBlock (h : BodyCompleter limit size B body)
    (hlen : ts.length < size) : (callBlock body).RefusesAfter limit (Viable (CallBlock B)) ts := by
  have hheader : HeaderRefuses limit callHeader CallArguments := refusesAfter_callArguments
  have hmissing : Viable CallArguments [] := viable_of_derives .missing
  rw [callBlock_eq]
  exact (h.refusesAfter_headedBlock hlen (by decide) hheader hmissing).imp
    fun _ hus => hus.imp fun hn => viable_of_derives (headed_iff_callBlock.mp hn)

/-! ### Constructs with `else` -/

/-- The rest of a construct that may have an `else`. If the source has ended, nothing of it
follows. -/
theorem BodyCompleter.refusesAfter_otherwise (h : BodyCompleter limit size B body)
    (hlen : ts.length < size) (hkeyword : keyword ≠ .eof) {name : String}
    {f : Option (List Item) → β} (hV : V [])
    (hending : kindAhead ts ≠ .eof → ∀ {us}, Viable (Ending B keyword) us → V us) :
    (accept .elseWord >>= fun found => if found = true then expect .blockClose >>= fun _ =>
        body [.slash] >>= fun items => closing keyword name >>= fun _ => pure (f (some items))
      else closing keyword name >>= fun _ => pure (f none)).RefusesAfter limit V ts := by
  refine refusesAfter_ifAccept (by decide) (fun word s hs hword => ?_) fun _ => ?_
  · subst hs
    have hnext : kindAhead (word :: s) ≠ .eof := Token.kind_ne hword (by decide)
    have hbody : ∀ {close : Token} {us : List Token}, close.kind = .blockClose →
        Viable (ClosedBody B keyword) us → Viable (Ending B keyword) (word :: close :: us) := by
      intro close us hclose hus
      obtain ⟨vs, items, as, bs, heq, has, hbs⟩ := hus
      exact ⟨vs, some items, word :: close :: as, bs, by simp [heq], .some hword hclose has, hbs⟩
    refine refusesAfter_expect (by decide) ?_ fun close r hr hclose => ?_
    · have hclosed := hbody (Token.kind_ofKind .blockClose) (h.viable_closedBody keyword)
      exact hending hnext (hclosed.of_isPrefix (by simp))
    · subst hr
      rw [List.length_cons, List.length_cons] at hlen
      exact h.refusesAfter_closedBody (by omega) hkeyword fun hus =>
        hending hnext (hbody hclose hus)
  · refine refusesAfter_closing hkeyword hV fun hslash us vs hus => ?_
    refine hending (by rw [hslash]; decide) ⟨vs, none, [], us ++ vs, rfl, .none, hus⟩

theorem viable_ending_nil : Viable (Ending B keyword) [] :=
  ⟨_, _, [], _, rfl, .none, closing_ofKind keyword⟩

section

variable {word inWord : Token} {ns us : List Token} {names : List String} {c : Node}

/-- Behind its body a loop lacks what `Ending` describes, with `else` or without. -/
theorem viable_forBlock_of_ending {vs os : List Token} {items : List Item}
    (hword : word.kind = .forWord) (hns : LoopNames ns names) (hin : inWord.kind = .inWord)
    (hus : Closed us c) (hvs : Inner B vs items [.slash, .elseWord])
    (hos : Viable (Ending B .forWord) os) :
    Viable (ForBlock B) (word :: (ns ++ inWord :: (us ++ (vs ++ os)))) := by
  obtain ⟨ws, otherwise, as, bs, heq, has, hbs⟩ := hos
  refine ⟨ws, .loop names c items otherwise, ?_⟩
  simpa [heq] using ForBlock.mk hword hns hin hus hvs has hbs

/-- Behind its header a loop lacks a body. -/
theorem viable_forBlock_of_body {vs : List Token} (hword : word.kind = .forWord)
    (hns : LoopNames ns names) (hin : inWord.kind = .inWord) (hus : Closed us c)
    (hvs : Viable (fun vs items => B vs items [.slash, .elseWord]) vs) :
    Viable (ForBlock B) (word :: (ns ++ inWord :: (us ++ vs))) := by
  obtain ⟨ws, items, hitems⟩ := hvs
  have hwhole :=
    viable_forBlock_of_ending hword hns hin hus (inner_ofKind hitems) viable_ending_nil
  exact hwhole.of_isPrefix (by simp)

/-- Behind its names a loop lacks a collection, since its body may be empty. -/
theorem BodyCompleter.viable_forBlock_of_collection (h : BodyCompleter limit size B body)
    (hword : word.kind = .forWord) (hns : LoopNames ns names) (hin : inWord.kind = .inWord)
    (hus : Viable Closed us) : Viable (ForBlock B) (word :: (ns ++ inWord :: us)) := by
  obtain ⟨vs, c, hc⟩ := hus
  have hwhole := viable_forBlock_of_body hword hns hin hc (viable_of_derives (h.nil _))
  exact hwhole.of_isPrefix (by simp)

/-- Behind its word a loop lacks names. -/
theorem BodyCompleter.viable_forBlock_of_names (h : BodyCompleter limit size B body)
    (hword : word.kind = .forWord) (hns : Viable LoopNames ns) :
    Viable (ForBlock B) (word :: ns) := by
  obtain ⟨ms, names, hms⟩ := hns
  have hwhole :=
    h.viable_forBlock_of_collection hword hms (Token.kind_ofKind .inWord) viable_closed_nil
  exact hwhole.of_isPrefix (by simp)

end

/-- A loop lacks names, a collection, a body or what stands behind its body, in this order. -/
theorem BodyCompleter.refusesAfter_forBlock (h : BodyCompleter limit size B body)
    (hlen : ts.length < size) : (forBlock body).RefusesAfter limit (Viable (ForBlock B)) ts := by
  have hlimit := h.size_lt
  have hword : ∀ {word : Token}, word.kind = .forWord → Viable (ForBlock B) [word] := by
    intro word hword
    have hname := h.viable_forBlock_of_names hword (viable_of_derives (.value boundName_ofKind))
    exact hname.of_isPrefix (by simp)
  unfold forBlock
  refine refusesAfter_expect (by decide) (hword (Token.kind_ofKind .forWord)).nil ?_
  intro word s hs hw
  subst hs
  rw [List.length_cons] at hlen
  refine refusesAfter_loopNames (f := loopBehindNames body) (h.viable_forBlock_of_names hw) ?_
  intro names ns inWord r hr hns hin
  subst hr
  rw [List.length_append, List.length_cons] at hlen
  refine refusesAfter_closed (by omega) (h.viable_forBlock_of_collection hw hns hin)
    fun c us q hq hus => ?_
  subst hq
  rw [List.length_append] at hlen
  have hitems : (body [.slash, .elseWord]).RefusesAfter limit
      (fun vs => Viable (ForBlock B) (word :: (ns ++ inWord :: (us ++ vs)))) q :=
    (h.refusesAfter (by decide) (by omega)).imp fun vs hvs =>
      viable_forBlock_of_body hw hns hin hus hvs
  refine refusesAfter_bind hitems fun items vs mid hmid hread => ?_
  have hexact : Exact limit size (body [.slash, .elseWord]) _ := h.exact (by decide)
  have hvs := hexact.derives (by omega) hread hmid
  subst hmid
  rw [List.length_append] at hlen
  refine h.refusesAfter_otherwise (f := Node.loop names c items) (by omega) (by decide) ?_ ?_
  · -- whether the body has been ended or not, its end and the close sequence can follow
    rw [List.append_nil]
    rcases hvs with ⟨hvs, _⟩ | ⟨hvs, _⟩
    · exact viable_forBlock_of_body hw hns hin hus (viable_of_derives hvs)
    · simpa using viable_forBlock_of_ending hw hns hin hus hvs viable_ending_nil
  · intro hnext os hos
    rcases hvs with ⟨_, hend⟩ | ⟨hvs, _⟩
    · exact absurd hend hnext
    · exact viable_forBlock_of_ending hw hns hin hus hvs hos

/-- An arm lacks the rest of its condition, or a body up to one of the words that end arms. -/
theorem BodyCompleter.refusesAfter_arm (h : BodyCompleter limit size B body)
    (hlen : ts.length < size) : (arm body).RefusesAfter limit (Viable (ArmOf B)) ts := by
  have hlimit := h.size_lt
  have hbody : ∀ {us vs : List Token} {c : Node}, Closed us c →
      Viable (fun vs items => B vs items armStops) vs → Viable (ArmOf B) (us ++ vs) := by
    intro us vs c hus hvs
    obtain ⟨ws, items, hitems⟩ := hvs
    exact ⟨ws ++ [.ofKind .blockOpen], .mk c items,
      by simpa using ArmOf.mk hus (inner_ofKind hitems)⟩
  unfold arm
  refine refusesAfter_closed (by omega) ?_ fun c us mid hts hus => ?_
  · intro us hus
    refine hus.imp fun hc => ?_
    simpa using hbody hc (viable_of_derives (h.nil armStops))
  · subst hts
    rw [List.length_append] at hlen
    refine refusesAfter_bind_pure ((h.refusesAfter (by decide) (by omega)).imp fun vs hvs => ?_)
    exact hbody hus hvs

/-- A condition: behind each arm another arm could follow, or the rest up to the close sequence. -/
theorem BodyCompleter.refusesAfter_ifBlock (h : BodyCompleter limit size B body)
    (hlen : ts.length < size) : (ifBlock body).RefusesAfter limit (Viable (IfBlock B)) ts := by
  have hlimit := h.size_lt
  have hending : ∀ {word : Token} {us os : List Token} {arms : List Arm}, word.kind = .ifWord →
      Separated .elseIfWord (ArmOf B) us arms → Viable (Ending B .ifWord) os →
      Viable (IfBlock B) (word :: (us ++ os)) := by
    intro word us os arms hword hus hos
    obtain ⟨ws, otherwise, as, bs, heq, has, hbs⟩ := hos
    refine ⟨ws, .conditional (arms ++ lastArm otherwise), ?_⟩
    simpa [heq] using IfBlock.mk hword hus has hbs
  have harms : ∀ {word : Token} {us : List Token}, word.kind = .ifWord →
      Viable (Separated .elseIfWord (ArmOf B)) us → Viable (IfBlock B) (word :: us) := by
    intro word us hword hus
    obtain ⟨vs, arms, hvs⟩ := hus
    exact (hending hword hvs viable_ending_nil).of_isPrefix (by simp)
  have hword : ∀ {word : Token}, word.kind = .ifWord → Viable (IfBlock B) [word] := by
    intro word hword
    obtain ⟨us, c, hc⟩ := viable_closed_nil
    have harm : ArmOf B (us ++ ([] ++ [.ofKind .blockOpen])) (.mk c []) :=
      .mk hc (inner_ofKind (h.nil armStops))
    have hone := harms hword (viable_of_derives (.one harm))
    exact hone.of_isPrefix (by simp)
  unfold ifBlock
  refine refusesAfter_expect (by decide) (hword (Token.kind_ofKind .ifWord)).nil ?_
  intro word s hs hw
  subst hs
  rw [List.length_cons] at hlen
  have hstops : ∀ {us : List Token} {a : Arm}, ArmBefore B .elseIfWord us a → ArmOf B us a :=
    (armBefore_iff (.inl rfl)).mp
  refine refusesAfter_separated (by decide) h.exact_arm hstops h.refusesAfter_arm (by omega)
    (Nat.le_of_lt hlimit) (harms hw) fun arms us mid hmid hus => ?_
  subst hmid
  rw [List.length_append] at hlen
  obtain ⟨vs, ws, a, rfl, hleads, ha⟩ := hus
  have hlast : Viable (ArmOf B) ws := by
    cases ha with
    | stopped ha => exact viable_of_derives ha
    | ended hc hitems =>
      exact ⟨[.ofKind .blockOpen], _, by simpa using ArmOf.mk hc (inner_ofKind hitems)⟩
  refine h.refusesAfter_otherwise (f := conditionalOf arms) (by omega) (by decide) ?_ ?_
  · rw [List.append_nil]
    exact harms hw (hleads.viable hlast)
  · intro hnext os hos
    cases ha with
    | stopped ha =>
      obtain ⟨as, has⟩ := hleads ha
      exact hending hw has hos
    | ended _ _ hend => exact absurd hend hnext

/-! ## Blocks and bodies -/

/-- The inside of a block, by its first token. A token that starts none of the constructs is left to
the expressions, which refuse it with nothing taken. -/
theorem BodyCompleter.refusesAfter_block (h : BodyCompleter limit size B body)
    (hlen : ts.length < size) : (block body).RefusesAfter limit (Viable (Block B)) ts := by
  have hlimit := h.size_lt
  have hblock : ∀ {p : Parse Node} {D : List Token → Node → Prop},
      p.RefusesAfter limit (Viable D) ts → (∀ us n, D us n → Block B us n) →
      p.RefusesAfter limit (Viable (Block B)) ts := by
    intro p D hp hD
    exact hp.imp fun us hus => hus.imp fun hn => viable_of_derives (hD _ _ hn)
  unfold block
  refine refusesAfter_peek ?_
  split
  next => exact hblock (h.refusesAfter_varBlock hlen) fun _ _ hn => .varBlock hn
  next => exact hblock (h.refusesAfter_macroBlock hlen) fun _ _ hn => .macroBlock hn
  next => exact hblock (h.refusesAfter_forBlock hlen) fun _ _ hn => .forBlock hn
  next => exact hblock (h.refusesAfter_ifBlock hlen) fun _ _ hn => .ifBlock hn
  next => exact hblock (h.refusesAfter_callBlock hlen) fun _ _ hn => .callBlock hn
  next => exact hblock refusesAfter_importBlock fun _ _ hn => .importBlock hn
  next =>
    refine refusesAfter_closed (by omega) ?_ fun _ _ _ _ _ => refusesAfter_pure
    intro us hus
    refine hus.imp fun hn => ?_
    cases hn with
    | mk hn hclose => exact viable_of_derives (.expression hn hclose)

/-- Behind the opening of a block that does not end the body. If nothing of its inside has been
taken, it may be empty. -/
theorem viable_element_of_block {left : Token} {us rest : List Token}
    (hleft : left.kind = .blockOpen) (hstop : kindAhead (us ++ rest) ∉ stops)
    (hus : Viable (Block B) us) :
    Viable (fun us item => Element B us item stops) (left :: us) := by
  cases us with
  | nil => exact ⟨[.ofKind .blockClose], none, .emptyBlock hleft rfl⟩
  | cons t us =>
    obtain ⟨vs, n, hn⟩ := hus
    exact ⟨vs, some (.node n), .block hleft hstop hn⟩

/-- One round of a body. The tokens that it has taken when it refuses begin an element. -/
theorem BodyCompleter.refusesAfter_bodyStep (h : BodyCompleter limit size B body)
    {items : List Item} (hlen : ts.length ≤ size) :
    (bodyStep body stops items).RefusesAfter limit
      (Viable fun us item => Element B us item stops) ts := by
  have hfragment : Viable (fun us item => Element B us item stops) [] :=
    ⟨[.ofKind .fragment], _, .fragment rfl⟩
  unfold bodyStep
  refine refusesAfter_reach (refusesAfter_peek ?_)
  cases ts with
  | nil => exact refusesAfter_pure
  | cons t ts =>
    rw [List.headD_cons]
    rw [List.length_cons] at hlen
    split
    next => exact refusesAfter_pure
    next => exact refusesAfter_bind_pure refusesAfter_skipComment
    next => exact refusesAfter_bind_pure refusesAfter_literalBlock
    next hk =>
      refine refusesAfter_advance (refusesAfter_peek ?_)
      split
      · exact refusesAfter_pure
      next hstop =>
        have hstop : kindAhead ts ∉ stops := fun hmem => hstop (List.contains_iff_mem.mpr hmem)
        refine refusesAfter_ifAccept (by decide) (fun _ _ _ _ => refusesAfter_pure) fun _ => ?_
        refine refusesAfter_bind_pure ?_
        intro e rest hrun
        obtain ⟨us, rfl, hus⟩ := h.refusesAfter_block (by omega) hrun
        exact ⟨us, rfl, viable_element_of_block hk hstop hus⟩
    next => exact refusesAfter_advance refusesAfter_pure
    next => exact refusesAfter_advance refusesAfter_pure
    next => exact refusesAfter_reject hfragment

/-- A body goes on at its end with one more element. -/
theorem Elements.snoc {us vs : List Token} {items : List Item} {item : Option Item}
    (h : Elements B us items stops) (hitem : Element B vs item stops) :
    Elements B (us ++ vs) (items ++ item.toList) stops := by
  induction h with
  | nil => simpa using Elements.cons hitem .nil
  | cons hfirst _ ih => simpa using Elements.cons hfirst (ih hitem)

/-- One more layer of bodies. -/
theorem BodyCompleter.refusesAfter_body (h : BodyCompleter limit size B body)
    (hstops : .blockClose ∉ stops) (hlen : ts.length < size + 1) :
    (iterate (bodyStep body stops) [] >>= fun items => pure items.reverse).RefusesAfter limit
      (Viable fun us items => Elements B us items stops) ts := by
  have hshort : ∀ {us mid : List Token}, ts = us ++ mid → mid.length ≤ size := by
    intro us mid hts
    rw [hts, List.length_append] at hlen
    omega
  refine refusesAfter_bind_pure (refusesAfter_iterate
    (fun _ us => ∃ items, Elements B us items stops) ⟨[], .nil⟩ ?_ ?_)
  · intro acc us mid hts hus
    obtain ⟨items, hitems⟩ := hus
    refine (h.refusesAfter_bodyStep (hshort hts)).imp fun vs hvs => ?_
    exact hvs.lift fun hitem => viable_of_derives (hitems.snoc hitem)
  · intro acc acc' us vs mid hts hus hread
    obtain ⟨items, hitems⟩ := hus
    rcases (h.reads_bodyStep hstops (hshort hts)).mp hread with
      ⟨ws, item, hws, hitem, _⟩ | ⟨_, _, hnone⟩ | ⟨_, _, _, _, hnone⟩
    · obtain rfl : vs = ws := List.append_cancel_right hws
      exact ⟨_, hitems.snoc hitem⟩
    · cases hnone
    · cases hnone

end

/-- The induction over the depth, as for `bodyReader_bodyWithin`. -/
theorem bodyCompleter_bodyWithin {limit depth : Nat} (h : depth < limit) :
    BodyCompleter limit depth Body (bodyWithin depth) := by
  have hnil : ∀ stops, Body [] [] stops := fun _ => .mk .nil
  induction depth with
  | zero =>
    refine ⟨bodyReader_bodyWithin h, fun _ hlen => ?_, hnil⟩
    exact absurd hlen (Nat.not_lt_zero _)
  | succ depth ih =>
    refine ⟨bodyReader_bodyWithin h, fun hstops hlen => ?_, hnil⟩
    exact ((ih (by omega)).refusesAfter_body hstops hlen).imp fun us hus =>
      hus.imp fun hitems => viable_of_derives (.mk hitems)

/-- **The parser of templates refuses in time**: the tokens in front of the one that it refuses can
be completed to a template. -/
theorem refusesAfter_template {limit : Nat} {ts : List Token} (hlen : ts.length < limit) :
    template.RefusesAfter limit (Viable fun us items => Body us items []) ts := by
  cases limit with
  | zero => exact absurd hlen (Nat.not_lt_zero _)
  | succ depth =>
    have hbody := (bodyCompleter_bodyWithin (Nat.lt_succ_self depth)).refusesAfter_body
      List.not_mem_nil hlen
    exact hbody.imp fun us hus => hus.imp fun hitems => viable_of_derives (.mk hitems)

end Stencil.Derives
