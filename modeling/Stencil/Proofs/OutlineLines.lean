import Stencil.Proofs.Concatenation
import Stencil.Proofs.DecimalText
import Stencil.Proofs.DerivedTree
import Stencil.Proofs.LineBreaks
import Stencil.Proofs.OutlineRows

/-!
# The lines of an outline

In the outline of a parsed template each element stands on a line of its own, with one exception. A
label shows names, counts, numbers and tags as they are, and of these none has a line feed in it;
texts, strings and paths of files are quoted. But the label of a map entry is the key as it is, and
a key may be any text. As long as no key that is shown has a line feed, the lines are the rows of
the elements, and the shape of the tree can be read from their margins.

The names come from words among the tokens, which the standard table matches with patterns that
avoid line feeds. `Tidy` says of an element that no label in it has a line feed, keys apart;
by `Derives.Body.holds` it is enough that the rules of the grammar hand this on.

> `Standard.oneLine_word`: a word among the tokens has no line feed in it.
> `tidy_of_parseTemplate`: keys apart, no label of a parsed template has a line feed in it.
> `outline_lines`: the lines of the outline are its rows if and only if no key that is shown breaks
> its line.
-/

namespace Stencil

open Text (OneLine oneLine_append oneLine_ofList oneLine_intercalate)

/-! ## Words -/

namespace Standard

/-- No pattern of a word in the standard table matches a line feed. -/
theorem word_avoids : ∀ d ∈ table, d.kind.isWord = true →
    (Pattern.read? d.pattern).all (·.avoids '\n') = true := by
  decide +kernel

/-- **A word among the tokens** has no line feed in it. -/
theorem oneLine_word {l : Lexicon} (hl : lexicon = .ok l) {p : Place} {t : Token}
    (ht : t ∈ l.scan p) : Derives.Spelled OneLine t := by
  intro hword
  rcases Lexicon.exists_match_of_mem_scan l p ht with hfragment | ⟨q, f, hf, rfl⟩
  · rw [hfragment] at hword
    cases hword
  · obtain ⟨hmem, -, hread, hmatch⟩ := Standard.find?_spec hl hf
    have havoids := word_avoids _ hmem hword
    rw [hread] at havoids
    exact oneLine_ofList.mpr
      (Pattern.not_mem_take_of_avoids havoids _ _ _ (List.mem_of_head? hmatch))

end Standard

/-! ## Quoted texts, numbers and tags -/

namespace Text

theorem digitChar_ne : ∀ n < 16, n.digitChar ≠ '\n' := by
  decide

/-- Digits of a code point are no line feeds. -/
theorem not_mem_hexDigits (n : Nat) : '\n' ∉ hexDigits n := by
  unfold hexDigits
  induction n using Nat.strongRecOn with
  | ind n ih =>
    rw [Nat.toDigits_eq_if (by decide)]
    split
    · next hn => exact fun h => digitChar_ne n hn (List.mem_singleton.mp h).symm
    · intro h
      rcases List.mem_append.mp h with h | h
      · exact ih _ (Nat.div_lt_self (by omega) (by decide)) h
      · exact digitChar_ne _ (Nat.mod_lt _ (by decide)) (List.mem_singleton.mp h).symm

/-- A line feed is quoted as a backslash and a letter, so no quoted character holds one. -/
theorem not_mem_quotedChar (c : Char) : '\n' ∉ quotedChar c := by
  unfold quotedChar
  by_cases hfeed : c = '\n'
  · subst hfeed
    decide
  · split_ifs with hzero htab hreturn hquote hescape hhidden
    any_goals decide
    -- a hidden character shows hexadecimal digits, any other one itself
    · simp [not_mem_hexDigits]
    · exact fun h => hfeed (List.mem_singleton.mp h).symm

/-- A quoted text stands on one line, whatever the text is. -/
theorem oneLine_quoted (s : String) : OneLine (quoted s) := by
  rw [quoted, oneLine_ofList]
  intro h
  rcases List.mem_append.mp h with h | h
  · rcases List.mem_cons.mp h with h | h
    · cases h
    · obtain ⟨c, -, hc⟩ := List.mem_flatMap.mp h
      exact not_mem_quotedChar c hc
  · cases List.mem_singleton.mp h

theorem oneLine_natText (n : Nat) : OneLine (natText n) := by
  refine oneLine_ofList.mpr fun h => ?_
  have hdigit := isDigit_of_mem_decimalDigits h
  revert hdigit
  decide

end Text

/-- Decimals are shown on one line: digits, a point and a sign. -/
theorem Decimal.oneLine_text (d : Decimal) : OneLine d.text := by
  rw [Decimal.text, oneLine_ofList, Decimal.chars_eq]
  intro h
  rcases Decimal.mem_text_cases h with h | h | h <;> revert h <;> decide

theorem Text.oneLine_intText (n : Int) : OneLine (intText n) := by
  rw [Json.Number.intText_eq_text]
  exact Decimal.oneLine_text _

/-- No tag has a name with a line feed in it. -/
theorem Tag.oneLine_name (t : Tag) : OneLine t.name := by
  cases t with
  | binary op => cases op <;> decide
  | unary op => cases op <;> decide
  | bool b => cases b <;> decide
  | _ => decide

/-! ## Labels -/

namespace Outline

open Drawing (segmentLabel pathLabel countLabel)

/-- The label in front of an element is a key. -/
def Element.IsEntry : Element → Prop
  | .entry _ => True
  | _ => False

/-- Keys apart, no label of the element and of the elements below it has a line feed in it. -/
inductive Tidy : Element → Prop where
  | mk {e : Element} : (¬e.IsEntry → OneLine e.drawing.label) → (∀ b ∈ e.below, Tidy b) → Tidy e

/-- The part of a step that is shown in labels has no line feed in it, and its node is tidy. -/
def TidySegment (s : Segment) : Prop :=
  OneLine (segmentLabel s) ∧ ∀ n, s = .expr n → Tidy (.node n)

theorem Tidy.label {n : Node} (h : Tidy (.node n)) : OneLine (Drawing.node n).label := by
  cases h with
  | mk hlabel _ => exact hlabel not_false

theorem Tidy.inside {e : Element} (h : Tidy e) : ∀ b ∈ e.below, Tidy b := by
  cases h with
  | mk _ hbelow => exact hbelow

/-- A node is tidy if what is shown beside its tag is and the elements below it are. -/
theorem tidy_node {n : Node} {detail : String} {children : List Drawing}
    (hdrawing : Drawing.node n = Drawing.ofNode n detail children) (hdetail : OneLine detail)
    (hbelow : ∀ b ∈ Element.belowNode n, Tidy b) : Tidy (.node n) := by
  refine .mk (fun _ => ?_) hbelow
  show OneLine (Drawing.node n).label
  rw [hdrawing]
  exact oneLine_append.mpr ⟨Tag.oneLine_name _, hdetail⟩

/-- A node with nothing below it is tidy if its detail is on one line. -/
theorem tidy_leaf {n : Node} {detail : String}
    (hdrawing : Drawing.node n = Drawing.ofNode n detail []) (hdetail : OneLine detail)
    (hbelow : Element.belowNode n = []) : Tidy (.node n) :=
  tidy_node hdrawing hdetail (hbelow ▸ List.forall_mem_nil _)

/-- A part of a node under a fixed label. -/
theorem tidy_part (e : Element) {label : String} {children : List Drawing}
    (hdrawing : e.drawing = Drawing.part label children) (hlabel : OneLine label)
    (hbelow : ∀ b ∈ e.below, Tidy b) : Tidy e :=
  .mk (fun _ => by rw [hdrawing]; exact hlabel) hbelow

theorem oneLine_countLabel {n : Nat} {things : String} (h : OneLine things) :
    OneLine (countLabel n things) := by
  simp only [countLabel, oneLine_append]
  exact ⟨⟨⟨⟨by decide, Text.oneLine_natText n⟩, by decide⟩, h⟩, by decide⟩

/-- A name in a path is shown as it is, so it must be on one line. -/
theorem tidySegment_name {s : String} (h : OneLine s) : TidySegment (.name s) :=
  ⟨h, fun _ hn => nomatch hn⟩

/-- An expression in a path is shown as the name of its tag, and is drawn below. -/
theorem tidySegment_expr {n : Node} (h : Tidy (.node n)) : TidySegment (.expr n) := by
  refine ⟨?_, fun m hm => ?_⟩
  · simp only [segmentLabel, oneLine_append]
    exact ⟨⟨by decide, Tag.oneLine_name _⟩, by decide⟩
  · cases hm
    exact h

/-- A path is tidy if its steps are. -/
theorem tidy_selector {path : List Segment} :
    Tidy (.node (.selector path)) ↔ ∀ s ∈ path, TidySegment s := by
  have hlabel : OneLine (pathLabel path) ↔ ∀ s ∈ path, OneLine (segmentLabel s) := by
    rw [pathLabel, oneLine_intercalate (by decide), List.forall_mem_map]
  constructor
  · intro h s hs
    have hshown := hlabel.mp (oneLine_append.mp (oneLine_append.mp h.label).2).2
    refine ⟨hshown s hs, fun n hn => h.inside _ ?_⟩
    exact List.mem_map_of_mem (mem_pathNodes.mpr (hn ▸ hs))
  · intro h
    refine tidy_node rfl (oneLine_append.mpr ⟨by decide, ?_⟩) fun b hb => ?_
    · exact hlabel.mpr fun s hs => (h s hs).1
    · obtain ⟨n, hn, rfl⟩ := List.mem_map.mp hb
      exact (h _ (mem_pathNodes.mp hn)).2 n rfl

/-- A step behind a node keeps it tidy, whether the path is extended or begun. -/
theorem tidy_step {n : Node} {s : Segment} (hn : Tidy (.node n)) (hs : TidySegment s) :
    Tidy (.node (n.step s)) := by
  unfold Node.step
  split
  · refine tidy_selector.mpr fun r hr => ?_
    rcases List.mem_append.mp hr with hr | hr
    · exact tidy_selector.mp hn r hr
    · rw [List.mem_singleton.mp hr]
      exact hs
  · exact tidy_selector.mpr
      (List.forall_mem_cons.mpr ⟨tidySegment_expr hn, List.forall_mem_singleton.mpr hs⟩)

/-- A call is tidy if its target, its name and its arguments are. -/
theorem tidy_call {target : Option Node} {name : Segment} {args : List Node}
    (htarget : ∀ n, target = some n → Tidy (.node n)) (hname : TidySegment name)
    (hargs : ∀ a ∈ args, Tidy (.node a)) : Tidy (.node (.call target name args)) := by
  have hdetail : OneLine (" " ++ segmentLabel name ++ countLabel args.length "args") := by
    simp only [oneLine_append]
    exact ⟨⟨by decide, hname.1⟩, oneLine_countLabel (by decide)⟩
  have hdrawing : ∃ children, Drawing.node (.call target name args) =
      Drawing.ofNode (.call target name args)
        (" " ++ segmentLabel name ++ countLabel args.length "args") children := by
    cases target <;> cases name <;> exact ⟨_, rfl⟩
  obtain ⟨children, hdrawing⟩ := hdrawing
  refine tidy_node hdrawing hdetail fun b hb => ?_
  rcases List.mem_append.mp hb with hb | hb
  · rcases List.mem_append.mp hb with hb | hb
    · obtain ⟨n, hn, rfl⟩ := List.mem_map.mp hb
      exact tidy_part (.target n) rfl (by decide)
        (List.forall_mem_singleton.mpr (htarget n (Option.mem_toList.mp hn)))
    · obtain ⟨n, hn, rfl⟩ := List.mem_map.mp hb
      exact tidy_part (.callee n) rfl (by decide) (List.forall_mem_singleton.mpr
        (hname.2 n (Segment.node?_eq_some.mp (Option.mem_toList.mp hn))))
  · exact List.forall_mem_map.mpr hargs b hb

/-- Items are tidy if the nodes among them are. -/
theorem tidy_items {items : List Item}
    (h : Derives.ItemsHold (fun n => Tidy (.node n)) items) :
    ∀ e ∈ items.map Element.ofItem, Tidy e := by
  refine List.forall_mem_map.mpr fun item hitem => ?_
  cases item with
  | text s => exact .mk (fun _ => Text.oneLine_quoted s) (List.forall_mem_nil _)
  | node n => exact h n hitem

/-- The entries of a map are tidy if their values are; of the keys nothing is asked. -/
theorem tidy_entries {entries : List Entry} (h : ∀ e ∈ entries, Tidy (.node e.value)) :
    ∀ b ∈ entries.map Element.entry, Tidy b :=
  List.forall_mem_map.mpr fun e he =>
    .mk (fun hkey => absurd trivial hkey) (List.forall_mem_singleton.mpr (h e he))

/-- The arms of a condition are tidy if their conditions and the nodes in their bodies are. -/
theorem tidy_arms {arms : List Arm} (h : ∀ condition body, .mk condition body ∈ arms →
      Tidy (.node condition) ∧ Derives.ItemsHold (fun n => Tidy (.node n)) body) :
    ∀ b ∈ arms.map Element.arm, Tidy b := by
  refine List.forall_mem_map.mpr fun a ha => ?_
  cases a with
  | mk condition body =>
    obtain ⟨hcondition, hbody⟩ := h condition body ha
    exact tidy_part _ rfl (by decide) (List.forall_mem_cons.mpr ⟨hcondition, tidy_items hbody⟩)

/-- Literals are tidy because their texts are quoted or numbers, and names because they are words.
-/
theorem tidy_ofLeaf {t : Token} {n : Node} (h : Derives.Leaf t n)
    (ht : Derives.Spelled OneLine t) : Tidy (.node n) := by
  cases h with
  | nullWord | trueWord | falseWord => exact tidy_leaf rfl (by decide) rfl
  | int =>
    exact tidy_leaf rfl (oneLine_append.mpr ⟨by decide, Text.oneLine_intText _⟩) rfl
  | double =>
    exact tidy_leaf rfl (oneLine_append.mpr ⟨by decide, Decimal.oneLine_text _⟩) rfl
  | string =>
    exact tidy_leaf rfl (oneLine_append.mpr ⟨by decide, Text.oneLine_quoted _⟩) rfl
  | name hkind =>
    have hword : t.kind.isWord = true := by
      revert hkind
      cases t.kind <;> decide
    exact tidy_selector.mpr (List.forall_mem_singleton.mpr (tidySegment_name (ht hword)))

/-- The rules of expressions hand it on. -/
theorem passedOn_tidy : Derives.PassedOn OneLine fun n => Tidy (.node n) where
  leaf := tidy_ofLeaf
  map h := tidy_node rfl (oneLine_countLabel (by decide)) (tidy_entries h)
  property hn hs := tidy_step hn (tidySegment_name hs)
  index hn hi := tidy_step hn (tidySegment_expr hi)
  call {path name args} hpath hargs := by
    have hsteps := tidy_selector.mp hpath
    refine tidy_call (fun n hn => ?_) (hsteps name (by simp)) hargs
    unfold Derives.target at hn
    split at hn
    · cases hn
    · cases hn
      exact tidy_selector.mpr fun s hs => hsteps s (List.mem_append_left _ hs)
  unary ha := tidy_node rfl (by decide) (List.forall_mem_singleton.mpr ha)
  binary ha hb := tidy_node rfl (by decide)
    (List.forall_mem_cons.mpr ⟨ha, List.forall_mem_singleton.mpr hb⟩)
  ternary {a b c} ha hb hc := by
    have hbelow : ∀ e ∈ c.toList.map Element.node, Tidy e :=
      List.forall_mem_map.mpr fun n hn => hc n (Option.mem_toList.mp hn)
    cases c <;> exact tidy_node rfl (by decide)
      (List.forall_mem_cons.mpr ⟨ha, List.forall_mem_cons.mpr ⟨hb, hbelow⟩⟩)

/-- So do those of blocks. -/
theorem passedOnByBlocks_tidy : Derives.PassedOnByBlocks OneLine fun n => Tidy (.node n) where
  toPassedOn := passedOn_tidy
  importFile := tidy_leaf rfl (oneLine_append.mpr ⟨by decide, Text.oneLine_quoted _⟩) rfl
  binding hname hvalue := tidy_node rfl (oneLine_append.mpr ⟨by decide, hname⟩)
    (List.forall_mem_singleton.mpr hvalue)
  statements hitems := tidy_node rfl (by decide) (tidy_items hitems)
  macroDef hname hparams hbody := by
    refine tidy_node rfl ?_ (tidy_items hbody)
    simp only [oneLine_append]
    exact ⟨⟨⟨⟨by decide, hname⟩, by decide⟩, (oneLine_intercalate (by decide)).mpr hparams⟩,
      by decide⟩
  loop {names collection body otherwise} hnames hcollection hbody hotherwise := by
    have hdetail : OneLine (" " ++ String.intercalate ", " names) :=
      oneLine_append.mpr ⟨by decide, (oneLine_intercalate (by decide)).mpr hnames⟩
    have hbelow : ∀ e ∈ otherwise.toList.map Element.otherwise, Tidy e :=
      List.forall_mem_map.mpr fun items hitems => tidy_part _ rfl (by decide)
        (tidy_items (hotherwise items (Option.mem_toList.mp hitems)))
    have hinner : Tidy (.body body) := tidy_part _ rfl (by decide) (tidy_items hbody)
    cases otherwise <;> exact tidy_node rfl hdetail
      (List.forall_mem_cons.mpr ⟨hcollection, List.forall_mem_cons.mpr ⟨hinner, hbelow⟩⟩)
  otherwise := tidy_leaf rfl (by decide) rfl
  conditional h := tidy_node rfl (oneLine_countLabel (by decide)) (tidy_arms h)
  callBody {name args items} hname hargs hitems := by
    have hbody : Tidy (.node (.statements items)) := tidy_node rfl (by decide) (tidy_items hitems)
    refine tidy_call (fun n hn => ?_) (tidySegment_name hname) fun a ha => ?_
    · cases hn
    · rcases List.mem_append.mp ha with ha | ha
      · exact hargs a ha
      · rw [List.mem_singleton.mp ha]
        exact hbody

/-- **Keys apart**, no label of a parsed template has a line feed in it. -/
theorem tidy_of_parseTemplate {source : String} {t : Template}
    (h : Standard.parseTemplate source = .ok t) : ∀ e ∈ t.items.map Element.ofItem, Tidy e := by
  obtain ⟨l, hl⟩ := Standard.exists_lexicon
  exact tidy_items ((Standard.body_of_parseTemplate hl h).holds passedOnByBlocks_tidy
    fun _ ht => Standard.oneLine_word hl ht)

/-- Every element that has a row in the outline is tidy if those at the top are. -/
theorem tidy_of_mem_rows {margin : List Bool} {es : List Element} (h : ∀ e ∈ es, Tidy e) :
    ∀ r ∈ rows margin es, Tidy r.element := by
  induction margin, es using rows.induct with
  | case1 margin =>
    rw [rows]
    exact List.forall_mem_nil _
  | case2 margin e es ihbelow ihrest =>
    obtain ⟨he, hes⟩ := List.forall_mem_cons.mp h
    rw [rows]
    refine List.forall_mem_cons.mpr ⟨he, fun r hr => ?_⟩
    rcases List.mem_append.mp hr with hr | hr
    · exact ihbelow he.inside r hr
    · exact ihrest hes r hr

/-! ## Lines -/

/-- The key of an entry has no line feed in the part of it that is shown. -/
def Element.KeyInLine : Element → Prop
  | .entry (.mk key _) => OneLine (Drawing.cut (key.getD "-"))
  | _ => True

/-- A label that is cut off holds no more line feeds than the whole one. -/
theorem oneLine_cut {label : String} (h : OneLine label) : OneLine (Drawing.cut label) := by
  unfold Drawing.cut
  dsimp only
  split
  · exact oneLine_append.mpr
      ⟨oneLine_ofList.mpr fun hmem => h (List.mem_of_mem_take hmem), by decide⟩
  · exact h

/-- The marks in front of labels are single characters, none of them a line feed. -/
theorem Element.oneLine_icon (e : Element) : OneLine e.drawing.icon := by
  have hnode : ∀ n, OneLine (Drawing.nodeIcon n) := by
    intro n
    unfold Drawing.nodeIcon
    split <;> decide
  cases e with
  | node n =>
    have hdrawing : (Drawing.node n).icon = Drawing.nodeIcon n := by
      cases n with
      | ternary a b c => cases c <;> rfl
      | call target name args => cases target <;> cases name <;> rfl
      | loop names collection body otherwise => cases otherwise <;> rfl
      | _ => rfl
    show OneLine (Drawing.node n).icon
    rw [hdrawing]
    exact hnode n
  | text s => show OneLine Drawing.textIcon; decide
  | entry e => cases e; show OneLine Drawing.partIcon; decide
  | arm a => cases a; show OneLine Drawing.partIcon; decide
  | _ => show OneLine Drawing.partIcon; decide

/-- A row stands on one line if the part of the label that is shown does. -/
theorem not_mem_chars (r : Row) :
    '\n' ∉ r.chars ↔ OneLine (Drawing.cut r.element.drawing.label) := by
  have hcell : ∀ b, '\n' ∉ cell b ∧ '\n' ∉ connector b := by decide
  have hmargin : '\n' ∉ r.margin.flatMap cell := by
    intro h
    obtain ⟨b, -, hb⟩ := List.mem_flatMap.mp h
    exact (hcell b).1 hb
  have hicon : '\n' ∉ r.element.drawing.icon.toList := r.element.oneLine_icon
  simp [Row.chars, Element.caption, hmargin, (hcell r.isLast).2, hicon, OneLine]

/-- A row of a tidy element stands on one line unless it is that of a key that does not. -/
theorem Tidy.not_mem_chars {r : Row} (h : Tidy r.element) :
    '\n' ∉ r.chars ↔ r.element.KeyInLine := by
  rw [Outline.not_mem_chars]
  obtain ⟨margin, isLast, e⟩ := r
  cases h with
  | mk hlabel _ =>
    cases e with
    | entry e => cases e; exact Iff.rfl
    | _ => exact iff_of_true (oneLine_cut (hlabel not_false)) trivial

/-- The first line of an outline. -/
def header (items : List Item) : List Char :=
  ("⧉ template" ++ countLabel items.length "items").toList

theorem not_mem_header (items : List Item) : '\n' ∉ header items :=
  oneLine_append.mpr ⟨by decide, oneLine_countLabel (by decide)⟩

/-- The first line of an outline has no margin and so no depth. -/
theorem depth?_header (items : List Item) : depth? (header items) = none := by
  rw [header, String.toList_append]
  rfl

/-- An outline is its first line and then the rows, each with a line feed behind it. -/
theorem toList_outline (items : List Item) : (outline items).toList = header items ++ '\n' ::
    (rows [] (items.map Element.ofItem)).flatMap fun r => r.chars ++ ['\n'] := by
  show (("⧉ template" ++ countLabel items.length "items") ++ "\n" ++
    Drawing.siblingLines "" (Drawing.items items)).toList = _
  rw [String.toList_append, String.toList_append, Drawing.items_eq,
    toList_siblingLines [] _ "" rfl, List.append_assoc]
  rfl

/-- **The lines of an outline.** Its text is a header and, for every element, the characters of its
row: the margin, the connector, the icon and the label. Each row stands on one line of its own if
and only if no key that is shown breaks its line, and then the shape of the tree can be read from
the front of the lines. -/
theorem outline_lines {source : String} {t : Template}
    (h : Standard.parseTemplate source = .ok t) :
    (outline t.items).toList = header t.items ++ '\n' ::
        ((rows [] (t.items.map Element.ofItem)).flatMap fun r => r.chars ++ ['\n']) ∧
      ((outline t.items).toList.splitOn '\n' = header t.items ::
          ((rows [] (t.items.map Element.ofItem)).map Row.chars ++ [[]]) ↔
        ∀ r ∈ rows [] (t.items.map Element.ofItem), r.element.KeyInLine) ∧
      ((∀ r ∈ rows [] (t.items.map Element.ofItem), r.element.KeyInLine) →
        readShapes (outline t.items).toList = shapes (t.items.map Element.ofItem)) := by
  have htidy : ∀ r ∈ rows [] (t.items.map Element.ofItem), Tidy r.element :=
    tidy_of_mem_rows (tidy_of_parseTemplate h)
  generalize hlisted : rows [] (t.items.map Element.ofItem) = listed at htidy
  have htext := toList_outline t.items
  rw [hlisted] at htext
  -- with keys that break no line, cutting at the line feeds gives the rows back
  have hcut : (∀ r ∈ listed, r.element.KeyInLine) →
      (outline t.items).toList.splitOn '\n' =
        header t.items :: (listed.map Row.chars ++ [[]]) := by
    intro hkeys
    have hlines : ∀ line ∈ listed.map Row.chars, '\n' ∉ line :=
      List.forall_mem_map.mpr fun r hr => (htidy r hr).not_mem_chars.mpr (hkeys r hr)
    have hrows : listed.flatMap (fun r => r.chars ++ ['\n']) =
        (listed.map Row.chars).flatMap (· ++ ['\n']) :=
        (List.flatMap_map Row.chars (· ++ ['\n']) listed).symm
    rw [htext, List.splitOn_append_cons_self_of_not_mem (not_mem_header _), hrows,
      Text.splitOn_terminated hlines]
  refine ⟨htext, ⟨fun hsplit r hr => ?_, hcut⟩, fun hkeys => ?_⟩
  · -- a piece has no line feed in it
    refine (htidy r hr).not_mem_chars.mp (Text.not_mem_of_mem_splitOn (outline t.items).toList _ ?_)
    rw [hsplit]
    exact List.mem_cons_of_mem _ (List.mem_append_left _ (List.mem_map_of_mem hr))
  · have hdepths : (listed.map Row.chars).filterMap depth? = listed.map (·.margin.length) := by
      have hdepth : depth? ∘ Row.chars = some ∘ fun r => r.margin.length := funext depth?_chars
      rw [List.filterMap_map, hdepth, List.filterMap_eq_map]
    rw [readShapes, hcut hkeys, List.filterMap_cons_none (depth?_header _), List.filterMap_append,
      hdepths, ← hlisted, ← shapesOf_rows]
    exact congrArg shapesOf (List.append_nil _)

/-- Text, and a map in an arm. -/
def armSource : String :=
  "a\x7b\x7bif 2\x7d\x7d\x7b\x7b[k: 1]\x7d\x7d\x7b\x7b/if\x7d\x7d"

/-- The tokens of `armSource`. -/
def armTokens : List Token := [
    ⟨.fragment, some 1, "a"⟩, ⟨.blockOpen, some 2, "\x7b\x7b"⟩, ⟨.ifWord, some 4, "if"⟩,
    ⟨.int, some 7, "2"⟩, ⟨.blockClose, some 8, "\x7d\x7d"⟩,
    ⟨.blockOpen, some 10, "\x7b\x7b"⟩, ⟨.leftBracket, some 12, "["⟩, ⟨.identifier, some 13, "k"⟩,
    ⟨.colon, some 14, ":"⟩, ⟨.int, some 16, "1"⟩, ⟨.rightBracket, some 17, "]"⟩,
    ⟨.blockClose, some 18, "\x7d\x7d"⟩, ⟨.blockOpen, some 20, "\x7b\x7b"⟩,
    ⟨.slash, some 22, "/"⟩, ⟨.ifWord, some 23, "if"⟩, ⟨.blockClose, some 25, "\x7d\x7d"⟩]

/-- The items of `armSource`. -/
def armItems : List Item := [
    .text "a", .node (.conditional [.mk (.int 2) [.node (.map [.mk (some "k") (.int 1)])]])]

/-- A text beside a chain of conditions with one arm, and in it a number beside a map. -/
theorem outline_lines_arm :
    Standard.parseTemplate armSource = .ok { items := armItems } ∧
      readShapes (outline armItems).toList =
        [.mk [], .mk [.mk [.mk [], .mk [.mk [.mk []]]]]] := by
  have hscan : Standard.readLexicon.scan (Place.start armSource .template) = armTokens := by
    decide +kernel
  have hparse : Standard.parseTemplate armSource = .ok { items := armItems } := by
    rw [Standard.parseTemplate_eq Standard.lexicon_eq,
      Lexicon.parse_eq (Standard.checkStart_eq Standard.lexicon_eq .template), hscan]
    rfl
  refine ⟨hparse, ?_⟩
  obtain ⟨-, -, hread⟩ := outline_lines hparse
  rw [hread ?_]
  · simp [shapes, armItems, Element.ofItem, Element.below, Element.belowNode, Entry.value]
  · simp [rows, armItems, Element.ofItem, Element.below, Element.belowNode, Entry.value,
      Element.KeyInLine]
    decide

/-- A map whose key has a line feed in it, and behind that what looks like a line. -/
def brokenSource : String :=
  "\x7b\x7b['a\\n└─ b': 1]\x7d\x7d"

/-- The tokens of `brokenSource`. -/
def brokenTokens : List Token := [
    ⟨.blockOpen, some 1, "\x7b\x7b"⟩, ⟨.leftBracket, some 3, "["⟩,
    ⟨.string, some 4, "'a\\n└─ b'"⟩, ⟨.colon, some 17, ":"⟩, ⟨.int, some 19, "1"⟩,
    ⟨.rightBracket, some 20, "]"⟩, ⟨.blockClose, some 21, "\x7d\x7d"⟩]

/-- The items of `brokenSource`. -/
def brokenItems : List Item :=
  [.node (.map [.mk (some "a\n└─ b") (.int 1)])]

/-- The outline of a single map with three elements in it: below the header there are four lines,
and what is read from their margins is two trees. -/
theorem outline_broken_key :
    Standard.parseTemplate brokenSource = .ok { items := brokenItems } ∧
      (rows [] (brokenItems.map Element.ofItem)).length = 3 ∧
      (outline brokenItems).toList.count '\n' = 5 ∧
      (shapes (brokenItems.map Element.ofItem)).length = 1 ∧
      (readShapes (outline brokenItems).toList).length = 2 := by
  have hscan : Standard.readLexicon.scan (Place.start brokenSource .template) = brokenTokens := by
    decide +kernel
  refine ⟨?_, ?_, by decide +kernel, ?_, by decide +kernel⟩
  · rw [Standard.parseTemplate_eq Standard.lexicon_eq,
      Lexicon.parse_eq (Standard.checkStart_eq Standard.lexicon_eq .template), hscan]
    rfl
  · simp [rows, brokenItems, Element.ofItem, Element.below, Element.belowNode, Entry.value]
  · simp [shapes, brokenItems, Element.ofItem]

end Outline

end Stencil
