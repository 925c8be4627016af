import DialectBindings.Proofs.Documents
import DialectBindings.Proofs.Elements
import DialectBindings.Proofs.Tags

/-!
# Edits that do not count

Comments, elements and attributes that no role knows, and the order of children with different
names: a definition that is parsed is parsed to the same dialect whatever of these is changed, at
any place of the document.
-/

set_option autoImplicit false

namespace DialectBindings.Definition
open Markup Text Results

def unmarked : List Char → List Char
  | '\uFEFF' :: s => s
  | s => s

/-- A text in front of a place leaves elements open, and nothing unfinished. -/
def Reaches (before : List Char) (o : Open) : Prop := ∃ es, Reads [] (unmarked before) es o

/-- A document before and after a change that does not count. -/
inductive Edit : List Char → List Char → Prop
  /-- A comment between the children of an element. -/
  | comment {before text after : List Char} {o : Open} (reach : Reaches before o)
      (role : (roleIn o).isOpen = true)
      (ends : cutAt? ['-', '-', '>'] (text ++ ['-', '-', '>']) = some (text, [])) :
      Edit (before ++ after)
        (before ++ ('<' :: '!' :: '-' :: '-' :: (text ++ ['-', '-', '>']) ++ after))
  /-- An element that is unknown between the children of an element. -/
  | insert {before text after : List Char} {o : Open} {tag : Tag} {inside : List Markup.Event}
      (reach : Reaches before o) (role : (roleIn o).isOpen = true)
      (element : IsElement o text tag inside) (clean : tag.fault = none ∧ ∀ e ∈ inside, e.Clean)
      (unknown : (roleIn o).knows tag.key = false) :
      Edit (before ++ after) (before ++ (text ++ after))
  /-- An attribute that is unknown in a start tag. -/
  | widen {before name first second after : List Char} {o : Open} {as bs : List Attribute}
      {a : Attribute} {quote : Char} (isEmpty : Bool) (reach : Reaches before o)
      (role : (roleIn o).isLeaf = false) (hname : IsName name) (hfirst : Written first as)
      (hsecond : Written second bs) (nodup : ((as ++ bs).map (·.name)).Nodup)
      (new : a.name ∉ (as ++ bs).map (·.name)) (hkey : IsName a.name)
      (unprefixed : Unprefixed a.name) (hquote : isQuote quote = true) (hvalue : quote ∉ a.value)
      (unknown : ((roleIn o).child (String.ofList (localName name))).knows a.key = false) :
      Edit (before ++ '<' :: (name ++ (first ++ (second ++ tagEnd isEmpty after))))
        (before ++ '<' :: (name ++ (first ++ (attributeText a quote ++
          (second ++ tagEnd isEmpty after)))))
  /-- Two children with different names, with nothing but text between them. -/
  | swap {before a gap b after : List Char} {o : Open} {ta tb : Tag} {ia ib es : List Markup.Event}
      (reach : Reaches before o) (role : (roleIn o).isUnordered = true)
      (ha : IsElement o a ta ia) (hb : IsElement o b tb ib) (hgap : Reads o gap es o)
      (texts : OnlyTexts es) (names : ta.name ≠ tb.name) :
      Edit (before ++ (a ++ (gap ++ (b ++ after)))) (before ++ (b ++ (gap ++ (a ++ after))))

theorem ofDocument_eq (s : List Char) : Content.ofDocument s = Content.ofChars (unmarked s) := by
  unfold Content.ofDocument
  split
  · rfl
  · rename_i h
    have hs : unmarked s = s := by
      unfold unmarked
      split
      · exact absurd rfl (h _)
      · rfl
    rw [hs]

theorem unmarked_append {before more : List Char}
    (h : before ≠ [] ∨ more.head? ≠ some '\uFEFF') :
    unmarked (before ++ more) = unmarked before ++ more := by
  cases before with
  | nil =>
    have hne := h.resolve_left (absurd rfl)
    rw [List.nil_append]
    unfold unmarked
    split
    · exact absurd rfl hne
    · rfl
  | cons c before =>
    unfold unmarked
    split
    · rename_i heq
      cases heq
      rfl
    · rename_i hno
      split
      · rename_i heq
        cases heq
        exact absurd rfl (hno _)
      · rfl

theorem reaches_nil {o : Open} (h : Reaches [] o) : o = [] := by
  obtain ⟨es, hr⟩ := h
  have hrun := Reading.run_ended (r := ⟨[], []⟩) (s := []) rfl
  rw [show Reads [] (unmarked []) es o ↔ Reading.run ⟨[], []⟩ [] = (⟨es, o⟩, none) from Iff.rfl,
    hrun] at hr
  cases hr
  rfl

theorem alike_documents {before more more' : List Char} {o : Open} (reach : Reaches before o)
    (h : before ≠ [] ∨ more.head? ≠ some '\uFEFF') (h' : before ≠ [] ∨ more'.head? ≠ some '\uFEFF')
    (alike : LevelsAlike o (Levels.ofText o (Reading.rest (unmarked before) more))
      (Levels.ofText o (Reading.rest (unmarked before) more'))) :
    Alike .document (Content.ofDocument (before ++ more)) (Content.ofDocument (before ++ more')) := by
  obtain ⟨es, hr⟩ := reach
  rw [ofDocument_eq, ofDocument_eq, unmarked_append h, unmarked_append h', Levels.ofChars_eq,
    Levels.ofChars_eq, hr.ofText, hr.ofText]
  exact LevelsAlike.reads hr alike 0

theorem rest_markup (before more : List Char) :
    Reading.rest before ('<' :: more) = '<' :: more := by
  apply Reading.rest_of_not
  rintro ⟨_, hnext | hnext⟩ <;> cases hnext

/-- A line end that the next character was part of is one more of its own where something comes
between the two. -/
theorem levels_lineEnd (o : Open) (before after : List Char) :
    ((Levels.ofText o after).level 0 = (Levels.ofText o (Reading.rest before after)).level 0 ∨
      (Levels.ofText o after).level 0 =
        ((Levels.ofText o (Reading.rest before after)).level 0).prepend (.ok ['\n'])) ∧
    ∀ n, (Levels.ofText o (Reading.rest before after)).level (n + 1) =
      (Levels.ofText o after).level (n + 1) := by
  by_cases hs : splitsLineEnd before after
  · rw [Reading.rest, if_pos hs]
    obtain ⟨c, tail, rfl, hc⟩ : ∃ c tail, after = c :: tail ∧ (c = '\n' ∨ c = '\u0085') := by
      cases after with
      | nil => rcases hs.2 with h | h <;> cases h
      | cons c tail => exact ⟨c, tail, rfl, by simpa using hs.2⟩
    have hnot : ¬ splitsLineEnd [c] tail := by
      rintro ⟨hcr, _⟩
      rcases hc with rfl | rfl <;> cases hcr
    have hhead := head_char (by rcases hc with rfl | rfl <;> decide)
      (by rcases hc with rfl | rfl <;> decide) hnot
    have hline : (if isLineEnd c then '\n' else c) = '\n' := by
      rcases hc with rfl | rfl <;> decide
    rw [hline] at hhead
    rw [Levels.ofText_token hhead rfl]
    refine ⟨.inr ?_, fun n => ?_⟩
    · rw [Levels.behind_cons, Levels.behind, List.foldl_nil, Levels.text_level_zero]
      rfl
    · rw [Levels.behind_cons, Levels.behind, List.foldl_nil, Levels.text_level_succ]
      rfl
  · rw [Reading.rest_of_not hs]
    exact ⟨.inl rfl, fun _ => rfl⟩

theorem alike_lineEnd {o : Open} (role : (roleIn o).isOpen = true) (before after : List Char) :
    LevelsAlike o (Levels.ofText o (Reading.rest before after)) (Levels.ofText o after) := by
  obtain ⟨hline, haround⟩ := levels_lineEnd o before after
  intro n
  cases n with
  | zero =>
    rcases hline with h | h
    · rw [h]
      exact .refl _ _
    · rw [h]
      exact .more role _ (.refl _ _)
  | succ n =>
    rw [haround]
    exact .refl _ _

theorem ofText_comment {text : List Char}
    (ends : cutAt? ['-', '-', '>'] (text ++ ['-', '-', '>']) = some (text, []))
    (o : Open) (after : List Char) :
    Levels.ofText o ('<' :: '!' :: '-' :: '-' :: (text ++ ['-', '-', '>']) ++ after) =
      Levels.ofText o after := by
  apply Levels.ofText_passed
  have hcut := cutAt?_append (by simp) ends after
  show comment (text ++ ['-', '-', '>'] ++ after) = _
  rw [comment, hcut]
  rfl

section Attribute
variable {name first second : List Char} {as bs : List Attribute} {a : Attribute} {quote : Char}

theorem bindings_attribute (hname : IsName name) (hfirst : Written first as)
    (hsecond : Written second bs) (hkey : IsName a.name) (unprefixed : Unprefixed a.name)
    (hquote : isQuote quote = true) (hvalue : quote ∉ a.value) (scope : Scope) :
    bindings scope (Tag.itemsOf (name ++ (first ++ (attributeText a quote ++ second)))) =
      bindings scope (Tag.itemsOf (name ++ (first ++ second))) := by
  have hone := written_attributeText hkey hquote hvalue
  rw [bindings_items (itemsOf_written hname (hfirst.append (hone.append hsecond))),
    bindings_items (itemsOf_written hname (hfirst.append hsecond))]
  exact bindings_insert unprefixed scope

theorem retagged_attribute (hname : IsName name) (hfirst : Written first as)
    (hsecond : Written second bs) (nodup : ((as ++ bs).map (·.name)).Nodup)
    (new : a.name ∉ (as ++ bs).map (·.name)) (hkey : IsName a.name)
    (unprefixed : Unprefixed a.name) (hquote : isQuote quote = true) (hvalue : quote ∉ a.value)
    {ρ : Role} (unknown : ρ.knows a.key = false) (scope : Scope) :
    let tag := Tag.ofText scope (name ++ (first ++ second))
    let tag' := Tag.ofText scope (name ++ (first ++ (attributeText a quote ++ second)))
    Retagged ρ tag tag' ∧ tag'.scope = tag.scope := by
  intro tag tag'
  have hone := written_attributeText hkey hquote hvalue
  have hwritten := hfirst.append hsecond
  have hwritten' := hfirst.append (hone.append hsecond)
  have hsame := bindings_attribute hname hfirst hsecond hkey unprefixed hquote hvalue scope
  have hnames : ((as ++ ([a] ++ bs)).map (·.name)).Nodup := by
    have hperm : (as ++ ([a] ++ bs)).Perm (a :: (as ++ bs)) := List.perm_middle
    rw [(hperm.map _).nodup_iff]
    exact List.nodup_cons.2 ⟨new, nodup⟩
  have hscope : tag'.scope = tag.scope ∧ tag'.fault = tag.fault := by
    show (Tag.ofText scope _).scope = (Tag.ofText scope _).scope ∧
      (Tag.ofText scope _).fault = (Tag.ofText scope _).fault
    rw [Tag.ofText, Tag.ofText, hsame]
    cases bindings scope (Tag.itemsOf (name ++ (first ++ second))) <;> exact ⟨rfl, rfl⟩
  refine ⟨⟨?_, ?_, ?_⟩, hscope.1⟩
  · exact (ofText_name hname hwritten' scope).trans (ofText_name hname hwritten scope).symm
  · intro hf
    exact hscope.2.trans hf
  · have hold := ofText_attributes hname hwritten nodup scope
    have hnew := ofText_attributes hname hwritten' hnames scope
    rw [List.map_append] at hold
    rw [List.map_append] at hnew
    show Widened ρ (Tag.ofText scope _).attributes (Tag.ofText scope _).attributes
    rw [hold, hnew]
    exact .more _ _ a (by rw [unprefixed.split]) unknown

theorem retag {o : Open} (role : (roleIn o).isLeaf = false) {tag tag' : Tag}
    (tags : Retagged ((roleIn o).child tag.key) tag tag') (l : Levels) :
    LevelsAlike o (l.before (.opening tag)) (l.before (.opening tag')) := by
  intro n
  cases n with
  | zero =>
    rw [Levels.opening_level_zero, Levels.opening_level_zero]
    exact .element role tags (.refl _ _) (.refl _ _)
  | succ n =>
    rw [Levels.opening_level_succ, Levels.opening_level_succ]
    exact .refl _ _

theorem alike_tags {o : Open} (role : (roleIn o).isLeaf = false) {s s' : List Char}
    {as' : List Attribute} (hname : IsName name) (h : Written s as) (h' : Written s' as')
    (tags : Retagged ((roleIn o).child (Tag.ofText o.scope (name ++ s)).key)
      (Tag.ofText o.scope (name ++ s)) (Tag.ofText o.scope (name ++ s')))
    (hscope : (Tag.ofText o.scope (name ++ s')).scope = (Tag.ofText o.scope (name ++ s)).scope)
    {isEmpty : Bool} {after : List Char} :
    LevelsAlike o (Levels.ofText o ('<' :: (name ++ (s ++ tagEnd isEmpty after))))
      (Levels.ofText o ('<' :: (name ++ (s' ++ tagEnd isEmpty after)))) := by
  cases isEmpty with
  | true =>
    rw [Levels.ofText_token (head_tag hname h true after) rfl,
      Levels.ofText_token (head_tag hname h' true after) rfl]
    exact retag role tags _
  | false =>
    rw [Levels.ofText_token (head_tag hname h false after) rfl,
      Levels.ofText_token (head_tag hname h' false after) rfl, tags.name, hscope]
    exact retag role tags _

end Attribute

/-- A changed document is read alike. -/
theorem Edit.alike {s s' : List Char} (h : Edit s s') :
    Alike .document (Content.ofDocument s) (Content.ofDocument s') := by
  have nonempty : ∀ {before : List Char} {o : Open}, Reaches before o →
      (roleIn o).isOpen = true → before ≠ [] := by
    rintro before o reach role rfl
    rw [reaches_nil reach] at role
    cases role
  cases h with
  | @comment before text after o reach role ends =>
    have hne := nonempty reach role
    apply alike_documents reach (.inl hne) (.inl hne)
    rw [List.cons_append, rest_markup, ← List.cons_append, ofText_comment ends]
    exact alike_lineEnd role _ after
  | @insert before text after o tag inside reach role element clean unknown =>
    have hne := nonempty reach role
    apply alike_documents reach (.inl hne) (.inl hne)
    rw [Reading.rest_of_not (element.not_split _ _)]
    obtain ⟨i₀, hlevels⟩ := element.levels
    obtain ⟨i, _, hsound, hzero, hsucc⟩ := hlevels after
    have hline := alike_lineEnd role (unmarked before) after
    intro n
    cases n with
    | zero =>
      rw [hzero]
      exact .insert role unknown clean.1 (hsound clean.2) (hline 0)
    | succ n =>
      rw [hsucc]
      exact hline (n + 1)
  | @widen before name first second after o as bs a quote isEmpty reach role hname hfirst hsecond
      nodup new hkey unprefixed hquote hvalue unknown =>
    apply alike_documents reach (.inr (by simp)) (.inr (by simp))
    rw [rest_markup, rest_markup]
    have hwritten := hfirst.append hsecond
    have hwritten' := hfirst.append ((written_attributeText hkey hquote hvalue).append hsecond)
    obtain ⟨tags, hscope⟩ := retagged_attribute hname hfirst hsecond nodup new hkey unprefixed hquote
      hvalue unknown o.scope
    have hsplit : first ++ (second ++ tagEnd isEmpty after) =
        (first ++ second) ++ tagEnd isEmpty after := by simp
    have hsplit' : first ++ (attributeText a quote ++ (second ++ tagEnd isEmpty after)) =
        (first ++ (attributeText a quote ++ second)) ++ tagEnd isEmpty after := by simp
    rw [hsplit, hsplit']
    apply alike_tags role hname hwritten hwritten' ?_ hscope
    rw [Tag.key, ofText_name hname hwritten]
    exact tags
  | @swap before a gap b after o ta tb ia ib es reach role ha hb hgap texts names =>
    have hne := nonempty reach (Role.isOpen_of_isUnordered role)
    apply alike_documents reach (.inl hne) (.inl hne)
    rw [Reading.rest_of_not (ha.not_split _ _), Reading.rest_of_not (hb.not_split _ _)]
    obtain ⟨i₀, hlevels⟩ := ha.levels
    obtain ⟨j₀, hlevels'⟩ := hb.levels
    obtain ⟨vs, htexts⟩ := texts.levels
    have hbetween : ∀ {text : List Char} {tag : Tag} {inside : List Markup.Event} (after : List Char),
        IsElement o text tag inside → Levels.ofText o (gap ++ (text ++ after)) =
          (Levels.ofText o (text ++ after)).behind es := by
      intro text tag inside after h
      rw [hgap.ofText, Reading.rest_of_not (h.not_split _ _)]
    obtain ⟨i, hi, _, hzero, hsucc⟩ := hlevels (gap ++ (b ++ after))
    obtain ⟨j, hj, _, hzerob, hsuccb⟩ := hlevels' after
    obtain ⟨j', hj', _, hzero', hsucc'⟩ := hlevels' (gap ++ (a ++ after))
    obtain ⟨i', hi', _, hzeroa, hsucca⟩ := hlevels after
    rw [hbetween after hb, (htexts _).1, hzerob] at hzero
    rw [hbetween after ha, (htexts _).1, hzeroa] at hzero'
    intro n
    cases n with
    | zero =>
      rw [hzero, hzero']
      exact .swap role names (hi.trans hi'.symm) (hj.trans hj'.symm) vs (.refl _ _)
    | succ n =>
      rw [hsucc, hsucc', hbetween after hb, hbetween after ha, (htexts _).2, (htexts _).2, hsuccb,
        hsucca]
      exact .refl _ _

/-- Edits that do not count do not change the dialect. -/
theorem parse_edited {source edited : String} (edit : Edit source.toList edited.toList)
    (order : InOrder (Content.ofDocument source.toList)) {dialect : Dialect}
    (h : Dialect.parse source = .ok dialect) : Dialect.parse edited = .ok dialect := by
  obtain ⟨d, hd, hcheck⟩ := bind_eq_ok.1 h
  obtain ⟨d', hd', agrees⟩ := ofContent_alike edit.alike order (mapError_eq_ok.1 hd)
  have hparse : Document.parse edited = .ok d' := hd'
  rw [Dialect.parse, hparse, ok_mapError, ok_bind, agrees.check]
  exact hcheck

section Concrete

deriving instance DecidableEq for Markup.Event, Reading

instance decidableReads (o : Open) (s : List Char) (es : List Markup.Event) (next : Open) :
    Decidable (Reads o s es next) := inferInstanceAs (Decidable (_ = _))

theorem reaches_iff {before : List Char} {o : Open} :
    Reaches before o ↔ (Reading.run ⟨[], []⟩ (unmarked before)).2 = none ∧
      (Reading.run ⟨[], []⟩ (unmarked before)).1.stack = o := by
  unfold Reaches Reads
  generalize Reading.run ⟨[], []⟩ (unmarked before) = result
  obtain ⟨⟨events, stack⟩, stop⟩ := result
  constructor
  · rintro ⟨es, he⟩
    cases he
    exact ⟨rfl, rfl⟩
  · rintro ⟨rfl, rfl⟩
    exact ⟨events, rfl⟩

instance decidableReaches (before : List Char) (o : Open) : Decidable (Reaches before o) :=
  decidable_of_iff _ reaches_iff.symm

theorem isElement_texts {o : Open} {text : List Char} {tag : Tag} (outer : Scope)
    (vs : List (Except Markup.Fault (List Char))) (starts : text.head? = some '<')
    (ends : text.getLast? = some '>')
    (reads : Reads o text (elementEvents tag outer (vs.map .text)) o) :
    IsElement o text tag (vs.map .text) := by
  refine ⟨starts, ends, ?_, outer, reads⟩
  clear reads
  induction vs with
  | nil => exact .nil
  | cons v vs ih => exact .text v ih

def inMessage : Open :=
  [("message".toList, []), ("messages".toList, []), ("mavlink".toList, [])]

def withRemark (remark : String) : String :=
  "<mavlink><messages><message id='1' name='X'><field type='char' name='a'>t</field>" ++ remark ++
    "<extensions/></message></messages></mavlink>"

theorem Edit.insert_clean (before after : List Char) {text s t : List Char} {o : Open} {tag : Tag}
    {inside : List Markup.Event} (reach : Reaches before o) (role : (roleIn o).isOpen = true)
    (element : IsElement o text tag inside) (clean : tag.fault = none ∧ ∀ e ∈ inside, e.Clean)
    (unknown : (roleIn o).knows tag.key = false) (hs : before ++ after = s)
    (ht : before ++ (text ++ after) = t) : Edit s t := by
  rw [← hs, ← ht]
  exact .insert reach role element clean unknown

theorem parse_edited_remark :
    Edit (withRemark "").toList (withRemark "<note>n</note>").toList ∧
      Dialect.parse (withRemark "<note>n</note>") = .ok {
        includes := []
        version := none
        number := none
        enums := []
        messages := [{
          id := 1
          name := "X"
          description := ""
          fields := [⟨"a", ⟨.char, none⟩, none, none, "t", false⟩]
          wip := false
          deprecated := none }] } := by
  let before := ("<mavlink><messages><message id='1' name='X'>" ++
    "<field type='char' name='a'>t</field>").toList
  have reach : Reaches before inMessage := by decide +kernel
  have note : IsElement inMessage "<note>n</note>".toList (Tag.ofText [] "note".toList)
      ([.ok ['n']].map .text) :=
    isElement_texts [] _ (by decide +kernel) (by decide +kernel) (by decide +kernel)
  have clean : ∀ e ∈ [Except.ok ['n']].map Markup.Event.text, e.Clean := by simp [Markup.Event.Clean]
  have edit : Edit (withRemark "").toList (withRemark "<note>n</note>").toList :=
    .insert_clean before "<extensions/></message></messages></mavlink>".toList reach
      (by decide +kernel) note ⟨by decide +kernel, clean⟩ (by decide +kernel) (by decide +kernel)
      (by decide +kernel)
  exact ⟨edit, parse_edited edit (by decide +kernel) (by decide +kernel)⟩

/-- Two children with nothing between them. -/
theorem Edit.swap_adjacent (before after : List Char) {a b s t : List Char} {o : Open}
    {ta tb : Tag} {ia ib : List Markup.Event} (reach : Reaches before o)
    (role : (roleIn o).isUnordered = true) (ha : IsElement o a ta ia) (hb : IsElement o b tb ib)
    (names : ta.name ≠ tb.name) (hs : before ++ (a ++ (b ++ after)) = s)
    (ht : before ++ (b ++ (a ++ after)) = t) : Edit s t := by
  have hgap : Reads o [] [] o := Reading.run_ended rfl
  rw [← hs, ← ht]
  exact .swap reach role ha hb hgap nofun names

def markedAbsent (children : String) : String :=
  "<mavlink xmlns:x='http://www.w3.org/2001/XMLSchema-instance' x:nil='true'>" ++ children ++
    "</mavlink>"

-- Whether the version is read depends on whether the reader has looked past its end.
theorem swap_marked :
    Edit (markedAbsent "<version>3</version><include>a</include>").toList
        (markedAbsent "<include>a</include><version>3</version>").toList ∧
      Dialect.parse (markedAbsent "<version>3</version><include>a</include>") =
        .ok ⟨["a"], none, none, [], []⟩ ∧
      Dialect.parse (markedAbsent "<include>a</include><version>3</version>") =
        .ok ⟨["a"], some 3, none, [], []⟩ := by
  refine ⟨?_, by decide +kernel, by decide +kernel⟩
  let o : Open := [("mavlink".toList, [(['x'], instanceNamespace)])]
  let before := ("<mavlink xmlns:x='http://www.w3.org/2001/XMLSchema-instance' " ++
    "x:nil='true'>").toList
  have reach : Reaches before o := by decide +kernel
  have version : IsElement o "<version>3</version>".toList (Tag.ofText o.scope "version".toList)
      ([.ok ['3']].map .text) :=
    isElement_texts o.scope _ (by decide +kernel) (by decide +kernel) (by decide +kernel)
  have included : IsElement o "<include>a</include>".toList (Tag.ofText o.scope "include".toList)
      ([.ok ['a']].map .text) :=
    isElement_texts o.scope _ (by decide +kernel) (by decide +kernel) (by decide +kernel)
  exact .swap_adjacent before "</mavlink>".toList reach (by decide +kernel) version included
    (by decide +kernel) (by decide +kernel) (by decide +kernel)

-- A list that reaches past an unknown element looks at the references in it.
theorem swap_reference :
    Edit "<mavlink><foo>&#0;</foo><include>a</include></mavlink>".toList
        "<mavlink><include>a</include><foo>&#0;</foo></mavlink>".toList ∧
      Dialect.parse "<mavlink><foo>&#0;</foo><include>a</include></mavlink>" =
        .ok ⟨["a"], none, none, [], []⟩ ∧
      Dialect.parse "<mavlink><include>a</include><foo>&#0;</foo></mavlink>" =
        .error (.markup (.reference .zero)) := by
  refine ⟨?_, by decide +kernel, by decide +kernel⟩
  let o : Open := [("mavlink".toList, [])]
  have reach : Reaches "<mavlink>".toList o := by decide +kernel
  have foo : IsElement o "<foo>&#0;</foo>".toList (Tag.ofText [] "foo".toList)
      ([.error (.reference .zero)].map .text) :=
    isElement_texts [] _ (by decide +kernel) (by decide +kernel) (by decide +kernel)
  have included : IsElement o "<include>a</include>".toList (Tag.ofText [] "include".toList)
      ([.ok ['a']].map .text) :=
    isElement_texts [] _ (by decide +kernel) (by decide +kernel) (by decide +kernel)
  exact .swap_adjacent _ "</mavlink>".toList reach (by decide +kernel) foo included
    (by decide +kernel) (by decide +kernel) (by decide +kernel)

def inEnum (children : String) : String :=
  "<mavlink><enums><enum name='E'>" ++ children ++ "</enum></enums></mavlink>"

def boundInside : String := "<u><a/><b xmlns:xmlns='z'/></u>"

-- Such a list looks at the bindings in it, too.
theorem swap_binding :
    Edit (inEnum (boundInside ++ "<entry name='X'/>")).toList
        (inEnum ("<entry name='X'/>" ++ boundInside)).toList ∧
      (Dialect.parse (inEnum (boundInside ++ "<entry name='X'/>"))).isOk = true ∧
      Dialect.parse (inEnum ("<entry name='X'/>" ++ boundInside)) =
        .error (.markup (.binding (.reservedPrefix "xmlns".toList ['z']))) := by
  refine ⟨?_, by decide +kernel, by decide +kernel⟩
  let o : Open := [("enum".toList, []), ("enums".toList, []), ("mavlink".toList, [])]
  let inside : List Markup.Event :=
    [.opening (.ofText [] ['a']), .closing [],
      .opening (.ofText [] "b xmlns:xmlns='z'".toList), .closing []]
  have reach : Reaches "<mavlink><enums><enum name='E'>".toList o := by decide +kernel
  have remark : IsElement o boundInside.toList (Tag.ofText [] ['u']) inside :=
    ⟨by decide +kernel, by decide +kernel, .element _ [] .nil (.element _ [] .nil .nil),
      [], by decide +kernel⟩
  have entry : IsElement o "<entry name='X'/>".toList (Tag.ofText [] "entry name='X'".toList)
      ([].map .text) :=
    isElement_texts [] _ (by decide +kernel) (by decide +kernel) (by decide +kernel)
  exact .swap_adjacent _ "</enum></enums></mavlink>".toList reach (by decide +kernel) remark entry
    (by decide +kernel) (by decide +kernel) (by decide +kernel)

def withReserved (remark : String) : String :=
  "<mavlink><messages><message id='1' name='M'>" ++ remark ++
    "<$value/></message></messages></mavlink>"

-- A child with the name kept for all children makes a group of its own.
theorem insert_reserved :
    Edit (withReserved "").toList (withReserved "<u/>").toList ∧
      (Dialect.parse (withReserved "")).isOk = true ∧
      Dialect.parse (withReserved "<u/>") = .error (.markup (.duplicate bodyKey)) := by
  refine ⟨?_, by decide +kernel, by decide +kernel⟩
  have reach : Reaches "<mavlink><messages><message id='1' name='M'>".toList inMessage := by
    decide +kernel
  have remark : IsElement inMessage "<u/>".toList (Tag.ofText [] "u".toList) ([].map .text) :=
    isElement_texts [] _ (by decide +kernel) (by decide +kernel) (by decide +kernel)
  exact .insert_clean _ "<$value/></message></messages></mavlink>".toList reach (by decide +kernel)
    remark ⟨by decide +kernel, nofun⟩ (by decide +kernel) (by decide +kernel) (by decide +kernel)

def withoutValue (more : String) : String :=
  "<mavlink xmlns:x='http://www.w3.org/2001/XMLSchema-instance'><version a=" ++ more ++
    ">3</version></mavlink>"

/-- Without the order asked for a change may count: where an element is marked as absent, where a
reference stands for no character or a reserved prefix is bound, where a child has the name kept for
all children, and behind an attribute without a value. -/
theorem edit_counts :
    (Edit (markedAbsent "<version>3</version><include>a</include>").toList
        (markedAbsent "<include>a</include><version>3</version>").toList ∧
      Dialect.parse (markedAbsent "<version>3</version><include>a</include>") =
        .ok ⟨["a"], none, none, [], []⟩ ∧
      Dialect.parse (markedAbsent "<include>a</include><version>3</version>") =
        .ok ⟨["a"], some 3, none, [], []⟩) ∧
    (Edit "<mavlink><foo>&#0;</foo><include>a</include></mavlink>".toList
        "<mavlink><include>a</include><foo>&#0;</foo></mavlink>".toList ∧
      Dialect.parse "<mavlink><foo>&#0;</foo><include>a</include></mavlink>" =
        .ok ⟨["a"], none, none, [], []⟩ ∧
      Dialect.parse "<mavlink><include>a</include><foo>&#0;</foo></mavlink>" =
        .error (.markup (.reference .zero))) ∧
    (Edit (inEnum (boundInside ++ "<entry name='X'/>")).toList
        (inEnum ("<entry name='X'/>" ++ boundInside)).toList ∧
      (Dialect.parse (inEnum (boundInside ++ "<entry name='X'/>"))).isOk = true ∧
      Dialect.parse (inEnum ("<entry name='X'/>" ++ boundInside)) =
        .error (.markup (.binding (.reservedPrefix "xmlns".toList ['z'])))) ∧
    (Edit (withReserved "").toList (withReserved "<u/>").toList ∧
      (Dialect.parse (withReserved "")).isOk = true ∧
      Dialect.parse (withReserved "<u/>") = .error (.markup (.duplicate bodyKey))) ∧
    Dialect.parse (withoutValue "") = .ok ⟨[], some 3, none, [], []⟩ ∧
    Dialect.parse (withoutValue " n='a x:nil=\"true\"'") = .ok ⟨[], none, none, [], []⟩ :=
  ⟨swap_marked, swap_reference, swap_binding, insert_reserved, by decide +kernel, by decide +kernel⟩

end Concrete

end DialectBindings.Definition
