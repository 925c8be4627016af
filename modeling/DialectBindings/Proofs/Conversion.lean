import DialectBindings.Proofs.Definitions
import Mathlib.Data.List.Forall2

/-!
# From documents to dialects

When a document defines a dialect, which dialect that is, and which of its faults is reported if
it does not. Blocks of one enum are one enum, at the place of the first of them; of faults the
first in the order of the document counts, all enums before all messages.
-/

set_option autoImplicit false

namespace DialectBindings.Definition
open Results

def EntryDecl.number? (e : EntryDecl) (next : UInt32) : Option UInt32 :=
  match e.value with
  | none => some next
  | some raw => value? raw

def EntryDecl.numbered (e : EntryDecl) (n : UInt32) : Entry := {
  name := e.name
  value := n
  description := e.description
  params := ((e.params.filter (!·.reserved)).map fun p =>
    Param.mk p.index p.label p.units p.description).mergeSort fun p q => p.index ≤ q.index
  wip := e.wip
  deprecated := e.deprecated }

/-- The text of an entry's value, if it has one, is a number. -/
def EntryDecl.IsValid (e : EntryDecl) : Prop := ∀ raw, e.value = some raw → value? raw ≠ none

def EnumDecl.IsValid (block : EnumDecl) : Prop := ∀ e ∈ block.entries, e.IsValid

def FieldDecl.IsValid (f : FieldDecl) : Prop := ∃ type, readType f.type = .ok type

def MessageDecl.IsValid (m : MessageDecl) : Prop := ∀ f, .field f ∈ m.items → f.IsValid

def TypeFault.fault (message : String) (f : FieldDecl) : TypeFault → Fault
  | .unknown => .unknownType message f.name f.type
  | .arrayLength => .arrayLength message f.name f.type

/-- What a block of an enum is refused for: the first of its entries that is not valid. -/
inductive EnumDecl.Refused (block : EnumDecl) : Fault → Prop
  | entry {before after : List EntryDecl} {e : EntryDecl} {raw : String} :
      block.entries = before ++ e :: after → (∀ x ∈ before, x.IsValid) →
      e.value = some raw → value? raw = none → block.Refused (.entryValue block.name e.name raw)

/-- What a message behind others is refused for: the first of its fields that is not valid, or
else an id that one of the others has. -/
inductive MessageDecl.Refused (earlier : List MessageDecl) (m : MessageDecl) : Fault → Prop
  | field {before after : List MessageItem} {f : FieldDecl} {kind : TypeFault} :
      m.items = before ++ .field f :: after → (∀ g, .field g ∈ before → g.IsValid) →
      readType f.type = .error kind → m.Refused earlier (kind.fault m.name f)
  | duplicate {first : MessageDecl} :
      m.IsValid → earlier.filter (·.id == m.id) = [first] →
      m.Refused earlier (.duplicateId m.id first.name m.name)

/-- The fault of a document that comes before all others. -/
inductive Document.FirstFault (document : Document) (fault : Fault) : Prop
  | block {before after : List EnumDecl} {block : EnumDecl} :
      document.enums = before ++ block :: after → (∀ b ∈ before, b.IsValid) →
      block.Refused fault → FirstFault document fault
  | message {before after : List MessageDecl} {m : MessageDecl} :
      (∀ b ∈ document.enums, b.IsValid) →
      document.messages = before ++ m :: after → (∀ n ∈ before, n.IsValid) →
      (before.map (·.id)).Nodup → m.Refused before fault → FirstFault document fault

/-- The enums that blocks make up: one for each name, in the order in which the names come up
first, with the attributes of the first block and the entries of all. -/
structure Joins (blocks enums : List Enum) : Prop where
  names : enums.map (·.name) = (blocks.map (·.name)).eraseDups
  joined : ∀ e ∈ enums, ∃ first, blocks.find? (·.name == e.name) = some first ∧
    e = { first with entries := (blocks.filter (·.name == e.name)).flatMap (·.entries) }

/-- A dialect holds what a document declares. -/
structure Document.Defines (document : Document) (d : Dialect) : Prop where
  includes : d.includes = document.includes
  version : d.version = document.version
  number : d.number = document.number
  enums : ∃ blocks : List Enum, document.enums.map checkEnum = blocks.map .ok ∧ Joins blocks d.enums
  messages : document.messages.map checkMessage = d.messages.map .ok
  ids : d.messages.map (·.id) = document.messages.map (·.id)
  distinct : (d.messages.map (·.id)).Nodup

/-! ## The first of several faults -/

theorem first_unique {α : Type} (fails : List α → α → Prop)
    {before after before' after' : List α} {x x' : α} (hs : before ++ x :: after = before' ++ x' :: after')
    (hb : ∀ l y r, before = l ++ y :: r → ¬ fails l y) (hx : fails before x)
    (hb' : ∀ l y r, before' = l ++ y :: r → ¬ fails l y) (hx' : fails before' x') :
    before = before' ∧ x = x' := by
  rcases List.append_eq_append_iff.1 hs with ⟨r, hr, he⟩ | ⟨r, hr, he⟩
  · cases r with
    | nil =>
      rw [List.nil_append, List.cons.injEq] at he
      exact ⟨by simpa using hr.symm, he.1⟩
    | cons y r =>
      rw [List.cons_append, List.cons.injEq] at he
      exact absurd (he.1 ▸ hx) (hb' before y r hr)
  · cases r with
    | nil =>
      rw [List.nil_append, List.cons.injEq] at he
      exact ⟨by simpa using hr, he.1.symm⟩
    | cons y r =>
      rw [List.cons_append, List.cons.injEq] at he
      exact absurd (he.1 ▸ hx') (hb before' y r hr)

theorem first_invalid_unique {α : Type} {valid : α → Prop} {before after before' after' : List α}
    {x x' : α} (hs : before ++ x :: after = before' ++ x' :: after')
    (hb : ∀ y ∈ before, valid y) (hx : ¬ valid x) (hb' : ∀ y ∈ before', valid y)
    (hx' : ¬ valid x') : before = before' ∧ x = x' := by
  apply first_unique (fun _ y => ¬ valid y) hs _ hx _ hx'
  · rintro l y r rfl
    exact not_not_intro (hb y (by simp))
  · rintro l y r rfl
    exact not_not_intro (hb' y (by simp))

theorem EntryDecl.not_isValid {e : EntryDecl} {raw : String} (hv : e.value = some raw)
    (h : value? raw = none) : ¬ e.IsValid :=
  fun hvalid => hvalid raw hv h

theorem FieldDecl.not_isValid {f : FieldDecl} {kind : TypeFault}
    (h : readType f.type = .error kind) : ¬ f.IsValid := by
  rintro ⟨type, ht⟩
  cases h.symm.trans ht

theorem EnumDecl.Refused.not_isValid {block : EnumDecl} {fault : Fault}
    (h : block.Refused fault) : ¬ block.IsValid := by
  obtain ⟨hs, -, hv, hr⟩ := h
  intro hvalid
  exact EntryDecl.not_isValid hv hr (hvalid _ (by simp [hs]))

theorem EnumDecl.Refused.unique {block : EnumDecl} {fault fault' : Fault}
    (h : block.Refused fault) (h' : block.Refused fault') : fault = fault' := by
  obtain ⟨hs, hb, hv, hr⟩ := h
  obtain ⟨hs', hb', hv', hr'⟩ := h'
  obtain ⟨-, rfl⟩ := first_invalid_unique (hs.symm.trans hs') hb (EntryDecl.not_isValid hv hr) hb'
    (EntryDecl.not_isValid hv' hr')
  cases hv.symm.trans hv'
  rfl

theorem MessageDecl.Refused.unique {earlier : List MessageDecl} {m : MessageDecl}
    {fault fault' : Fault} (h : m.Refused earlier fault) (h' : m.Refused earlier fault') :
    fault = fault' := by
  -- An item is valid when the field that it is, if it is one, is valid.
  let valid : MessageItem → Prop := fun item => ∀ f, item = .field f → f.IsValid
  have hfield : ∀ {items : List MessageItem}, (∀ g, .field g ∈ items → g.IsValid) →
      ∀ item ∈ items, valid item := fun h item hi f hf => h f (hf ▸ hi)
  have hinvalid : ∀ {f : FieldDecl} {kind : TypeFault}, readType f.type = .error kind →
      ¬ valid (.field f) := fun hr hvalid => FieldDecl.not_isValid hr (hvalid _ rfl)
  cases h with
  | field hs hb hr =>
    cases h' with
    | field hs' hb' hr' =>
      obtain ⟨-, he⟩ := first_invalid_unique (hs.symm.trans hs') (hfield hb) (hinvalid hr)
        (hfield hb') (hinvalid hr')
      cases he
      cases hr.symm.trans hr'
      rfl
    | duplicate hv _ => exact absurd (hv _ (by simp [hs])) (FieldDecl.not_isValid hr)
  | duplicate hv hf =>
    cases h' with
    | field hs hb hr => exact absurd (hv _ (by simp [hs])) (FieldDecl.not_isValid hr)
    | duplicate _ hf' =>
      cases hf.symm.trans hf'
      rfl

theorem MessageDecl.Refused.clash {earlier : List MessageDecl} {m : MessageDecl} {fault : Fault}
    (h : m.Refused earlier fault) : ¬ m.IsValid ∨ ∃ first ∈ earlier, first.id = m.id := by
  cases h with
  | field hs _ hr => exact .inl fun hv => FieldDecl.not_isValid hr (hv _ (by simp [hs]))
  | @duplicate first _ hf =>
    have hmem : first ∈ earlier.filter (·.id == m.id) := by simp [hf]
    rw [List.mem_filter, beq_iff_eq] at hmem
    exact .inr ⟨first, hmem.1, hmem.2⟩

theorem not_refused {messages before after : List MessageDecl} {m : MessageDecl} {fault : Fault}
    (hs : messages = before ++ m :: after) (hv : ∀ n ∈ messages, n.IsValid)
    (hn : (messages.map (·.id)).Nodup) : ¬ m.Refused before fault := by
  intro href
  subst hs
  rcases href.clash with hi | ⟨first, hmem, hid⟩
  · exact hi (hv m (by simp))
  · rw [List.map_append, List.nodup_append] at hn
    exact hn.2.2 _ (List.mem_map_of_mem hmem) _ (by simp) hid

theorem Document.FirstFault.unique {document : Document} {fault fault' : Fault}
    (h : document.FirstFault fault) (h' : document.FirstFault fault') : fault = fault' := by
  cases h with
  | block hs hb href =>
    cases h' with
    | block hs' hb' href' =>
      obtain ⟨-, rfl⟩ := first_invalid_unique (hs.symm.trans hs') hb href.not_isValid hb'
        href'.not_isValid
      exact href.unique href'
    | message hall => exact absurd (hall _ (by simp [hs])) href.not_isValid
  | message hall hs hv hn href =>
    cases h' with
    | block hs' _ href' => exact absurd (hall _ (by simp [hs'])) href'.not_isValid
    | message _ hs' hv' hn' href' =>
      obtain ⟨rfl, rfl⟩ := first_unique
        (fun l m => ∃ fault, MessageDecl.Refused l m fault) (hs.symm.trans hs')
        (fun l y r he hf => not_refused he hv hn hf.choose_spec) ⟨fault, href⟩
        (fun l y r he hf => not_refused he hv' hn' hf.choose_spec) ⟨fault', href'⟩
      exact href.unique href'

/-! ## Entries and enums -/

theorem EntryDecl.number?_none {e : EntryDecl} {next : UInt32} :
    e.number? next = none ↔ ∃ raw, e.value = some raw ∧ value? raw = none := by
  rw [number?]
  split
  · rename_i hv
    simp [hv]
  · rename_i raw hv
    simp [hv]

theorem EntryDecl.isValid_iff {e : EntryDecl} (next : UInt32) :
    e.IsValid ↔ ∃ n, e.number? next = some n := by
  rw [← Option.ne_none_iff_exists', ne_eq, number?_none, IsValid]
  push Not
  rfl

theorem checkEntries_cons {enum : String} {next n : UInt32} {e : EntryDecl}
    (h : e.number? next = some n) (rest : List EntryDecl) :
    checkEntries enum next (e :: rest) =
      (checkEntries enum (n + 1) rest >>= fun entries => .ok (e.numbered n :: entries)) := by
  rw [checkEntries]
  rw [EntryDecl.number?] at h
  cases hv : e.value with
  | none =>
    simp only [hv, Option.some.injEq] at h
    rw [h]
    rfl
  | some raw =>
    simp only [hv] at h
    simp only [h]
    rfl

theorem checkEntries_stop {enum raw : String} {next : UInt32} {e : EntryDecl}
    (hv : e.value = some raw) (h : value? raw = none) (rest : List EntryDecl) :
    checkEntries enum next (e :: rest) = .error (.entryValue enum e.name raw) := by
  rw [checkEntries, hv]
  simp only [h]
  rfl

theorem checkEntries_cons_ok {enum : String} {next : UInt32} {e : EntryDecl}
    {rest : List EntryDecl} {entries : List Entry}
    (h : checkEntries enum next (e :: rest) = .ok entries) :
    ∃ n more, e.number? next = some n ∧ checkEntries enum (n + 1) rest = .ok more ∧
      entries = e.numbered n :: more := by
  cases hn : e.number? next with
  | none =>
    obtain ⟨raw, hv, hr⟩ := EntryDecl.number?_none.1 hn
    rw [checkEntries_stop hv hr] at h
    cases h
  | some n =>
    rw [checkEntries_cons hn] at h
    obtain ⟨more, hm, h⟩ := bind_eq_ok.1 h
    cases h
    exact ⟨n, more, rfl, hm, rfl⟩

theorem checkEntries_cases (enum : String) (next : UInt32) (declared : List EntryDecl) :
    (∀ e ∈ declared, e.IsValid) ∧ (∃ entries, checkEntries enum next declared = .ok entries) ∨
      ∃ before e after raw, declared = before ++ e :: after ∧ (∀ x ∈ before, x.IsValid) ∧
        e.value = some raw ∧ value? raw = none ∧
        checkEntries enum next declared = .error (.entryValue enum e.name raw) := by
  induction declared generalizing next with
  | nil => exact .inl ⟨by simp, [], rfl⟩
  | cons e rest ih =>
    cases hn : e.number? next with
    | none =>
      obtain ⟨raw, hv, hr⟩ := EntryDecl.number?_none.1 hn
      exact .inr ⟨[], e, rest, raw, rfl, by simp, hv, hr, checkEntries_stop hv hr rest⟩
    | some n =>
      have he : e.IsValid := (EntryDecl.isValid_iff next).2 ⟨n, hn⟩
      rw [checkEntries_cons hn]
      rcases ih (n + 1) with ⟨hall, entries, hok⟩ | ⟨before, x, after, raw, hs, hb, hv, hr, herr⟩
      · exact .inl ⟨List.forall_mem_cons.2 ⟨he, hall⟩, e.numbered n :: entries, by rw [hok, ok_bind]⟩
      · refine .inr ⟨e :: before, x, after, raw, by rw [hs, List.cons_append],
          List.forall_mem_cons.2 ⟨he, hb⟩, hv, hr, by rw [herr, error_bind]⟩

theorem checkEnum_cases (block : EnumDecl) :
    block.IsValid ∧ (∃ e, checkEnum block = .ok e) ∨
      ∃ fault, block.Refused fault ∧ checkEnum block = .error fault := by
  rcases checkEntries_cases block.name 0 block.entries with
    ⟨hall, entries, hok⟩ | ⟨before, e, after, raw, hs, hb, hv, hr, herr⟩
  · exact .inl ⟨hall, _, by rw [checkEnum, hok, ok_bind]; rfl⟩
  · exact .inr ⟨_, .entry hs hb hv hr, by rw [checkEnum, herr, error_bind]⟩

theorem blocks_checked {declared : List EnumDecl} {blocks : List Enum} (name : String)
    (h : declared.map checkEnum = blocks.map .ok) :
    List.Forall₂ (fun (d : EnumDecl) (b : Enum) => checkEnum d = .ok b)
      (declared.filter (·.name == name)) (blocks.filter (·.name == name)) := by
  induction declared generalizing blocks with
  | nil =>
    cases blocks with
    | nil => exact .nil
    | cons b blocks => cases h
  | cons d declared ih =>
    cases blocks with
    | nil => cases h
    | cons b blocks =>
      rw [List.map_cons, List.map_cons, List.cons.injEq] at h
      obtain ⟨hchecked, hrest⟩ := h
      have hname : b.name = d.name := by
        obtain ⟨entries, -, hb⟩ := bind_eq_ok.1 hchecked
        cases hb
        rfl
      by_cases hd : d.name = name
      · rw [List.filter_cons_of_pos (by simpa using hd),
          List.filter_cons_of_pos (by simpa [hname] using hd)]
        exact .cons hchecked (ih hrest)
      · rw [List.filter_cons_of_neg (by simpa using hd),
          List.filter_cons_of_neg (by simpa [hname] using hd)]
        exact ih hrest

theorem checkEnums_cases (joined : List Enum) (declared : List EnumDecl) :
    (∀ b ∈ declared, b.IsValid) ∧ (∃ blocks : List Enum, declared.map checkEnum = blocks.map .ok ∧
        checkEnums joined declared = .ok (blocks.foldl joinEnum joined)) ∨
      ∃ before block after fault, declared = before ++ block :: after ∧
        (∀ b ∈ before, b.IsValid) ∧ block.Refused fault ∧
        checkEnums joined declared = .error fault := by
  induction declared generalizing joined with
  | nil => exact .inl ⟨by simp, [], rfl, rfl⟩
  | cons block rest ih =>
    rw [checkEnums]
    rcases checkEnum_cases block with ⟨hv, e, hok⟩ | ⟨fault, href, herr⟩
    · rw [hok, ok_bind]
      rcases ih (joinEnum joined e) with
        ⟨hall, blocks, hblocks, hrest⟩ | ⟨before, b, after, fault, hs, hb, href, herr⟩
      · refine .inl ⟨List.forall_mem_cons.2 ⟨hv, hall⟩, e :: blocks, ?_, hrest⟩
        rw [List.map_cons, List.map_cons, hok, hblocks]
      · exact .inr ⟨block :: before, b, after, fault, by rw [hs, List.cons_append],
          List.forall_mem_cons.2 ⟨hv, hb⟩, href, herr⟩
    · exact .inr ⟨[], block, rest, fault, rfl, by simp, href, by rw [herr, error_bind]⟩

theorem mem_names_iff {blocks enums : List Enum} (h : Joins blocks enums) (name : String) :
    name ∈ enums.map (·.name) ↔ name ∈ blocks.map (·.name) := by
  rw [h.names, List.mem_eraseDups]

theorem joinEnum_joins {blocks enums : List Enum} (h : Joins blocks enums) (e : Enum) :
    Joins (blocks ++ [e]) (joinEnum enums e) := by
  have hall : (blocks ++ [e]).map (·.name) = blocks.map (·.name) ++ [e.name] := by simp
  by_cases hmem : e.name ∈ enums.map (·.name)
  · have hany : enums.any (·.name == e.name) = true := by simpa using hmem
    rw [joinEnum, if_pos hany]
    refine ⟨?_, ?_⟩
    · have hsame : ([e.name].removeAll (blocks.map (·.name))) = [] := by
        have hb := (mem_names_iff h e.name).1 hmem
        simpa [List.removeAll] using hb
      rw [hall, List.eraseDups_append, hsame, List.eraseDups_nil, List.append_nil, ← h.names,
        List.map_map]
      apply List.map_congr_left
      intro old _
      show (if old.name == e.name then _ else old).name = old.name
      split <;> rfl
    · intro new hnew
      obtain ⟨old, hold, rfl⟩ := List.mem_map.1 hnew
      obtain ⟨first, hfirst, hjoined⟩ := h.joined old hold
      by_cases hname : old.name = e.name
      · have he : [e].filter (·.name == old.name) = [e] := by simp [hname]
        rw [if_pos (beq_iff_eq.2 hname)]
        refine ⟨first, by simp [List.find?_append, hfirst], ?_⟩
        rw [List.filter_append, he, List.flatMap_append, List.flatMap_singleton]
        exact congrArg (fun x : Enum => { x with entries := x.entries ++ e.entries }) hjoined
      · have he : [e].filter (·.name == old.name) = [] := by simp [Ne.symm hname]
        rw [if_neg (mt beq_iff_eq.1 hname)]
        refine ⟨first, by simp [List.find?_append, hfirst], ?_⟩
        rw [List.filter_append, he, List.append_nil]
        exact hjoined
  · have hany : ¬ enums.any (·.name == e.name) = true := by simpa using hmem
    have hb : e.name ∉ blocks.map (·.name) := mt (mem_names_iff h e.name).2 hmem
    rw [joinEnum, if_neg hany]
    refine ⟨?_, ?_⟩
    · have hnew : [e.name].removeAll (blocks.map (·.name)) = [e.name] := by
        simpa [List.removeAll] using hb
      rw [hall, List.eraseDups_append, hnew, ← h.names, List.map_append]
      rfl
    · intro new hnew
      rcases List.mem_append.1 hnew with hold | hnew
      · obtain ⟨first, hfirst, hjoined⟩ := h.joined new hold
        have hne : e.name ≠ new.name := by
          intro hname
          exact hmem (hname ▸ List.mem_map_of_mem hold)
        have he : [e].filter (·.name == new.name) = [] := by simp [hne]
        refine ⟨first, by simp [List.find?_append, hfirst], ?_⟩
        rw [List.filter_append, he, List.append_nil]
        exact hjoined
      · cases List.mem_singleton.1 hnew
        have hnone : blocks.filter (·.name == e.name) = [] := by
          rw [List.filter_eq_nil_iff]
          intro b hmem
          have hbn : b.name ≠ e.name := fun hname => hb (hname ▸ List.mem_map_of_mem hmem)
          simpa using hbn
        have hfind : blocks.find? (·.name == e.name) = none := by
          rw [← List.head?_filter, hnone]
          rfl
        refine ⟨e, by simp [List.find?_append, hfind], ?_⟩
        rw [List.filter_append, hnone]
        simp

theorem foldl_joinEnum {blocks done enums : List Enum} (h : Joins done enums) :
    Joins (done ++ blocks) (blocks.foldl joinEnum enums) := by
  induction blocks generalizing done enums with
  | nil => simpa using h
  | cons e rest ih =>
    have hstep := ih (joinEnum_joins h e)
    simpa using hstep

/-! ## Messages -/

theorem checkField_cases (message : String) (isExtension : Bool) (f : FieldDecl) :
    f.IsValid ∧ (∃ field, checkField message isExtension f = .ok field) ∨
      ∃ kind, readType f.type = .error kind ∧
        checkField message isExtension f = .error (kind.fault message f) := by
  rw [checkField]
  cases ht : readType f.type with
  | ok type => exact .inl ⟨⟨type, ht⟩, _, rfl⟩
  | error kind => cases kind <;> exact .inr ⟨_, rfl, rfl⟩

theorem addItem_cases (state : Message × Bool) (item : MessageItem) :
    (∀ f, item = .field f → f.IsValid) ∧ (∃ state', addItem state item = .ok state') ∨
      ∃ f kind, item = .field f ∧ readType f.type = .error kind ∧
        addItem state item = .error (kind.fault state.1.name f) := by
  cases item with
  | field f =>
    rw [addItem]
    rcases checkField_cases state.1.name state.2 f with ⟨hv, field, hok⟩ | ⟨kind, ht, herr⟩
    · refine .inl ⟨?_, _, by rw [hok, ok_bind]; rfl⟩
      intro g hg
      cases hg
      exact hv
    · exact .inr ⟨f, kind, rfl, ht, by rw [herr, error_bind]⟩
  | description | extensions | wip | deprecated | other => exact .inl ⟨nofun, _, rfl⟩

theorem foldlM_addItem_cases (state : Message × Bool) (items : List MessageItem) :
    (∀ f, .field f ∈ items → f.IsValid) ∧ (∃ state', items.foldlM addItem state = .ok state') ∨
      ∃ before f after kind, items = before ++ .field f :: after ∧
        (∀ g, .field g ∈ before → g.IsValid) ∧ readType f.type = .error kind ∧
        items.foldlM addItem state = .error (kind.fault state.1.name f) := by
  induction items generalizing state with
  | nil => exact .inl ⟨by simp, state, rfl⟩
  | cons item rest ih =>
    rw [List.foldlM_cons]
    rcases addItem_cases state item with ⟨hv, state', hok⟩ | ⟨f, kind, rfl, ht, herr⟩
    · obtain ⟨-, hname, -⟩ := addItem_ok hok
      have hcons : ∀ {items : List MessageItem}, (∀ g, .field g ∈ items → g.IsValid) →
          ∀ g, .field g ∈ item :: items → g.IsValid := by
        intro items h g hg
        rcases List.mem_cons.1 hg with hg | hg
        · exact hv g hg.symm
        · exact h g hg
      rw [hok, ok_bind]
      rcases ih state' with ⟨hall, last, hlast⟩ | ⟨before, f, after, kind, hs, hb, ht, herr⟩
      · exact .inl ⟨hcons hall, last, hlast⟩
      · exact .inr ⟨item :: before, f, after, kind, by rw [hs, List.cons_append], hcons hb, ht,
          by rw [herr, hname]⟩
    · exact .inr ⟨[], f, rest, kind, rfl, by simp, ht, by rw [herr, error_bind]⟩

theorem checkMessage_cases (earlier : List MessageDecl) (m : MessageDecl) :
    m.IsValid ∧ (∃ n, checkMessage m = .ok n) ∨
      ∃ fault, m.Refused earlier fault ∧ checkMessage m = .error fault := by
  rcases foldlM_addItem_cases (⟨m.id, m.name, "", [], false, none⟩, false) m.items with
    ⟨hall, state, hok⟩ | ⟨before, f, after, kind, hs, hb, ht, herr⟩
  · exact .inl ⟨hall, _, by rw [checkMessage, hok, ok_bind]; rfl⟩
  · exact .inr ⟨_, .field hs hb ht, by rw [checkMessage, herr, error_bind]⟩

theorem filter_id {declared : List MessageDecl} {m : MessageDecl}
    (hn : (declared.map (·.id)).Nodup) (hm : m ∈ declared) :
    declared.filter (·.id == m.id) = [m] := by
  induction declared with
  | nil => cases hm
  | cons d rest ih =>
    rw [List.map_cons, List.nodup_cons] at hn
    rcases List.mem_cons.1 hm with rfl | hm
    · have hrest : rest.filter (·.id == m.id) = [] := by
        rw [List.filter_eq_nil_iff]
        intro n hmem
        have hne : n.id ≠ m.id := fun he => hn.1 (he ▸ List.mem_map_of_mem hmem)
        simpa using hne
      rw [List.filter_cons_of_pos (by simp), hrest]
    · have hne : d.id ≠ m.id := fun he => hn.1 (he ▸ List.mem_map_of_mem hm)
      rw [List.filter_cons_of_neg (by simpa using hne)]
      exact ih hn.2 hm

theorem declared_of_checked {declared : List MessageDecl} {messages : List Message} {n : Message}
    (h : declared.map checkMessage = messages.map .ok) (hn : n ∈ messages) :
    ∃ m ∈ declared, checkMessage m = .ok n := by
  have hmem := List.mem_map_of_mem (f := (Except.ok : Message → Except Fault Message)) hn
  rw [← h] at hmem
  exact List.mem_map.1 hmem

theorem checkMessages_cases {done : List MessageDecl} {before : List Message}
    (hb : done.map checkMessage = before.map .ok) (hn : (done.map (·.id)).Nodup)
    (declared : List MessageDecl) :
    (∀ m ∈ declared, m.IsValid) ∧ ((done ++ declared).map (·.id)).Nodup ∧
        (∃ messages, checkMessages before declared = .ok messages) ∨
      ∃ passed m after fault, declared = passed ++ m :: after ∧ (∀ n ∈ passed, n.IsValid) ∧
        ((done ++ passed).map (·.id)).Nodup ∧ m.Refused (done ++ passed) fault ∧
        checkMessages before declared = .error fault := by
  induction declared generalizing done before with
  | nil => exact .inl ⟨by simp, by simpa using hn, before, rfl⟩
  | cons m rest ih =>
    have hids := checked_ids hb
    rw [checkMessages]
    rcases checkMessage_cases done m with ⟨hv, message, hok⟩ | ⟨fault, href, herr⟩
    · obtain ⟨hid, hname, -⟩ := checkMessage_ok hok
      rw [hok, ok_bind]
      cases hf : before.find? (·.id == message.id) with
      | some first =>
        have hmem := List.mem_of_find?_eq_some hf
        have hsame : first.id = message.id := by simpa using List.find?_some hf
        obtain ⟨d, hd, hfirst⟩ := declared_of_checked hb hmem
        obtain ⟨hdid, hdname, -⟩ := checkMessage_ok hfirst
        have hm : d.id = m.id := by rw [← hdid, hsame, hid]
        have hfilter : (done ++ []).filter (·.id == m.id) = [d] := by
          rw [List.append_nil, ← hm]
          exact filter_id hn hd
        refine .inr ⟨[], m, rest, _, rfl, by simp, by simpa using hn, .duplicate hv hfilter, ?_⟩
        rw [← hdname, ← hname, ← hid]
        rfl
      | none =>
        have hnew : ((done ++ [m]).map (·.id)).Nodup := by
          rw [List.map_append, List.nodup_append, hids]
          refine ⟨hids ▸ hn, by simp, ?_⟩
          have hfresh : ∀ n ∈ before, n.id ≠ message.id := by simpa using hf
          rw [hid] at hfresh
          simpa using hfresh
        have hmap : (done ++ [m]).map checkMessage = (before ++ [message]).map .ok := by
          simp [hb, hok]
        rcases ih hmap hnew with
          ⟨hall, hnodup, messages, hrest⟩ | ⟨passed, n, after, fault, hs, hp, hnodup, href, herr⟩
        · refine .inl ⟨List.forall_mem_cons.2 ⟨hv, hall⟩, by simpa using hnodup, messages, hrest⟩
        · refine .inr ⟨m :: passed, n, after, fault, by rw [hs, List.cons_append],
            List.forall_mem_cons.2 ⟨hv, hp⟩, by simpa using hnodup, by simpa using href, herr⟩
    · exact .inr ⟨[], m, rest, fault, rfl, by simp, by simpa using hn, by simpa using href,
        by rw [herr, error_bind]⟩

theorem Document.check_defines {document : Document} {d : Dialect} (h : document.check = .ok d) :
    document.Defines d := by
  obtain ⟨-, hnodup, hmessages⟩ := check_ok h
  obtain ⟨enums, he, h⟩ := bind_eq_ok.1 h
  obtain ⟨messages, hm, h⟩ := bind_eq_ok.1 h
  cases h
  have henums : ∃ blocks : List Enum, document.enums.map checkEnum = blocks.map .ok ∧
      Joins blocks enums := by
    rcases checkEnums_cases [] document.enums with ⟨-, blocks, hb, hok⟩ | ⟨_, _, _, _, _, _, _, herr⟩
    · cases he.symm.trans hok
      have hjoins := @foldl_joinEnum blocks [] [] ⟨rfl, by simp⟩
      exact ⟨blocks, hb, hjoins⟩
    · cases he.symm.trans herr
  exact ⟨rfl, rfl, rfl, henums, hmessages, (checked_ids hmessages).symm, hnodup⟩

/-- A document defines a dialect, and all of it is valid, or it has a first fault. -/
theorem Document.check_cases (document : Document) :
    (∀ b ∈ document.enums, b.IsValid) ∧ (∀ m ∈ document.messages, m.IsValid) ∧
        (document.messages.map (·.id)).Nodup ∧ (∃ d, document.check = .ok d) ∨
      ∃ fault, document.FirstFault fault ∧ document.check = .error fault := by
  rw [check]
  rcases checkEnums_cases [] document.enums with
    ⟨henums, blocks, -, hok⟩ | ⟨before, block, after, fault, hs, hb, href, herr⟩
  · rw [hok, ok_bind]
    rcases @checkMessages_cases [] [] rfl List.nodup_nil document.messages with
      ⟨hall, hnodup, messages, hm⟩ | ⟨before, m, after, fault, hs, hb, hnodup, href, herr⟩
    · exact .inl ⟨henums, hall, hnodup, _, by rw [hm, ok_bind]; rfl⟩
    · exact .inr ⟨fault, .message henums hs hb hnodup href, by rw [herr, error_bind]⟩
  · exact .inr ⟨fault, .block hs hb href, by rw [herr, error_bind]⟩

theorem Document.FirstFault.not_valid {document : Document} {fault : Fault}
    (h : document.FirstFault fault) : ¬ ((∀ b ∈ document.enums, b.IsValid) ∧
      (∀ m ∈ document.messages, m.IsValid) ∧ (document.messages.map (·.id)).Nodup) := by
  rintro ⟨henums, hmessages, hn⟩
  cases h with
  | block hs _ href => exact href.not_isValid (henums _ (by simp [hs]))
  | message _ hs _ _ href => exact not_refused hs hmessages hn href

theorem checkEnum_ok_iff {block : EnumDecl} : (∃ e, checkEnum block = .ok e) ↔ block.IsValid := by
  rcases checkEnum_cases block with ⟨hv, hok⟩ | ⟨fault, href, herr⟩
  · exact iff_of_true hok hv
  · refine iff_of_false ?_ href.not_isValid
    rintro ⟨e, hok⟩
    cases hok.symm.trans herr

theorem checkMessage_ok_iff {m : MessageDecl} : (∃ n, checkMessage m = .ok n) ↔ m.IsValid := by
  rcases checkMessage_cases [] m with ⟨hv, hok⟩ | ⟨fault, href, herr⟩
  · exact iff_of_true hok hv
  · refine iff_of_false ?_ ?_
    · rintro ⟨n, hok⟩
      cases hok.symm.trans herr
    · rcases href.clash with hi | ⟨first, hmem, -⟩
      · exact hi
      · cases hmem

/-- What becomes of a document. It defines a dialect when all of its blocks and messages can be
checked and the messages have ids of their own; this is the dialect that holds what it declares.
Else it is refused for the first of its faults. -/
theorem Document.check_outcome (document : Document) :
    ((∃ d, document.check = .ok d) ↔ (∀ b ∈ document.enums, ∃ e, checkEnum b = .ok e) ∧
      (∀ m ∈ document.messages, ∃ n, checkMessage m = .ok n) ∧
      (document.messages.map (·.id)).Nodup) ∧
    (∀ d, document.check = .ok d → document.Defines d) ∧
    ∀ fault, document.check = .error fault ↔ document.FirstFault fault := by
  simp only [checkEnum_ok_iff, checkMessage_ok_iff]
  rcases document.check_cases with ⟨henums, hmessages, hn, hok⟩ | ⟨fault, hfault, herr⟩
  · refine ⟨iff_of_true hok ⟨henums, hmessages, hn⟩, fun d => check_defines, fun fault => ?_⟩
    refine iff_of_false ?_ fun hf => hf.not_valid ⟨henums, hmessages, hn⟩
    intro herr
    obtain ⟨d, hd⟩ := hok
    cases hd.symm.trans herr
  · have hbad : ¬ ∃ d, document.check = .ok d := by
      rintro ⟨d, hd⟩
      cases hd.symm.trans herr
    refine ⟨iff_of_false hbad hfault.not_valid, fun d => check_defines, fun other => ?_⟩
    constructor
    · intro hother
      cases herr.symm.trans hother
      exact hfault
    · intro hother
      rw [herr, hfault.unique hother]

end DialectBindings.Definition
