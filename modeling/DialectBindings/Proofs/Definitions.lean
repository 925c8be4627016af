import DialectBindings.Engine.Bindings
import DialectBindings.Proofs.Results
import Mathlib.Data.List.Nodup

/-!
# Checked definitions

A checked message keeps the id and the name of its declaration and is a work in progress when one
of its items says so. In a checked definition no two messages have one id and no two enums have
one name.
-/

set_option autoImplicit false

namespace DialectBindings
open Results

namespace Definition

theorem addItem_ok {state state' : Message × Bool} {item : MessageItem}
    (h : addItem state item = .ok state') :
    state'.1.id = state.1.id ∧ state'.1.name = state.1.name ∧
      (state'.1.wip = true ↔ state.1.wip = true ∨ item = .wip) := by
  cases item with
  | field f =>
    obtain ⟨field, -, h⟩ := bind_eq_ok.1 h
    cases h
    simp
  | description | extensions | wip | deprecated | other =>
    cases h
    simp

theorem foldlM_addItem_ok {items : List MessageItem} {state state' : Message × Bool}
    (h : items.foldlM addItem state = .ok state') :
    state'.1.id = state.1.id ∧ state'.1.name = state.1.name ∧
      (state'.1.wip = true ↔ state.1.wip = true ∨ .wip ∈ items) := by
  induction items generalizing state with
  | nil =>
    cases h
    simp
  | cons item items ih =>
    rw [List.foldlM_cons] at h
    obtain ⟨next, hi, h⟩ := bind_eq_ok.1 h
    obtain ⟨hid, hname, hwip⟩ := addItem_ok hi
    obtain ⟨hid', hname', hwip'⟩ := ih h
    refine ⟨hid'.trans hid, hname'.trans hname, ?_⟩
    rw [hwip', hwip, List.mem_cons, or_assoc, @eq_comm _ item]

theorem checkMessage_ok {declaration : MessageDecl} {m : Message}
    (h : checkMessage declaration = .ok m) :
    m.id = declaration.id ∧ m.name = declaration.name ∧
      (m.wip = true ↔ .wip ∈ declaration.items) := by
  obtain ⟨state, hs, h⟩ := bind_eq_ok.1 h
  cases h
  obtain ⟨hid, hname, hwip⟩ := foldlM_addItem_ok hs
  exact ⟨hid, hname, by simpa using hwip⟩

theorem checkMessages_cons {before messages : List Message} {declaration : MessageDecl}
    {rest : List MessageDecl}
    (h : checkMessages before (declaration :: rest) = .ok messages) :
    ∃ m, checkMessage declaration = .ok m ∧ (∀ earlier ∈ before, earlier.id ≠ m.id) ∧
      checkMessages (before ++ [m]) rest = .ok messages := by
  rw [checkMessages] at h
  obtain ⟨m, hm, h⟩ := bind_eq_ok.1 h
  split at h
  · cases h
  · rename_i hn
    exact ⟨m, hm, by simpa using hn, h⟩

theorem checkMessages_ok {declarations : List MessageDecl} {before messages : List Message}
    (hb : (before.map (·.id)).Nodup) (h : checkMessages before declarations = .ok messages) :
    (messages.map (·.id)).Nodup ∧ ∃ checked, messages = before ++ checked ∧
      declarations.map checkMessage = checked.map .ok := by
  induction declarations generalizing before with
  | nil =>
    cases h
    exact ⟨hb, [], by simp, rfl⟩
  | cons declaration rest ih =>
    obtain ⟨m, hm, hn, h⟩ := checkMessages_cons h
    have hb' : ((before ++ [m]).map (·.id)).Nodup := by
      rw [List.map_append, List.nodup_append]
      refine ⟨hb, by simp, ?_⟩
      simpa using hn
    obtain ⟨hnodup, checked, rfl, hc⟩ := ih hb' h
    exact ⟨hnodup, m :: checked, by simp, by simp [hm, hc]⟩

theorem joinEnum_names {enums : List Enum} (e : Enum) (h : (enums.map (·.name)).Nodup) :
    ((joinEnum enums e).map (·.name)).Nodup := by
  rw [joinEnum]
  split
  · have hk : ((fun old : Enum => old.name) ∘ fun old =>
        if old.name == e.name then { old with entries := old.entries ++ e.entries } else old) =
        (·.name) := by
      funext old
      simp only [Function.comp_apply]
      split <;> rfl
    rw [List.map_map, hk]
    exact h
  · rename_i hn
    rw [List.map_append, List.nodup_append]
    refine ⟨h, by simp, ?_⟩
    simpa using hn

theorem checkEnums_names {declarations : List EnumDecl} {joined enums : List Enum}
    (hj : (joined.map (·.name)).Nodup) (h : checkEnums joined declarations = .ok enums) :
    (enums.map (·.name)).Nodup := by
  induction declarations generalizing joined with
  | nil =>
    cases h
    exact hj
  | cons declaration rest ih =>
    rw [checkEnums] at h
    obtain ⟨e, -, h⟩ := bind_eq_ok.1 h
    exact ih (joinEnum_names e hj) h

end Definition

open Definition

theorem Dialect.parse_ok {source : String} {d : Dialect} (h : Dialect.parse source = .ok d) :
    ∃ document, Document.parse source = .ok document ∧ document.check = .ok d := by
  obtain ⟨document, hd, h⟩ := bind_eq_ok.1 h
  exact ⟨document, mapError_eq_ok.1 hd, h⟩

theorem Definition.Document.check_ok {document : Document} {d : Dialect}
    (h : document.check = .ok d) :
    (d.enums.map (·.name)).Nodup ∧ (d.messages.map (·.id)).Nodup ∧
      document.messages.map checkMessage = d.messages.map .ok := by
  obtain ⟨enums, he, h⟩ := bind_eq_ok.1 h
  obtain ⟨messages, hm, h⟩ := bind_eq_ok.1 h
  cases h
  obtain ⟨hnodup, checked, rfl, hc⟩ := checkMessages_ok (by simp) hm
  exact ⟨checkEnums_names (by simp) he, hnodup, hc⟩

theorem Definition.checked_ids {declarations : List MessageDecl} {messages : List Message}
    (h : declarations.map checkMessage = messages.map .ok) :
    declarations.map (·.id) = messages.map (·.id) := by
  induction declarations generalizing messages with
  | nil => cases messages <;> simp_all
  | cons declaration declarations ih =>
    cases messages with
    | nil => cases h
    | cons m messages =>
      rw [List.map_cons, List.map_cons, List.cons.injEq] at h
      rw [List.map_cons, List.map_cons, ih h.2, (checkMessage_ok h.1).1]

theorem Dialect.parse_document {source : String} {d : Dialect} (h : parse source = .ok d) :
    ∃ document, Document.parse source = .ok document ∧ (document.messages.map (·.id)).Nodup ∧
      ∀ declaration ∈ document.messages, ∃ m, checkMessage declaration = .ok m := by
  obtain ⟨document, hdoc, hc⟩ := parse_ok h
  obtain ⟨-, hn, hm⟩ := Document.check_ok hc
  refine ⟨document, hdoc, ?_, fun declaration hdecl => ?_⟩
  · rw [checked_ids hm]
    exact hn
  · have hmem := List.mem_map_of_mem (f := checkMessage) hdecl
    rw [hm] at hmem
    obtain ⟨m, -, hok⟩ := List.mem_map.1 hmem
    exact ⟨m, hok.symm⟩

/-- A source declares a message, and not as a work in progress. -/
def Definition.Publishes (source : String) (id : UInt32) (m : Message) : Prop :=
  ∃ document declaration, Document.parse source = .ok document ∧
    declaration ∈ document.messages ∧ declaration.id = id ∧ .wip ∉ declaration.items ∧
    checkMessage declaration = .ok m

theorem Definition.publishes_iff {source : String} {d : Dialect} {id : UInt32} {m : Message}
    (h : Dialect.parse source = .ok d) :
    Publishes source id m ↔ m ∈ d.messages ∧ m.id = id ∧ m.wip = false := by
  obtain ⟨document, hd, h⟩ := Dialect.parse_ok h
  obtain ⟨-, -, hc⟩ := Document.check_ok h
  constructor
  · rintro ⟨document', declaration, hd', hm, rfl, hw, hok⟩
    cases hd.symm.trans hd'
    obtain ⟨hid, -, hwip⟩ := checkMessage_ok hok
    have hmem := List.mem_map_of_mem (f := checkMessage) hm
    rw [hc, hok] at hmem
    obtain ⟨m', hm', he⟩ := List.mem_map.1 hmem
    cases he
    exact ⟨hm', hid, by simpa using mt hwip.1 hw⟩
  · rintro ⟨hm, rfl, hw⟩
    have hmem := List.mem_map_of_mem (f := (Except.ok : Message → Except Fault Message)) hm
    rw [← hc] at hmem
    obtain ⟨declaration, hdecl, hok⟩ := List.mem_map.1 hmem
    obtain ⟨hid, -, hwip⟩ := checkMessage_ok hok
    exact ⟨document, declaration, hd, hdecl, hid.symm, by simp [← hwip, hw], hok⟩

theorem Definition.publishes_unique {source : String} {d : Dialect} {id : UInt32} {m n : Message}
    (h : Dialect.parse source = .ok d) (hm : Publishes source id m) (hn : Publishes source id n) :
    m = n := by
  obtain ⟨document, -, hc⟩ := Dialect.parse_ok h
  obtain ⟨-, hnodup, -⟩ := Document.check_ok hc
  obtain ⟨hm, hid, -⟩ := (publishes_iff h).1 hm
  obtain ⟨hn, hid', -⟩ := (publishes_iff h).1 hn
  exact List.inj_on_of_nodup_map hnodup hm hn (hid.trans hid'.symm)

theorem Engine.bindings_ok {source moduleName : String} {g : Generated}
    (h : bindings.generate source moduleName = .ok g) :
    ∃ d, Dialect.parse source = .ok d ∧ g.descriptors = d.descriptors ∧
      g.lines = Bindings.lines d moduleName := by
  obtain ⟨d, hd, h⟩ := bind_eq_ok.1 h
  cases h
  exact ⟨d, mapError_eq_ok.1 hd, rfl, rfl⟩

theorem Engine.bindings_of_parse {source : String} {d : Dialect}
    (h : Dialect.parse source = .ok d) (moduleName : String) :
    ∃ g, bindings.generate source moduleName = .ok g :=
  ⟨_, bind_eq_ok.2 ⟨d, mapError_eq_ok.2 h, rfl⟩⟩

end DialectBindings
