import DialectBindings.Proofs.Outline

/-!
# Indentation of a module

The parts of a module open levels and close them. None closes a level that it has not opened, so
the level that a part starts at is the one it ends at, and starting deeper moves its lines to the
right as they are.
-/

set_option autoImplicit false

namespace DialectBindings
namespace Listing

variable {α : Type} {level : Nat} {ds es : List Directive}

/-- A directive that closes a level finds one to close, and does not stay at the margin for want of
one. -/
def Ready (level : Nat) : Directive → Prop
  | .dedent => 0 < level
  | _ => True

def Safe (level : Nat) : List Directive → Prop
  | [] => True
  | d :: rest => Ready level d ∧ Safe (nextLevel level d) rest

theorem safe_append : Safe level (ds ++ es) ↔ Safe level ds ∧ Safe (levelAfter level ds) es := by
  induction ds generalizing level with
  | nil => simp [Safe, levelAfter]
  | cons d ds ih => simp [Safe, levelAfter, ih, and_assoc]

theorem margin_add (base level : Nat) : margin (base + level) = margin base ++ margin level := by
  rw [margin, margin, margin, ← String.ofList_append, ← List.replicate_add, Nat.mul_add]

theorem placed_add (base level : Nat) (text : String) :
    placed (base + level) text = placed base (placed level text) := by
  by_cases h : text = ""
  · simp [placed, h]
  · have hinner : margin level ++ text ≠ "" := fun he => h (String.append_eq_empty_iff.1 he).2
    rw [placed_of_ne h, placed_of_ne h, placed_of_ne hinner, margin_add, String.append_assoc]

theorem written_add (base level : Nat) (d : Directive) :
    written (base + level) d = (written level d).map (placed base) := by
  cases d with
  | line text => simp [written, placed_add]
  | blank => rfl
  | indent => rfl
  | dedent => rfl
  | doc paragraphs => simp [written, placed_add]

theorem nextLevel_add (base : Nat) {d : Directive} (h : Ready level d) :
    nextLevel (base + level) d = base + nextLevel level d := by
  cases d with
  | indent => exact Nat.add_assoc base level 1
  | dedent => exact Nat.add_sub_assoc h base
  | line text => rfl
  | blank => rfl
  | doc paragraphs => rfl

theorem linesFrom_add (base : Nat) (h : Safe level ds) :
    linesFrom (base + level) ds = (linesFrom level ds).map (placed base) := by
  induction ds generalizing level with
  | nil => rfl
  | cons d ds ih =>
    rw [linesFrom, linesFrom, List.map_append, written_add, nextLevel_add base h.1, ih h.2]

/-- A listing that closes the levels it opens, and no others, wherever it starts. -/
structure Contained (ds : List Directive) : Prop where
  balanced : Balanced ds
  safe : ∀ level, Safe level ds

theorem contained_nil : Contained [] := ⟨balanced_nil, fun _ => trivial⟩

theorem contained_append (hd : Contained ds) (he : Contained es) : Contained (ds ++ es) where
  balanced := balanced_append hd.balanced he.balanced
  safe level := safe_append.2 ⟨hd.safe level, he.safe _⟩

theorem contained_line (text : String) : Contained [.line text] :=
  ⟨balanced_line text, fun _ => ⟨trivial, trivial⟩⟩

theorem contained_blank : Contained [.blank] := ⟨fun _ => rfl, fun _ => ⟨trivial, trivial⟩⟩

theorem contained_doc (paragraphs : List String) : Contained [.doc paragraphs] :=
  ⟨fun _ => rfl, fun _ => ⟨trivial, trivial⟩⟩

theorem contained_cons {d : Directive} (hd : Contained [d]) (hs : Contained ds) :
    Contained (d :: ds) :=
  contained_append hd hs

theorem contained_flatMap {f : α → List Directive} (hf : ∀ x, Contained (f x)) (xs : List α) :
    Contained (xs.flatMap f) := by
  induction xs with
  | nil => exact contained_nil
  | cons x xs ih =>
    rw [List.flatMap_cons]
    exact contained_append (hf x) ih

theorem contained_texts (text : α → String) (xs : List α) :
    Contained (xs.map fun x => .line (text x)) := by
  induction xs with
  | nil => exact contained_nil
  | cons x xs ih => exact contained_cons (contained_line (text x)) ih

theorem contained_option (text : α → String) (o : Option α) :
    Contained (o.map fun x => Directive.line (text x)).toList := by
  cases o with
  | none => exact contained_nil
  | some x => exact contained_line (text x)

theorem contained_indented {body : List Directive} (hb : Contained body) :
    Contained (indented body) where
  balanced := balanced_indented hb.balanced
  safe level := by
    refine ⟨trivial, safe_append.2 ⟨hb.safe (level + 1), ?_, trivial⟩⟩
    rw [hb.balanced]
    exact Nat.succ_pos level

theorem flatten_contained {parts : List (List Directive)} (h : ∀ part ∈ parts, Contained part) :
    Contained parts.flatten ∧
      ∀ level, linesFrom level parts.flatten = parts.flatMap (linesFrom level) := by
  induction parts with
  | nil => exact ⟨contained_nil, fun _ => rfl⟩
  | cons part parts ih =>
    obtain ⟨hpart, hparts⟩ := List.forall_mem_cons.1 h
    obtain ⟨hrest, hlines⟩ := ih hparts
    refine ⟨contained_append hpart hrest, fun level => ?_⟩
    rw [List.flatten_cons, linesFrom_append_of_balanced hpart.balanced, hlines, List.flatMap_cons]

theorem contained_block (opening closing : String) {body : List Directive} (hb : Contained body) :
    Contained (.line opening :: indented body ++ [.line closing]) :=
  contained_append (contained_cons (contained_line opening) (contained_indented hb))
    (contained_line closing)

/-- A listing that can be written at any level: it ends there, it never closes a level where there
is none, and its lines are those that it has at the margin, two blanks a level further in. -/
structure Steady (ds : List Directive) : Prop where
  returns : ∀ level, levelAfter level ds = level
  never_saturates : ∀ level, Safe level ds
  moved : ∀ level, linesFrom level ds = (linesFrom 0 ds).map fun line =>
    if line = "" then "" else String.ofList (List.replicate (2 * level) ' ') ++ line

theorem Contained.steady (h : Contained ds) : Steady ds where
  returns := h.balanced
  never_saturates := h.safe
  moved level := linesFrom_add level (h.safe 0)

end Listing

namespace Bindings
open Identifier Listing

theorem header_contained (d : Dialect) (moduleName : String) : Contained (header d moduleName) := by
  have hincludes : Contained (if d.includes.isEmpty then [] else
      [.line ("// includes: " ++ ", ".intercalate d.includes)]) := by
    split
    · exact contained_nil
    · exact contained_line _
  have hfront := contained_append
    (contained_line ("// Generated from " ++ moduleName ++ ".xml, do not edit")) hincludes
  have hversion := contained_option (fun n : UInt32 => "// version: " ++ toString n.toNat) d.version
  have hnumber := contained_option (fun n : UInt32 => "// dialect: " ++ toString n.toNat) d.number
  exact contained_append (contained_append (contained_append hfront hversion) hnumber)
    contained_blank

theorem contained_declaration (paragraphs : List String) (title : String) {body : List Directive}
    (hb : Contained body) :
    Contained ([.doc paragraphs, .line title] ++ indented body ++ [.line "\x7d", .blank]) := by
  have hfront := contained_cons (contained_doc paragraphs) (contained_line title)
  have hend := contained_cons (contained_line "\x7d") contained_blank
  exact contained_append (contained_append hfront (contained_indented hb)) hend

theorem enumMember_contained (enum : String) (e : Entry) : Contained (enumMember enum e) :=
  contained_cons (contained_doc _) (contained_line _)

theorem enumDeclaration_contained (e : Enum) : Contained (enumDeclaration e) :=
  contained_declaration _ _ (contained_flatMap (enumMember_contained e.name) e.entries)

theorem accessorLines_contained (a : Accessor) : Contained (accessorLines a) where
  balanced := accessorLines_balanced a
  safe level := by simp [accessorLines, indented, Safe, Ready, nextLevel]

theorem commandConstructor_contained (enum : Enum) (e : Entry) :
    Contained (commandConstructor enum e) where
  balanced := commandConstructor_balanced enum e
  safe level := by simp [commandConstructor, indented, Safe, Ready, nextLevel]

theorem commandDeclaration_contained (enum : Enum) (e : Entry) :
    Contained (commandDeclaration enum e) := by
  have haccessors := contained_flatMap accessorLines_contained (accessors e)
  exact contained_declaration _ _
    (contained_append (commandConstructor_contained enum e) haccessors)

theorem messageConstants_contained (m : Message) : Contained (messageConstants m) := by
  have hlength := contained_line ("static PAYLOAD_LENGTH = " ++ toString m.payloadLength)
  have hname := contained_cons (contained_line ("static MSG_NAME = '" ++ m.name ++ "'")) hlength
  have hid := contained_cons (contained_line ("static MSG_ID = " ++ toString m.id.toNat)) hname
  have hmagic :=
    contained_option (fun n : UInt8 => "static MAGIC_NUMBER = " ++ toString n.toNat) m.magic
  exact contained_append hid hmagic

theorem fieldTable_contained (m : Message) : Contained (fieldTable m) := by
  have hrows := contained_texts (fun row => fieldRow row.1 row.2) (withOffsets 0 m.wireFields)
  exact contained_block _ _ hrows

theorem messageConstructor_contained (d : Dialect) (m : Message) :
    Contained (messageConstructor d m) := by
  have hfields := contained_texts
    (fun f => "this." ++ camel f.name ++ " = " ++ (propertyType d f).2) m.fields
  exact contained_block _ _ (contained_cons (contained_line _) hfields)

theorem property_contained (d : Dialect) (f : Field) : Contained (property d f) :=
  contained_cons contained_blank (contained_cons (contained_doc _) (contained_line _))

theorem messageDeclaration_contained (d : Dialect) (m : Message) :
    Contained (messageDeclaration d m) := by
  have hconstants := contained_append (messageConstants_contained m) contained_blank
  have htable := contained_append (contained_append hconstants (fieldTable_contained m))
    contained_blank
  have hbody := contained_append (contained_append htable (messageConstructor_contained d m))
    (contained_flatMap (property_contained d) m.fields)
  exact contained_declaration _ _ hbody

theorem commandRegistry_contained (enum : Enum) : Contained (commandRegistry enum) :=
  contained_cons contained_blank
    (contained_block _ _ (contained_texts (commandRow enum) enum.entries))

theorem registries_contained (d : Dialect) : Contained (registries d) := by
  have hcommands : Contained (d.commands?.elim [] commandRegistry) := by
    cases d.commands? with
    | none => exact contained_nil
    | some enum => exact commandRegistry_contained enum
  exact contained_append (contained_block _ _ (contained_texts messageRow d.messages)) hcommands

theorem sections_contained (d : Dialect) (moduleName : String) :
    ∀ part ∈ sections d moduleName, Contained part := by
  have hcommands : ∀ part ∈ d.commands?.elim [] fun enum =>
      enum.entries.map (commandDeclaration enum), Contained part := by
    cases d.commands? with
    | none => exact nofun
    | some enum => exact List.forall_mem_map.2 fun e _ => commandDeclaration_contained enum e
  simp only [sections, List.forall_mem_append, List.forall_mem_singleton, List.forall_mem_map]
  exact ⟨⟨⟨⟨header_contained d moduleName, fun e _ => enumDeclaration_contained e⟩, hcommands⟩,
    fun m _ => messageDeclaration_contained d m⟩, registries_contained d⟩

/-- Every part of a module, and the module as a whole, ends at the level that it is started at and
closes no level that it has not opened; its lines are those that it has at the margin, with two
blanks for each level in front of the lines that are not empty. -/
theorem sections_steady (d : Dialect) (moduleName : String) :
    Steady (header d moduleName) ∧ (∀ e, Steady (enumDeclaration e)) ∧
      (∀ enum e, Steady (commandDeclaration enum e)) ∧
      (∀ m, Steady (messageDeclaration d m)) ∧ Steady (registries d) ∧
      Steady (sections d moduleName).flatten ∧
      lines d moduleName = linesFrom 0 (sections d moduleName).flatten := by
  obtain ⟨hwhole, hlines⟩ := flatten_contained (sections_contained d moduleName)
  exact ⟨(header_contained d moduleName).steady, fun e => (enumDeclaration_contained e).steady,
    fun enum e => (commandDeclaration_contained enum e).steady,
    fun m => (messageDeclaration_contained d m).steady, (registries_contained d).steady,
    hwhole.steady, (hlines 0).symm⟩

end Bindings
end DialectBindings
