import DialectBindings.Proofs.Conversion
import DialectBindings.Proofs.Declarations
import DialectBindings.Proofs.WireOrder

/-!
# Accessors of command parameters

The parameters of an entry go by their indices, those of one index as declared. A command class has
a getter and a setter for each name that their labels leave, in that order and where the name comes
up first, and both reach the parameter that the name comes from. Such names start with a small
letter and have no characters but letters and digits.
-/

set_option autoImplicit false

namespace DialectBindings

theorem mergeSort_ascending {α : Type} (key : α → Nat) {bound : Nat} (h : ∀ a, key a < bound)
    (l : List α) : (l.mergeSort fun a b => key a ≤ key b) =
      (List.range bound).flatMap fun k => l.filter (key · == k) := by
  -- The classes of a sort are known for keys that fall, so keys are taken off their bound.
  let rank : α → Nat := fun a => bound - key a
  have hle : (fun a b => decide (key a ≤ key b)) = fun a b => decide (rank b ≤ rank a) := by
    funext a b
    have ha := h a
    have hb := h b
    simp only [rank, decide_eq_decide]
    omega
  have hranks : ((List.range bound).map (bound - ·)).Pairwise (· > ·) := by
    rw [List.pairwise_map]
    refine List.pairwise_lt_range.imp_of_mem fun {i j} hi hj hij => ?_
    have hj := List.mem_range.1 hj
    omega
  have hmem (a : α) : rank a ∈ (List.range bound).map (bound - ·) :=
    List.mem_map.2 ⟨key a, List.mem_range.2 (h a), rfl⟩
  have hsorted := (List.pairwise_mergeSort (larger_trans rank) (larger_total rank) l).imp
    of_decide_eq_true
  rw [hle, eq_flatMap_classes rank hranks hsorted fun a _ => hmem a, List.flatMap_map]
  refine List.flatMap_congr fun k hk => ?_
  have hk := List.mem_range.1 hk
  rw [filter_mergeSort]
  refine List.filter_congr fun a _ => ?_
  have ha := h a
  simp only [rank, beq_eq_beq]
  omega

namespace Definition

def ParamDecl.param (p : ParamDecl) : Param := ⟨p.index, p.label, p.units, p.description⟩

/-- The parameters of an entry that are not reserved, index by index. -/
def EntryDecl.byIndex (d : EntryDecl) : List Param :=
  (List.range 256).flatMap fun i =>
    (d.params.filter fun p => p.index.toNat == i && !p.reserved).map ParamDecl.param

theorem EntryDecl.numbered_params (d : EntryDecl) (n : UInt32) :
    (d.numbered n).params = d.byIndex := by
  have hle : (fun p q : Param => decide (p.index ≤ q.index)) =
      fun p q => decide (p.index.toNat ≤ q.index.toNat) := by
    funext p q
    rw [decide_eq_decide, UInt8.le_iff_toNat_le]
  change (((d.params.filter (!·.reserved)).map ParamDecl.param).mergeSort
    fun p q => decide (p.index ≤ q.index)) = _
  rw [hle, mergeSort_ascending (fun p : Param => p.index.toNat) fun p => p.index.toNat_lt,
    byIndex]
  refine List.flatMap_congr fun i _ => ?_
  rw [List.filter_map, List.filter_filter]
  rfl

end Definition

namespace Bindings
open Identifier Listing

def accessorNames (ps : List Param) : List String :=
  (((ps.filterMap (·.label)).map accessorName).filter (· ≠ "")).eraseDups

def getterLine (name : String) : String := "  get " ++ name ++ "() \x7b"

def setterLine (name : String) : String := "  set " ++ name ++ "(value: number) \x7b"

def accessorBody (name : String) (index : UInt8) : List String :=
  let store := "this._param" ++ toString index.toNat
  [getterLine name, "    return " ++ store, "  \x7d",
    setterLine name, "    " ++ store ++ " = value", "  \x7d"]

/-- Lines that reach parameters through accessors: one getter and one setter for every name, of the
first parameter whose label leaves it. -/
structure Reaches (ps : List Param) (lines : List String) : Prop where
  distinct : (accessorNames ps).Nodup
  camel : ∀ name ∈ accessorNames ps, IsCamel name.toList
  getters : lines.filter (Starts "  get ") = (accessorNames ps).map getterLine
  setters : lines.filter (Starts "  set ") = (accessorNames ps).map setterLine
  backed : ∀ name ∈ accessorNames ps, ∃ p,
    ps.find? (·.label.map accessorName = some name) = some p ∧ accessorBody name p.index <:+: lines

/-! ## Names -/

theorem firstOfName_names (seen : List String) (as : List Accessor) :
    (firstOfName seen as).map (·.name) = ((as.map (·.name)).filter (· ∉ seen)).eraseDups := by
  induction as generalizing seen with
  | nil => rfl
  | cons a as ih =>
    rw [firstOfName, List.map_cons]
    split
    · rename_i hs
      rw [ih, List.filter_cons_of_neg (by simpa using hs)]
    · rename_i hs
      rw [List.map_cons, ih, List.filter_cons_of_pos (by simpa using hs), List.eraseDups_cons,
        List.filter_filter]
      congr 2
      refine List.filter_congr fun name _ => ?_
      by_cases hn : name = a.name <;> simp [hn]

theorem firstOfName_find {seen : List String} {as : List Accessor} {a : Accessor}
    (h : a ∈ firstOfName seen as) : a.name ∉ seen ∧ as.find? (·.name = a.name) = some a := by
  -- What is seen grows on the way, and no name in it comes again.
  induction as generalizing seen with
  | nil => cases h
  | cons b as ih =>
    rw [firstOfName] at h
    split at h
    · rename_i hs
      obtain ⟨hn, hf⟩ := ih h
      refine ⟨hn, ?_⟩
      have hne : b.name ≠ a.name := fun he => hn (he ▸ hs)
      rw [List.find?_cons_of_neg (by simpa using hne), hf]
    · rename_i hs
      rcases List.mem_cons.1 h with rfl | h
      · exact ⟨hs, List.find?_cons_of_pos (by simp)⟩
      · obtain ⟨hn, hf⟩ := ih h
        rw [List.mem_cons, not_or] at hn
        refine ⟨hn.2, ?_⟩
        rw [List.find?_cons_of_neg (by simpa using Ne.symm hn.1), hf]

theorem firstOfName_nodup (seen : List String) (as : List Accessor) :
    ((firstOfName seen as).map (·.name)).Nodup := by
  induction as generalizing seen with
  | nil => exact .nil
  | cons a as ih =>
    rw [firstOfName]
    split
    · exact ih seen
    · rw [List.map_cons, List.nodup_cons]
      refine ⟨fun hm => ?_, ih _⟩
      obtain ⟨b, hb, hname⟩ := List.mem_map.1 hm
      exact (firstOfName_find hb).1 (hname ▸ List.mem_cons_self)

theorem accessor?_eq (p : Param) :
    accessor? p = ((p.label.map accessorName).filter (· ≠ "")).map (⟨·, p⟩) := by
  rw [accessor?]
  cases p.label with
  | none => rfl
  | some label => by_cases h : accessorName label = "" <;> simp [h]

theorem accessors_names (e : Entry) : (accessors e).map (·.name) = accessorNames e.params := by
  rw [accessors, firstOfName_names, accessorNames, List.map_filterMap, List.map_filterMap,
    List.filter_filterMap, List.filter_filterMap]
  congr 2
  funext p
  rw [accessor?_eq]
  cases p.label with
  | none => rfl
  | some label => by_cases hl : accessorName label = "" <;> simp [hl, Option.filter]

theorem accessors_find {e : Entry} {a : Accessor} (h : a ∈ accessors e) :
    e.params.find? (·.label.map accessorName = some a.name) = some a.param := by
  obtain ⟨-, -, -, hne⟩ := accessors_name h
  have hfind := (firstOfName_find h).2
  have hany : (fun p => (accessor? p).any (·.name = a.name)) =
      fun p : Param => decide (p.label.map accessorName = some a.name) := by
    funext p
    rw [accessor?_eq]
    cases p.label with
    | none => simp
    | some label =>
      by_cases hl : accessorName label = ""
      · simp [hl, Option.filter, Ne.symm hne]
      · simp [hl, Option.filter]
  rw [List.find?_filterMap, hany, Option.bind_eq_some_iff] at hfind
  obtain ⟨p, hp, ha⟩ := hfind
  rw [accessor?_eq, Option.map_eq_some_iff] at ha
  obtain ⟨name, -, rfl⟩ := ha
  exact hp

/-! ## Lines -/

theorem Starts.apart {front word line : String} (h : Starts front line)
    (hf : ¬ word.toList <+: front.toList) (hw : ¬ front.toList <+: word.toList) :
    ¬ Starts word line :=
  fun hs => (hs.total h).elim hf hw

def otherFronts : List String :=
  ["/**", " *", "  /**", "   *", "export class ", "  constructor", "    ", "  \x7d", "\x7d"]

def IsOther (line : String) : Prop := line = "" ∨ ∃ front ∈ otherFronts, Starts front line

theorem IsOther.of_starts {front line : String} (h : Starts front line) (hf : front ∈ otherFronts) :
    IsOther line :=
  .inr ⟨front, hf, h⟩

theorem IsOther.not_starts {line word : String} (h : IsOther line)
    (hw : word ∈ ["  get ", "  set "]) : ¬ Starts word line := by
  have hapart : ∀ word ∈ ["  get ", "  set "], ¬ Starts word "" ∧ ∀ front ∈ otherFronts,
      ¬ word.toList <+: front.toList ∧ ¬ front.toList <+: word.toList := by decide
  obtain ⟨hempty, hfronts⟩ := hapart word hw
  rcases h with rfl | ⟨front, hf, h⟩
  · exact hempty
  · exact h.apart (hfronts front hf).1 (hfronts front hf).2

theorem filter_other {lines : List String} {word : String} (h : ∀ line ∈ lines, IsOther line)
    (hw : word ∈ ["  get ", "  set "]) : lines.filter (Starts word) = [] :=
  List.filter_eq_nil_iff.2 fun line hl => by simpa using (h line hl).not_starts hw

theorem notes_other {level : Nat} (hl : level ≤ 1) (paragraphs : List String) :
    ∀ line ∈ notes level paragraphs, IsOther line := by
  intro line h
  have hfronts : ∀ level ≤ 1, margin level ++ "/**" ∈ otherFronts ∧
      margin level ++ " *" ∈ otherFronts := by decide
  rcases notes_noted level paragraphs line h with h | h
  · exact .of_starts h (hfronts level hl).1
  · exact .of_starts h (hfronts level hl).2

theorem constructor_other (enum : Enum) (e : Entry) :
    ∀ line ∈ linesFrom 1 (commandConstructor enum e), IsOther line := by
  have hfixed : ∀ line ∈ ["  constructor(targetSystem = 1, targetComponent = 1) \x7b",
      "    super()", "    this.targetSystem = targetSystem",
      "    this.targetComponent = targetComponent", "  \x7d"],
      ∃ front ∈ otherFronts, Starts front line := by decide
  have hcommand : IsOther ("    this.command = " ++ commandAccess enum e ++ " as number") :=
    .of_starts (((starts_append "    " "this.command = ").append _).append _) (by decide)
  rw [commandConstructor_texts]
  intro line h
  simp only [List.mem_cons, List.not_mem_nil, or_false] at h hfixed
  rcases h with rfl | rfl | rfl | rfl | rfl | rfl
  case inr.inr.inr.inr.inl => exact hcommand
  all_goals exact .inr (hfixed _ (by simp))

theorem accessorLines_body (a : Accessor) :
    linesFrom 1 (accessorLines a) =
      "" :: (notes 1 (a.param.description :: (a.param.units.map ("@units " ++ ·)).toList) ++
        accessorBody a.name a.param.index) := by
  simp [accessorLines_lines, accessorBody, getterLine, setterLine, ← String.append_assoc]

theorem accessorBody_filter {word : String} (hw : word ∈ ["  get ", "  set "]) (name : String)
    (index : UInt8) : (accessorBody name index).filter (Starts word) =
      [getterLine name, setterLine name].filter (Starts word) := by
  have hdeep {line : String} (h : Starts "    " line) : ¬ Starts word line :=
    (IsOther.of_starts h (by decide)).not_starts hw
  have hclose : ¬ Starts word "  \x7d" :=
    (IsOther.of_starts (starts_self _) (by decide)).not_starts hw
  rw [accessorBody]
  generalize "this._param" ++ toString index.toNat = store
  have hfront : Starts "    " "    return " := by decide
  have hreturn := hdeep (hfront.append store)
  have hstore := hdeep ((starts_append "    " store).append " = value")
  simp [List.filter_cons, hreturn, hstore, hclose]

/-- The lines of a command class that open a getter or a setter are those of its accessors. -/
theorem commandDeclaration_filter {word : String} (hw : word ∈ ["  get ", "  set "]) (enum : Enum)
    (e : Entry) : (linesFrom 0 (commandDeclaration enum e)).filter (Starts word) =
      (accessors e).flatMap fun a =>
        [getterLine a.name, setterLine a.name].filter (Starts word) := by
  have hclass : IsOther ("export class " ++ commandClass e.name ++ " extends CommandLong \x7b") :=
    .of_starts ((starts_append "export class " _).append _) (by decide)
  have hclose : ∀ line ∈ ["\x7d", ""], IsOther line :=
    List.forall_mem_cons.2 ⟨.of_starts (starts_self _) (by decide),
      List.forall_mem_singleton.2 (.inl rfl)⟩
  have hblock (a : Accessor) : (linesFrom 1 (accessorLines a)).filter (Starts word) =
      [getterLine a.name, setterLine a.name].filter (Starts word) := by
    have hempty : ¬ Starts word "" := IsOther.not_starts (.inl rfl) hw
    rw [accessorLines_body, List.filter_cons_of_neg (by simpa using hempty), List.filter_append,
      filter_other (notes_other (Nat.le_refl 1) _) hw, List.nil_append, accessorBody_filter hw]
  rw [commandDeclaration_parts, linesFrom_flatMap accessorLines_balanced]
  simp only [List.filter_append, filter_other (notes_other (Nat.zero_le 1) _) hw,
    filter_other (List.forall_mem_singleton.2 hclass) hw,
    filter_other (constructor_other enum e) hw, filter_other hclose hw, List.filter_flatMap, hblock,
    List.nil_append, List.append_nil]

theorem getterLine_filter (name : String) :
    [getterLine name, setterLine name].filter (Starts "  get ") = [getterLine name] := by
  have hget : Starts "  get " (getterLine name) := (starts_append _ _).append _
  have hset : ¬ Starts "  get " (setterLine name) :=
    ((starts_append "  set " name).append _).apart (by decide) (by decide)
  simp [hget, hset]

theorem setterLine_filter (name : String) :
    [getterLine name, setterLine name].filter (Starts "  set ") = [setterLine name] := by
  have hget : ¬ Starts "  set " (getterLine name) :=
    ((starts_append "  get " name).append _).apart (by decide) (by decide)
  have hset : Starts "  set " (setterLine name) := (starts_append _ _).append _
  simp [hget, hset]

theorem accessorBody_infix (enum : Enum) {e : Entry} {a : Accessor} (h : a ∈ accessors e) :
    accessorBody a.name a.param.index <:+: linesFrom 0 (commandDeclaration enum e) := by
  have hblock : accessorBody a.name a.param.index <:+: linesFrom 1 (accessorLines a) := by
    rw [accessorLines_body]
    exact (List.suffix_cons_iff.2 (.inr (List.suffix_append _ _))).isInfix
  have hblocks : linesFrom 1 (accessorLines a) <:+:
      linesFrom 1 ((accessors e).flatMap accessorLines) := by
    rw [linesFrom_flatMap accessorLines_balanced]
    exact List.infix_of_mem_flatten (List.mem_map_of_mem h)
  rw [commandDeclaration_parts]
  exact (hblock.trans hblocks).trans (List.infix_append _ _ _)

theorem commandDeclaration_reaches (enum : Enum) (e : Entry) :
    Reaches e.params (linesFrom 0 (commandDeclaration enum e)) where
  distinct := accessors_names e ▸ firstOfName_nodup [] _
  camel name h := by
    rw [accessorNames, List.mem_eraseDups, List.mem_filter, List.mem_map] at h
    obtain ⟨⟨label, -, rfl⟩, hne⟩ := h
    exact accessorName_isCamel (of_decide_eq_true hne)
  getters := by
    rw [commandDeclaration_filter (by simp), ← accessors_names, List.map_map, List.map_eq_flatMap]
    exact List.flatMap_congr fun a _ => getterLine_filter a.name
  setters := by
    rw [commandDeclaration_filter (by simp), ← accessors_names, List.map_map, List.map_eq_flatMap]
    exact List.flatMap_congr fun a _ => setterLine_filter a.name
  backed name h := by
    rw [← accessors_names] at h
    obtain ⟨a, ha, rfl⟩ := List.mem_map.1 h
    exact ⟨a.param, accessors_find ha, accessorBody_infix enum ha⟩

end Bindings

open Bindings Definition Listing Results

theorem checkEntries_params {enum : String} {next : UInt32} {declared : List EntryDecl}
    {entries : List Entry} (h : checkEntries enum next declared = .ok entries) :
    List.Forall₂ (fun d e => e.params = d.byIndex) declared entries := by
  induction declared generalizing next entries with
  | nil =>
    cases h
    exact .nil
  | cons d rest ih =>
    obtain ⟨n, more, -, hm, rfl⟩ := checkEntries_cons_ok h
    exact .cons (d.numbered_params n) (ih hm)

/-- Entry by entry of a block that is checked, the class that an entry becomes as a command reaches
the parameters of the entry, index by index. -/
theorem checkEnum_reaches {block : EnumDecl} {checked : Enum} (h : checkEnum block = .ok checked) :
    List.Forall₂ (fun d e => ∀ commands,
      Reaches d.byIndex (linesFrom 0 (commandDeclaration commands e)))
      block.entries checked.entries := by
  obtain ⟨entries, he, h⟩ := bind_eq_ok.1 h
  cases h
  refine (checkEntries_params he).imp fun d e hparams commands => ?_
  exact hparams ▸ commandDeclaration_reaches commands e

theorem checkEnum_reaches_first :
    let turn : EntryDecl := ⟨"MAV_CMD_TURN", none, "", [⟨7, some "é", none, false, ""⟩,
      ⟨2, some "3D", none, false, ""⟩, ⟨1, some "Param3D", none, false, ""⟩,
      ⟨1, some "param3d!", none, false, ""⟩, ⟨0, some "Angle", none, true, ""⟩], none, false⟩
    let block : EnumDecl := ⟨"MAV_CMD", false, "", none, [turn]⟩
    (accessorNames turn.byIndex = ["param3d"] ∧
      turn.byIndex.map (·.label) = [some "Param3D", some "param3d!", some "3D", some "é"]) ∧
      ∃ checked, checkEnum block = .ok checked ∧ List.Forall₂ (fun d e => ∀ commands,
        Reaches d.byIndex (linesFrom 0 (commandDeclaration commands e)))
        block.entries checked.entries := by
  intro turn block
  obtain ⟨checked, h⟩ := exists_ok (x := checkEnum block) (by decide +kernel)
  exact ⟨by decide +kernel, checked, h, checkEnum_reaches h⟩

end DialectBindings
