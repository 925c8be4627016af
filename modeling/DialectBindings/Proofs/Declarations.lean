import DialectBindings.Proofs.Quotes

/-!
# Names of declarations

Members, command classes and accessors are kept from names that start with a digit: by quotes, by
the name of the enum of commands, and by a word of their own. The names of enums, message classes
and properties are what Pascal and camel case leave, and that is a name just when the first
character that is no underscore is a letter.
-/

set_option autoImplicit false

namespace DialectBindings

namespace Identifier
open Text

/-- ASCII letters, digits and underscores, at least one. -/
def IsWord (name : List Char) : Prop := name ≠ [] ∧ ∀ c ∈ name, c.isAlphanum = true ∨ c = '_'

/-- A name that can be declared. -/
def IsIdentifier (name : List Char) : Prop := IsWord name ∧ startsWithDigit name = false

def firstIsLetter (name : List Char) : Bool := startsWithLetter (name.dropWhile (· = '_'))

def IsCamel : List Char → Prop
  | [] => False
  | c :: rest => c.isLower = true ∧ ∀ d ∈ rest, d.isAlphanum = true

instance (name : List Char) : Decidable (IsWord name) :=
  @instDecidableAnd _ _ inferInstance (List.decidableBAll _ name)

instance (name : List Char) : Decidable (IsIdentifier name) := inferInstanceAs (Decidable (_ ∧ _))

theorem ascii_of_isAlphanum {c : Char} (h : c.isAlphanum = true) : c.toNat < 128 := by
  change ((decide (65 ≤ c.val ∧ c.val ≤ 90) || (decide (97 ≤ c.val) && decide (c.val ≤ 122))) ||
    (decide (48 ≤ c.val) && decide (c.val ≤ 57))) = true at h
  simp only [Bool.or_eq_true, Bool.and_eq_true, decide_eq_true_eq, UInt32.le_iff_toNat_le] at h
  change ((65 ≤ c.toNat ∧ c.toNat ≤ 90) ∨ (97 ≤ c.toNat ∧ c.toNat ≤ 122)) ∨
    (48 ≤ c.toNat ∧ c.toNat ≤ 57) at h
  omega

theorem IsWord.ascii {name : List Char} (h : IsWord name) : IsAscii name := by
  intro c hc
  obtain ha | rfl := h.2 c hc
  · exact ascii_of_isAlphanum ha
  · decide

theorem isAlphanum_toUpper {c : Char} (hc : c.toNat < 128) :
    c.isAlphanum = true → c.toUpper.isAlphanum = true :=
  Text.ascii (p := fun c => c.isAlphanum = true → c.toUpper.isAlphanum = true) (by decide) hc

theorem isAlphanum_toLower {c : Char} (hc : c.toNat < 128) :
    c.isAlphanum = true → c.toLower.isAlphanum = true :=
  Text.ascii (p := fun c => c.isAlphanum = true → c.toLower.isAlphanum = true) (by decide) hc

theorem isAlpha_toUpper {c : Char} (hc : c.toNat < 128) : c.toUpper.isAlpha = c.isAlpha :=
  Text.ascii (p := fun c => c.toUpper.isAlpha = c.isAlpha) (by decide) hc

theorem isAlpha_toLower {c : Char} (hc : c.toNat < 128) : c.toLower.isAlpha = c.isAlpha :=
  Text.ascii (p := fun c => c.toLower.isAlpha = c.isAlpha) (by decide) hc

theorem isLower_toLower {c : Char} (hc : c.toNat < 128) :
    c.isAlphanum = true → c.toLower.isDigit = false → c.toLower.isLower = true :=
  Text.ascii (p := fun c => c.isAlphanum = true → c.toLower.isDigit = false →
    c.toLower.isLower = true) (by decide) hc

theorem isAlphanum_capital {c d : Char} (h : c.isAlphanum = true) (hd : d ∈ capital c) :
    d.isAlphanum = true := by
  have hc := ascii_of_isAlphanum h
  rw [capital_ascii hc, List.mem_singleton] at hd
  rw [hd]
  exact isAlphanum_toUpper hc h

theorem isAlphanum_small {c d : Char} (h : c.isAlphanum = true) (hd : d ∈ small c) :
    d.isAlphanum = true := by
  have hc := ascii_of_isAlphanum h
  rw [small_ascii hc, List.mem_singleton] at hd
  rw [hd]
  exact isAlphanum_toLower hc h

theorem isAlphanum_pascalChars {name : List Char}
    (h : ∀ c ∈ name, c.isAlphanum = true ∨ c = '_') :
    ∀ c ∈ pascalChars name, c.isAlphanum = true := by
  intro d hd
  obtain ⟨piece, hp, hd⟩ := List.mem_flatMap.1 hd
  have hpiece : ∀ c ∈ piece, c.isAlphanum = true := fun c hc =>
    (h c (mem_of_mem_pieces hp hc)).resolve_right fun he => not_mem_pieces hp (he ▸ hc)
  cases piece with
  | nil => cases hd
  | cons c rest =>
    rcases List.mem_append.1 hd with hd | hd
    · exact isAlphanum_capital (hpiece c List.mem_cons_self) hd
    · obtain ⟨e, he, hd⟩ := List.mem_flatMap.1 hd
      exact isAlphanum_small (hpiece e (List.mem_cons_of_mem _ he)) hd

theorem isAlphanum_camelChars {name : List Char}
    (h : ∀ c ∈ name, c.isAlphanum = true ∨ c = '_') :
    ∀ c ∈ camelChars name, c.isAlphanum = true := by
  have hp := isAlphanum_pascalChars h
  intro d hd
  rw [camelChars] at hd
  split at hd
  · cases hd
  · rename_i c rest hc
    rw [hc, List.forall_mem_cons] at hp
    rcases List.mem_append.1 hd with hd | hd
    · exact isAlphanum_small hp.1 hd
    · exact hp.2 d hd

theorem pascalChars_dropWhile (name : List Char) :
    pascalChars (name.dropWhile (· = '_')) = pascalChars name := by
  induction name with
  | nil => rfl
  | cons c name ih =>
    by_cases hc : c = '_'
    · rw [List.dropWhile_cons_of_pos (by simpa using hc), ih, hc]
      exact (pascalChars_append [] name).symm
    · rw [List.dropWhile_cons_of_neg (by simpa using hc)]

theorem pascalChars_cons {c : Char} (hc : c ≠ '_') (name : List Char) :
    ∃ more, pascalChars (c :: name) = capital c ++ more := by
  rw [pascalChars, pieces, if_neg hc]
  split
  · exact ⟨[], by simp [capitalized]⟩
  · rename_i first more _
    exact ⟨first.flatMap small ++ more.flatMap capitalized, by simp [capitalized]⟩

theorem startsWithLetter_pascalChars {name : List Char} (h : IsAscii name) :
    startsWithLetter (pascalChars name) = firstIsLetter name := by
  rw [← pascalChars_dropWhile, firstIsLetter]
  cases hd : name.dropWhile (· = '_') with
  | nil => rfl
  | cons c rest =>
    have hne : c ≠ '_' := by
      have := List.head?_dropWhile_not (· = '_') name
      rw [hd] at this
      simpa using this
    have hc : c.toNat < 128 := by
      have hm : c ∈ name.dropWhile (· = '_') := hd ▸ List.mem_cons_self
      exact h c ((List.dropWhile_sublist _).subset hm)
    obtain ⟨more, hm⟩ := pascalChars_cons hne rest
    rw [hm, capital_ascii hc]
    exact isAlpha_toUpper hc

theorem startsWithLetter_camelChars {name : List Char} (h : IsAscii name) :
    startsWithLetter (camelChars name) = firstIsLetter name := by
  rw [← startsWithLetter_pascalChars h, camelChars]
  split
  · rename_i hp
    rw [hp]
  · rename_i c rest hp
    have hc := (pascalChars_start h hp).2
    rw [hp, small_ascii hc]
    exact isAlpha_toLower hc

theorem camelChars_isCamel {name : List Char} (h : ∀ c ∈ name, c.isAlphanum = true ∨ c = '_')
    (hne : camelChars name ≠ []) (hd : startsWithDigit (camelChars name) = false) :
    IsCamel (camelChars name) := by
  have hpascal := isAlphanum_pascalChars h
  cases hp : pascalChars name with
  | nil => simp [camelChars, hp] at hne
  | cons c rest =>
    rw [hp, List.forall_mem_cons] at hpascal
    have hc := ascii_of_isAlphanum hpascal.1
    have hcamel : camelChars name = c.toLower :: rest := by
      simp [camelChars, hp, small, hc]
    rw [hcamel] at hd ⊢
    exact ⟨isLower_toLower hc hpascal.1 hd, hpascal.2⟩

theorem isIdentifier_iff {name : List Char} (h : ∀ c ∈ name, c.isAlphanum = true) :
    IsIdentifier name ↔ startsWithLetter name = true := by
  cases name with
  | nil => simp [IsIdentifier, IsWord, startsWithLetter]
  | cons c rest =>
    have hword : IsWord (c :: rest) := ⟨List.cons_ne_nil _ _, fun d hd => .inl (h d hd)⟩
    have hc := h c List.mem_cons_self
    rw [IsIdentifier, and_iff_right hword]
    exact Text.ascii (p := fun c => c.isAlphanum = true → (c.isDigit = false ↔ c.isAlpha = true))
      (by decide) (ascii_of_isAlphanum hc) hc

theorem IsCamel.isIdentifier {name : List Char} (h : IsCamel name) : IsIdentifier name := by
  cases name with
  | nil => exact h.elim
  | cons c rest =>
    have hstart : c.isAlpha = true := Bool.or_eq_true_iff.2 (.inr h.1)
    have hall : ∀ d ∈ c :: rest, d.isAlphanum = true :=
      List.forall_mem_cons.2 ⟨Bool.or_eq_true_iff.2 (.inl hstart), h.2⟩
    exact (isIdentifier_iff hall).2 hstart

theorem isIdentifier_pascal {name : String} (h : IsWord name.toList) :
    IsIdentifier (pascal name).toList ↔ firstIsLetter name.toList = true := by
  rw [pascal, String.toList_ofList, isIdentifier_iff (isAlphanum_pascalChars h.2),
    startsWithLetter_pascalChars h.ascii]

theorem isIdentifier_camel {name : String} (h : IsWord name.toList) :
    IsIdentifier (camel name).toList ↔ firstIsLetter name.toList = true := by
  rw [camel, String.toList_ofList, isIdentifier_iff (isAlphanum_camelChars h.2),
    startsWithLetter_camelChars h.ascii]

theorem isWord_shortName {enum entry : List Char} (h : IsWord entry) :
    IsWord (shortName enum entry) := by
  simp only [shortName]
  split
  · rename_i hp
    rw [Bool.and_eq_true, decide_eq_true_iff] at hp
    refine ⟨fun he => ?_, fun c hc => h.2 c (List.mem_of_mem_drop hc)⟩
    exact absurd (List.drop_eq_nil_iff.1 he) (Nat.not_le.2 hp.2)
  · exact h

end Identifier

namespace Bindings
open Identifier Listing Text Results

/-- A dialect whose names are words. -/
structure Worded (d : Dialect) : Prop where
  enums : ∀ e ∈ d.enums, IsWord e.name.toList ∧ ∀ entry ∈ e.entries, IsWord entry.name.toList
  messages : ∀ m ∈ d.messages, IsWord m.name.toList ∧ ∀ f ∈ m.fields, IsWord f.name.toList

/-- The lines of a dialect that declare something, and whether their names are identifiers. -/
structure Declared (d : Dialect) (lines : List String) : Prop where
  enums : ∀ e ∈ d.enums, "export enum " ++ pascal e.name ++ " \x7b" ∈ lines ∧
    (IsIdentifier (pascal e.name).toList ↔ firstIsLetter e.name.toList = true)
  /-- A member that is no identifier is in quotes. -/
  members : ∀ e ∈ d.enums, ∀ entry ∈ e.entries,
    "  " ++ member e.name entry.name ++ " = " ++ toString entry.value.toNat ++ "," ∈ lines ∧
      if startsWithDigit (shortName e.name.toList entry.name.toList) then
        (member e.name entry.name).toList =
          '\'' :: shortName e.name.toList entry.name.toList ++ ['\'']
      else IsIdentifier (member e.name entry.name).toList
  commands : ∀ enum ∈ d.commands?, ∀ e ∈ enum.entries,
    "export class " ++ commandClass e.name ++ " extends CommandLong \x7b" ∈ lines ∧
      IsIdentifier (commandClass e.name).toList
  accessors : ∀ enum ∈ d.commands?, ∀ e ∈ enum.entries, ∀ a ∈ accessors e,
    "  get " ++ a.name ++ "() \x7b" ∈ lines ∧ "  set " ++ a.name ++ "(value: number) \x7b" ∈ lines ∧
      IsIdentifier a.name.toList
  messages : ∀ m ∈ d.messages,
    "export class " ++ pascal m.name ++ " extends MavLinkData \x7b" ∈ lines ∧
      (IsIdentifier (pascal m.name).toList ↔ firstIsLetter m.name.toList = true)
  properties : ∀ m ∈ d.messages, ∀ f ∈ m.fields,
    "  " ++ camel f.name ++ ": " ++ (propertyType d f).1 ∈ lines ∧
      (IsIdentifier (camel f.name).toList ↔ firstIsLetter f.name.toList = true)

theorem member_isIdentifier {enum entry : String} (h : IsWord entry.toList) :
    if startsWithDigit (shortName enum.toList entry.toList) then
      (member enum entry).toList = '\'' :: shortName enum.toList entry.toList ++ ['\'']
    else IsIdentifier (member enum entry).toList := by
  rw [member, String.toList_ofList]
  simp only [memberChars]
  split
  · rfl
  · rename_i hd
    exact ⟨isWord_shortName h, Bool.eq_false_iff.2 hd⟩

theorem commandClass_isIdentifier {entry : String} (h : IsWord entry.toList) :
    IsIdentifier (commandClass entry).toList := by
  have hname : ∀ c ∈ pascalChars ((memberChars commandEnum.toList entry.toList).filter
      (· != '\'')), c.isAlphanum = true := by
    rw [memberChars_unquoted]
    refine isAlphanum_pascalChars fun c hc => ?_
    exact (isWord_shortName h).2 c (List.mem_filter.1 hc).1
  have hfront : (pascal commandEnum).toList = "MavCmd".toList := by decide
  have hback : ∀ c ∈ "Command".toList, c.isAlphanum = true :=
    List.all_eq_true.1 (by decide)
  have hchars : ∀ c ∈ "MavCmd".toList, c.isAlphanum = true :=
    List.all_eq_true.1 (by decide)
  simp only [commandClass]
  split
  · rw [String.toList_append, String.toList_append, String.toList_ofList, hfront, isIdentifier_iff]
    · rfl
    · exact List.forall_mem_append.2 ⟨List.forall_mem_append.2 ⟨hchars, hname⟩, hback⟩
  · rename_i hd
    rw [String.toList_append, String.toList_ofList]
    have hall := List.forall_mem_append.2 ⟨hname, hback⟩
    refine ⟨⟨by simp, fun c hc => .inl (hall c hc)⟩, ?_⟩
    cases hp : pascalChars ((memberChars commandEnum.toList entry.toList).filter (· != '\'')) with
    | nil => rfl
    | cons c rest =>
      rw [hp] at hd
      exact Bool.eq_false_iff.2 hd

theorem accessorName_isCamel {label : String} (h : accessorName label ≠ "") :
    IsCamel (accessorName label).toList := by
  have hlabel : ∀ c ∈ label.toList.map fun c => if c.isAlphanum then c else '_',
      c.isAlphanum = true ∨ c = '_' := by
    refine List.forall_mem_map.2 fun c _ => ?_
    split
    · exact .inl ‹_›
    · exact .inr rfl
  have hchars : (accessorName label).toList ≠ [] := fun he => h (String.toList_eq_nil_iff.1 he)
  rw [accessorName, String.toList_ofList] at hchars ⊢
  split
  · have hparam : ∀ c ∈ "aram".toList, c.isAlphanum = true := List.all_eq_true.1 (by decide)
    exact ⟨by decide, List.forall_mem_append.2 ⟨hparam, isAlphanum_camelChars hlabel⟩⟩
  · rename_i hd
    rw [if_neg hd] at hchars
    exact camelChars_isCamel hlabel hchars (Bool.eq_false_iff.2 hd)

theorem accessor_isIdentifier {e : Entry} {a : Accessor} (h : a ∈ accessors e) :
    IsIdentifier a.name.toList := by
  obtain ⟨label, -, hname, hne⟩ := accessors_name h
  rw [hname] at hne ⊢
  exact (accessorName_isCamel hne).isIdentifier

theorem accessorLines_mem {d : Dialect} {moduleName line : String} {enum : Enum} {e : Entry}
    {a : Accessor} (hd : d.commands? = some enum) (he : e ∈ enum.entries) (ha : a ∈ accessors e)
    (h : line ∈ linesFrom 1 (accessorLines a)) : line ∈ (outline d moduleName).lines := by
  have hp : line ∈ (commandPart e).accessors := by
    change line ∈ linesFrom 1 ((accessors e).flatMap accessorLines)
    rw [linesFrom_flatMap accessorLines_balanced]
    exact List.mem_flatMap.2 ⟨a, ha, h⟩
  refine commandLines_mem (commandPart_mem moduleName hd he) ?_
  exact List.mem_append_left _ (List.mem_append_right _ hp)

theorem propertyLine_mem {d : Dialect} {moduleName : String} {m : Message} {f : Field}
    (hm : m ∈ d.messages) (hf : f ∈ m.fields) :
    "  " ++ camel f.name ++ ": " ++ (propertyType d f).1 ∈ (outline d moduleName).lines := by
  have hp : "  " ++ camel f.name ++ ": " ++ (propertyType d f).1 ∈ (propertyPart d f).lines :=
    List.mem_append_right _ List.mem_cons_self
  have hb : "  " ++ camel f.name ++ ": " ++ (propertyType d f).1 ∈ (messagePart d m).body := by
    rw [messagePart_body]
    exact List.mem_append_right _ (List.mem_flatMap.2 ⟨_, List.mem_map_of_mem hf, hp⟩)
  refine messageLines_mem (messagePart_mem moduleName hm) ?_
  exact List.mem_append_left _ (List.mem_append_right _ hb)

theorem outline_declared {d : Dialect} (moduleName : String) (h : Worded d) :
    Declared d (outline d moduleName).lines where
  enums e he := by
    have hline := enumLine_mem (enumPart_mem moduleName he)
    exact ⟨hline, isIdentifier_pascal (h.enums e he).1⟩
  members e he entry hm := by
    have hline := ((outline_quoted d moduleName).members e he entry hm).1
    rw [memberParts_spelled] at hline
    exact ⟨hline, member_isIdentifier ((h.enums e he).2 entry hm)⟩
  commands enum hd e he := by
    have hw := (h.enums enum (List.mem_of_find?_eq_some hd)).2 e he
    have hline := commandLine_mem (commandPart_mem moduleName hd he)
    exact ⟨hline, commandClass_isIdentifier hw⟩
  accessors enum hd e he a ha := by
    refine ⟨accessorLines_mem hd he ha ?_, accessorLines_mem hd he ha ?_, accessor_isIdentifier ha⟩
    all_goals
      rw [accessorLines_lines]
      simp [← String.append_assoc]
  messages m hm := by
    have hline := messageLine_mem (messagePart_mem moduleName hm)
    exact ⟨hline, isIdentifier_pascal (h.messages m hm).1⟩
  properties m hm f hf :=
    ⟨propertyLine_mem hm hf, isIdentifier_camel ((h.messages m hm).2 f hf)⟩

/-- Whatever source the engine accepts, if its names are words then its members, command classes and
accessors have names that can be declared, and its other declarations just when the first character
of their name that is no underscore is a letter. -/
theorem generate_declares {source moduleName : String} {g : Generated}
    (h : Engine.bindings.generate source moduleName = .ok g) :
    ∃ d, Dialect.parse source = .ok d ∧ g.lines = (outline d moduleName).lines ∧
      (Worded d → Declared d g.lines) := by
  obtain ⟨d, hd, hlines⟩ := generate_outline h
  exact ⟨d, hd, hlines, fun hw => hlines ▸ outline_declared moduleName hw⟩

theorem generate_declares_digit :
    let source := "<mavlink><enums><enum name='MAV_CMD'><entry name='MAV_CMD_3D'>" ++
      "<param index='1' label='4x'/></entry></enum></enums>" ++
      "<messages><message id='1' name='M'><field type='char' name='_a'/></message></messages>" ++
      "</mavlink>"
    let p : Param := ⟨1, some "4x", none, ""⟩
    let d : Dialect := ⟨[], none, none,
      [⟨"MAV_CMD", "", false, [⟨"MAV_CMD_3D", 0, "", [p], false, none⟩], none⟩],
      [⟨1, "M", "", [⟨"_a", ⟨.char, none⟩, none, none, "", false⟩], false, none⟩]⟩
    Dialect.parse source = .ok d ∧ Worded d ∧
      ∃ g, Engine.bindings.generate source "m" = .ok g ∧ Declared d g.lines := by
  intro source p d
  have hd : Dialect.parse source = .ok d := by decide +kernel
  have hw : Worded d := ⟨by decide, by decide⟩
  obtain ⟨g, hg⟩ := Engine.bindings_of_parse hd "m"
  obtain ⟨d', hd', -, hdeclared⟩ := generate_declares hg
  cases hd.symm.trans hd'
  exact ⟨hd, hw, g, hg, hdeclared hw⟩

/-- A source that the engine accepts, with words that leave no names. -/
theorem generate_declares_no_names :
    let source := "<mavlink><enums><enum name='1E'/></enums><messages><message id='1' name='_'>" ++
      "<field type='char' name='3f'/></message></messages></mavlink>"
    ∃ g d, Engine.bindings.generate source "m" = .ok g ∧ Dialect.parse source = .ok d ∧ Worded d ∧
      "export enum 1e \x7b" ∈ g.lines ∧ "export class  extends MavLinkData \x7b" ∈ g.lines ∧
      "  3f: number" ∈ g.lines ∧ ∀ name ∈ ["1e", "", "3f"], ¬ IsIdentifier name.toList := by
  intro source
  let d : Dialect := ⟨[], none, none, [⟨"1E", "", false, [], none⟩],
    [⟨1, "_", "", [⟨"3f", ⟨.char, none⟩, none, none, "", false⟩], false, none⟩]⟩
  have hd : Dialect.parse source = .ok d := by decide +kernel
  have hw : Worded d := ⟨by decide, by decide⟩
  obtain ⟨g, hg, hlines⟩ := outline_of_parse hd "m"
  have hdeclared : Declared d g.lines := hlines ▸ outline_declared "m" hw
  have henum := (hdeclared.enums _ List.mem_cons_self).1
  have hmessage := (hdeclared.messages _ List.mem_cons_self).1
  have hproperty := (hdeclared.properties _ List.mem_cons_self _ List.mem_cons_self).1
  exact ⟨g, d, hg, hd, hw, henum, hmessage, hproperty, by decide⟩

end Bindings

end DialectBindings
