import DialectBindings.Engine.Plain
import DialectBindings.Proofs.Reaching

/-!
# Templates beside a definition file

The template of a definition file is looked for in the file's own directory, under a name made of
the file's stem as text. What is found there decides about a run: with nothing there the code stands
alone, and the text of a file there comes first. A stem that is no text has its template looked for
under another name, and a name or a path that is too long to be anywhere fails the run.
-/

set_option autoImplicit false

namespace DialectBindings
open Text Results

namespace Path

/-! ## The steps of a path that ends in a name -/

/-- Octets that are one step of a path, to a place of that name. -/
structure IsName (name : Octets) : Prop where
  no_slash : slash ∉ name
  not_empty : name ≠ []
  not_here : name ≠ [dot]
  not_up : name ≠ [dot, dot]

theorem steps_name {name : Octets} (h : IsName name) : (⟨name⟩ : Path).steps = [.name name] := by
  rw [steps, pieces_of_not_mem h.no_slash]
  simp [h.not_empty, h.not_here, h.not_up]

theorem trimmed_counts (back : Octets) : trimmed back = [] ∨
    (trimmed back).takeWhile (· != slash) ≠ [] ∧ (trimmed back).takeWhile (· != slash) ≠ [dot] := by
  fun_induction trimmed back with
  | case1 back hb hd => exact .inl rfl
  | case2 back hb c rest hd ih => exact ih
  | case3 back hb => exact .inr (not_or.1 hb)

theorem trimmed_suffix (back : Octets) : trimmed back <:+ back := by
  obtain h | h | ⟨front, h⟩ := trimmed_cut back
  · rw [h]
    exact List.nil_suffix
  · exact ⟨[], h⟩
  · exact ⟨front ++ [slash], by simpa using h.symm⟩

theorem steps_start {s front : Octets} (h : front <+: (cutStart s).2) :
    (⟨(cutStart s).1 ++ front⟩ : Path).steps =
      (⟨(cutStart s).1⟩ : Path).steps ++ (⟨front⟩ : Path).steps := by
  have hslash (front : Octets) : (⟨slash :: front⟩ : Path).steps = (⟨front⟩ : Path).steps :=
    steps_append [] front
  unfold cutStart at h ⊢
  split at h
  · obtain rfl := List.prefix_nil.1 h
    rfl
  · rcases List.prefix_cons_iff.1 h with rfl | ⟨front, rfl, -⟩
    · rfl
    · exact (steps_append [dot] front).trans (congrArg _ (hslash front).symm)
  · exact hslash front
  · rfl

theorem last?_trimmed {p : Path} {name before parent : Octets}
    (h : p.last? = some (.name name, before, parent)) :
    ∃ back, trimmed (cutStart p.octets).2.reverse = back ∧
      name = (back.takeWhile (· != slash)).reverse ∧ IsName name ∧
      parent = (cutStart p.octets).1 ++ (trimmed (back.dropWhile (· != slash)).tail).reverse := by
  simp only [last?] at h
  split at h
  · split at h <;> cases h
  rename_i hne
  simp only [Option.some.injEq, Prod.mk.injEq] at h
  obtain ⟨hc, -, rfl⟩ := h
  split at hc
  · cases hc
  rename_i hup
  obtain rfl := Component.name.inj hc
  obtain ⟨hempty, hhere⟩ := (trimmed_counts (cutStart p.octets).2.reverse).resolve_left hne
  exact ⟨_, rfl, rfl, {
    no_slash := by simpa using not_mem_takeWhile_slash (trimmed (cutStart p.octets).2.reverse)
    not_empty := by simpa using hempty
    not_here := fun he => hhere (List.reverse_eq_iff.1 he)
    not_up := hup }, rfl⟩

theorem steps_reverse {back : Octets} (h : IsName (back.takeWhile (· != slash)).reverse) :
    (⟨back.reverse⟩ : Path).steps =
      (⟨(back.dropWhile (· != slash)).tail.reverse⟩ : Path).steps ++
        [.name (back.takeWhile (· != slash)).reverse] := by
  rw [reverse_cut]
  obtain hd | ⟨tail, hd⟩ := dropWhile_slash back
  · rw [hd]
    exact steps_name h
  · rw [hd, List.reverse_cons, List.append_assoc, List.singleton_append, steps_append,
      steps_name h, List.tail_cons]

theorem last?_steps {p : Path} {name before parent : Octets}
    (h : p.last? = some (.name name, before, parent)) :
    parent <+: p.octets ∧ ∃ inner outer,
      (∀ step ∈ inner, step = .here) ∧ (∀ step ∈ outer, step = .here) ∧
      p.steps = (⟨parent⟩ : Path).steps ++ inner ++ .name name :: outer := by
  obtain ⟨back, hback, rfl, hname, rfl⟩ := last?_trimmed h
  obtain ⟨outer, houter, hbody⟩ := steps_trimmed (cutStart p.octets).2.reverse
  obtain ⟨inner, hinner, hfront⟩ := steps_trimmed (back.dropWhile (· != slash)).tail
  have htail : (trimmed (back.dropWhile (· != slash)).tail).reverse <+: (cutStart p.octets).2 := by
    refine List.reverse_suffix.1 ?_
    rw [List.reverse_reverse]
    exact (trimmed_suffix _).trans ((List.tail_suffix _).trans
      ((List.dropWhile_suffix _).trans (hback ▸ trimmed_suffix _)))
  have ho := cutStart_append p.octets
  refine ⟨?_, inner, outer, hinner, houter, ?_⟩
  · conv => rhs; rw [← ho]
    exact (List.prefix_append_right_inj _).2 htail
  · have hp := steps_start (List.prefix_refl (cutStart p.octets).2)
    rw [ho] at hp
    rw [List.reverse_reverse, hback, steps_reverse hname, hfront] at hbody
    rw [hp, steps_start htail, hbody]
    simp only [List.append_assoc, List.cons_append, List.nil_append]

/-! ## A name in a directory -/

section Join
variable (parent : Octets) {name : Octets}

theorem join_cases (hn : slash ∉ name) :
    parent = [] ∧ (⟨parent⟩ : Path).join name = ⟨name⟩ ∨
      (∃ a, parent = a ++ [slash] ∧ (⟨parent⟩ : Path).join name = ⟨a ++ slash :: name⟩) ∨
      parent ≠ [] ∧ (⟨parent⟩ : Path).join name = ⟨parent ++ slash :: name⟩ := by
  rw [join_name hn]
  split
  · rename_i he
    exact .inl ⟨he, rfl⟩
  rename_i he
  split
  · rename_i hl
    obtain ⟨a, rfl⟩ := List.getLast?_eq_some_iff.1 hl
    exact .inr (.inl ⟨a, rfl, by simp⟩)
  · exact .inr (.inr ⟨he, rfl⟩)

theorem join_steps (hn : IsName name) :
    ((⟨parent⟩ : Path).join name).steps = (⟨parent⟩ : Path).steps ++ [.name name] := by
  rcases join_cases parent hn.no_slash with ⟨rfl, hj⟩ | ⟨a, rfl, hj⟩ | ⟨-, hj⟩
  · rw [hj, steps_name hn]
    rfl
  · rw [hj, steps_append, steps_append, steps_name hn]
    exact congrArg (· ++ _) (List.append_nil _).symm
  · rw [hj, steps_append, steps_name hn]

theorem join_isAbsolute (hn : slash ∉ name) :
    ((⟨parent⟩ : Path).join name).isAbsolute = (⟨parent⟩ : Path).isAbsolute := by
  rcases join_cases parent hn with ⟨rfl, hj⟩ | ⟨a, rfl, hj⟩ | ⟨hp, hj⟩
  · rw [hj]
    refine Bool.eq_false_iff.2 fun ha => ?_
    obtain ⟨rest, hr⟩ := isAbsolute_iff.1 ha
    obtain rfl : name = slash :: rest := hr
    exact hn List.mem_cons_self
  · rw [hj]
    cases a <;> rfl
  · rw [hj]
    obtain ⟨c, rest, rfl⟩ := List.exists_cons_of_ne_nil hp
    rfl

theorem join_hasFinalSlash (hn : IsName name) :
    ((⟨parent⟩ : Path).join name).hasFinalSlash = false := by
  obtain ⟨front, hj⟩ : ∃ front, ((⟨parent⟩ : Path).join name).octets = front ++ name := by
    rcases join_cases parent hn.no_slash with ⟨-, hj⟩ | ⟨a, -, hj⟩ | ⟨-, hj⟩
    · exact ⟨[], by rw [hj]; rfl⟩
    · exact ⟨a ++ [slash], by rw [hj]; simp⟩
    · exact ⟨parent ++ [slash], by rw [hj]; simp⟩
  refine Bool.eq_false_iff.2 fun hs => hn.no_slash ?_
  rw [hasFinalSlash, hj, List.getLast?_append_of_ne_nil _ hn.not_empty] at hs
  exact List.mem_of_getLast? (beq_iff_eq.1 hs)

theorem mem_join (hn : slash ∉ name) {octet : UInt8}
    (h : octet ∈ ((⟨parent⟩ : Path).join name).octets) :
    octet ∈ parent ∨ octet = slash ∨ octet ∈ name := by
  rcases join_cases parent hn with ⟨rfl, hj⟩ | ⟨a, rfl, hj⟩ | ⟨-, hj⟩ <;> rw [hj] at h <;>
    simp at h ⊢ <;> tauto

theorem join_ne_nil (hn : IsName name) : ((⟨parent⟩ : Path).join name).octets ≠ [] := by
  rcases join_cases parent hn.no_slash with ⟨-, hj⟩ | ⟨a, -, hj⟩ | ⟨-, hj⟩ <;> rw [hj]
  · exact hn.not_empty
  · simp
  · simp

end Join

theorem last?_isAbsolute {p : Path} {name before parent : Octets}
    (h : p.last? = some (.name name, before, parent)) :
    (⟨parent⟩ : Path).isAbsolute = p.isAbsolute := by
  rw [Bool.eq_iff_iff]
  constructor
  · intro ha
    obtain ⟨rest, rfl⟩ := isAbsolute_iff.1 ha
    obtain ⟨more, hp⟩ := (last?_steps h).1
    exact isAbsolute_iff.2 ⟨rest ++ more, hp.symm⟩
  · intro ha
    exact isAbsolute_iff.2 (last?_absolute h nofun ha)

end Path

namespace FileTree

/-- Whether a path with a name at its end is short enough to lead anywhere. -/
def Fits (p : Path) (name : Octets) : Prop := p.octets.length < pathLimit ∧ name.length ≤ nameLimit

instance (p : Path) (name : Octets) : Decidable (Fits p name) :=
  inferInstanceAs (Decidable (_ ∧ _))

theorem locate_of_read {t : FileTree} {p : Path} {content name before parent : Octets}
    (hr : t.read p = .ok content) (hl : p.last? = some (.name name, before, parent)) :
    ∃ dir, t.locate p = .ok (name :: dir) ∧ t.get? dir = some .directory ∧
      t.follow (t.start ⟨parent⟩) (⟨parent⟩ : Path).steps = .ok dir := by
  obtain ⟨l, hloc, -, -⟩ := read_ok hr
  obtain ⟨-, hf⟩ := locate_ok.1 hloc
  obtain ⟨-, inner, outer, hinner, houter, hsteps⟩ := Path.last?_steps hl
  rw [hsteps, List.append_assoc, follow_append, start, ← Path.last?_isAbsolute hl, ← start] at hf
  obtain ⟨dir, hdir, hin⟩ := bind_eq_ok.1 hf
  rw [follow_append] at hin
  obtain ⟨_, hinside, hout⟩ := bind_eq_ok.1 hin
  obtain rfl := follow_here hinner hinside
  rw [follow_cons] at hout
  obtain ⟨_, hname, hlast⟩ := bind_eq_ok.1 hout
  obtain ⟨hd, -, rfl⟩ := follow_name.1 hname
  obtain rfl := follow_here houter hlast
  exact ⟨_, hloc, hd, hdir⟩

theorem locate_join {t : FileTree} {parent name : Octets} {dir : Location} (hn : Path.IsName name)
    (hf : t.follow (t.start ⟨parent⟩) (⟨parent⟩ : Path).steps = .ok dir)
    (hd : t.get? dir = some .directory) (hp : (0 : UInt8) ∉ parent) (h0 : (0 : UInt8) ∉ name) :
    t.locate ((⟨parent⟩ : Path).join name) =
      if Fits ((⟨parent⟩ : Path).join name) name then .ok (name :: dir)
      else .error .nameTooLong := by
  have hstart : t.start ((⟨parent⟩ : Path).join name) = t.start ⟨parent⟩ := by
    rw [start, Path.join_isAbsolute parent hn.no_slash, ← start]
  have hzero : (0 : UInt8) ∉ ((⟨parent⟩ : Path).join name).octets := by
    intro hm
    rcases Path.mem_join parent hn.no_slash hm with h | h | h
    · exact hp h
    · cases h
    · exact h0 h
  have hstep : t.follow dir [.name name] =
      if nameLimit < name.length then .error .nameTooLong else .ok (name :: dir) := by
    simp [follow, hd]
  have hcheck : check ((⟨parent⟩ : Path).join name) =
      if pathLimit ≤ ((⟨parent⟩ : Path).join name).octets.length then .error .nameTooLong
      else .ok () := by
    rw [check, if_neg (by simpa using hzero), if_neg (Path.join_ne_nil parent hn)]
  rw [locate, hcheck, Path.join_steps parent hn, follow_append, hstart, hf, ok_bind, hstep]
  by_cases hlong : pathLimit ≤ ((⟨parent⟩ : Path).join name).octets.length
  · rw [if_pos hlong, error_bind, if_neg fun h => Nat.not_lt.2 hlong h.1]
  · rw [if_neg hlong, ok_bind]
    by_cases hname : nameLimit < name.length
    · rw [if_pos hname, if_neg fun h => Nat.not_lt.2 h.2 hname]
    · rw [if_neg hname, if_pos ⟨Nat.not_le.1 hlong, Nat.not_lt.1 hname⟩]

/-- What is found at the place of a template: nothing, or a file with a text. -/
inductive TemplateAt (t : FileTree) (place : Location) : Option String → Prop
  | absent (h : t.get? place = none) : TemplateAt t place none
  | present {content : Octets} {text : String} (h : t.get? place = some (.file content))
      (hd : decode content = .ok text) : TemplateAt t place (some text)

theorem read_located {t : FileTree} {p : Path} {place : Location} (hl : t.locate p = .ok place)
    (hs : p.hasFinalSlash = false) :
    t.read p = match t.get? place with
      | none => .error .missing
      | some .directory => .error .isDirectory
      | some (.file content) => .ok content := by
  rw [read, hl, ok_bind, hs]
  rfl

theorem template_iff {t : FileTree} {p : Path} {place : Location} {template : Option String}
    (hl : t.locate p = .ok place) (hs : p.hasFinalSlash = false) :
    t.template p = .ok template ↔ TemplateAt t place template := by
  rw [FileTree.template, read_located hl hs]
  constructor
  · intro h
    cases hg : t.get? place with
    | none =>
      rw [hg] at h
      cases h
      exact .absent hg
    | some node =>
      cases node with
      | directory =>
        rw [hg] at h
        cases h
      | file content =>
        rw [hg] at h
        obtain ⟨text, hd, rfl⟩ := map_eq_ok.1 h
        exact .present hg (mapError_eq_ok.1 hd)
  · rintro (h | ⟨h, hd⟩)
    · rw [h]
    · simp only [h, hd]
      rfl

theorem template_long {t : FileTree} {p : Path} (hl : t.locate p = .error .nameTooLong) :
    t.template p = .error .nameTooLong := by
  have hr : t.read p = .error .nameTooLong := by
    rw [read, hl]
    rfl
  rw [FileTree.template, hr]

end FileTree

namespace Invocation
open FileTree

def templateName (name : Octets) : Octets :=
  octets (lenient (Path.splitName name).1) ++ octets ".imports.ts"

theorem templatePath_eq {file : Path} {name before parent : Octets}
    (h : file.last? = some (.name name, before, parent)) :
    Layout.standard.templatePath file = (⟨parent⟩ : Path).join (templateName name) := by
  have hname : file.fileName? = some name := Path.fileName?_eq_some.2 ⟨before, parent, h⟩
  have hparent : file.parent? = some ⟨parent⟩ := by rw [Path.parent?, h]
  have hmodule : file.moduleName = lenient (Path.splitName name).1 := by
    rw [Path.moduleName, Path.stem?, hname]
    rfl
  rw [Layout.templatePath, Path.withFileName, hname, hparent, hmodule, templateName, octets_append,
    octets_append, octets_append, octets_append]
  simp only [List.append_assoc]
  rfl

theorem not_mem_templateName {c : Char} (hc : c.toNat < 128) {name : Octets}
    (h : UInt8.ofNat c.toNat ∉ name) (hend : UInt8.ofNat c.toNat ∉ octets ".imports.ts") :
    UInt8.ofNat c.toNat ∉ templateName name := by
  obtain ⟨rest, hr⟩ := Path.splitName_stem name
  rw [hr, List.mem_append, not_or] at h
  rw [templateName, List.mem_append, not_or]
  exact ⟨not_mem_lenient hc h.1, hend⟩

theorem templateName_isName {name : Octets} (h : Path.IsName name) :
    Path.IsName (templateName name) := by
  have hlength : 10 < (templateName name).length := by
    rw [templateName, List.length_append]
    exact Nat.lt_add_left _ (by decide)
  have hne (other : Octets) (ho : other.length ≤ 10) : templateName name ≠ other :=
    fun he => Nat.not_le.2 hlength (he ▸ ho)
  exact {
    no_slash := not_mem_templateName (c := '/') (by decide) h.no_slash (by decide)
    not_empty := hne _ (by decide)
    not_here := hne _ (by decide)
    not_up := hne _ (by decide) }

theorem templateName_text {name : Octets} {text : String}
    (h : decode (Path.splitName name).1 = .ok text) :
    templateName name = (Path.splitName name).1 ++ octets ".imports.ts" := by
  rw [templateName, lenient_decode h, octets_decode h]

/-- Where the template of a definition file that can be read is looked for. -/
theorem locate_templatePath {t : FileTree} {file : Path} {content name : Octets}
    (hr : t.read file = .ok content) (hname : file.fileName? = some name) :
    (Layout.standard.templatePath file).hasFinalSlash = false ∧
      ∃ dir, t.locate file = .ok (name :: dir) ∧
        t.locate (Layout.standard.templatePath file) =
          if Fits (Layout.standard.templatePath file) (templateName name)
          then .ok (templateName name :: dir) else .error .nameTooLong := by
  obtain ⟨before, parent, hl⟩ := Path.fileName?_eq_some.1 hname
  obtain ⟨dir, hloc, hd, hf⟩ := locate_of_read hr hl
  obtain ⟨-, -, -, hn, -⟩ := Path.last?_trimmed hl
  have hzero : (0 : UInt8) ∉ file.octets := (check_ok.1 (locate_ok.1 hloc).1).1
  obtain ⟨rest, hrest⟩ := (Path.last?_name hl).2
  have hname0 : (0 : UInt8) ∉ name := fun h => hzero (by rw [hrest]; simp [h])
  have hparent0 : (0 : UInt8) ∉ parent := fun h => hzero ((Path.last?_steps hl).1.subset h)
  have hn' := templateName_isName hn
  rw [templatePath_eq hl]
  refine ⟨Path.join_hasFinalSlash parent hn', dir, hloc, ?_⟩
  exact locate_join hn' hf hd hparent0
    (not_mem_templateName (c := Char.ofNat 0) (by decide) hname0 (by decide))

theorem run_long (engine : Engine) {w : World} {file : Path} {name : Octets} {source : String}
    (hname : file.fileName? = some name) (hsource : w.tree.source file = .ok source)
    (hlong : ¬ Fits (Layout.standard.templatePath file) (templateName name)) :
    (w.perform (run engine .standard file)).1 =
      .error (.read (Layout.standard.templatePath file) .nameTooLong) := by
  obtain ⟨content, hr, -⟩ := bind_eq_ok.1 hsource
  obtain ⟨-, dir, -, htemplate⟩ := locate_templatePath hr hname
  rw [if_neg hlong] at htemplate
  obtain ⟨told, hrun⟩ := perform_run engine .standard w.tree file
  rw [hrun w.output w.display w.log]
  simp only [answer, hsource, template_long htemplate, ok_mapError, ok_bind, error_mapError,
    error_bind]

/-- A run on a definition file that can be read puts in front of the engine's lines what it finds in
the file's directory under the name of the template, and it succeeds when the engine accepts the
source and nothing, or a text, is found there. It needs a name and a path of the template that are
not too long. The name is the file's stem with its ending if the stem is text. -/
theorem run_template (engine : Engine) {w : World} {file : Path} {name : Octets} {source : String}
    (hname : file.fileName? = some name) (hsource : w.tree.source file = .ok source) :
    ∃ dir, w.tree.locate file = .ok (name :: dir) ∧
      (Fits (Layout.standard.templatePath file) (templateName name) → ∀ i,
        (w.perform (run engine .standard file)).1 = .ok i ↔ ∃ template generated,
          TemplateAt w.tree (templateName name :: dir) template ∧
          engine.generate source file.moduleName = .ok generated ∧
          i = ⟨file.moduleName, template.toList ++ generated.lines, generated.descriptors⟩) ∧
      (¬ Fits (Layout.standard.templatePath file) (templateName name) →
        (w.perform (run engine .standard file)).1 =
          .error (.read (Layout.standard.templatePath file) .nameTooLong)) ∧
      ∀ text, decode (Path.splitName name).1 = .ok text →
        templateName name = (Path.splitName name).1 ++ octets ".imports.ts" := by
  obtain ⟨content, hr, -⟩ := bind_eq_ok.1 hsource
  obtain ⟨hs, dir, hloc, htemplate⟩ := locate_templatePath hr hname
  refine ⟨dir, hloc, fun hfits i => ?_, run_long engine hname hsource,
    fun text => templateName_text⟩
  obtain ⟨told, hrun⟩ := perform_run engine .standard w.tree file
  rw [hrun w.output w.display w.log]
  rw [if_pos hfits] at htemplate
  constructor
  · intro h
    obtain ⟨source', template, generated, hs', ht, hg, rfl⟩ := answer_ok h
    cases hsource.symm.trans hs'
    exact ⟨template, generated, (template_iff htemplate hs).1 ht, hg, rfl⟩
  · rintro ⟨template, generated, ht, hg, rfl⟩
    simp only [answer, hsource, (template_iff htemplate hs).2 ht, hg, ok_mapError, ok_bind]
    rfl

theorem run_template_below :
    let w := World.start ⟨[([octets "d"], .directory),
      ([octets "a.xml", octets "d"], .file (octets "1:A:2\n")),
      ([octets "a.imports.ts", octets "d"], .file (octets "// own\n"))], []⟩ none none
    let file := Path.ofString "d/./a.xml"
    file.fileName? = some (octets "a.xml") ∧ w.tree.source file = .ok "1:A:2\n" ∧
      ∃ i, (w.perform (run .echo .standard file)).1 = .ok i ∧
        i.lines = ["// own\n", "// a", "1:A:2"] := by
  intro w file
  have hname : file.fileName? = some (octets "a.xml") := by decide +kernel
  have hsource : w.tree.source file = .ok "1:A:2\n" := by decide +kernel
  obtain ⟨dir, hloc, hok, -, -⟩ := run_template .echo hname hsource
  have hdir : w.tree.locate file = .ok [octets "a.xml", octets "d"] := by decide +kernel
  obtain rfl : dir = [octets "d"] := by
    rw [hdir] at hloc
    exact (List.cons.inj (Except.ok.inj hloc)).2.symm
  have hengine : (Engine.echo.generate "1:A:2\n" file.moduleName).map (·.lines) =
      .ok ["// a", "1:A:2"] := by decide +kernel
  obtain ⟨generated, hg, hlines⟩ := map_eq_ok.1 hengine
  have htemplate : w.tree.get? [templateName (octets "a.xml"), octets "d"] =
      some (.file (octets "// own\n")) := by decide +kernel
  have hfound : TemplateAt w.tree [templateName (octets "a.xml"), octets "d"] (some "// own\n") :=
    .present htemplate (by decide +kernel)
  exact ⟨hname, hsource, _, (hok (by decide +kernel) _).2 ⟨_, generated, hfound, hg, rfl⟩,
    congrArg ("// own\n" :: ·) hlines⟩

/-- A file under the name of the template is passed over if the stem is no text, and a definition
file with a long name fails for a template that cannot be there. -/
theorem run_misses_template :
    (let stem : Octets := [0xFF]
      let w := World.start ⟨[([stem ++ octets ".xml"], .file (octets "1:A:2\n")),
        ([stem ++ octets ".imports.ts"], .file (octets "// own\n"))], []⟩ none none
      let file : Path := ⟨stem ++ octets ".xml"⟩
      file.stem? = some stem ∧ w.tree.source file = .ok "1:A:2\n" ∧
        w.tree.read ⟨stem ++ octets ".imports.ts"⟩ = .ok (octets "// own\n") ∧
        (w.perform (run .echo .standard file)).1.map (·.lines) = .ok ["// \uFFFD", "1:A:2"]) ∧
    (let stem : Octets := List.replicate 248 97
      let w := World.start ⟨[([stem ++ octets ".xml"], .file (octets "1:A:2\n"))], []⟩ none none
      let file : Path := ⟨stem ++ octets ".xml"⟩
      file.stem? = some stem ∧ w.tree.source file = .ok "1:A:2\n" ∧
        w.tree.get? [stem ++ octets ".imports.ts"] = none ∧
        (Engine.echo.generate "1:A:2\n" file.moduleName).isOk = true ∧
        (w.perform (run .echo .standard file)).1 =
          .error (.read ⟨stem ++ octets ".imports.ts"⟩ .nameTooLong)) := by
  refine ⟨by decide +kernel, ?_⟩
  intro stem w file
  have hlast : file.last? = some (.name (stem ++ octets ".xml"), [], []) := by decide +kernel
  have hname : file.fileName? = some (stem ++ octets ".xml") :=
    Path.fileName?_eq_some.2 ⟨[], [], hlast⟩
  have hsource : w.tree.source file = .ok "1:A:2\n" := by decide +kernel
  have hsplit : (Path.splitName (stem ++ octets ".xml")).1 = stem := by decide +kernel
  -- The stem is all letters, so it need not be read to name the template.
  have hascii : ∀ octet ∈ stem, octet.toNat < 128 := fun octet ho => by
    rw [List.eq_of_mem_replicate ho]
    decide
  have htemplate : templateName (stem ++ octets ".xml") = stem ++ octets ".imports.ts" := by
    rw [templateName, hsplit, octets_lenient_ascii hascii]
  have hpath : Layout.standard.templatePath file = ⟨stem ++ octets ".imports.ts"⟩ := by
    rw [templatePath_eq hlast, htemplate]
    decide +kernel
  refine ⟨by decide +kernel, hsource, by decide +kernel, rfl, ?_⟩
  rw [← hpath]
  refine run_long .echo hname hsource ?_
  rw [hpath, htemplate]
  decide +kernel

end Invocation
end DialectBindings
