import DialectBindings.Proofs.Batches
import DialectBindings.Proofs.Octets

/-!
# Paths beside a file

The template of a definition file and the registry of a batch that starts with it lie beside it:
another name after one of the slashes of its path. That takes that the names a layout gives have no
slashes, also once what is no text in them is replaced.
-/

set_option autoImplicit false

namespace DialectBindings
open Text

namespace Path

/-- A path with a name of its own after one of the slashes of another path, or, where that is not
from the root, with nothing but a name. -/
inductive Beside (p : Path) : Path → Prop
  | bare {name : Octets} (hn : slash ∉ name) (hp : p.isAbsolute = false) : Beside p ⟨name⟩
  | below {front name rest : Octets} (hn : slash ∉ name)
      (hp : p.octets = front ++ slash :: rest) : Beside p ⟨front ++ slash :: name⟩

theorem isAbsolute_iff {p : Path} : p.isAbsolute = true ↔ ∃ rest, p.octets = slash :: rest := by
  simp [isAbsolute, List.head?_eq_some_iff]

theorem cutStart_absolute {p : Path} (h : p.isAbsolute = true) :
    (cutStart p.octets).1 = [slash] := by
  obtain ⟨rest, h⟩ := isAbsolute_iff.1 h
  rw [h]
  rfl

theorem last?_absolute {p : Path} {c : Component} {before parent : Octets}
    (h : p.last? = some (c, before, parent)) (hc : c ≠ .root) (ha : p.isAbsolute = true) :
    ∃ rest, parent = slash :: rest := by
  simp only [last?, cutStart_absolute ha] at h
  split at h
  · cases h
    exact absurd rfl hc
  · cases h
    exact ⟨_, rfl⟩

theorem parent?_eq_some {p q : Path} (h : p.parent? = some q) :
    ∃ c before, p.last? = some (c, before, q.octets) ∧ c ≠ .root := by
  unfold parent? at h
  split at h
  · cases h
  · cases h
  · rename_i c before parent hc hl
    cases h
    exact ⟨c, before, hl, hc⟩

theorem fileName?_eq_some {p : Path} {name : Octets} :
    p.fileName? = some name ↔ ∃ before parent, p.last? = some (.name name, before, parent) := by
  unfold fileName?
  split
  · rename_i last found hl
    rw [hl]
    constructor
    · rintro ⟨⟩
      exact ⟨found.1, found.2, rfl⟩
    · rintro ⟨before, parent, h⟩
      cases h
      rfl
  · rename_i hl
    simp only [reduceCtorEq, false_iff]
    rintro ⟨before, parent, h⟩
    exact hl _ _ h

theorem withExtension_nameless {p : Path} (extension : Octets) (h : p.fileName? = none) :
    p.withExtension extension = p := by
  have hold : (p.extension?.map List.length).getD 0 = 0 := by simp [extension?, h]
  rw [withExtension, hold, Nat.sub_zero, List.take_length, setExtension]
  split
  · rename_i hl
    simp [fileName?, hl] at h
  · rfl

theorem trimmed_ne_slash {back rest : Octets} : trimmed back ≠ slash :: rest := by
  fun_induction trimmed back with
  | case1 back hb hd => simp
  | case2 back hb c tail hd ih => exact ih
  | case3 back hb =>
    rintro rfl
    exact hb (.inl (by simp))

theorem parent?_root {p : Path} (h : p.parent? = some ⟨[slash]⟩) :
    ∃ rest, p.octets = slash :: rest := by
  obtain ⟨c, before, h, -⟩ := parent?_eq_some h
  obtain ⟨hn, -⟩ | ⟨back, junk, -, -, -, hp, -⟩ := last?_cut h
  · cases hn
  obtain hs | hs | hs | ⟨rest, hs⟩ := cutStart_start p.octets
  · rw [hs, List.nil_append] at hp
    exact absurd (List.reverse_eq_iff.1 hp.symm) trimmed_ne_slash
  · rw [← cutStart_append p.octets, hs]
    exact ⟨_, rfl⟩
  · rw [hs] at hp
    exact absurd (List.cons.inj hp).1 (by decide)
  · have ho := cutStart_append p.octets
    cases hc : (cutStart p.octets).1 with
    | nil => exact ⟨rest, by rw [← ho, hc, hs]; rfl⟩
    | cons c start =>
      rw [hc] at hp
      obtain ⟨rfl, -⟩ := List.cons.inj hp
      exact ⟨_, by rw [← ho, hc]; rfl⟩

theorem parent?_bare {p : Path} (h : p.parent? = some ⟨[]⟩) : p.isAbsolute = false := by
  refine Bool.eq_false_iff.2 fun ha => ?_
  obtain ⟨c, before, h, hc⟩ := parent?_eq_some h
  obtain ⟨rest, hr⟩ := last?_absolute h hc ha
  cases hr

theorem join_name {parent name : Octets} (hn : slash ∉ name) :
    (⟨parent⟩ : Path).join name =
      if parent = [] then ⟨name⟩
      else if parent.getLast? = some slash then ⟨parent ++ name⟩ else ⟨parent ++ slash :: name⟩ := by
  unfold join
  split
  · exact absurd List.mem_cons_self hn
  · dsimp only
    split
    · rename_i hl
      rw [if_pos (List.getLast?_eq_none_iff.1 hl)]
    · rename_i hl
      have hl : parent.getLast? = some slash := hl
      rw [if_neg (by rintro rfl; cases hl), if_pos hl]
    · rename_i c hc hl
      rw [if_neg (by rintro rfl; cases hl), if_neg (by rw [hl]; rintro ⟨⟩; exact hc rfl)]

theorem join_beside {p parent : Path} {name : Octets} (h : p.parent? = some parent)
    (hn : slash ∉ name) : Beside p (parent.join name) := by
  obtain ⟨parent⟩ := parent
  rw [join_name hn]
  split
  · rename_i he
    subst he
    exact .bare hn (parent?_bare h)
  rename_i hne
  split
  · rename_i hl
    obtain ⟨front, rfl⟩ := List.getLast?_eq_some_iff.1 hl
    -- The directory is the root, or the path goes on after it.
    have hp : ∃ rest, p.octets = front ++ slash :: rest := by
      obtain hp | hp | ⟨rest, hp⟩ := parent?_cut h
      · exact absurd hp hne
      · obtain rfl : front = [] := by simpa using congrArg List.length hp
        exact parent?_root h
      · exact ⟨slash :: rest, by simpa using hp⟩
    obtain ⟨rest, hp⟩ := hp
    rw [List.append_assoc]
    exact .below hn hp
  · rename_i hl
    obtain hp | rfl | ⟨rest, hp⟩ := parent?_cut h
    · exact absurd hp hne
    · exact absurd rfl hl
    · exact .below hn hp

theorem parent?_isSome {p : Path} (h : p.fileName?.isSome = true) :
    ∃ parent, p.parent? = some parent := by
  obtain ⟨name, h⟩ := Option.isSome_iff_exists.1 h
  obtain ⟨before, parent, h⟩ := fileName?_eq_some.1 h
  exact ⟨⟨parent⟩, by rw [parent?, h]⟩

end Path

namespace Layout
open DialectBindings.Path (slash Beside)

/-- What the layout puts into names has no slashes. -/
def IsPlain (l : Layout) : Prop :=
  l.hasPlainExtension = true ∧ slash ∉ octets l.templateMarker ∧ slash ∉ octets l.registryName

instance (l : Layout) : Decidable l.IsPlain := inferInstanceAs (Decidable (_ ∧ _))

theorem IsPlain.extension {layout : Layout} (h : layout.IsPlain) :
    slash ∉ Text.octets layout.extension := by
  simpa [hasPlainExtension] using h.1

theorem artifactPath?_nameless {layout : Layout} {file : Path}
    (hl : layout.hasPlainExtension = true) (h : file.fileName? = none) :
    layout.artifactPath? file = some file := by
  rw [artifactPath?, if_pos hl, Path.withExtension_nameless _ h]

theorem not_mem_moduleName {c : Char} (hc : c.toNat < 128) {file : Path}
    (h : ∀ name, file.fileName? = some name → UInt8.ofNat c.toNat ∉ name) :
    UInt8.ofNat c.toNat ∉ octets file.moduleName := by
  apply not_mem_lenient hc
  cases hf : file.fileName? with
  | none => simp [Path.stem?, hf]
  | some name =>
    obtain ⟨rest, hr⟩ := Path.splitName_stem name
    have hn := h name hf
    rw [hr, List.mem_append, not_or] at hn
    simpa [Path.stem?, hf] using hn.1

theorem slash_not_mem_moduleName (file : Path) : slash ∉ octets file.moduleName := by
  refine not_mem_moduleName (c := '/') (by decide) fun name hf => ?_
  obtain ⟨before, parent, hl⟩ := Path.fileName?_eq_some.1 hf
  exact (Path.last?_name hl).1

theorem templatePath_beside {layout : Layout} {file : Path} (hl : layout.IsPlain)
    (h : file.fileName?.isSome = true) : Beside file (layout.templatePath file) := by
  have hn : slash ∉ octets
      (file.moduleName ++ "." ++ layout.templateMarker ++ "." ++ layout.extension) := by
    simp only [octets_append, List.mem_append, not_or]
    exact ⟨⟨⟨⟨slash_not_mem_moduleName file, by decide⟩, hl.2.1⟩, by decide⟩, hl.extension⟩
  obtain ⟨parent, hp⟩ := Path.parent?_isSome h
  rw [templatePath, Path.withFileName, if_pos h, hp]
  exact Path.join_beside hp hn

theorem registryPath_beside {layout : Layout} {file parent : Path} (hl : layout.IsPlain)
    (h : file.parent? = some parent) : Beside file (layout.registryPath file) := by
  have hn : slash ∉ octets (layout.registryName ++ "." ++ layout.extension) := by
    simp only [octets_append, List.mem_append, not_or]
    exact ⟨⟨hl.2.2, by decide⟩, hl.extension⟩
  rw [registryPath, Path.dir, h]
  exact Path.join_beside h hn

end Layout

end DialectBindings
