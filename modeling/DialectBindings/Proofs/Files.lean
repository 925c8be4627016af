import DialectBindings.FileTree
import DialectBindings.Proofs.Cuts

/-!
# Reading and writing in a file tree

What a successful read, write or new directory says of the way to its node. A write is read back
at its own path. A path cut before a slash of one that can be read leads to a directory, and
asking for that directory again changes nothing.
-/

set_option autoImplicit false

namespace DialectBindings
open Text

namespace Path

theorem steps_append (a b : Octets) :
    (⟨a ++ slash :: b⟩ : Path).steps = (⟨a⟩ : Path).steps ++ (⟨b⟩ : Path).steps := by
  simp [steps, pieces_append]

theorem steps_ne_nil {a b : Octets} (h : (⟨a ++ slash :: b⟩ : Path).hasFinalSlash = false) :
    (⟨b⟩ : Path).steps ≠ [] := by
  intro hs
  have hb := eq_separator_of_pieces (List.map_eq_nil_iff.1 hs)
  have hl : (slash :: b).getLast? = some slash := by
    rw [List.getLast?_eq_some_getLast (List.cons_ne_nil slash b)]
    rcases List.mem_cons.1 (List.getLast_mem (List.cons_ne_nil slash b)) with he | hm
    · rw [he]
    · rw [hb _ hm]
  rw [hasFinalSlash, List.getLast?_append, hl] at h
  simp at h

end Path

namespace FileTree

theorem follow_cons (t : FileTree) (l : Location) (step : Component) (rest : List Component) :
    t.follow l (step :: rest) = (do t.follow (← t.follow l [step]) rest) := by
  simp only [follow]
  split
  · rfl
  · rfl
  · split
    · split <;> rfl
    · rfl
    · rfl

theorem follow_append (t : FileTree) (l : Location) (a b : List Component) :
    t.follow l (a ++ b) = (do t.follow (← t.follow l a) b) := by
  induction a generalizing l with
  | nil => rfl
  | cons step a ih =>
    rw [List.cons_append, follow_cons, follow_cons t l step a]
    cases t.follow l [step] with
    | error fault => rfl
    | ok k => exact ih k

theorem follow_concat_ok {t : FileTree} {l k : Location} {a : List Component} {step : Component}
    (h : t.follow l (a ++ [step]) = .ok k) :
    ∃ j, t.follow l a = .ok j ∧ t.get? j = some .directory ∧ t.follow j [step] = .ok k := by
  rw [follow_append] at h
  cases ha : t.follow l a with
  | error fault => rw [ha] at h; cases h
  | ok j =>
    rw [ha] at h
    refine ⟨j, rfl, ?_, h⟩
    simp only [bind, Except.bind, follow] at h
    split at h
    · cases h
    · cases h
    · assumption

theorem follow_name {t : FileTree} {l k : Location} {name : Octets} :
    t.follow l [.name name] = .ok k ↔
      t.get? l = some .directory ∧ name.length ≤ nameLimit ∧ k = name :: l := by
  simp only [follow]
  split
  · simp_all
  · simp_all
  · rename_i hl
    split
    · rename_i hn
      simp [hl, Nat.not_le.2 hn]
    · rename_i hn
      simp [hl, Nat.not_lt.1 hn, eq_comm]

theorem follow_kept {t t' : FileTree} {l k : Location} {a : List Component}
    (hd : ∀ j, t.get? j = some .directory → t'.get? j = some .directory)
    (h : t.follow l a = .ok k) : t'.follow l a = .ok k := by
  induction a generalizing l with
  | nil => exact h
  | cons step a ih =>
    have hl : t.get? l = some .directory := by
      rw [follow_cons] at h
      simp only [follow] at h
      split at h
      · cases h
      · cases h
      · assumption
    cases step with
    | name name =>
      simp only [follow, hl, hd l hl] at h ⊢
      split at h
      · cases h
      · rename_i hn
        rw [if_neg hn]
        exact ih h
    | up =>
      simp only [follow, hl, hd l hl] at h ⊢
      exact ih h
    | root =>
      simp only [follow, hl, hd l hl] at h ⊢
      exact ih h
    | here =>
      simp only [follow, hl, hd l hl] at h ⊢
      exact ih h

theorem start_set (t : FileTree) (l : Location) (n : Node) (p : Path) :
    (t.set l n).start p = t.start p := rfl

theorem locate_ok {t : FileTree} {p : Path} {l : Location} :
    t.locate p = .ok l ↔ check p = .ok () ∧ t.follow (t.start p) p.steps = .ok l := by
  rw [locate]
  cases check p with
  | error fault => simp [bind, Except.bind]
  | ok u => simp [bind, Except.bind]

theorem isDirectory_iff {t : FileTree} {p : Path} :
    t.isDirectory p = true ↔ ∃ l, t.locate p = .ok l ∧ t.get? l = some .directory := by
  rw [isDirectory]
  cases t.locate p with
  | error fault => simp
  | ok l => simp

theorem read_ok {t : FileTree} {p : Path} {content : Octets} (h : t.read p = .ok content) :
    ∃ l, t.locate p = .ok l ∧ t.get? l = some (.file content) ∧ p.hasFinalSlash = false := by
  rw [read] at h
  cases hl : t.locate p with
  | error fault => rw [hl] at h; cases h
  | ok l =>
    simp only [hl, bind, Except.bind] at h
    split at h
    · cases h
    · cases h
    · rename_i found hf
      split at h
      · cases h
      · rename_i hs
        cases h
        exact ⟨l, rfl, hf, by simpa using hs⟩

theorem locateParent_ok {t : FileTree} {p : Path} {l : Location} {step : Option Component} :
    t.locateParent p = .ok (l, step) ↔
      check p = .ok () ∧ t.follow (t.start p) p.steps.dropLast = .ok l ∧
        t.get? l = some .directory ∧ step = p.steps.getLast? := by
  rw [locateParent]
  cases check p with
  | error fault => simp [bind, Except.bind]
  | ok u =>
    cases hf : t.follow (t.start p) p.steps.dropLast with
    | error fault => simp [bind, Except.bind]
    | ok k =>
      simp only [bind, Except.bind]
      split
      · rename_i hk
        simp only [reduceCtorEq, false_iff]
        rintro ⟨-, hl, hd, -⟩
        cases hl
        simp [hk] at hd
      · rename_i hk
        simp only [reduceCtorEq, false_iff]
        rintro ⟨-, hl, hd, -⟩
        cases hl
        simp [hk] at hd
      · rename_i hk
        simp only [Except.ok.injEq, Prod.mk.injEq, true_and]
        constructor
        · rintro ⟨rfl, rfl⟩
          exact ⟨rfl, hk, rfl⟩
        · rintro ⟨rfl, -, rfl⟩
          exact ⟨rfl, rfl⟩

theorem write_ok {t t' : FileTree} {p : Path} {content : Octets}
    (h : t.write p content = .ok t') :
    ∃ l name, t.locateParent p = .ok (l, some (.name name)) ∧ p.hasFinalSlash = false ∧
      name.length ≤ nameLimit ∧ t.get? (name :: l) ≠ some .directory ∧
      t' = t.set (name :: l) (.file content) := by
  rw [write] at h
  cases hl : t.locateParent p with
  | error fault => rw [hl] at h; cases h
  | ok found =>
    simp only [hl, bind, Except.bind] at h
    split at h
    · rename_i l name
      split at h
      · cases h
      · rename_i hs
        split at h
        · cases h
        · rename_i hn
          split at h
          · cases h
          · rename_i hd
            cases h
            exact ⟨l, name, rfl, by simpa using hs, Nat.not_lt.1 hn, hd, rfl⟩
    · cases h

theorem makeDirectory_ok {t t' : FileTree} {p : Path} (h : t.makeDirectory p = .ok t') :
    ∃ l name, t.locateParent p = .ok (l, some (.name name)) ∧
      t.get? (name :: l) = none ∧ t' = t.set (name :: l) .directory := by
  rw [makeDirectory] at h
  cases hl : t.locateParent p with
  | error fault => rw [hl] at h; cases h
  | ok found =>
    simp only [hl, bind, Except.bind] at h
    split at h
    · rename_i l name
      split at h
      · cases h
      · split at h
        · cases h
        · rename_i hn
          cases h
          exact ⟨l, name, rfl, by simpa using hn, rfl⟩
    · cases h

theorem read_write {t t' : FileTree} {p : Path} {content : Octets}
    (h : t.write p content = .ok t') : t'.read p = .ok content := by
  obtain ⟨l, name, hp, hs, hn, hd, rfl⟩ := write_ok h
  obtain ⟨hc, hf, hl, hlast⟩ := locateParent_ok.1 hp
  have kept (j : Location) (hj : t.get? j = some .directory) :
      (t.set (name :: l) (.file content)).get? j = some .directory := by
    rw [get?_set t (List.cons_ne_nil name l), if_neg]
    · exact hj
    · rintro rfl
      exact hd hj
  obtain ⟨before, hsteps⟩ := List.getLast?_eq_some_iff.1 hlast.symm
  rw [hsteps, List.dropLast_concat] at hf
  have hlocate : (t.set (name :: l) (.file content)).locate p = .ok (name :: l) := by
    refine locate_ok.2 ⟨hc, ?_⟩
    rw [hsteps, follow_append, start_set, follow_kept kept hf]
    exact follow_name.2 ⟨kept l hl, hn, rfl⟩
  simp [read, hlocate, bind, Except.bind, get?_set t (List.cons_ne_nil name l), hs]

/-- One tree has the regular files of another, with the same content. -/
def SameFiles (t t' : FileTree) : Prop :=
  ∀ l content, t'.get? l = some (.file content) ↔ t.get? l = some (.file content)

theorem SameFiles.refl (t : FileTree) : SameFiles t t := fun _ _ => Iff.rfl

theorem SameFiles.trans {t t' t'' : FileTree} (h : SameFiles t t') (h' : SameFiles t' t'') :
    SameFiles t t'' :=
  fun l content => (h' l content).trans (h l content)

theorem makeDirectory_sameFiles {t t' : FileTree} {p : Path} (h : t.makeDirectory p = .ok t') :
    SameFiles t t' := by
  obtain ⟨l, name, -, hn, rfl⟩ := makeDirectory_ok h
  intro k content
  rw [get?_set t (List.cons_ne_nil name l)]
  split
  · rename_i hk
    simp [hk, hn]
  · rfl

theorem makeDirectory_of_isDirectory {t : FileTree} {p : Path} (h : t.isDirectory p = true) :
    t.makeDirectory p = .error .alreadyThere := by
  obtain ⟨l, hl, hd⟩ := isDirectory_iff.1 h
  obtain ⟨hc, hf⟩ := locate_ok.1 hl
  rcases List.eq_nil_or_concat p.steps with hs | ⟨before, step, hs⟩
  · have hp : t.locateParent p = .ok (l, none) := by
      refine locateParent_ok.2 ⟨hc, ?_, hd, ?_⟩ <;> simp_all
    simp [makeDirectory, hp, bind, Except.bind]
  · rw [List.concat_eq_append] at hs
    rw [hs] at hf
    obtain ⟨j, hj, hjd, hstep⟩ := follow_concat_ok hf
    have hp : t.locateParent p = .ok (j, some step) := by
      refine locateParent_ok.2 ⟨hc, ?_, hjd, ?_⟩ <;> simp [hs, hj]
    rw [makeDirectory, hp]
    cases step with
    | name name =>
      obtain ⟨-, hn, rfl⟩ := follow_name.1 hstep
      simp [bind, Except.bind, Nat.not_lt.2 hn, hd]
    | up => rfl
    | root => rfl
    | here => rfl

theorem check_ok {p : Path} :
    check p = .ok () ↔ (0 : UInt8) ∉ p.octets ∧ p.octets ≠ [] ∧ p.octets.length < pathLimit := by
  rw [check]
  split
  · simp_all
  · split
    · simp_all
    · split <;> simp_all

theorem isDirectory_of_read {t : FileTree} {p : Path} {content a b : Octets}
    (h : t.read p = .ok content) (hp : p.octets = a ++ Path.slash :: b) (ha : a ≠ []) :
    t.isDirectory ⟨a⟩ = true := by
  obtain ⟨l, hl, -, hs⟩ := read_ok h
  obtain ⟨hc, hf⟩ := locate_ok.1 hl
  obtain rfl : p = ⟨a ++ Path.slash :: b⟩ := by cases p; simp_all
  have hstart : t.start ⟨a ++ Path.slash :: b⟩ = t.start ⟨a⟩ := by
    cases a with
    | nil => exact absurd rfl ha
    | cons c a => rfl
  rw [hstart, Path.steps_append, follow_append] at hf
  cases hk : t.follow (t.start ⟨a⟩) (⟨a⟩ : Path).steps with
  | error fault => rw [hk] at hf; cases hf
  | ok k =>
    rw [hk] at hf
    refine isDirectory_iff.2 ⟨k, locate_ok.2 ⟨?_, hk⟩, ?_⟩
    · obtain ⟨h0, -, hlen⟩ := check_ok.1 hc
      simp only [List.length_append, List.length_cons, List.mem_append] at h0 hlen
      exact check_ok.2 ⟨fun h => h0 (.inl h), ha, by simp only; omega⟩
    · cases hsteps : (⟨b⟩ : Path).steps with
      | nil => exact absurd hsteps (Path.steps_ne_nil hs)
      | cons step rest =>
        rw [hsteps] at hf
        simp only [bind, Except.bind, follow] at hf
        split at hf
        · cases hf
        · cases hf
        · assumption

end FileTree

end DialectBindings
