import DialectBindings.Proofs.Siblings

/-!
# The directory of a path

A path beside a file that can be read is made in a directory that is there: it needs no new one.
A file that can be read has a directory of its own.
-/

set_option autoImplicit false

namespace DialectBindings
open Text

namespace Path

theorem steps_bare {name : Octets} (h : slash ∉ name) :
    (⟨name⟩ : Path).steps = [] ∨ ∃ step, (⟨name⟩ : Path).steps = [step] := by
  rw [steps, pieces_of_not_mem h]
  by_cases hn : name = []
  · simp [hn]
  · simp [hn]

theorem steps_below (front : Octets) {name : Octets} (h : slash ∉ name) :
    (⟨front ++ slash :: name⟩ : Path).steps = (⟨front⟩ : Path).steps ∨
      ∃ step, (⟨front ++ slash :: name⟩ : Path).steps = (⟨front⟩ : Path).steps ++ [step] := by
  rw [steps_append]
  obtain hs | ⟨step, hs⟩ := steps_bare h
  · exact .inl (by rw [hs, List.append_nil])
  · exact .inr ⟨step, by rw [hs]⟩

theorem isAbsolute_of_steps {p : Path} (hp : p.octets ≠ []) (h : p.steps = []) :
    p.isAbsolute = true := by
  have hs := eq_separator_of_pieces (List.map_eq_nil_iff.1 h)
  obtain ⟨c, rest, ho⟩ := List.exists_cons_of_ne_nil hp
  exact isAbsolute_iff.2 ⟨rest, by rw [ho, hs c (ho ▸ List.mem_cons_self)]⟩

theorem steps_trimmed (back : Octets) : ∃ more, (∀ step ∈ more, step = .here) ∧
    (⟨back.reverse⟩ : Path).steps = (⟨(trimmed back).reverse⟩ : Path).steps ++ more := by
  have hjunk {front : Octets} (hf : front = [] ∨ front = [dot]) :
      ∀ step ∈ (⟨front.reverse⟩ : Path).steps, step = .here := by
    rcases hf with rfl | rfl <;> decide
  fun_induction trimmed back with
  | case1 back hb hd =>
    refine ⟨(⟨back.reverse⟩ : Path).steps, ?_, rfl⟩
    rw [← List.takeWhile_append_dropWhile (p := (· != slash)) (l := back), hd, List.append_nil]
    exact hjunk hb
  | case2 back hb c rest hd ih =>
    obtain hs | ⟨more, hs⟩ := dropWhile_slash back
    · rw [hd] at hs
      cases hs
    · obtain ⟨rfl, rfl⟩ := List.cons.inj (hd.symm.trans hs)
      obtain ⟨more, hmore, hsteps⟩ := ih
      refine ⟨more ++ (⟨(back.takeWhile (· != slash)).reverse⟩ : Path).steps, ?_, ?_⟩
      · intro step hm
        exact (List.mem_append.1 hm).elim (hmore step) (hjunk hb step)
      · rw [reverse_cut, hd, List.reverse_cons, List.append_assoc, List.singleton_append,
          steps_append, hsteps, List.append_assoc]
  | case3 back hb => exact ⟨[], by simp, (List.append_nil _).symm⟩

theorem steps_of_top {p : Path} (h : p.parent? = none) : ∀ step ∈ p.steps, step = .here := by
  have hl : ∀ c before parent, p.last? = some (c, before, parent) → c = .root := by
    intro c before parent hl
    cases c with
    | root => rfl
    | _ => simp [parent?, hl] at h
  simp only [last?] at hl
  have hb : trimmed (cutStart p.octets).2.reverse = [] := by
    by_cases hb : trimmed (cutStart p.octets).2.reverse = []
    · exact hb
    · rw [if_neg hb] at hl
      have := hl _ _ _ rfl
      split at this <;> cases this
  have hbody : ∀ step ∈ (⟨(cutStart p.octets).2⟩ : Path).steps, step = .here := by
    obtain ⟨more, hmore, hsteps⟩ := steps_trimmed (cutStart p.octets).2.reverse
    rw [hb, List.reverse_reverse] at hsteps
    rw [hsteps]
    exact hmore
  rw [if_pos hb] at hl
  have ho := cutStart_append p.octets
  obtain hs | hs | hs : (cutStart p.octets).1 = [] ∨ (cutStart p.octets).1 = [dot] ∨
      (cutStart p.octets).1 = [slash] := by
    unfold cutStart
    split <;> simp [dot, slash]
  · rw [hs, List.nil_append] at ho
    rw [ho] at hbody
    exact hbody
  · rw [hs] at hl
    cases hl _ _ _ rfl
  · rw [hs] at ho
    -- The root's own slash leaves no step.
    have hp : p.steps = (⟨(cutStart p.octets).2⟩ : Path).steps := by
      rw [show p = ⟨[] ++ slash :: (cutStart p.octets).2⟩ from congrArg Path.mk ho.symm,
        steps_append]
      rfl
    rw [hp]
    exact hbody

end Path

namespace FileTree

/-- The directory in which the last step of a path is made is there. -/
def Reached (t : FileTree) (p : Path) : Prop :=
  ∃ l, t.follow (t.start p) p.steps.dropLast = .ok l ∧ t.get? l = some .directory

theorem start_front (t : FileTree) (front a b : Octets) :
    t.start ⟨front ++ Path.slash :: a⟩ = t.start ⟨front ++ Path.slash :: b⟩ := by
  cases front <;> rfl

theorem directory_of_read {t : FileTree} {p : Path} {content front rest : Octets}
    (h : t.read p = .ok content) (hp : p.octets = front ++ Path.slash :: rest) :
    ∃ l, t.follow (t.start p) (⟨front⟩ : Path).steps = .ok l ∧ t.get? l = some .directory := by
  obtain rfl : p = ⟨front ++ Path.slash :: rest⟩ := by cases p; simp_all
  cases front with
  | nil => exact ⟨[], rfl, rfl⟩
  | cons c front =>
    obtain ⟨l, hl, hd⟩ := isDirectory_iff.1 (isDirectory_of_read h rfl (List.cons_ne_nil c front))
    exact ⟨l, (locate_ok.1 hl).2, hd⟩

theorem follow_start_ok {t : FileTree} {l k : Location} {steps : List Component}
    (h : t.follow l steps = .ok k) (hs : steps ≠ []) : t.get? l = some .directory := by
  obtain ⟨step, rest, rfl⟩ := List.exists_cons_of_ne_nil hs
  simp only [follow] at h
  split at h
  · cases h
  · cases h
  · assumption

theorem steps_of_read {t : FileTree} {p : Path} {content : Octets} (h : t.read p = .ok content) :
    p.steps ≠ [] := by
  intro hs
  obtain ⟨l, hl, hc, -⟩ := read_ok h
  obtain ⟨hp, hf⟩ := locate_ok.1 hl
  -- It would be a root, and a root is a directory.
  have ha := Path.isAbsolute_of_steps (check_ok.1 hp).2.1 hs
  rw [start, if_pos ha, hs] at hf
  cases hf
  cases hc

theorem reached_of_read {t : FileTree} {p : Path} {content : Octets}
    (h : t.read p = .ok content) : Reached t p := by
  obtain ⟨l, hl, -, -⟩ := read_ok h
  obtain ⟨-, hf⟩ := locate_ok.1 hl
  obtain hs | ⟨before, step, hs⟩ := List.eq_nil_or_concat p.steps
  · exact absurd hs (steps_of_read h)
  · rw [List.concat_eq_append] at hs
    rw [hs] at hf
    obtain ⟨j, hj, hd, -⟩ := follow_concat_ok hf
    exact ⟨j, by rw [hs, List.dropLast_concat]; exact hj, hd⟩

theorem follow_here {t : FileTree} {l k : Location} {steps : List Component}
    (hs : ∀ step ∈ steps, step = .here) (h : t.follow l steps = .ok k) : k = l := by
  induction steps with
  | nil =>
    cases h
    rfl
  | cons step steps ih =>
    obtain rfl := hs step List.mem_cons_self
    simp only [follow] at h
    split at h
    · cases h
    · cases h
    · exact ih (fun step hm => hs step (List.mem_cons_of_mem _ hm)) h

theorem parent?_of_read {t : FileTree} {p : Path} {content : Octets}
    (h : t.read p = .ok content) : ∃ parent, p.parent? = some parent := by
  cases hp : p.parent? with
  | some parent => exact ⟨parent, rfl⟩
  | none =>
    obtain ⟨l, hl, hc, -⟩ := read_ok h
    obtain ⟨-, hf⟩ := locate_ok.1 hl
    -- It would stay in the directory that it starts in.
    obtain rfl := follow_here (Path.steps_of_top hp) hf
    cases hc.symm.trans (follow_start_ok hf (steps_of_read h))

theorem reached_of_beside {t : FileTree} {p q : Path} {content : Octets}
    (h : t.read p = .ok content) (hq : Path.Beside p q) : Reached t q := by
  cases hq with
  | @bare name hn hp =>
    have hstart : t.start ⟨name⟩ = t.start p := by
      have hname : (⟨name⟩ : Path).isAbsolute = false := by
        refine Bool.eq_false_iff.2 fun ha => ?_
        obtain ⟨rest, hr⟩ := Path.isAbsolute_iff.1 ha
        obtain rfl : name = Path.slash :: rest := hr
        exact hn List.mem_cons_self
      rw [start, start, hname, hp]
    have hdrop : (⟨name⟩ : Path).steps.dropLast = [] := by
      obtain hs | ⟨step, hs⟩ := Path.steps_bare hn <;> simp [hs]
    obtain ⟨l, hl, -, -⟩ := read_ok h
    refine ⟨t.start p, by rw [hdrop, hstart]; rfl, ?_⟩
    exact follow_start_ok (locate_ok.1 hl).2 (steps_of_read h)
  | @below front name rest hn hp =>
    obtain ⟨l, hl, hd⟩ := directory_of_read h hp
    obtain rfl : p = ⟨front ++ Path.slash :: rest⟩ := by cases p; simp_all
    rw [start_front t front rest name] at hl
    obtain hs | ⟨step, hs⟩ := Path.steps_below front hn
    · obtain hf | ⟨before, last, hf⟩ := List.eq_nil_or_concat (⟨front⟩ : Path).steps
      · rw [hf] at hl hs
        exact ⟨l, by rw [hs]; exact hl, hd⟩
      · rw [List.concat_eq_append] at hf
        rw [hf] at hl hs
        obtain ⟨j, hj, hjd, -⟩ := follow_concat_ok hl
        exact ⟨j, by rw [hs, List.dropLast_concat]; exact hj, hjd⟩
    · exact ⟨l, by rw [hs, List.dropLast_concat]; exact hl, hd⟩

theorem hasDirectory_of_beside {t : FileTree} {p q : Path} {content : Octets}
    (h : t.read p = .ok content) (hq : Path.Beside p q) : Artifact.HasDirectory t q := by
  intro parent hparent
  obtain hr | hr | ⟨more, hr⟩ := Path.parent?_cut hparent
  · exact .inl (Path.parent?_top (.inl hr))
  · exact .inl (Path.parent?_top (.inr hr))
  by_cases hne : parent.octets = []
  · exact .inl (Path.parent?_top (.inl hne))
  refine .inr ?_
  cases hq with
  | @bare name hn hp =>
    obtain rfl : name = parent.octets ++ Path.slash :: more := hr
    exact absurd (List.mem_append_right _ List.mem_cons_self) hn
  | @below front name rest hn hp =>
    -- The directory goes up to the slash before the name, or to one before that.
    obtain ⟨cut, hcut, hmore⟩ | ⟨cut, hcut, hmore⟩ := List.append_eq_append_iff.1 hr
    · cases cut with
      | nil => exact isDirectory_of_read h (by rw [hp, hcut, List.append_nil]) hne
      | cons c cut =>
        obtain ⟨rfl, hname⟩ := List.cons.inj hmore
        exact absurd (hname ▸ List.mem_append_right cut List.mem_cons_self) hn
    · cases cut with
      | nil => exact isDirectory_of_read h (by rw [hp, hcut, List.append_nil]) hne
      | cons c cut =>
        obtain ⟨rfl, -⟩ := List.cons.inj hmore
        exact isDirectory_of_read h (b := cut ++ Path.slash :: rest) (by rw [hp, hcut]; simp) hne

end FileTree

end DialectBindings
