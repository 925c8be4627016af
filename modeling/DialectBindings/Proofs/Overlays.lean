import DialectBindings.Proofs.Reaching

/-!
# Files put over a tree

Files that lie over a tree already change nothing when they are put there again. Two trees that
differ at such places only lead every path, whose directory is there, to the same place, and what
lies elsewhere is read alike in both. What can be written in one can be written in the other.
-/

set_option autoImplicit false

namespace DialectBindings.FileTree
open Text Results

/-- Two paths lead to one place. -/
def Meet (t : FileTree) (p q : Path) : Prop := ∃ l, t.locate p = .ok l ∧ t.locate q = .ok l

theorem Meet.symm {t : FileTree} {p q : Path} (h : t.Meet p q) : t.Meet q p := by
  obtain ⟨l, hp, hq⟩ := h
  exact ⟨l, hq, hp⟩

instance (t : FileTree) (p q : Path) : Decidable (t.Meet p q) :=
  match hp : t.locate p with
  | .ok l => decidable_of_iff (t.locate q = .ok l)
    ⟨fun hq => ⟨l, hp, hq⟩, fun ⟨_, h, hq⟩ => by cases hp.symm.trans h; exact hq⟩
  | .error _ => isFalse fun ⟨_, h, _⟩ => by cases hp.symm.trans h

/-- Paths that lead to some of the places only, as far as they lead anywhere. -/
def LeadTo (t : FileTree) (paths : List Path) (places : Location → Prop) : Prop :=
  ∀ p ∈ paths, ∀ l, t.locate p = .ok l → places l

def Free (t : FileTree) (l : Location) : Prop := l ≠ [] ∧ t.get? l ≠ some .directory

def put (t : FileTree) (files : List (Location × Octets)) : FileTree :=
  files.foldl (fun t f => t.set f.1 (.file f.2)) t

theorem put_append (t : FileTree) (files more : List (Location × Octets)) :
    t.put (files ++ more) = (t.put files).put more :=
  List.foldl_append

theorem put_workingDirectory (t : FileTree) (files : List (Location × Octets)) :
    (t.put files).workingDirectory = t.workingDirectory := by
  induction files generalizing t with
  | nil => rfl
  | cons f files ih => exact ih (t.set f.1 (.file f.2))

/-- Files that are put over a tree leave its nodes elsewhere in order and come after them. -/
theorem put_nodes (t : FileTree) (files : List (Location × Octets)) :
    (t.put files).nodes = t.nodes.filter (fun n => n.1 ∉ files.map (·.1)) ++
      ((⟨[], []⟩ : FileTree).put files).nodes := by
  induction files generalizing t with
  | nil =>
    have hall : t.nodes.filter (fun n => n.1 ∉ ([] : List Location)) = t.nodes :=
      List.filter_eq_self.2 fun n _ => by simp
    exact (List.append_nil _).trans hall |>.symm
  | cons f files ih =>
    obtain ⟨l, content⟩ := f
    have hput (u : FileTree) : u.put ((l, content) :: files) =
      (u.set l (.file content)).put files := rfl
    rw [hput, hput, ih (t.set l (.file content)), ih (set ⟨[], []⟩ l (.file content))]
    simp only [set, List.filter_append, List.filter_filter, List.map_cons, List.mem_cons, not_or,
      List.filter_nil, List.nil_append, List.append_assoc, Bool.decide_and, Bool.and_comm]

theorem mem_put {t : FileTree} {files : List (Location × Octets)} {n : Location × Node}
    (h : n ∈ (t.put files).nodes) : n ∈ t.nodes ∨ n.1 ∈ files.map (·.1) := by
  induction files generalizing t with
  | nil => exact .inl h
  | cons f files ih =>
    obtain h | h := ih h
    · simp only [set, List.mem_append, List.mem_filter, List.mem_singleton] at h
      obtain ⟨h, -⟩ | rfl := h
      · exact .inl h
      · exact .inr List.mem_cons_self
    · exact .inr (List.mem_cons_of_mem _ h)

theorem put_put (t : FileTree) (files : List (Location × Octets)) :
    (t.put files).put files = t.put files := by
  have hover : ((⟨[], []⟩ : FileTree).put files).nodes.filter
      (fun n => n.1 ∉ files.map (·.1)) = [] := by
    rw [List.filter_eq_nil_iff]
    intro n hn
    have := (mem_put hn).resolve_left (List.not_mem_nil)
    simpa using this
  have hnodes : ((t.put files).put files).nodes = (t.put files).nodes := by
    rw [put_nodes (t.put files), put_nodes t, List.filter_append, hover, List.filter_filter,
      List.append_nil]
    simp only [Bool.and_self]
  have hw : ((t.put files).put files).workingDirectory = (t.put files).workingDirectory :=
    put_workingDirectory _ files
  generalize (t.put files).put files = again at hnodes hw ⊢
  generalize t.put files = once at hnodes hw ⊢
  cases again
  cases once
  exact congr (congrArg FileTree.mk hnodes) hw

/-- Two trees with the same directories, and the same files but for some places. -/
structure AgreeOff (places : Location → Prop) (t u : FileTree) : Prop where
  workingDirectory : u.workingDirectory = t.workingDirectory
  directories : ∀ l, u.get? l = some .directory ↔ t.get? l = some .directory
  elsewhere : ∀ l, ¬ places l → u.get? l = t.get? l

section
variable {places : Location → Prop} {t u v : FileTree}

theorem AgreeOff.refl (places : Location → Prop) (t : FileTree) : AgreeOff places t t :=
  ⟨rfl, fun _ => Iff.rfl, fun _ _ => rfl⟩

theorem AgreeOff.symm (h : AgreeOff places t u) : AgreeOff places u t :=
  ⟨h.workingDirectory.symm, fun l => (h.directories l).symm, fun l hl => (h.elsewhere l hl).symm⟩

theorem AgreeOff.trans (h : AgreeOff places t u) (h' : AgreeOff places u v) :
    AgreeOff places t v :=
  ⟨h'.workingDirectory.trans h.workingDirectory,
    fun l => (h'.directories l).trans (h.directories l),
    fun l hl => (h'.elsewhere l hl).trans (h.elsewhere l hl)⟩

theorem Free.agree {l : Location} (h : AgreeOff places t u) (hl : Free t l) : Free u l :=
  ⟨hl.1, mt (h.directories l).1 hl.2⟩

theorem set_agreeOff {l : Location} (content : Octets) (hp : places l) (hl : Free t l) :
    AgreeOff places t (t.set l (.file content)) := by
  refine ⟨rfl, fun k => ?_, fun k hk => ?_⟩
  · rw [get?_set t hl.1]
    split
    · rename_i hkl
      simp [hkl, hl.2]
    · rfl
  · rw [get?_set t hl.1, if_neg fun hkl : k = l => hk (hkl ▸ hp)]

theorem put_agreeOff {files : List (Location × Octets)}
    (hf : ∀ f ∈ files, places f.1 ∧ Free t f.1) : AgreeOff places t (t.put files) := by
  induction files generalizing t with
  | nil => exact .refl places t
  | cons f files ih =>
    obtain ⟨hp, hl⟩ := hf f List.mem_cons_self
    have hs := set_agreeOff f.2 hp hl
    refine hs.trans (ih fun g hg => ?_)
    obtain ⟨hp, hl⟩ := hf g (List.mem_cons_of_mem _ hg)
    exact ⟨hp, hl.agree hs⟩

theorem AgreeOff.start (h : AgreeOff places t u) (p : Path) : u.start p = t.start p := by
  rw [FileTree.start, FileTree.start, h.workingDirectory]

theorem AgreeOff.follow_step (h : AgreeOff places t u) {l : Location}
    (hl : t.get? l = some .directory) (step : Component) :
    u.follow l [step] = t.follow l [step] := by
  simp only [follow, hl, (h.directories l).2 hl]

theorem AgreeOff.follow {l k : Location} {steps : List Component} (h : AgreeOff places t u)
    (hk : t.follow l steps = .ok k) : u.follow l steps = .ok k :=
  follow_kept (fun j hj => (h.directories j).2 hj) hk

theorem AgreeOff.reached {p : Path} (h : AgreeOff places t u) (hr : Reached t p) :
    Reached u p := by
  obtain ⟨l, hl, hd⟩ := hr
  exact ⟨l, by rw [h.start]; exact h.follow hl, (h.directories l).2 hd⟩

theorem AgreeOff.locate {p : Path} (h : AgreeOff places t u) (hr : Reached t p) :
    u.locate p = t.locate p := by
  obtain ⟨l, hl, hd⟩ := hr
  have hf : u.follow (t.start p) p.steps = t.follow (t.start p) p.steps := by
    obtain hs | ⟨before, step, hs⟩ := List.eq_nil_or_concat p.steps
    · rw [hs]
      rfl
    · rw [List.concat_eq_append] at hs
      rw [hs, List.dropLast_concat] at hl
      rw [hs, follow_append, follow_append, h.follow hl, hl]
      exact h.follow_step hd step
  rw [FileTree.locate, FileTree.locate, h.start, hf]

theorem AgreeOff.locate_of_ok {p : Path} {l : Location} (h : AgreeOff places t u)
    (hl : t.locate p = .ok l) : u.locate p = .ok l := by
  obtain ⟨hc, hf⟩ := locate_ok.1 hl
  rw [← h.start] at hf
  exact locate_ok.2 ⟨hc, h.follow hf⟩

theorem AgreeOff.leadTo {paths : List Path} {others : Location → Prop} (h : AgreeOff places t u)
    (hp : t.LeadTo paths others) : u.LeadTo paths others :=
  fun p hm l hl => hp p hm l (h.symm.locate_of_ok hl)

theorem AgreeOff.locateParent {p : Path} (h : AgreeOff places t u) (hr : Reached t p) :
    u.locateParent p = t.locateParent p := by
  obtain ⟨l, hl, hd⟩ := hr
  simp only [FileTree.locateParent, h.start, hl, h.follow hl, bind, Except.bind, hd,
    (h.directories l).2 hd]

theorem AgreeOff.read {p : Path} (h : AgreeOff places t u) (hr : Reached t p)
    (hp : ∀ l, t.locate p = .ok l → ¬ places l) : u.read p = t.read p := by
  rw [FileTree.read, FileTree.read, h.locate hr]
  cases hl : t.locate p with
  | error fault => rfl
  | ok l => simp only [bind, Except.bind, h.elsewhere l (hp l hl)]

theorem AgreeOff.isDirectory {p : Path} (h : AgreeOff places t u) (hd : t.isDirectory p = true) :
    u.isDirectory p = true := by
  obtain ⟨l, hl, hd⟩ := isDirectory_iff.1 hd
  exact isDirectory_iff.2 ⟨l, h.locate_of_ok hl, (h.directories l).2 hd⟩

theorem AgreeOff.hasDirectory {p : Path} (h : AgreeOff places t u)
    (hd : Artifact.HasDirectory t p) : Artifact.HasDirectory u p :=
  fun q hq => (hd q hq).imp_right h.isDirectory

theorem reached_of_parent {p : Path} {l : Location} {step : Option Component}
    (h : t.locateParent p = .ok (l, step)) : Reached t p := by
  obtain ⟨-, hf, hl, -⟩ := locateParent_ok.1 h
  exact ⟨l, hf, hl⟩

theorem locate_of_parent {p : Path} {l : Location} {name : Octets}
    (h : t.locateParent p = .ok (l, some (.name name))) (hn : name.length ≤ nameLimit) :
    t.locate p = .ok (name :: l) := by
  obtain ⟨hc, hf, hl, hlast⟩ := locateParent_ok.1 h
  obtain ⟨before, hsteps⟩ := List.getLast?_eq_some_iff.1 hlast.symm
  rw [hsteps, List.dropLast_concat] at hf
  refine locate_ok.2 ⟨hc, ?_⟩
  rw [hsteps, follow_append, hf]
  exact follow_name.2 ⟨hl, hn, rfl⟩

theorem AgreeOff.write {p : Path} {content : Octets} (h : AgreeOff places t u)
    (hw : t.write p content = .ok v) :
    Reached t p ∧ ∃ l, t.locate p = .ok l ∧ Free t l ∧ v = t.set l (.file content) ∧
      u.write p content = .ok (u.set l (.file content)) := by
  obtain ⟨l, name, hp, hs, hn, hd, rfl⟩ := write_ok hw
  refine ⟨reached_of_parent hp, name :: l, locate_of_parent hp hn, ⟨List.cons_ne_nil name l, hd⟩,
    rfl, ?_⟩
  rw [FileTree.write, h.locateParent (reached_of_parent hp), hp]
  have hd' : u.get? (name :: l) ≠ some .directory := mt (h.directories _).1 hd
  simp [bind, Except.bind, hs, Nat.not_lt.2 hn, hd']

theorem AgreeOff.meet {p q : Path} (h : AgreeOff places t u) : u.Meet p q ↔ t.Meet p q := by
  constructor
  · rintro ⟨l, hp, hq⟩
    exact ⟨l, h.symm.locate_of_ok hp, h.symm.locate_of_ok hq⟩
  · rintro ⟨l, hp, hq⟩
    exact ⟨l, h.locate_of_ok hp, h.locate_of_ok hq⟩

theorem read_set {p q : Path} {l : Location} {old : Octets} (content : Octets)
    (hq : t.locate q = .ok l) (hl : Free t l) (hp : t.read p = .ok old) :
    (t.Meet p q → (t.set l (.file content)).read p = .ok content) ∧
      (¬ t.Meet p q → (t.set l (.file content)).read p = .ok old) := by
  have h : AgreeOff (· = l) t (t.set l (.file content)) := set_agreeOff content rfl hl
  constructor
  · rintro ⟨k, hk, hkq⟩
    cases hq.symm.trans hkq
    obtain ⟨-, -, -, hs⟩ := read_ok hp
    simp [FileTree.read, h.locate_of_ok hk, bind, Except.bind, get?_set t hl.1, hs]
  · intro hn
    rw [h.read (reached_of_read hp), hp]
    rintro k hk rfl
    exact hn ⟨k, hk, hq⟩

end

end DialectBindings.FileTree
