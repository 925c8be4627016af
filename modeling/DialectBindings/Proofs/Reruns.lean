import DialectBindings.Engine.Plain
import DialectBindings.Proofs.Artifacts

/-!
# What a batch leaves as it was

A batch writes where its artifacts and its registry lead and nowhere else. Where they lead to none
of its inputs, a second run reads what the first has read, and so writes the same once more.
-/

set_option autoImplicit false

namespace DialectBindings
open Text World Results

namespace Layout

/-- What a batch may read: its definition files and their templates. -/
def inputs (layout : Layout) (files : List Path) : List Path :=
  files ++ files.map layout.templatePath

/-- What a batch may write: the artifacts of its files and the registry. -/
def outputs (layout : Layout) (options : BatchOptions) (files : List Path) : List Path :=
  match OutputMode.select files.length options with
  | .combined => []
  | .perFile => files.filterMap layout.artifactPath? ++
    if options.magic then (files.head?.map layout.registryPath).toList else []

theorem artifacts_outputs {layout : Layout} {options : BatchOptions} {files : List Path}
    {t : FileTree} {places : Location → Prop}
    (hm : OutputMode.select files.length options = .perFile)
    (h : t.LeadTo (layout.outputs options files) places) :
    t.LeadTo (files.filterMap layout.artifactPath?) places := by
  intro p hp
  apply h
  rw [outputs, hm]
  exact List.mem_append_left _ hp

theorem registry_outputs {layout : Layout} {options : BatchOptions} {files : List Path}
    {first : Path} (hm : options.magic = true) (hf : files.head? = some first) :
    layout.registryPath first ∈ layout.outputs options files := by
  rw [outputs, Batch.select_magic hm]
  simp [hm, hf]

end Layout

namespace Batch
open FileTree

variable {engine : Engine} {layout : Layout} {options : BatchOptions} {t u : FileTree}
  {places : Location → Prop}

theorem registryStep_ok {files : List Path} {numbers : Registry}
    (h : registryStep layout options files numbers t = .ok u) :
    u = t ∨ ∃ first, options.magic = true ∧ files.head? = some first ∧
      t.write (layout.registryPath first) (octets numbers.render) = .ok u := by
  unfold registryStep at h
  split at h
  · rename_i first rest hm
    exact .inr ⟨first, hm, rfl, h⟩
  · cases h
    exact .inl rfl

theorem runStep_agreeOff (engine : Engine) {files : List Path}
    (hm : OutputMode.select files.length options = .perFile)
    (hp : t.LeadTo (layout.outputs options files) places) :
    AgreeOff places t (runStep engine layout options files t) := by
  have hfiles : AgreeOff places t (filesStep engine layout .nothing t files).2 :=
    filesStep_agreeOff (Layout.artifacts_outputs hm hp)
  rw [runStep]
  split
  · rename_i e t' hf
    rw [hf] at hfiles
    exact hfiles
  · rename_i done t' hf
    rw [hf] at hfiles
    rw [attempt]
    split
    · rename_i v hv
      obtain rfl | ⟨first, hmagic, hfirst, hw⟩ := registryStep_ok hv
      · exact hfiles
      · obtain ⟨-, l, hl, hfree, rfl, -⟩ := (AgreeOff.refl places t').write hw
        refine hfiles.trans (set_agreeOff _ ?_ hfree)
        exact hp _ (Layout.registry_outputs hmagic hfirst) l (hfiles.symm.locate_of_ok hl)
    · exact hfiles

/-- What a file gives depends on its definition and its template only. -/
theorem answer_agree {file : Path} {content : Octets} (h : AgreeOff places t u)
    (hread : t.read file = .ok content) (hr : Reached t (layout.templatePath file))
    (hin : t.LeadTo [file, layout.templatePath file] fun l => ¬ places l) :
    Invocation.answer engine layout u file = Invocation.answer engine layout t file := by
  have hfile : u.read file = t.read file :=
    h.read (reached_of_read hread) (hin file (by simp))
  have htemplate : u.read (layout.templatePath file) = t.read (layout.templatePath file) :=
    h.read hr (hin _ (by simp))
  simp only [Invocation.answer, source, template, hfile, htemplate]

theorem fileStep_agree {done done' : Done} {file : Path} {t' : FileTree} (hl : layout.IsPlain)
    (h : AgreeOff places t u) (hp : t.LeadTo (layout.artifactPath? file).toList places)
    (hin : t.LeadTo [file, layout.templatePath file] fun l => ¬ places l)
    (hs : fileStep engine layout done file t = .ok (done', t')) :
    ∃ l content, places l ∧ Free t l ∧ t' = t.set l (.file content) ∧
      fileStep engine layout done file u = .ok (done', u.set l (.file content)) := by
  obtain ⟨i, path, hi, hpath, hw, hdone⟩ := fileStep_ok hs
  obtain ⟨source, -, hsource, -⟩ := Invocation.answer_done hi
  obtain ⟨content, hread, -⟩ := bind_eq_ok.1 hsource
  -- A file without a name would be its own artifact.
  have hname : file.fileName?.isSome = true := by
    cases hn : file.fileName? with
    | some name => rfl
    | none =>
      obtain ⟨l, hloc, -⟩ := read_ok hread
      exact absurd (hp file (by simp [Layout.artifactPath?_nameless hl.1 hn]) l hloc)
        (hin file (by simp) l hloc)
  have hr := reached_of_beside hread (Layout.templatePath_beside hl hname)
  obtain ⟨-, l, hloc, hfree, ht, hu⟩ := h.write hw
  refine ⟨l, _, hp path (by simp [hpath]) l hloc, hfree, ht, ?_⟩
  rw [fileStep, answer_agree h hread hr hin, hi, ok_bind, hpath]
  simp only [hu, ok_mapError, ok_bind, hdone]
  rfl

theorem fileStep_agree_error {done : Done} {file : Path} {e : Failure} (hl : layout.IsPlain)
    (h : AgreeOff places t u) (hp : t.LeadTo (layout.artifactPath? file).toList places)
    (hin : t.LeadTo [file, layout.templatePath file] fun l => ¬ places l)
    (hs : fileStep engine layout done file t = .error e) :
    ∃ e', fileStep engine layout done file u = .error e' := by
  cases hu : fileStep engine layout done file u with
  | error e' => exact ⟨e', rfl⟩
  | ok found =>
    obtain ⟨l, content, -, -, -, ht⟩ := fileStep_agree hl h.symm (h.leadTo hp) (h.leadTo hin) hu
    cases hs.symm.trans ht

theorem filesStep_agree (engine : Engine) (done : Done) {files : List Path} (hl : layout.IsPlain)
    (h : AgreeOff places t u) (hp : t.LeadTo (files.filterMap layout.artifactPath?) places)
    (hin : t.LeadTo (layout.inputs files) fun l => ¬ places l) :
    ∃ written, (∀ f ∈ written, places f.1 ∧ Free t f.1) ∧
      (filesStep engine layout done t files).2 = t.put written ∧
      (filesStep engine layout done u files).2 = u.put written ∧
      ∀ done', (filesStep engine layout done t files).1 = .ok done' ↔
        (filesStep engine layout done u files).1 = .ok done' := by
  induction files generalizing done t u with
  | nil => exact ⟨[], nofun, rfl, rfl, fun _ => Iff.rfl⟩
  | cons file files ih =>
    have hp₁ : t.LeadTo (layout.artifactPath? file).toList places := by
      intro p hm
      exact hp p (List.mem_filterMap.2 ⟨file, List.mem_cons_self, by simpa using hm⟩)
    have hin₁ : t.LeadTo [file, layout.templatePath file] fun l => ¬ places l := by
      intro p hm
      apply hin p
      simp only [List.mem_cons, List.not_mem_nil, or_false] at hm
      rcases hm with rfl | rfl <;> simp [Layout.inputs]
    rw [filesStep, filesStep]
    cases hs : fileStep engine layout done file t with
    | error e =>
      obtain ⟨e', hu⟩ := fileStep_agree_error hl h hp₁ hin₁ hs
      rw [hu]
      exact ⟨[], nofun, rfl, rfl, fun _ => by simp⟩
    | ok found =>
      obtain ⟨done₁, t₁⟩ := found
      obtain ⟨l, content, hplace, hfree, rfl, hu⟩ := fileStep_agree hl h hp₁ hin₁ hs
      rw [hu]
      -- Both trees get the same file, at one of the places.
      have ht := set_agreeOff content hplace hfree
      have hset : AgreeOff places (t.set l (.file content)) (u.set l (.file content)) :=
        ht.symm.trans (h.trans (set_agreeOff content hplace (hfree.agree h)))
      have hp₂ : t.LeadTo (files.filterMap layout.artifactPath?) places := by
        intro p hm
        obtain ⟨other, ho, hpath⟩ := List.mem_filterMap.1 hm
        exact hp p (List.mem_filterMap.2 ⟨other, List.mem_cons_of_mem _ ho, hpath⟩)
      have hin₂ : t.LeadTo (layout.inputs files) fun l => ¬ places l := by
        intro p hm
        refine hin p (List.mem_append.2 ?_)
        exact (List.mem_append.1 hm).imp (List.mem_cons_of_mem _) (List.mem_cons_of_mem _)
      obtain ⟨written, hw, hft, hfu, hdone⟩ :=
        ih done₁ hset (ht.leadTo hp₂) (ht.leadTo hin₂)
      refine ⟨(l, content) :: written, ?_, hft, hfu, hdone⟩
      rintro f (_ | ⟨_, hf⟩)
      · exact ⟨hplace, hfree⟩
      · exact ⟨(hw f hf).1, (hw f hf).2.agree ht.symm⟩

theorem registryStep_agree {files : List Path} {numbers : Registry} {v : FileTree}
    (h : AgreeOff places t u) (hs : registryStep layout options files numbers t = .ok v) :
    ∃ written, v = t.put written ∧
      registryStep layout options files numbers u = .ok (u.put written) := by
  unfold registryStep at hs ⊢
  split at hs
  · obtain ⟨-, l, -, -, hv, hu⟩ := h.write hs
    exact ⟨[(l, octets numbers.render)], hv, hu⟩
  · cases hs
    exact ⟨[], rfl, rfl⟩

theorem registryStep_attempt (layout : Layout) (options : BatchOptions) (files : List Path)
    (numbers : Registry) (h : AgreeOff places t u) :
    ∃ written, (t.attempt (registryStep layout options files numbers)).2 = t.put written ∧
      (u.attempt (registryStep layout options files numbers)).2 = u.put written := by
  cases hs : registryStep layout options files numbers t with
  | ok v =>
    obtain ⟨written, hv, hu⟩ := registryStep_agree h hs
    exact ⟨written, by simp only [attempt, hs, hv], by simp only [attempt, hu]⟩
  | error fault =>
    cases hu : registryStep layout options files numbers u with
    | ok v =>
      obtain ⟨written, -, ht⟩ := registryStep_agree h.symm hu
      cases hs.symm.trans ht
    | error fault' =>
      exact ⟨[], by simp only [attempt, hs]; rfl, by simp only [attempt, hu]; rfl⟩

theorem runStep_agree (engine : Engine) {files : List Path} (hl : layout.IsPlain)
    (hm : OutputMode.select files.length options = .perFile) (h : AgreeOff places t u)
    (hp : t.LeadTo (layout.outputs options files) places)
    (hin : t.LeadTo (layout.inputs files) fun l => ¬ places l) :
    ∃ written, runStep engine layout options files t = t.put written ∧
      runStep engine layout options files u = u.put written := by
  obtain ⟨files', hw, ht, hu, hdone⟩ :=
    filesStep_agree engine .nothing hl h (Layout.artifacts_outputs hm hp) hin
  have hagree : AgreeOff places (t.put files') (u.put files') :=
    (put_agreeOff hw).symm.trans (h.trans (put_agreeOff fun f hf =>
      ⟨(hw f hf).1, (hw f hf).2.agree h⟩))
  rw [runStep, runStep]
  rcases hft : filesStep engine layout .nothing t files with ⟨e | done, t'⟩
  · rcases hfu : filesStep engine layout .nothing u files with ⟨e' | done', u'⟩
    · rw [hft] at ht
      rw [hfu] at hu
      exact ⟨files', ht, hu⟩
    · have := (hdone done').2 (congrArg Prod.fst hfu)
      rw [hft] at this
      cases this
  · have hd := (hdone done).1 (congrArg Prod.fst hft)
    rw [hft] at ht
    obtain rfl : t' = t.put files' := ht
    rw [show filesStep engine layout .nothing u files = (.ok done, u.put files') from
      Prod.ext hd hu]
    obtain ⟨more, hmt, hmu⟩ :=
      registryStep_attempt layout options files done.magicNumbers hagree
    exact ⟨files' ++ more, by rw [put_append]; exact hmt, by rw [put_append]; exact hmu⟩

/-- A second run after a first changes nothing if no output leads to an input. -/
theorem runStep_again {files : List Path} (hl : layout.IsPlain)
    (hm : OutputMode.select files.length options = .perFile)
    (hp : t.LeadTo (layout.outputs options files) places)
    (hin : t.LeadTo (layout.inputs files) fun l => ¬ places l) :
    runStep engine layout options files (runStep engine layout options files t) =
      runStep engine layout options files t := by
  obtain ⟨written, ht, hu⟩ :=
    runStep_agree engine hl hm (runStep_agreeOff engine hm hp) hp hin
  rw [hu, ht, put_put]

/-- A batch keeps what its outputs do not lead to, whether it succeeds or fails. Where none of them
leads to an input, the batch leaves the same files when it is run again. -/
theorem run_keeps_inputs (engine : Engine) (options : BatchOptions) (hl : layout.IsPlain)
    (w : World) (files : List Path) :
    let w' := (w.perform (run engine files options layout)).2
    (∀ p ∈ layout.inputs files, (∀ q ∈ layout.outputs options files, ¬ w.tree.Meet p q) →
      ∀ content, w.tree.read p = .ok content → w'.tree.read p = .ok content) ∧
    ((∀ p ∈ layout.inputs files, ∀ q ∈ layout.outputs options files, ¬ w.tree.Meet p q) →
      (w'.perform (run engine files options layout)).2.tree = w'.tree) := by
  intro w'
  cases hm : OutputMode.select files.length options with
  | combined =>
    have htree : w'.tree = w.tree := run_combined hl.1 hm
    refine ⟨fun p _ _ content hr => by rw [htree]; exact hr, fun _ => run_combined hl.1 hm⟩
  | perFile =>
    -- The places of the outputs.
    have hp : w.tree.LeadTo (layout.outputs options files)
        (fun l => ∃ q ∈ layout.outputs options files, w.tree.locate q = .ok l) :=
      fun q hq l hloc => ⟨q, hq, hloc⟩
    have htree : w'.tree = runStep engine layout options files w.tree := run_tree hl hm
    constructor
    · intro p _ hmeet content hr
      rw [htree, (runStep_agreeOff engine hm hp).read (reached_of_read hr), hr]
      rintro l hloc ⟨q, hq, hlq⟩
      exact hmeet q hq ⟨l, hloc, hlq⟩
    · intro hmeet
      rw [run_tree hl hm, htree, runStep_again hl hm hp]
      rintro p hpin l hloc ⟨q, hq, hlq⟩
      exact hmeet p hpin q hq ⟨l, hloc, hlq⟩

theorem run_keeps_inputs_template :
    let w := holding [("a.xml", "1:A:2\n"), ("a.imports.ts", "// own\n"), ("b.xml", "2:B:3\n")]
    let files := [Path.ofString "a.xml", .ofString "b.xml"]
    let batch := run .echo files ⟨false, true⟩ .standard
    let w' := (w.perform batch).2
    w'.tree.read (.ofString "a.imports.ts") = .ok (octets "// own\n") ∧
      w'.tree.read (.ofString "b.xml") = .ok (octets "2:B:3\n") ∧
      (w'.perform batch).2.tree = w'.tree := by
  intro w files batch w'
  have hmeet : ∀ p ∈ Layout.standard.inputs files,
      ∀ q ∈ Layout.standard.outputs ⟨false, true⟩ files, ¬ w.tree.Meet p q := by
    decide +kernel
  have hplain : Layout.standard.IsPlain := by decide +kernel
  have htemplate : Path.ofString "a.imports.ts" ∈ Layout.standard.inputs files := by
    decide +kernel
  have hfile : Path.ofString "b.xml" ∈ Layout.standard.inputs files := by decide +kernel
  obtain ⟨hkept, hagain⟩ := run_keeps_inputs .echo ⟨false, true⟩ hplain w files
  exact ⟨hkept _ htemplate (hmeet _ htemplate) _ (by decide +kernel),
    hkept _ hfile (hmeet _ hfile) _ (by decide +kernel), hagain hmeet⟩

/-- An artifact takes the place of a template of the batch, and the next run has other code. -/
theorem run_overwrites_template :
    let w := World.start ⟨[([octets "a.xml"], .file (octets "1:A:2\n")),
      ([octets "a.imports.xml"], .file (octets "2:B:3\n")),
      ([octets "a.imports.ts"], .file (octets "// own\n"))], []⟩ none none
    let files := [Path.ofString "a.xml", .ofString "a.imports.xml"]
    let batch := run .echo files ⟨false, false⟩ .standard
    let w' := (w.perform batch).2
    Layout.standard.templatePath (.ofString "a.xml") = .ofString "a.imports.ts" ∧
      w.tree.read (.ofString "a.imports.ts") = .ok (octets "// own\n") ∧
      w'.tree.read (.ofString "a.imports.ts") = .ok (octets "// a.imports\n2:B:3\n") ∧
      (w'.perform batch).2.tree ≠ w'.tree := by
  intro w files batch w'
  decide +kernel

end Batch

end DialectBindings
