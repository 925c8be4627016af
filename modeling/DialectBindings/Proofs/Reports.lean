import DialectBindings.Proofs.Deliveries
import DialectBindings.Proofs.Streams

/-!
# What a batch accounts for

The report of a batch that succeeds names everything that the batch has written: whatever is a file
elsewhere was that file before. New directories on the way to the registry are all that a batch may
leave besides, and where its names have no slashes there are none.
-/

set_option autoImplicit false

namespace DialectBindings
open Text World Results FileTree

namespace FileTree

variable {t u v : FileTree}

/-- One tree has the nodes of another, and at most new directories besides. -/
structure Extends (t u : FileTree) : Prop where
  workingDirectory : u.workingDirectory = t.workingDirectory
  nodes : ∀ l, u.get? l = t.get? l ∨ t.get? l = none ∧ u.get? l = some .directory

theorem Extends.refl (t : FileTree) : Extends t t := ⟨rfl, fun _ => .inl rfl⟩

theorem Extends.trans (h : Extends t u) (h' : Extends u v) : Extends t v := by
  refine ⟨h'.workingDirectory.trans h.workingDirectory, fun l => ?_⟩
  obtain hu | ⟨hu, hnew⟩ := h'.nodes l
  · rw [hu]
    exact h.nodes l
  · obtain ht | ⟨-, ht⟩ := h.nodes l
    · exact .inr ⟨ht.symm.trans hu, hnew⟩
    · cases ht.symm.trans hu

theorem Extends.sameFiles (h : Extends t u) : SameFiles t u := by
  intro l content
  obtain hu | ⟨ht, hu⟩ := h.nodes l
  · rw [hu]
  · simp [ht, hu]

theorem Extends.locate {p : Path} {l : Location} (h : Extends t u) (hl : t.locate p = .ok l) :
    u.locate p = .ok l := by
  obtain ⟨hc, hf⟩ := locate_ok.1 hl
  have hs : u.start p = t.start p := by rw [FileTree.start, FileTree.start, h.workingDirectory]
  refine locate_ok.2 ⟨hc, ?_⟩
  rw [hs]
  refine follow_kept (fun j hj => ?_) hf
  obtain hu | ⟨hn, -⟩ := h.nodes j
  · rw [hu, hj]
  · cases hn.symm.trans hj

theorem makeDirectory_extends {p : Path} (h : t.makeDirectory p = .ok u) : Extends t u := by
  obtain ⟨l, name, -, hn, rfl⟩ := makeDirectory_ok h
  refine ⟨rfl, fun k => ?_⟩
  rw [get?_set t (List.cons_ne_nil name l)]
  split
  · rename_i hk
    exact .inr ⟨hk ▸ hn, rfl⟩
  · exact .inl rfl

end FileTree

namespace World

def Adds (act : StateM World (Except IoFault Unit)) : Prop :=
  ∀ w : World, Extends w.tree (act w).2.tree

theorem Adds.pure (answer : Except IoFault Unit) : Adds (Pure.pure answer) := fun w => .refl w.tree

theorem Adds.bind {act : StateM World (Except IoFault Unit)}
    {next : Except IoFault Unit → StateM World (Except IoFault Unit)} (ha : Adds act)
    (hn : ∀ answer, Adds (next answer)) : Adds (act >>= next) :=
  fun w => (ha w).trans (hn (act w).1 (act w).2)

theorem settle_adds (p : Path) (fault : IoFault) :
    Adds (Host.ensureDirectory.settle p fault) := by
  intro w
  rw [settle_apply]
  exact .refl w.tree

theorem makeDirectory_adds (p : Path) : Adds (Host.makeDirectory p) := by
  intro w
  change Extends w.tree (w.tree.attempt (·.makeDirectory p)).2
  rw [attempt]
  split
  · rename_i h
    exact makeDirectory_extends h
  · exact .refl w.tree

theorem ensureDirectory_adds (p : Path) : Adds (Host.ensureDirectory p) :=
  Host.ensureDirectory_closed .pure (fun _ _ => .bind) makeDirectory_adds settle_adds p

end World

theorem Artifact.write_extends {a : Artifact} {w w' : World}
    (h : w.perform a.write = (.ok (), w')) :
    ∃ tree, Extends w.tree tree ∧ tree.write a.path (octets a.content) = .ok w'.tree := by
  rw [write_steps, perform_bind_ok] at h
  obtain ⟨_, w₁, hp, h⟩ := h
  have he : Extends w.tree w₁.tree := by
    rw [prepare] at hp
    split at hp
    · rename_i parent _
      rw [perform_orFail] at hp
      obtain ⟨-, rfl⟩ := Prod.mk.inj hp
      exact ensureDirectory_adds parent w
    · cases hp
      exact .refl _
  obtain ⟨_, w₂, hw, h⟩ := perform_bind_ok.1 h
  cases h
  rw [perform_write] at hw
  split at hw
  · rename_i tree ht
    cases hw
    exact ⟨w₁.tree, he, ht⟩
  · cases hw

namespace Batch

variable {engine : Engine} {layout : Layout} {options : BatchOptions} {w w' : World}

/-- What a report says of the files that a batch has left. -/
structure Accounted (engine : Engine) (layout : Layout) (options : BatchOptions)
    (files : List Path) (w w' : World) (report : BatchReport) : Prop where
  mode : report.mode = .select files.length options
  registry : report.registry =
    if options.magic then files.head?.map layout.registryPath else none
  written : report.mode = .perFile →
    report.artifacts.map some = files.map layout.artifactPath? ∧ w'.output = w.output
  sent : report.mode = .combined → report.artifacts = [] ∧ w'.tree = w.tree ∧
    (files = [] ∧ w'.output = w.output ∨
      ∃ file i, files = [file] ∧ Invocation.answer engine layout w.tree file = .ok i ∧
        w'.output.taken = w.output.taken ++ octets i.code)
  elsewhere : ∀ l, (∀ p ∈ report.artifacts ++ report.registry.toList, w'.tree.locate p ≠ .ok l) →
    ∀ content, w'.tree.get? l = some (.file content) ↔ w.tree.get? l = some (.file content)
  directories : layout.IsPlain →
    ∀ l, w'.tree.get? l = some .directory ↔ w.tree.get? l = some .directory

theorem finish_accounted {files : List Path} {mode : OutputMode} {done : Done}
    {report : BatchReport}
    (h : w.perform (finish layout options files mode done) = (.ok report, w')) :
    report.mode = mode ∧ report.artifacts = done.artifacts ∧
      report.registry = (if options.magic then files.head?.map layout.registryPath else none) ∧
      (report.registry = none ∧ w'.tree = w.tree ∨ ∃ path, report.registry = some path ∧
        w.perform (Artifact.write ⟨path, done.magicNumbers.render⟩) = (.ok (), w')) := by
  rw [finish, perform_bind_ok] at h
  obtain ⟨registry, w₁, hw, h⟩ := h
  cases h
  refine ⟨rfl, rfl, ?_⟩
  obtain ⟨write, magic⟩ := options
  cases magic with
  | false =>
    cases files <;> cases hw <;> exact ⟨rfl, .inl ⟨rfl, rfl⟩⟩
  | true =>
    cases files with
    | nil =>
      cases hw
      exact ⟨rfl, .inl ⟨rfl, rfl⟩⟩
    | cons first rest =>
      obtain ⟨_, w₂, ha, hw⟩ := perform_bind_ok.1 hw
      cases hw
      exact ⟨rfl, .inr ⟨_, rfl, ha⟩⟩

theorem filterMap_of_map {files artifacts : List Path}
    (h : artifacts.map some = files.map layout.artifactPath?) :
    files.filterMap layout.artifactPath? = artifacts := by
  have hid := congrArg (List.filterMap id) h
  simpa [List.filterMap_map] using hid.symm

theorem filesStep_accounted {files : List Path} {done : Done} {t u : FileTree}
    (h : filesStep engine layout .nothing t files = (.ok done, u)) :
    done.artifacts.map some = files.map layout.artifactPath? ∧
      AgreeOff (fun l => ∃ p ∈ done.artifacts, u.locate p = .ok l) t u := by
  have hpaths := (filesStep_holds (w := .start t none none) h).1
  refine ⟨hpaths, ?_⟩
  have hu : (filesStep engine layout .nothing t files).2 = u := by rw [h]
  have ha : AgreeOff (fun l => ∃ p ∈ done.artifacts, t.locate p = .ok l) t u := by
    rw [← hu]
    refine filesStep_agreeOff fun p hp l hl => ⟨p, ?_, hl⟩
    rwa [← filterMap_of_map hpaths]
  refine ⟨ha.workingDirectory, ha.directories, fun l hl => ha.elsewhere l ?_⟩
  rintro ⟨p, hp, hlp⟩
  exact hl ⟨p, hp, ha.locate_of_ok hlp⟩

theorem run_written_accounted {files : List Path} {report : BatchReport}
    (hm : OutputMode.select files.length options = .perFile)
    (h : w.perform (run engine files options layout) = (.ok report, w')) :
    Accounted engine layout options files w w' report := by
  obtain ⟨done, w₁, hsteps, hend⟩ := filesStep_of_run hm h
  obtain ⟨hmode, hartifacts, hregistry, hlast⟩ := finish_accounted hend
  obtain ⟨hpaths, hagree⟩ := filesStep_accounted hsteps
  rw [← hartifacts] at hpaths hagree
  refine ⟨by rw [hm, hmode], hregistry, fun _ => ⟨hpaths, (run_silent hm).output h⟩,
    fun hc => absurd (hmode.symm.trans hc) nofun, fun l hl content => ?elsewhere,
    fun hplain l => ?directories⟩
  case elsewhere =>
    obtain ⟨-, htree⟩ | ⟨path, hsome, hwrite⟩ := hlast
    · rw [htree] at hl ⊢
      rw [hagree.elsewhere l]
      rintro ⟨p, hp, hlp⟩
      exact hl p (List.mem_append_left _ hp) hlp
    · obtain ⟨tree, hext, hwrite⟩ := Artifact.write_extends hwrite
      obtain ⟨-, k, hk, hfree, htree, -⟩ := (AgreeOff.refl (fun _ => False) tree).write hwrite
      have ha : AgreeOff (· = k) tree w'.tree := by
        rw [htree]
        exact set_agreeOff _ rfl hfree
      -- What the report names leads to the same place all along.
      have hlk : l ≠ k := by
        rintro rfl
        exact hl path (by simp [hsome]) (ha.locate_of_ok hk)
      have hlp : ¬ ∃ p ∈ report.artifacts, w₁.tree.locate p = .ok l := by
        rintro ⟨p, hp, hlp⟩
        exact hl p (List.mem_append_left _ hp) (ha.locate_of_ok (hext.locate hlp))
      rw [ha.elsewhere l hlk, hext.sameFiles l content, hagree.elsewhere l hlp]
  case directories =>
    rw [← hagree.directories l]
    have hdir (first : Path) (hfirst : files.head? = some first) :
        Artifact.HasDirectory w₁.tree (layout.registryPath first) := by
      have hd := filesStep_registry hplain (congrArg Prod.fst hsteps) first hfirst
      rw [hsteps] at hd
      exact hd.2
    obtain ⟨-, htree⟩ | ⟨path, -, hwrite⟩ := (finish_report hend).2.2.2 hdir
    · rw [show w'.tree = w₁.tree from htree]
    · obtain ⟨-, k, -, hfree, htree, -⟩ := (AgreeOff.refl (fun _ => False) w₁.tree).write hwrite
      have ha : AgreeOff (· = k) w₁.tree w'.tree := by
        rw [show w'.tree = _ from htree]
        exact set_agreeOff _ rfl hfree
      exact ha.directories l

theorem accounted_of_run {files : List Path} {report : BatchReport}
    (h : w.perform (run engine files options layout) = (.ok report, w')) :
    Accounted engine layout options files w w' report := by
  cases hm : OutputMode.select files.length options with
  | perFile => exact run_written_accounted hm h
  | combined =>
    obtain ⟨hartifacts, hregistry, htree, hsent⟩ := run_sends hm h
    obtain ⟨done, w₁, hf⟩ := doFiles_of_run h
    obtain ⟨log, hr⟩ := run_of_done hf
    have hmode := (finish_accounted (hr.symm.trans h)).1
    have hmagic := (select_combined hm).2.1
    refine ⟨hmode, by simp [hregistry, hmagic], fun hp => ?_, fun _ => ⟨hartifacts, htree, hsent⟩,
      fun l _ content => by rw [htree], fun _ l => by rw [htree]⟩
    rw [hmode, hm] at hp
    cases hp

/-- A batch that succeeds has written what its report names, and nothing else. -/
theorem run_accounted {files : List Path} {report : BatchReport}
    (h : w.perform (run engine files options layout) = (.ok report, w')) :
    Accounted engine layout options files w w' report :=
  accounted_of_run h

theorem run_accounted_registry :
    let w := holding [("a.xml", "1:A:2\n"), ("b.xml", "2:B:3\n"), ("c.ts", "// other\n")]
    let files := [Path.ofString "a.xml", .ofString "b.xml"]
    ∃ report w', w.perform (run .echo files ⟨false, true⟩ .standard) = (.ok report, w') ∧
      report.artifacts = [.ofString "a.ts", .ofString "b.ts"] ∧
      report.registry = some (.ofString "magic-numbers.ts") ∧
      Accounted .echo .standard ⟨false, true⟩ files w w' report ∧ Layout.standard.IsPlain := by
  intro w files
  have h : (w.perform (run .echo files ⟨false, true⟩ .standard)).1.map
      (fun report => (report.artifacts, report.registry)) =
        .ok ([.ofString "a.ts", .ofString "b.ts"], some (.ofString "magic-numbers.ts")) := by
    decide +kernel
  obtain ⟨report, h, hparts⟩ := perform_eq_ok_of_map h
  obtain ⟨hartifacts, hregistry⟩ := Prod.mk.inj hparts
  exact ⟨report, _, h, hartifacts, hregistry, run_accounted h, by decide +kernel⟩

/-- Whatever has changed below the working directory is a file that the report names. -/
theorem run_changes {files : List Path} {report : BatchReport} {p : Path} {n : Node}
    (hl : layout.IsPlain) (h : w.perform (run engine files options layout) = (.ok report, w'))
    (hc : (p, n) ∈ w.tree.changes w'.tree) :
    (∃ content, n = .file content) ∧ ∃ named ∈ report.artifacts ++ report.registry.toList,
      ∃ l, w'.tree.locate named = .ok l ∧ relative? w'.tree.workingDirectory l = some p := by
  have ha := accounted_of_run h
  obtain ⟨l, hnew, hold, hp⟩ := mem_changes.1 hc
  cases n with
  | directory => exact absurd ((ha.directories hl l).1 hnew) hold
  | file content =>
    refine ⟨⟨content, rfl⟩, ?_⟩
    by_contra hnone
    refine hold ((ha.elsewhere l (fun named hmem hloc => ?_) content).1 hnew)
    exact hnone ⟨named, hmem, l, hloc, hp⟩

end Batch

end DialectBindings
