import DialectBindings.Proofs.Failures
import DialectBindings.Proofs.Overlays

/-!
# Batches that write artifacts

What each file of such a batch does to a tree, as a function of the tree: nothing if it fails,
else one file is written. A batch over files is these one after the other, and then the registry.
-/

set_option autoImplicit false

namespace DialectBindings
open Text World Results

namespace World

def outcome {α : Type} (w : World) (step : Host.Step (StateM World) α) :
    Except Failure α × FileTree :=
  ((w.perform step).1, (w.perform step).2.tree)

variable {α β : Type} {w : World} {step : Host.Step (StateM World) α} {tree : FileTree}

theorem outcome_bind_error {next : α → Host.Step (StateM World) β} {e : Failure}
    (h : w.outcome step = (.error e, tree)) : w.outcome (step >>= next) = (.error e, tree) := by
  obtain ⟨ha, rfl⟩ := Prod.mk.inj h
  rw [outcome, perform_bind, perform_eq_error ha]

theorem outcome_bind_ok {next : α → Host.Step (StateM World) β} {a : α}
    (h : w.outcome step = (.ok a, tree)) :
    ∃ w' : World, w'.tree = tree ∧ w.outcome (step >>= next) = w'.outcome (next a) := by
  obtain ⟨ha, rfl⟩ := Prod.mk.inj h
  refine ⟨_, rfl, ?_⟩
  rw [outcome, perform_bind, show w.perform step = (.ok a, (w.perform step).2) from Prod.ext ha rfl]
  rfl

end World

namespace Artifact

theorem perform_write_there {a : Artifact} {w : World} (h : HasDirectory w.tree a.path) :
    w.perform a.write =
      match w.tree.write a.path (octets a.content) with
      | .ok tree => (.ok (), { w with tree := tree, log := w.log ++ [.wrote a.path a.size] })
      | .error fault => (.error (.write a.path fault), w) := by
  obtain ⟨answer, tree, -, hk, ha⟩ := prepare_apply a w.tree
  obtain ⟨rfl, rfl⟩ := hk h
  have ha : w.perform a.prepare = (.ok (), w) := ha w.output w.display w.log
  rw [write_steps, perform_bind, ha]
  dsimp only
  rw [perform_bind, perform_write]
  cases w.tree.write a.path (octets a.content) <;> rfl

end Artifact

namespace Batch

variable {engine : Engine} {layout : Layout} {options : BatchOptions} {t u : FileTree}

def fileStep (engine : Engine) (layout : Layout) (done : Done) (file : Path) (t : FileTree) :
    Except Failure (Done × FileTree) := do
  let invocation ← Invocation.answer engine layout t file
  match layout.artifactPath? file with
  | none => .error (.extension file layout.extension)
  | some path =>
    let written ← (t.write path (octets invocation.code)).mapError (.write path)
    return (⟨done.magicNumbers.addAll invocation.descriptors.messages, done.artifacts ++ [path]⟩,
      written)

theorem doFile_outcome (engine : Engine) (layout : Layout) (w : World) (done : Done)
    (file : Path) :
    w.outcome (doFile engine layout .perFile done file) =
      match fileStep engine layout done file w.tree with
      | .ok (done', tree) => (.ok done', tree)
      | .error e => (.error e, w.tree) := by
  obtain ⟨told, hr⟩ := Invocation.perform_run engine layout w.tree file
  have hr : w.perform (Invocation.run engine layout file) = _ := hr w.output w.display w.log
  rw [outcome, doFile, perform_bind, hr, fileStep]
  cases ha : Invocation.answer engine layout w.tree file with
  | error e => rfl
  | ok i =>
    obtain ⟨source, -, hs, -, -⟩ := Invocation.answer_done ha
    simp only [ok_bind, perform_bind, perform_forM, Delivery.deliver]
    cases hp : layout.artifactPath? file with
    | none => rfl
    | some path =>
      have hd := Delivery.hasDirectory_of_source hs hp
      dsimp only
      rw [perform_bind, Artifact.perform_write_there (by exact hd)]
      cases w.tree.write path (octets i.code) <;> rfl

/-- The files of a batch one after the other, up to the first that fails. -/
def filesStep (engine : Engine) (layout : Layout) (done : Done) (t : FileTree) :
    List Path → Except Failure Done × FileTree
  | [] => (.ok done, t)
  | file :: rest =>
    match fileStep engine layout done file t with
    | .error e => (.error e, t)
    | .ok (done, t) => filesStep engine layout done t rest

theorem showFile_outcome (engine : Engine) (layout : Layout) (w : World) (done : Done)
    (file : Path) :
    w.outcome (showFile engine layout .perFile done file) =
      match fileStep engine layout done file w.tree with
      | .ok (done', tree) => (.ok done', tree)
      | .error e => (.error e, w.tree) := by
  rw [World.outcome, perform_showFile]
  exact doFile_outcome engine layout (w.displaying (started file)) done file

theorem doFiles_outcome (engine : Engine) (layout : Layout) (w : World) (done : Done)
    (files : List Path) :
    w.outcome (doFiles engine layout .perFile done files) =
      filesStep engine layout done w.tree files := by
  induction files generalizing w done with
  | nil => rfl
  | cons file files ih =>
    have h := showFile_outcome engine layout w done file
    rw [doFiles, filesStep]
    cases hf : fileStep engine layout done file w.tree with
    | error e =>
      rw [hf] at h
      exact outcome_bind_error h
    | ok found =>
      rw [hf] at h
      obtain ⟨w', ht, h⟩ := outcome_bind_ok h
      rw [h, ih, ht]

def registryStep (layout : Layout) (options : BatchOptions) (files : List Path)
    (numbers : Registry) (t : FileTree) : Except IoFault FileTree :=
  match options.magic, files with
  | true, first :: _ => t.write (layout.registryPath first) (octets numbers.render)
  | _, _ => .ok t

theorem finish_tree {w : World} {files : List Path} {mode : OutputMode} {done : Done}
    (hd : ∀ first, files.head? = some first →
      Artifact.HasDirectory w.tree (layout.registryPath first)) :
    (w.perform (finish layout options files mode done)).2.tree =
      (w.tree.attempt (registryStep layout options files done.magicNumbers)).2 := by
  cases hm : options.magic with
  | false => simp only [finish, writeRegistry, registryStep, hm, FileTree.attempt]; rfl
  | true =>
    cases files with
    | nil => simp only [finish, writeRegistry, registryStep, hm, FileTree.attempt]; rfl
    | cons first rest =>
      simp only [finish, writeRegistry, registryStep, hm, perform_bind, FileTree.attempt]
      rw [Artifact.perform_write_there (by exact hd first rfl)]
      cases w.tree.write (layout.registryPath first) (octets done.magicNumbers.render) <;> rfl

theorem fileStep_ok {done done' : Done} {file : Path}
    (h : fileStep engine layout done file t = .ok (done', u)) :
    ∃ invocation path, Invocation.answer engine layout t file = .ok invocation ∧
      layout.artifactPath? file = some path ∧
      t.write path (octets invocation.code) = .ok u ∧
      done' = ⟨done.magicNumbers.addAll invocation.descriptors.messages,
        done.artifacts ++ [path]⟩ := by
  obtain ⟨invocation, hi, h⟩ := bind_eq_ok.1 h
  split at h
  · cases h
  · rename_i path hp
    obtain ⟨written, hw, h⟩ := bind_eq_ok.1 h
    cases h
    exact ⟨invocation, path, hi, hp, mapError_eq_ok.1 hw, rfl⟩

theorem fileStep_located {done done' : Done} {file : Path}
    (h : fileStep engine layout done file t = .ok (done', u)) :
    ∃ invocation path l, Invocation.answer engine layout t file = .ok invocation ∧
      layout.artifactPath? file = some path ∧ t.locate path = .ok l ∧ FileTree.Free t l ∧
      u = t.set l (.file (octets invocation.code)) ∧ u.read path = .ok (octets invocation.code) ∧
      done' = ⟨done.magicNumbers.addAll invocation.descriptors.messages,
        done.artifacts ++ [path]⟩ := by
  obtain ⟨invocation, path, hi, hp, hw, hd⟩ := fileStep_ok h
  obtain ⟨-, l, hl, hf, hu, -⟩ := (FileTree.AgreeOff.refl (fun _ => False) t).write hw
  exact ⟨invocation, path, l, hi, hp, hl, hf, hu, FileTree.read_write hw, hd⟩

section
variable {places : Location → Prop}

theorem filesStep_agreeOff {done : Done} {files : List Path}
    (hp : t.LeadTo (files.filterMap layout.artifactPath?) places) :
    FileTree.AgreeOff places t (filesStep engine layout done t files).2 := by
  induction files generalizing done t with
  | nil => exact .refl places t
  | cons file files ih =>
    rw [filesStep]
    cases hf : fileStep engine layout done file t with
    | error e => exact .refl places t
    | ok found =>
      obtain ⟨done', t'⟩ := found
      obtain ⟨invocation, path, l, -, hpath, hl, hfree, rfl, -⟩ := fileStep_located hf
      have hm : path ∈ (file :: files).filterMap layout.artifactPath? :=
        List.mem_filterMap.2 ⟨file, List.mem_cons_self, hpath⟩
      have hset := FileTree.set_agreeOff (octets invocation.code) (hp path hm l hl) hfree
      refine hset.trans (ih (hset.leadTo fun q hq => hp q ?_))
      rw [List.filterMap_cons, hpath]
      exact List.mem_cons_of_mem _ hq

end

theorem filesStep_first {done done' : Done} {first : Path} {rest : List Path}
    (h : (filesStep engine layout done t (first :: rest)).1 = .ok done') :
    ∃ content, t.read first = .ok content := by
  rw [filesStep] at h
  cases hf : fileStep engine layout done first t with
  | error e =>
    rw [hf] at h
    cases h
  | ok found =>
    obtain ⟨invocation, path, hi, -⟩ := fileStep_ok hf
    obtain ⟨source, generated, hs, -⟩ := Invocation.answer_done hi
    obtain ⟨content, hr, -⟩ := bind_eq_ok.1 hs
    exact ⟨content, hr⟩

theorem filesStep_registry {done done' : Done} {files : List Path} (hl : layout.IsPlain)
    (h : (filesStep engine layout done t files).1 = .ok done') (first : Path)
    (hfirst : files.head? = some first) :
    FileTree.Reached (filesStep engine layout done t files).2 (layout.registryPath first) ∧
      Artifact.HasDirectory (filesStep engine layout done t files).2
        (layout.registryPath first) := by
  obtain ⟨rest, rfl⟩ := List.head?_eq_some_iff.1 hfirst
  obtain ⟨content, hr⟩ := filesStep_first h
  obtain ⟨parent, hparent⟩ := FileTree.parent?_of_read hr
  have hb := Layout.registryPath_beside hl hparent
  have ha : FileTree.AgreeOff (fun _ => True) t
      (filesStep engine layout done t (first :: rest)).2 :=
    filesStep_agreeOff fun _ _ _ _ => trivial
  exact ⟨ha.reached (FileTree.reached_of_beside hr hb),
    ha.hasDirectory (FileTree.hasDirectory_of_beside hr hb)⟩

/-- A batch that writes artifacts: its files, and then the registry. -/
def runStep (engine : Engine) (layout : Layout) (options : BatchOptions) (files : List Path)
    (t : FileTree) : FileTree :=
  match filesStep engine layout .nothing t files with
  | (.error _, t) => t
  | (.ok done, t) => (t.attempt (registryStep layout options files done.magicNumbers)).2

theorem run_tree {w : World} {files : List Path} (hl : layout.IsPlain)
    (hm : OutputMode.select files.length options = .perFile) :
    (w.perform (run engine files options layout)).2.tree =
      runStep engine layout options files w.tree := by
  have h := doFiles_outcome engine layout w .nothing files
  rcases hf : w.perform (doFiles engine layout .perFile .nothing files) with ⟨e | done, w₁⟩
  · rw [outcome, hf] at h
    rw [← hm] at hf
    obtain ⟨log, hr⟩ := run_of_failed hf
    rw [hr, runStep, ← h]
  · rw [outcome, hf] at h
    rw [← hm] at hf
    obtain ⟨log, hr⟩ := run_of_done hf
    rw [hr, runStep, ← h]
    apply finish_tree
    intro first hfirst
    have hd := filesStep_registry hl (congrArg Prod.fst h.symm) first hfirst
    rw [← h] at hd
    exact hd.2

theorem filesStep_of_run {w w' : World} {files : List Path} {report : BatchReport}
    (hm : OutputMode.select files.length options = .perFile)
    (h : w.perform (run engine files options layout) = (.ok report, w')) :
    ∃ done, ∃ w₁ : World,
      filesStep engine layout .nothing w.tree files = (.ok done, w₁.tree) ∧
      w₁.perform (finish layout options files .perFile done) = (.ok report, w') := by
  obtain ⟨done, w₁, hf⟩ := doFiles_of_run h
  obtain ⟨log, hr⟩ := run_of_done hf
  rw [hm] at hf hr
  refine ⟨done, { w₁ with log := log }, ?_, hr.symm.trans h⟩
  rw [← doFiles_outcome, outcome, hf]

theorem doFiles_combined {w : World} {done : Done} {files : List Path}
    (hl : layout.hasPlainExtension = true) :
    (w.perform (doFiles engine layout .combined done files)).2.tree = w.tree := by
  induction files generalizing w done with
  | nil => rfl
  | cons file files ih =>
    rw [doFiles, perform_bind]
    rcases hf : w.perform (showFile engine layout .combined done file) with ⟨e | done', w₁⟩
    · obtain ⟨w₂, hd, rfl⟩ := showFile_failed hf
      exact (doFile_failed hl hd).1
    · obtain ⟨w₂, hd, rfl⟩ := showFile_done hf
      exact ih.trans ((doFile_done hd).2.1 rfl)

theorem run_combined {w : World} {files : List Path} (hl : layout.hasPlainExtension = true)
    (hm : OutputMode.select files.length options = .combined) :
    (w.perform (run engine files options layout)).2.tree = w.tree := by
  have htree : (w.perform (doFiles engine layout .combined .nothing files)).2.tree = w.tree :=
    doFiles_combined hl
  rcases hf : w.perform (doFiles engine layout .combined .nothing files) with ⟨e | done, w₁⟩
  · rw [hf] at htree
    rw [← hm] at hf
    obtain ⟨log, hr⟩ := run_of_failed hf
    rw [hr]
    exact htree
  · rw [hf] at htree
    rw [← hm] at hf
    obtain ⟨log, hr⟩ := run_of_done hf
    obtain ⟨write, magic⟩ := options
    obtain ⟨-, rfl, -⟩ := select_combined hm
    rw [hr, finish_plain]
    exact htree

end Batch

end DialectBindings
