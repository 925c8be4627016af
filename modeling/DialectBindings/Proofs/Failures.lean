import DialectBindings.Engine.Plain
import DialectBindings.Proofs.Batches
import Mathlib.Logic.Basic

/-!
# How a batch fails

A batch that fails ended at one of its files, with the tree of a run over the files before it,
or it was done with all files and could not write the registry.
-/

set_option autoImplicit false

namespace DialectBindings.Batch
open Results Text World

variable {engine : Engine} {layout : Layout} {options : BatchOptions}

/-- A batch over `before ++ file :: after` that ended at `file`. -/
structure StoppedAt (engine : Engine) (layout : Layout) (options : BatchOptions)
    (before : List Path) (file : Path) (after : List Path) (w w' : World) (e : Failure) :
    Prop where
  /-- The files before are done, and their artifacts are all that is written. -/
  before_done : ∃ report w₁, w.perform (run engine before ⟨true, false⟩ layout) =
    (.ok report, w₁) ∧ w'.tree = w₁.tree
  /-- The file itself fails, whatever is to be done about the registry. -/
  file_failed : ∃ w₁, w.perform (run engine (before ++ [file])
    ⟨OutputMode.select (before ++ file :: after).length options = .perFile, false⟩ layout) =
      (.error e, w₁)
  /-- Any other files in the place of those after it would do as well. -/
  after_ignored : ∀ other, other.length = after.length →
    w.perform (run engine (before ++ file :: other) options layout) = (.error e, w')
  combined_kept :
    OutputMode.select (before ++ file :: after).length options = .combined → w'.tree = w.tree
  shown : w'.display =
    w.display.accept (octets (String.join (before.map doneLine) ++ failedLine file))
  blamed : e.path = file ∨ e.path = layout.templatePath file ∨
    e.path = Delivery.streamPath ∨ layout.artifactPath? file = some e.path

/-- A batch that was done with its files and could not write the registry. -/
structure RegistryUnwritten (engine : Engine) (layout : Layout) (options : BatchOptions)
    (files : List Path) (w w' : World) (e : Failure) : Prop where
  asked : options.magic = true
  files_done : ∃ report w₁, w.perform (run engine files ⟨true, false⟩ layout) =
    (.ok report, w₁) ∧ w₁.tree.SameFiles w'.tree
  shown : w'.display = w.display.accept (octets (String.join (files.map doneLine)))
  blamed : ∃ first, files.head? = some first ∧ e.path = layout.registryPath first

theorem select_combined {n : Nat} (h : OutputMode.select n options = .combined) :
    options.write = false ∧ options.magic = false ∧ n ≤ 1 := by
  rw [OutputMode.select] at h
  split at h
  · cases h
  · simp_all

theorem select_magic {n : Nat} (h : options.magic = true) :
    OutputMode.select n options = .perFile := by
  rw [OutputMode.select, h]
  simp

theorem before_combined {before after : List Path} {file : Path}
    (h : OutputMode.select (before ++ file :: after).length options = .combined) : before = [] := by
  obtain ⟨-, -, hn⟩ := select_combined h
  rw [List.length_append, List.length_cons] at hn
  apply List.eq_nil_of_length_eq_zero
  omega

theorem select_first {k n : Nat} (h : k ≤ n) :
    OutputMode.select k ⟨OutputMode.select n options = .perFile, false⟩ =
      OutputMode.select n options := by
  cases hm : OutputMode.select n options with
  | perFile => rfl
  | combined =>
    obtain ⟨-, -, hn⟩ := select_combined hm
    rw [OutputMode.select, if_neg]
    simpa using Nat.le_trans h hn

theorem run_of_stopped {before : List Path} {file : Path} {done : Done} {n : Nat}
    {w w₁ w₂ : World} {e : Failure}
    (hb : w.perform (doFiles engine layout (.select n options) .nothing before) = (.ok done, w₁))
    (hf : w₁.perform (showFile engine layout (.select n options) done file) = (.error e, w₂)) :
    ∃ log, ∀ after, (before ++ file :: after).length = n →
      w.perform (run engine (before ++ file :: after) options layout) =
        (.error e, { w₂ with log := log }) := by
  -- The starting event tells the number of files, so only the log has to be carried over.
  obtain ⟨log₁, hb⟩ := (doFiles_blind _ before).log hb (w.log ++ [.starting (.select n options) n])
  obtain ⟨log₂, hf⟩ := (showFile_blind _ file).log hf log₁
  refine ⟨log₂, fun after hn => ?_⟩
  subst hn
  rw [perform_run, perform_bind, doFiles_of_failed hb hf]

theorem run_of_before {before after : List Path} {file : Path} {done : Done} {w w₁ : World}
    (hb : w.perform (doFiles engine layout
      (.select (before ++ file :: after).length options) .nothing before) = (.ok done, w₁)) :
    ∃ report w', w.perform (run engine before ⟨true, false⟩ layout) = (.ok report, w') ∧
      w'.tree = w₁.tree := by
  cases hm : OutputMode.select (before ++ file :: after).length options with
  | perFile =>
    rw [hm] at hb
    exact run_written hb
  | combined =>
    obtain rfl := before_combined hm
    obtain ⟨-, rfl⟩ := Prod.mk.inj (hb.symm.trans (perform_pure w Done.nothing))
    exact run_written (perform_pure w₁ Done.nothing)

theorem stoppedAt {before after : List Path} {file : Path} {done : Done}
    {w w₁ w₂ : World} {e : Failure} (hl : layout.hasPlainExtension = true)
    (hb : w.perform (doFiles engine layout
      (.select (before ++ file :: after).length options) .nothing before) = (.ok done, w₁))
    (hf : w₁.perform (showFile engine layout
      (.select (before ++ file :: after).length options) done file) = (.error e, w₂)) :
    ∃ log, StoppedAt engine layout options before file after w { w₂ with log := log } e ∧
      w.perform (run engine (before ++ file :: after) options layout) =
        (.error e, { w₂ with log := log }) := by
  obtain ⟨log, hrun⟩ := run_of_stopped hb hf
  have hn : (before ++ [file]).length ≤ (before ++ file :: after).length := by simp
  obtain ⟨w₃, hd, rfl⟩ := showFile_failed hf
  obtain ⟨htree, hdisplay, hpath⟩ := doFile_failed hl hd
  refine ⟨log, ⟨?before_done, ?file_failed, ?after_ignored, ?combined_kept, ?shown, ?blamed⟩,
    hrun after rfl⟩
  case before_done =>
    obtain ⟨report, w', hr, ht⟩ := run_of_before hb
    exact ⟨report, w', hr, htree.trans ht.symm⟩
  case file_failed =>
    rw [← select_first hn] at hb hf
    obtain ⟨log, hr⟩ := run_of_stopped hb hf
    exact ⟨_, hr [] rfl⟩
  case after_ignored =>
    intro other ho
    exact hrun other (by simp [ho])
  case combined_kept =>
    intro hm
    obtain rfl := before_combined hm
    obtain ⟨-, rfl⟩ := Prod.mk.inj (hb.symm.trans (perform_pure w Done.nothing))
    exact htree
  case shown =>
    change w₃.display.accept (octets "\n") = _
    rw [hdisplay, displaying, doFiles_display hb]
    simp only [Sink.accept_append, octets_append, failedLine, List.append_assoc]
  case blamed =>
    obtain h | h | ⟨-, h⟩ | ⟨-, h⟩ := hpath
    · exact .inl h
    · exact .inr (.inl h)
    · exact .inr (.inr (.inl h))
    · exact .inr (.inr (.inr h))

theorem registryUnwritten {files : List Path} {done : Done} {log : List Event} {w w₁ w' : World}
    {e : Failure}
    (hf : w.perform (doFiles engine layout (.select files.length options) .nothing files) =
      (.ok done, w₁))
    (h : ({ w₁ with log := log }).perform
      (finish layout options files (.select files.length options) done) = (.error e, w')) :
    RegistryUnwritten engine layout options files w w' e := by
  obtain ⟨hm, first, hfirst, hw⟩ := finish_failed h
  obtain ⟨tree, fault, hs, rfl, -, rfl⟩ := Artifact.write_failed hw
  have hshown : w₁.display = _ := doFiles_display hf
  refine ⟨hm, ?_, hshown, first, hfirst, rfl⟩
  rw [select_magic hm] at hf
  obtain ⟨report, w₂, hr, ht⟩ := run_written hf
  exact ⟨report, w₂, hr, ht ▸ hs⟩

theorem RegistryUnwritten.not_stoppedAt {before after : List Path} {file : Path} {w w' : World}
    {e : Failure}
    (hu : RegistryUnwritten engine layout options (before ++ file :: after) w w' e) :
    ¬ StoppedAt engine layout options before file after w w' e := by
  intro hs
  obtain ⟨w₁, hf⟩ := hs.file_failed
  obtain ⟨report, w₂, hd, -⟩ := hu.files_done
  obtain ⟨done, w₃, hd⟩ := doFiles_of_run hd
  rw [select_magic hu.asked] at hf
  rw [List.append_cons, doFiles_append, perform_bind_ok] at hd
  obtain ⟨done', w₄, hb, -⟩ := hd
  obtain ⟨report', w₅, hr, -⟩ := run_written hb
  cases hf.symm.trans hr

/-- A batch that fails either stopped at one of its files or could not write its registry. -/
theorem run_failed {files : List Path} {w w' : World} {e : Failure}
    (hl : layout.hasPlainExtension = true)
    (h : w.perform (run engine files options layout) = (.error e, w')) :
    Xor (∃ before file after, files = before ++ file :: after ∧
        StoppedAt engine layout options before file after w w' e)
      (RegistryUnwritten engine layout options files w w' e) := by
  rcases hf : w.perform (doFiles engine layout (.select files.length options) .nothing files) with
    ⟨e₁ | done, w₁⟩
  · obtain ⟨before, file, after, done, w₂, rfl, hb, hs⟩ := doFiles_failed hf
    obtain ⟨log, hstopped, hr⟩ := stoppedAt hl hb hs
    obtain ⟨he, rfl⟩ := Prod.mk.inj (h.symm.trans hr)
    cases he
    exact .inl ⟨⟨before, file, after, rfl, hstopped⟩, fun hu => hu.not_stoppedAt hstopped⟩
  · obtain ⟨log, hr⟩ := run_of_done hf
    have hu := registryUnwritten hf (hr.symm.trans h)
    refine .inr ⟨hu, ?_⟩
    rintro ⟨before, file, after, rfl, hstopped⟩
    exact hu.not_stoppedAt hstopped

theorem run_failed_second_missing :
    let files := [Path.ofString "a.xml", .ofString "b.xml"]
    let w := holding [("a.xml", "1:A:2")]
    let e := Failure.read (.ofString "b.xml") .missing
    ∃ w', w.perform (run .echo files ⟨false, false⟩ .standard) = (.error e, w') ∧
      Xor (∃ before file after, files = before ++ file :: after ∧
          StoppedAt .echo .standard ⟨false, false⟩ before file after w w' e)
        (RegistryUnwritten .echo .standard ⟨false, false⟩ files w w' e) := by
  intro files w e
  have h : (w.perform (run .echo files ⟨false, false⟩ .standard)).1 = .error e := by
    decide +kernel
  exact ⟨_, perform_eq_error h, run_failed (by decide) (perform_eq_error h)⟩

end DialectBindings.Batch
