import DialectBindings.Batch
import DialectBindings.Proofs.Results
import DialectBindings.Proofs.Worlds

/-!
# Runs of a batch

What one file does to a world when it is done and when it fails, and from this what a run over
any list of files does. A run over files that fails is a run over those before one of them and
then the failure of that file; the files after it are not looked at.
-/

set_option autoImplicit false

namespace DialectBindings
open Text World Results

namespace FileTree

def source (tree : FileTree) (file : Path) : Except IoFault String := do
  (decode (← tree.read file)).mapError fun _ => .notText

def template (tree : FileTree) (path : Path) : Except IoFault (Option String) :=
  match tree.read path with
  | .error .missing => .ok none
  | .error fault => .error fault
  | .ok data => some <$> (decode data).mapError .badSequence

end FileTree

namespace Invocation

theorem perform_readDefinition (w : World) (file : Path) :
    w.perform (readDefinition file) = ((w.tree.source file).mapError (.read file), w) := by
  have hr : w.perform (Host.orFail (Host.read file) (.read file)) =
    ((w.tree.read file).mapError (.read file), w) := rfl
  rw [readDefinition, perform_bind, hr, FileTree.source]
  cases w.tree.read file <;> rfl

theorem perform_readTemplate (w : World) (path : Path) :
    w.perform (readTemplate path) = ((w.tree.template path).mapError (.read path), w) := by
  have hr : w.perform (Host.orFail (readTemplate.absent <$> Host.read path) (.read path)) =
    ((readTemplate.absent (w.tree.read path)).mapError (.read path), w) := rfl
  rw [readTemplate, perform_bind, hr, FileTree.template]
  cases w.tree.read path with
  | ok data =>
    simp only [readTemplate.absent, ok_mapError]
    cases decode data <;> rfl
  | error fault => cases fault <;> rfl

/-- What a run of an engine comes to: it depends on the files alone. -/
def answer (engine : Engine) (layout : Layout) (tree : FileTree) (file : Path) :
    Except Failure Invocation := do
  let source ← (tree.source file).mapError (.read file)
  let path := layout.templatePath file
  let template ← (tree.template path).mapError (.read path)
  let generated ← (engine.generate source file.moduleName).mapError (.generation file)
  return ⟨file.moduleName, template.toList ++ generated.lines, generated.descriptors⟩

theorem perform_run (engine : Engine) (layout : Layout) (tree : FileTree) (file : Path) :
    ∃ told, ∀ output display log,
      perform ⟨tree, output, display, log⟩ (run engine layout file) =
        (answer engine layout tree file, ⟨tree, output, display, log ++ told⟩) := by
  simp only [run, answer, perform_bind, perform_readDefinition, perform_readTemplate,
    perform_tell]
  cases tree.source file with
  | error fault => exact ⟨[], fun output display log => by simp [error_mapError, error_bind]⟩
  | ok source =>
    simp only [ok_mapError, ok_bind]
    cases tree.template (layout.templatePath file) with
    | error fault => exact ⟨[], fun output display log => by simp [error_mapError, error_bind]⟩
    | ok template =>
      simp only [ok_mapError, ok_bind]
      cases engine.generate source file.moduleName with
      | error fault => exact ⟨_, fun output display log => rfl⟩
      | ok generated =>
        refine ⟨.invoking file.moduleName :: (generated.log ++ [.finished file.moduleName
          (template.toList ++ generated.lines).length generated.descriptors.messages.length]),
          fun output display log => ?_⟩
        simp only [perform_bind, perform_forM_tell, perform_tell, perform_pure,
          LineBuffer.size, LineBuffer.drain, LineBuffer.appendAll_lines, List.append_assoc]
        rfl

theorem run_blind (engine : Engine) (layout : Layout) (file : Path) :
    Blind (run engine layout file) := by
  intro tree output
  obtain ⟨told, h⟩ := perform_run engine layout tree file
  refine ⟨answer engine layout tree file, tree, output, [], told, fun display log => ?_⟩
  rw [h, Sink.accept_nil]

theorem answer_ok {engine : Engine} {layout : Layout} {tree : FileTree} {file : Path}
    {i : Invocation} (h : answer engine layout tree file = .ok i) :
    ∃ source template generated, tree.source file = .ok source ∧
      tree.template (layout.templatePath file) = .ok template ∧
      engine.generate source file.moduleName = .ok generated ∧
      i = ⟨file.moduleName, template.toList ++ generated.lines, generated.descriptors⟩ := by
  obtain ⟨source, hs, h⟩ := bind_eq_ok.1 h
  obtain ⟨template, ht, h⟩ := bind_eq_ok.1 h
  obtain ⟨generated, hg, h⟩ := bind_eq_ok.1 h
  cases h
  exact ⟨source, template, generated, mapError_eq_ok.1 hs, mapError_eq_ok.1 ht,
    mapError_eq_ok.1 hg, rfl⟩

theorem answer_done {engine : Engine} {layout : Layout} {tree : FileTree} {file : Path}
    {i : Invocation} (h : answer engine layout tree file = .ok i) :
    ∃ source generated, tree.source file = .ok source ∧
      engine.generate source file.moduleName = .ok generated ∧
      i.descriptors = generated.descriptors := by
  obtain ⟨source, template, generated, hs, -, hg, rfl⟩ := answer_ok h
  exact ⟨source, generated, hs, hg, rfl⟩

theorem answer_failed {engine : Engine} {layout : Layout} {tree : FileTree} {file : Path}
    {e : Failure} (h : answer engine layout tree file = .error e) :
    e.path = file ∨ e.path = layout.templatePath file := by
  obtain h | ⟨source, -, h⟩ := bind_eq_error.1 h
  · obtain ⟨fault, -, rfl⟩ := mapError_eq_error.1 h
    exact .inl rfl
  obtain h | ⟨template, -, h⟩ := bind_eq_error.1 h
  · obtain ⟨fault, -, rfl⟩ := mapError_eq_error.1 h
    exact .inr rfl
  obtain h | ⟨generated, -, h⟩ := bind_eq_error.1 h
  · obtain ⟨fault, -, rfl⟩ := mapError_eq_error.1 h
    exact .inl rfl
  · cases h

end Invocation

namespace Delivery

theorem deliver_blind (mode : OutputMode) (layout : Layout) (file : Path) (code : String) :
    Blind (deliver mode layout file code) := by
  cases mode with
  | combined =>
    refine Blind.bind (Blind.orFail fun tree output => ?_) fun _ => Blind.pure none
    exact ⟨if output.overflows (octets code) then .error .streamFull else .ok (),
      tree, output.accept (octets code), fun _ _ => rfl⟩
  | perFile =>
    rw [deliver]
    split
    · exact Blind.throw _
    · exact Blind.bind (Artifact.write_blind _) fun _ => Blind.pure _

theorem hasDirectory_of_source {layout : Layout} {tree : FileTree} {file path : Path}
    {source : String} (hs : tree.source file = .ok source)
    (hp : layout.artifactPath? file = some path) : Artifact.HasDirectory tree path := by
  obtain ⟨content, hr, -⟩ := bind_eq_ok.1 hs
  intro q hq
  obtain h | h | ⟨rest, h⟩ := Layout.artifactPath?_parent hp hq
  · exact .inl (Path.parent?_top (.inl h))
  · exact .inl (Path.parent?_top (.inr h))
  · by_cases hne : q.octets = []
    · exact .inl (Path.parent?_top (.inl hne))
    · exact .inr (FileTree.isDirectory_of_read hr h hne)

theorem deliver_failed {mode : OutputMode} {layout : Layout} {file : Path} {code source : String}
    {w w' : World} {e : Failure} (hl : layout.hasPlainExtension = true)
    (hs : w.tree.source file = .ok source)
    (h : w.perform (deliver mode layout file code) = (.error e, w')) :
    w'.tree = w.tree ∧ w'.display = w.display ∧
      (mode = .combined ∧ e.path = streamPath ∨
        mode = .perFile ∧ layout.artifactPath? file = some e.path) := by
  cases mode with
  | combined =>
    rw [deliver, perform_bind_error] at h
    obtain h | ⟨_, w₁, -, h⟩ := h
    · rw [perform_orFail] at h
      obtain ⟨fault, -, rfl⟩ := mapError_eq_error.1 (congrArg Prod.fst h)
      exact ⟨(congrArg (·.2.tree) h).symm, (congrArg (·.2.display) h).symm, .inl ⟨rfl, rfl⟩⟩
    · cases h
  | perFile =>
    rw [deliver, Layout.artifactPath?, if_pos hl, perform_bind_error] at h
    obtain h | ⟨_, w₁, -, h⟩ := h
    · obtain ⟨tree, fault, -, rfl, hk, rfl⟩ := Artifact.write_failed h
      have hp : layout.artifactPath? file = some (file.withExtension (octets layout.extension)) := by
        rw [Layout.artifactPath?, if_pos hl]
      exact ⟨hk (hasDirectory_of_source hs hp), rfl, .inr ⟨rfl, hp⟩⟩
    · cases h

theorem deliver_done {mode : OutputMode} {layout : Layout} {file : Path} {code : String}
    {w w' : World} {artifact : Option Path}
    (h : w.perform (deliver mode layout file code) = (.ok artifact, w')) :
    w'.display = w.display ∧ (mode = .combined → w'.tree = w.tree) := by
  cases mode with
  | combined =>
    rw [deliver, perform_bind_ok] at h
    obtain ⟨_, w₁, hs, h⟩ := h
    cases h
    exact ⟨(congrArg (·.2.display) hs).symm, fun _ => (congrArg (·.2.tree) hs).symm⟩
  | perFile =>
    rw [deliver] at h
    split at h
    · cases h
    · rw [perform_bind_ok] at h
      obtain ⟨_, w₁, hw, h⟩ := h
      cases h
      obtain ⟨tree, tree', -, -, rfl⟩ := Artifact.write_done hw
      exact ⟨rfl, by simp⟩

end Delivery

namespace Batch

variable {engine : Engine} {layout : Layout} {mode : OutputMode} {options : BatchOptions}

theorem doFile_blind (done : Done) (file : Path) :
    Blind (doFile engine layout mode done file) := by
  refine Blind.bind (Invocation.run_blind engine layout file) fun i => ?_
  refine (Blind.tell _ Event.overridden).bind fun _ => ?_
  exact (Delivery.deliver_blind mode layout file i.code).bind fun _ => .pure _

theorem doFile_done {done done' : Done} {file : Path} {w w' : World}
    (h : w.perform (doFile engine layout mode done file) = (.ok done', w')) :
    w'.display = w.display ∧ (mode = .combined → w'.tree = w.tree) ∧
      ∃ source generated, w.tree.source file = .ok source ∧
        engine.generate source file.moduleName = .ok generated ∧
        done'.magicNumbers = done.magicNumbers.addAll generated.descriptors.messages := by
  obtain ⟨told, hr⟩ := Invocation.perform_run engine layout w.tree file
  rw [doFile, perform_bind_ok] at h
  obtain ⟨i, w₁, hi, h⟩ := h
  rw [hr] at hi
  obtain ⟨ha, rfl⟩ := Prod.mk.inj hi
  obtain ⟨source, generated, hs, hg, hd⟩ := Invocation.answer_done ha
  rw [perform_bind_ok, perform_forM] at h
  obtain ⟨_, w₂, ho, h⟩ := h
  cases ho
  rw [perform_bind_ok] at h
  obtain ⟨artifact, w₃, hw, h⟩ := h
  obtain ⟨hdisplay, htree⟩ := Delivery.deliver_done hw
  cases h
  exact ⟨hdisplay, htree, source, generated, hs, hg, by rw [hd]⟩

theorem doFile_failed {done : Done} {file : Path} {w w' : World} {e : Failure}
    (hl : layout.hasPlainExtension = true)
    (h : w.perform (doFile engine layout mode done file) = (.error e, w')) :
    w'.tree = w.tree ∧ w'.display = w.display ∧
      (e.path = file ∨ e.path = layout.templatePath file ∨
        mode = .combined ∧ e.path = Delivery.streamPath ∨
        mode = .perFile ∧ layout.artifactPath? file = some e.path) := by
  obtain ⟨told, hr⟩ := Invocation.perform_run engine layout w.tree file
  rw [doFile, perform_bind_error, hr] at h
  obtain h | ⟨i, w₁, hi, h⟩ := h
  · obtain ⟨ha, rfl⟩ := Prod.mk.inj h
    exact ⟨rfl, rfl, (Invocation.answer_failed ha).imp_right .inl⟩
  obtain ⟨ha, rfl⟩ := Prod.mk.inj hi
  obtain ⟨source, generated, hs, hg, hd⟩ := Invocation.answer_done ha
  rw [perform_bind_error, perform_forM] at h
  obtain h | ⟨_, w₂, ho, h⟩ := h
  · cases h
  cases ho
  rw [perform_bind_error] at h
  obtain h | ⟨artifact, w₃, -, h⟩ := h
  · obtain ⟨htree, hdisplay, he⟩ := Delivery.deliver_failed hl (by exact hs) h
    exact ⟨htree, hdisplay, .inr (.inr he)⟩
  · cases h

def started (file : Path) : String := "Generating " ++ file.displayName ++ "..."

def doneLine (file : Path) : String := started file ++ " done\n"

def failedLine (file : Path) : String := started file ++ "\n"

theorem started_pieces (file : Path) :
    String.join ["Generating ", file.displayName, "..."] = started file := by
  simp [started, String.append_assoc]

theorem perform_showFile (w : World) (done : Done) (file : Path) :
    w.perform (showFile engine layout mode done file) =
      let result := (w.displaying (started file)).perform (doFile engine layout mode done file)
      (result.1, result.2.displaying (if result.1.isOk then " done\n" else "\n")) := by
  rw [← started_pieces, ← shown_progressAll]
  rfl

theorem showFile_done {done done' : Done} {file : Path} {w w' : World}
    (h : w.perform (showFile engine layout mode done file) = (.ok done', w')) :
    ∃ w₁, (w.displaying (started file)).perform (doFile engine layout mode done file) =
      (.ok done', w₁) ∧ w' = w₁.displaying " done\n" := by
  rw [perform_showFile] at h
  obtain ⟨ha, rfl⟩ := Prod.mk.inj h
  exact ⟨_, Prod.ext ha rfl, by rw [ha]; rfl⟩

theorem showFile_failed {done : Done} {file : Path} {w w' : World} {e : Failure}
    (h : w.perform (showFile engine layout mode done file) = (.error e, w')) :
    ∃ w₁, (w.displaying (started file)).perform (doFile engine layout mode done file) =
      (.error e, w₁) ∧ w' = w₁.displaying "\n" := by
  rw [perform_showFile] at h
  obtain ⟨ha, rfl⟩ := Prod.mk.inj h
  exact ⟨_, Prod.ext ha rfl, by rw [ha]; rfl⟩

theorem showFile_blind (done : Done) (file : Path) :
    Blind (showFile engine layout mode done file) := by
  intro tree output
  have hb : Blind (doFile engine layout mode done file) := doFile_blind done file
  obtain ⟨answer, tree', output', shown, told, h⟩ := hb tree output
  refine ⟨answer, tree', output', octets (started file) ++ shown ++
    octets (if answer.isOk then " done\n" else "\n"), told, fun display log => ?_⟩
  rw [perform_showFile]
  simp only [displaying, h, Sink.accept_append, List.append_assoc]

theorem doFiles_blind (done : Done) (files : List Path) :
    Blind (doFiles engine layout mode done files) := by
  induction files generalizing done with
  | nil => exact .pure done
  | cons file files ih => exact (showFile_blind done file).bind fun done => ih done

theorem doFiles_append (done : Done) (files rest : List Path) :
    (doFiles engine layout mode done (files ++ rest) : Host.Step (StateM World) Done) = (do
      doFiles engine layout mode (← doFiles engine layout mode done files) rest) := by
  induction files generalizing done with
  | nil => simp [doFiles]
  | cons file files ih => simp [doFiles, ih]

theorem doFiles_display {done done' : Done} {files : List Path} {w w' : World}
    (h : w.perform (doFiles engine layout mode done files) = (.ok done', w')) :
    w'.display = w.display.accept (octets (String.join (files.map doneLine))) := by
  induction files generalizing done w with
  | nil =>
    cases h
    exact (Sink.accept_nil _).symm
  | cons file files ih =>
    rw [doFiles, perform_bind_ok] at h
    obtain ⟨done₁, w₁, hf, h⟩ := h
    obtain ⟨w₂, hd, rfl⟩ := showFile_done hf
    rw [ih h, displaying, (doFile_done hd).1, displaying]
    simp only [Sink.accept_append, List.map_cons, String.join_cons, doneLine, octets_append,
      List.append_assoc]

/-- A run over files that fails is done with some of them and fails at the next. -/
theorem doFiles_failed {done : Done} {files : List Path} {w w' : World} {e : Failure}
    (h : w.perform (doFiles engine layout mode done files) = (.error e, w')) :
    ∃ before file after done₁ w₁, files = before ++ file :: after ∧
      w.perform (doFiles engine layout mode done before) = (.ok done₁, w₁) ∧
      w₁.perform (showFile engine layout mode done₁ file) = (.error e, w') := by
  induction files generalizing done w with
  | nil => cases h
  | cons file files ih =>
    rw [doFiles, perform_bind_error] at h
    obtain hf | ⟨done₁, w₁, hf, h⟩ := h
    · exact ⟨[], file, files, done, w, rfl, rfl, hf⟩
    · obtain ⟨before, next, after, done₂, w₂, rfl, hb, hn⟩ := ih h
      refine ⟨file :: before, next, after, done₂, w₂, rfl, ?_, hn⟩
      rw [doFiles, perform_bind_ok]
      exact ⟨done₁, w₁, hf, hb⟩

theorem doFiles_of_failed {done done₁ : Done} {before after : List Path} {file : Path}
    {w w₁ w' : World} {e : Failure}
    (hb : w.perform (doFiles engine layout mode done before) = (.ok done₁, w₁))
    (hf : w₁.perform (showFile engine layout mode done₁ file) = (.error e, w')) :
    w.perform (doFiles engine layout mode done (before ++ file :: after)) = (.error e, w') := by
  rw [doFiles_append, perform_bind, hb]
  exact perform_bind_error.2 (.inl hf)

/-- What is left to do when all files are done. -/
def finish (layout : Layout) (options : BatchOptions) (files : List Path) (mode : OutputMode)
    (done : Done) : Host.Step (StateM World) BatchReport := do
  let registry ← writeRegistry layout options files done.magicNumbers
  return ⟨mode, done.artifacts, registry, done.magicNumbers⟩

theorem perform_run (w : World) (files : List Path) :
    w.perform (run engine files options layout) =
      let mode := OutputMode.select files.length options
      ({ w with log := w.log ++ [Event.starting mode files.length] }).perform (do
        finish layout options files mode (← doFiles engine layout mode .nothing files)) := rfl

theorem run_of_done {files : List Path} {done : Done} {w w₁ : World}
    (h : w.perform (doFiles engine layout (.select files.length options) .nothing files) =
      (.ok done, w₁)) :
    ∃ log, w.perform (run engine files options layout) =
      ({ w₁ with log := log }).perform
        (finish layout options files (.select files.length options) done) := by
  obtain ⟨log, hl⟩ := (doFiles_blind _ files).log h
    (w.log ++ [.starting (.select files.length options) files.length])
  refine ⟨log, ?_⟩
  rw [perform_run, perform_bind, hl]

theorem run_of_failed {files : List Path} {e : Failure} {w w₁ : World}
    (h : w.perform (doFiles engine layout (.select files.length options) .nothing files) =
      (.error e, w₁)) :
    ∃ log, w.perform (run engine files options layout) = (.error e, { w₁ with log := log }) := by
  obtain ⟨log, hl⟩ := (doFiles_blind _ files).log h
    (w.log ++ [.starting (.select files.length options) files.length])
  refine ⟨log, ?_⟩
  rw [perform_run, perform_bind, hl]

theorem finish_plain (w : World) (files : List Path) (done : Done) (write : Bool) :
    w.perform (finish layout ⟨write, false⟩ files mode done) =
      (.ok ⟨mode, done.artifacts, none, done.magicNumbers⟩, w) := by
  cases files <;> rfl

theorem finish_failed {w w' : World} {files : List Path} {done : Done} {e : Failure}
    (h : w.perform (finish layout options files mode done) = (.error e, w')) :
    options.magic = true ∧ ∃ first, files.head? = some first ∧
      w.perform (Artifact.write ⟨layout.registryPath first, done.magicNumbers.render⟩) =
        (.error e, w') := by
  rw [finish, perform_bind_error] at h
  obtain h | ⟨_, w₁, -, h⟩ := h
  · unfold writeRegistry at h
    split at h
    · rename_i first rest hm
      rw [perform_bind_error] at h
      obtain h | ⟨_, w₁, -, h⟩ := h
      · exact ⟨hm, first, rfl, h⟩
      · cases h
    · cases h
  · cases h

theorem finish_done {w w' : World} {files : List Path} {done : Done} {report : BatchReport}
    (h : w.perform (finish layout options files mode done) = (.ok report, w')) :
    report.magicNumbers = done.magicNumbers ∧
      ∀ first, options.magic = true → files.head? = some first →
        w.perform (Artifact.write ⟨layout.registryPath first, done.magicNumbers.render⟩) =
          (.ok (), w') := by
  rw [finish, perform_bind_ok] at h
  obtain ⟨registry, w₁, hw, h⟩ := h
  cases h
  refine ⟨rfl, fun first hm hf => ?_⟩
  obtain ⟨rest, rfl⟩ := List.head?_eq_some_iff.1 hf
  simp only [writeRegistry, hm] at hw
  rw [perform_bind_ok] at hw
  obtain ⟨_, w₂, ha, hw⟩ := hw
  cases hw
  exact ha

theorem doFiles_of_run {files : List Path} {w w' : World} {report : BatchReport}
    (h : w.perform (run engine files options layout) = (.ok report, w')) :
    ∃ done w₁, w.perform (doFiles engine layout (.select files.length options) .nothing files) =
      (.ok done, w₁) := by
  rcases hf : w.perform (doFiles engine layout (.select files.length options) .nothing files) with
    ⟨e | done, w₁⟩
  · obtain ⟨log, hr⟩ := run_of_failed hf
    rw [hr] at h
    cases h
  · exact ⟨done, w₁, rfl⟩

theorem run_written {files : List Path} {done : Done} {w w₁ : World}
    (h : w.perform (doFiles engine layout .perFile .nothing files) = (.ok done, w₁)) :
    ∃ report w', w.perform (run engine files ⟨true, false⟩ layout) = (.ok report, w') ∧
      w'.tree = w₁.tree := by
  have hm : OutputMode.select files.length ⟨true, false⟩ = .perFile := rfl
  rw [← hm] at h
  obtain ⟨log, hr⟩ := run_of_done h
  rw [finish_plain] at hr
  exact ⟨_, _, hr, rfl⟩

end Batch
end DialectBindings
