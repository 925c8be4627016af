import DialectBindings.Engine.Plain
import DialectBindings.Proofs.Artifacts
import DialectBindings.Proofs.Octets

/-!
# What goes to the output and to the display

A batch that writes artifacts sends nothing to the output. A batch that does not has at most one
file, and sends its code. That is the code which the artifact of the file would hold, and its
octets are those of the template, if there is one, and then the engine's lines, with a line feed
after each. A display that runs full takes the beginning of what is shown and refuses the rest, and
nothing else of a batch depends on it.
-/

set_option autoImplicit false

namespace DialectBindings
open Text World Results

theorem Sink.taken_accept {s : Sink} {data : Octets} (h : s.overflows data = false) :
    (s.accept data).taken = s.taken ++ data := by
  cases hr : s.room with
  | none => simp only [accept, hr]
  | some n =>
    have hn : data.length ≤ n := by simpa [overflows, hr] using h
    simp only [accept, hr, List.take_of_length_le hn]

theorem Sink.taken_empty (n : Nat) (shown : Octets) :
    ((empty (some n)).accept shown).taken = ((empty none).accept shown).taken.take n := by
  simp [empty, accept]

theorem Engine.echo_lines {source moduleName : String} {generated : Generated}
    (h : Engine.echo.generate source moduleName = .ok generated) : generated.lines ≠ [] := by
  obtain ⟨messages, -, h⟩ := bind_eq_ok.1 h
  cases h
  exact List.cons_ne_nil _ _

namespace World

variable {α β : Type}

/-- A step that sends nothing to the output. -/
def Silent (step : Host.Step (StateM World) α) : Prop :=
  ∀ w : World, (w.perform step).2.output = w.output

theorem Silent.output {step : Host.Step (StateM World) α} {w w' : World}
    {answer : Except Failure α} (hs : Silent step) (h : w.perform step = (answer, w')) :
    w'.output = w.output := by
  rw [← hs w, h]

theorem Silent.pure (a : α) : Silent (Pure.pure a) := fun _ => rfl

theorem Silent.throw (e : Failure) : Silent (throw e : Host.Step (StateM World) α) := fun _ => rfl

theorem Silent.tell (e : Event) : Silent (Host.tell e) := fun _ => rfl

theorem Silent.forM {γ : Type} (told : List γ) (event : γ → Event) :
    Silent (told.forM fun t => Host.tell (event t)) := by
  intro w
  rw [perform_forM]

theorem Silent.bind {step : Host.Step (StateM World) α} {next : α → Host.Step (StateM World) β}
    (hs : Silent step) (hn : ∀ a, Silent (next a)) : Silent (step >>= next) := by
  intro w
  rw [perform_bind]
  rcases h : w.perform step with ⟨e | a, w'⟩
  · exact hs.output h
  · exact (hn a w').trans (hs.output h)

theorem progress_bounded (w : World) (taken : Octets) (room : Nat) (text : String) :
    (Host.progress text : StateM World (Except IoFault Unit))
        { w with display := ⟨taken, some room⟩ } =
      (if room < (octets text).length then .error .streamFull else .ok (),
        { w with display := ⟨taken ++ (octets text).take room,
          some (room - (octets text).length)⟩ }) := by
  simp [progress_apply, displaying, Sink.overflows, Sink.accept]

end World

theorem Artifact.write_silent (a : Artifact) : Silent a.write := by
  intro w
  rcases h : w.perform a.write with ⟨e | u, w'⟩
  · obtain ⟨tree, fault, -, rfl, -⟩ := write_failed h
    rfl
  · obtain ⟨tree, tree', -, -, rfl⟩ := write_done h
    rfl

theorem FileTree.template_ok {tree : FileTree} {path : Path} {template : Option String}
    (h : tree.template path = .ok template) :
    tree.read path = .error .missing ∧ template = none ∨
      ∃ text, tree.read path = .ok (octets text) ∧ template = some text := by
  rw [FileTree.template] at h
  split at h
  · rename_i hr
    cases h
    exact .inl ⟨hr, rfl⟩
  · cases h
  · rename_i data hr
    obtain ⟨text, ht, rfl⟩ := map_eq_ok.1 h
    rw [mapError_eq_ok] at ht
    exact .inr ⟨text, by rw [octets_decode ht, hr], rfl⟩

namespace Invocation

variable {engine : Engine} {layout : Layout} {tree : FileTree} {file : Path}

theorem run_silent (engine : Engine) (layout : Layout) (file : Path) :
    Silent (run engine layout file) := by
  intro w
  obtain ⟨told, h⟩ := perform_run engine layout w.tree file
  exact congrArg (·.2.output) (h w.output w.display w.log)

theorem joined_octets {lines : List String} (h : lines ≠ []) :
    octets ("\n".intercalate lines ++ "\n") = lines.flatMap fun line => octets (line ++ "\n") := by
  induction lines with
  | nil => exact absurd rfl h
  | cons line rest ih =>
    cases rest with
    | nil => simp [String.intercalate_singleton]
    | cons next rest =>
      rw [String.intercalate_cons_cons, String.append_assoc, octets_append,
        ih (List.cons_ne_nil next rest)]
      rfl

/-- The code of a file is its template, if there is one, and the engine's lines, with a line feed
after each. -/
theorem answer_octets {i : Invocation} (h : answer engine layout tree file = .ok i)
    (he : ∀ source generated, tree.source file = .ok source →
      engine.generate source file.moduleName = .ok generated → generated.lines ≠ []) :
    ∃ source generated front, tree.source file = .ok source ∧
      engine.generate source file.moduleName = .ok generated ∧
      (tree.read (layout.templatePath file) = .error .missing ∧ front = [] ∨
        ∃ data, tree.read (layout.templatePath file) = .ok data ∧ front = data ++ octets "\n") ∧
      octets i.code = front ++ generated.lines.flatMap fun line => octets (line ++ "\n") := by
  obtain ⟨source, template, generated, hs, ht, hg, rfl⟩ := answer_ok h
  have hlines : template.toList ++ generated.lines ≠ [] :=
    List.append_ne_nil_of_right_ne_nil _ (he source generated hs hg)
  rw [code, joined_octets hlines, List.flatMap_append]
  refine ⟨source, generated, _, hs, hg, ?_, rfl⟩
  obtain ⟨hr, rfl⟩ | ⟨text, hr, rfl⟩ := FileTree.template_ok ht
  · exact .inl ⟨hr, rfl⟩
  · exact .inr ⟨octets text, hr, by simp [octets_append]⟩

end Invocation

namespace Delivery

theorem deliver_silent (layout : Layout) (file : Path) (code : String) :
    Silent (deliver .perFile layout file code) := by
  rw [deliver]
  split
  · exact .throw _
  · exact (Artifact.write_silent _).bind fun _ => .pure _

theorem deliver_combined {layout : Layout} {file : Path} {code : String} {w w' : World}
    {artifact : Option Path}
    (h : w.perform (deliver .combined layout file code) = (.ok artifact, w')) :
    artifact = none ∧ w'.tree = w.tree ∧ w'.output.taken = w.output.taken ++ octets code := by
  rw [deliver, perform_bind_ok] at h
  obtain ⟨_, w₁, hs, h⟩ := h
  cases h
  obtain ⟨ha, rfl⟩ := Prod.mk.inj hs
  refine ⟨rfl, rfl, Sink.taken_accept ?_⟩
  cases ho : w.output.overflows (octets code) with
  | false => rfl
  | true =>
    simp only [ho] at ha
    cases ha

end Delivery

namespace Batch

variable {engine : Engine} {layout : Layout} {options : BatchOptions} {w w' : World}

theorem doFile_silent (done : Done) (file : Path) :
    Silent (doFile engine layout .perFile done file) := by
  refine (Invocation.run_silent engine layout file).bind fun i => ?_
  refine (Silent.forM _ Event.overridden).bind fun _ => ?_
  exact (Delivery.deliver_silent layout file i.code).bind fun _ => .pure _

theorem showFile_silent (done : Done) (file : Path) :
    Silent (showFile engine layout .perFile done file) := by
  intro w
  rw [perform_showFile]
  exact doFile_silent done file (w.displaying (started file))

theorem doFiles_silent (done : Done) (files : List Path) :
    Silent (doFiles engine layout .perFile done files) := by
  induction files generalizing done with
  | nil => exact .pure done
  | cons file files ih => exact (showFile_silent done file).bind fun done => ih done

theorem finish_silent (files : List Path) (mode : OutputMode) (done : Done) :
    Silent (finish layout options files mode done) := by
  rw [finish]
  refine Silent.bind ?_ fun _ => .pure _
  unfold writeRegistry
  split
  · exact (Artifact.write_silent _).bind fun _ => .pure _
  · exact .pure _

theorem run_silent {files : List Path}
    (hm : OutputMode.select files.length options = .perFile) :
    Silent (run engine files options layout) := by
  rw [run, hm]
  refine (Silent.tell _).bind fun _ => (doFiles_silent .nothing files).bind fun done => ?_
  exact finish_silent files .perFile done

theorem doFile_combined {done done' : Done} {file : Path}
    (h : w.perform (doFile engine layout .combined done file) = (.ok done', w')) :
    ∃ i, Invocation.answer engine layout w.tree file = .ok i ∧
      done'.artifacts = done.artifacts ∧ w'.tree = w.tree ∧
      w'.output.taken = w.output.taken ++ octets i.code := by
  obtain ⟨told, hr⟩ := Invocation.perform_run engine layout w.tree file
  rw [doFile, perform_bind_ok] at h
  obtain ⟨i, w₁, hi, h⟩ := h
  rw [hr] at hi
  obtain ⟨ha, rfl⟩ := Prod.mk.inj hi
  rw [perform_bind_ok, perform_forM] at h
  obtain ⟨_, w₂, ho, h⟩ := h
  cases ho
  rw [perform_bind_ok] at h
  obtain ⟨artifact, w₃, hd, h⟩ := h
  cases h
  obtain ⟨rfl, htree, htaken⟩ := Delivery.deliver_combined hd
  exact ⟨i, ha, List.append_nil _, htree, htaken⟩

theorem run_sends {files : List Path} {report : BatchReport}
    (hm : OutputMode.select files.length options = .combined)
    (h : w.perform (run engine files options layout) = (.ok report, w')) :
    report.artifacts = [] ∧ report.registry = none ∧ w'.tree = w.tree ∧
      (files = [] ∧ w'.output = w.output ∨
        ∃ file i, files = [file] ∧ Invocation.answer engine layout w.tree file = .ok i ∧
          w'.output.taken = w.output.taken ++ octets i.code) := by
  obtain ⟨done, w₁, hf⟩ := doFiles_of_run h
  obtain ⟨log, hr⟩ := run_of_done hf
  obtain ⟨write, magic⟩ := options
  obtain ⟨-, rfl, hlen⟩ := select_combined hm
  rw [hr, finish_plain] at h
  cases h
  rw [hm] at hf
  match files, hlen with
  | [], _ =>
    cases hf
    exact ⟨rfl, rfl, rfl, .inl ⟨rfl, rfl⟩⟩
  | [file], _ =>
    obtain ⟨done', w₂, hs, hf⟩ := perform_bind_ok.1 hf
    cases hf
    obtain ⟨w₃, hd, rfl⟩ := showFile_done hs
    obtain ⟨i, hi, hartifacts, htree, htaken⟩ := doFile_combined hd
    exact ⟨hartifacts, rfl, htree, .inr ⟨file, i, rfl, hi, htaken⟩⟩

theorem run_writes_lone {file : Path} {report : BatchReport}
    (h : w.perform (run engine [file] ⟨true, false⟩ layout) = (.ok report, w')) :
    ∃ artifact i, layout.artifactPath? file = some artifact ∧
      Invocation.answer engine layout w.tree file = .ok i ∧ report.artifacts = [artifact] ∧
      w'.tree.read artifact = .ok (octets i.code) := by
  obtain ⟨done, w₁, hsteps, h⟩ := filesStep_of_run rfl h
  rw [finish_plain] at h
  cases h
  rw [filesStep] at hsteps
  split at hsteps
  · cases hsteps
  · rename_i done' tree hs
    cases hsteps
    obtain ⟨i, artifact, hi, hp, hw, rfl⟩ := fileStep_ok hs
    exact ⟨artifact, i, hp, hi, rfl, FileTree.read_write hw⟩

/-- A lone file sends to the output what it writes to its artifact when it is told to. -/
theorem run_either {file : Path} {v v' : World} {sent written : BatchReport}
    (ht : v.tree = w.tree)
    (he : ∀ source generated, w.tree.source file = .ok source →
      engine.generate source file.moduleName = .ok generated → generated.lines ≠ [])
    (hw : w.perform (run engine [file] ⟨false, false⟩ layout) = (.ok sent, w'))
    (hv : v.perform (run engine [file] ⟨true, false⟩ layout) = (.ok written, v')) :
    ∃ artifact source generated front code, layout.artifactPath? file = some artifact ∧
      written.artifacts = [artifact] ∧ w.tree.source file = .ok source ∧
      engine.generate source file.moduleName = .ok generated ∧
      (w.tree.read (layout.templatePath file) = .error .missing ∧ front = [] ∨
        ∃ data, w.tree.read (layout.templatePath file) = .ok data ∧ front = data ++ octets "\n") ∧
      code = front ++ generated.lines.flatMap (fun line => octets (line ++ "\n")) ∧
      w'.output.taken = w.output.taken ++ code ∧ v'.tree.read artifact = .ok code ∧
      w'.tree = w.tree ∧ v'.output = v.output := by
  obtain ⟨-, -, htree, ⟨hn, -⟩ | ⟨_, i, hn, hi, htaken⟩⟩ := run_sends rfl hw
  · cases hn
  cases hn
  obtain ⟨artifact, j, hp, hj, hartifacts, hread⟩ := run_writes_lone hv
  -- Both runs have read the same.
  rw [ht] at hj
  cases hi.symm.trans hj
  obtain ⟨source, generated, front, hs, hg, hfront, hcode⟩ := Invocation.answer_octets hi he
  exact ⟨artifact, source, generated, front, octets i.code, hp, hartifacts, hs, hg, hfront, hcode,
    htaken, hread, htree, (run_silent rfl).output hv⟩

theorem run_either_template :
    let w := World.start ⟨[([octets "a.xml"], .file (octets "1:A:2\n")),
      ([octets "a.imports.ts"], .file (octets "// own"))], []⟩ none none
    let a := Path.ofString "a.xml"
    ∃ sent w' written v', w.perform (run .echo [a] ⟨false, false⟩ .standard) = (.ok sent, w') ∧
      w.perform (run .echo [a] ⟨true, false⟩ .standard) = (.ok written, v') ∧
      ∃ artifact code, written.artifacts = [artifact] ∧ w'.output.taken = code ∧
        v'.tree.read artifact = .ok code ∧ w'.tree = w.tree ∧ v'.output = w.output := by
  intro w a
  have hw : (w.perform (run .echo [a] ⟨false, false⟩ .standard)).1.isOk = true := by
    decide +kernel
  have hv : (w.perform (run .echo [a] ⟨true, false⟩ .standard)).1.isOk = true := by
    decide +kernel
  obtain ⟨sent, w', hw⟩ := perform_eq_ok hw
  obtain ⟨written, v', hv⟩ := perform_eq_ok hv
  obtain ⟨artifact, -, -, -, code, -, hartifacts, -, -, -, -, htaken, hread, htree, hout⟩ :=
    run_either rfl (fun _ _ _ => Engine.echo_lines) hw hv
  exact ⟨sent, w', written, v', hw, hv, artifact, code, hartifacts, htaken, hread, htree, hout⟩

/-! ## The display -/

theorem finish_blind (files : List Path) (mode : OutputMode) (done : Done) :
    Blind (finish layout options files mode done) := by
  rw [finish]
  refine Blind.bind ?_ fun _ => .pure _
  unfold writeRegistry
  split
  · exact (Artifact.write_blind _).bind fun _ => .pure _
  · exact .pure _

theorem run_blind (files : List Path) : Blind (run engine files options layout) := by
  rw [run]
  refine (Blind.tell [Event.starting _ files.length] id).bind fun _ => ?_
  exact (doFiles_blind .nothing files).bind fun done => finish_blind files _ done

/-- A display with room for some octets takes the first ones of what one without bounds takes, and
from then on it refuses every text that is shown. A batch does the same on both. -/
theorem run_displayed (engine : Engine) (files : List Path) (options : BatchOptions)
    (layout : Layout) (tree : FileTree) (output : Sink) (log : List Event) (n : Nat) :
    let bounded := World.perform ⟨tree, output, .empty (some n), log⟩
      (run engine files options layout)
    let free := World.perform ⟨tree, output, .empty none, log⟩ (run engine files options layout)
    bounded.1 = free.1 ∧ bounded.2.tree = free.2.tree ∧ bounded.2.output = free.2.output ∧
      bounded.2.log = free.2.log ∧
      bounded.2.display.taken = free.2.display.taken.take n ∧
      bounded.2.display.room = some (n - free.2.display.taken.length) ∧
      ∀ (w : World) (taken : Octets) (room : Nat) (text : String),
        (Host.progress text : StateM World (Except IoFault Unit))
            { w with display := ⟨taken, some room⟩ } =
          (if room < (octets text).length then .error .streamFull else .ok (),
            { w with display := ⟨taken ++ (octets text).take room,
              some (room - (octets text).length)⟩ }) := by
  intro bounded free
  have blind : Blind (run engine files options layout) := run_blind files
  obtain ⟨answer, tree', output', shown, told, h⟩ := blind tree output
  have hbounded : bounded = (answer, ⟨tree', output', (Sink.empty (some n)).accept shown,
      log ++ told⟩) := h _ _
  have hfree : free = (answer, ⟨tree', output', (Sink.empty none).accept shown,
      log ++ told⟩) := h _ _
  rw [hbounded, hfree]
  exact ⟨rfl, rfl, rfl, rfl, Sink.taken_empty n shown, rfl, World.progress_bounded⟩

end Batch

end DialectBindings
