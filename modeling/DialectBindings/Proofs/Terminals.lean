import DialectBindings.Proofs.Batches
import DialectBindings.Proofs.Requests

/-!
# What a terminal shows of a batch

Of every file that is started a terminal shows its name, the magic numbers that it overrides, and
whether it is done. Nothing else of a batch over definitions is shown: neither what is read or
written nor what is told to the log below a warning.
-/

set_option autoImplicit false

namespace DialectBindings.CommandLine
open Text Results Batch

namespace Terminal

variable {α β : Type}

def perform (t : Terminal) (step : Host.Step (StateM Terminal) α) : Except Failure α × Terminal :=
  step.run t

def showing (t : Terminal) (text : String) : Terminal := { t with errors := t.errors ++ text }

theorem perform_pure (t : Terminal) (a : α) : t.perform (pure a) = (.ok a, t) := rfl

theorem perform_orFail (t : Terminal) (act : StateM Terminal (Except IoFault α))
    (failure : IoFault → Failure) :
    t.perform (Host.orFail act failure) = ((act t).1.mapError failure, (act t).2) := rfl

theorem perform_bind (t : Terminal) (step : Host.Step (StateM Terminal) α)
    (next : α → Host.Step (StateM Terminal) β) :
    t.perform (step >>= next) =
      match t.perform step with
      | (.ok a, t') => t'.perform (next a)
      | (.error e, t') => (.error e, t') := by
  have h : t.perform (step >>= next) =
    (ExceptT.bindCont next (t.perform step).1 : StateM Terminal _) (t.perform step).2 := rfl
  rw [h]
  rcases t.perform step with ⟨_ | a, t'⟩ <;> rfl

/-! ## The log -/

def warning (o : Registry.Override) : String := (Event.overridden o).line time ++ "\n"

theorem perform_tell {e : Event} (h : e.isToldAt .warn = false) (t : Terminal) :
    t.perform (Host.tell e) = (.ok (), t) := by
  have htell : t.perform (Host.tell e) =
    (.ok (), ((if e.isToldAt .warn = true then display (e.line time ++ "\n") else pure () :
      StateM Terminal Unit) t).2) := rfl
  rw [htell, h]
  rfl

theorem perform_tell_overridden (t : Terminal) (o : Registry.Override) :
    t.perform (Host.tell (.overridden o)) = (.ok (), t.showing (warning o)) := rfl

theorem perform_tell_all {events : List Event} (h : ∀ e ∈ events, e.isToldAt .warn = false)
    (t : Terminal) : t.perform (events.forM Host.tell) = (.ok (), t) := by
  induction events with
  | nil => rfl
  | cons e events ih =>
    obtain ⟨he, hevents⟩ := List.forall_mem_cons.1 h
    change t.perform (Host.tell e >>= fun _ => events.forM Host.tell) = _
    rw [perform_bind, perform_tell he]
    exact ih hevents

theorem perform_warnings (t : Terminal) (os : List Registry.Override) :
    t.perform (os.forM fun o => Host.tell (.overridden o)) =
      (.ok (), t.showing (String.join (os.map warning))) := by
  induction os generalizing t with
  | nil => simp [List.forM, perform_pure, showing]
  | cons o os ih =>
    change t.perform (Host.tell (.overridden o) >>= fun _ =>
      os.forM fun o => Host.tell (.overridden o)) = _
    rw [perform_bind, perform_tell_overridden]
    exact (ih _).trans (by simp [showing, String.append_assoc])

/-! ## Steps that show nothing -/

def Silent (act : StateM Terminal β) : Prop := ∀ t, (act t).2.errors = t.errors

theorem Silent.pure (b : β) : Silent (Pure.pure b) := fun _ => rfl

theorem Silent.bind {γ : Type} {act : StateM Terminal β} {next : β → StateM Terminal γ}
    (ha : Silent act) (hn : ∀ b, Silent (next b)) : Silent (act >>= next) :=
  fun t => (hn (act t).1 (act t).2).trans (ha t)

theorem Silent.orFail {act : StateM Terminal (Except IoFault α)} {failure : IoFault → Failure}
    (h : Silent act) : Silent (Host.orFail act failure).run := h

theorem Silent.tell {e : Event} (h : e.isToldAt .warn = false) :
    Silent (Host.tell e : Host.Step (StateM Terminal) Unit).run :=
  fun t => congrArg (fun r => r.2.errors) (perform_tell h t)

theorem Silent.andThen {step : Host.Step (StateM Terminal) α}
    {next : α → Host.Step (StateM Terminal) β} (hs : Silent step.run)
    (hn : ∀ a, Silent (next a).run) : Silent (step >>= next).run := by
  change Silent (step.run >>= ExceptT.bindCont next)
  refine hs.bind fun result => ?_
  cases result with
  | ok a => exact hn a
  | error e => exact .pure _

theorem makeDirectory_silent (p : Path) :
    Silent (Host.makeDirectory p : StateM Terminal (Except IoFault Unit)) := fun _ => rfl

theorem settle_silent (p : Path) (fault : IoFault) :
    Silent (Host.ensureDirectory.settle p fault : StateM Terminal (Except IoFault Unit)) := by
  have hfound : Silent (Host.isDirectory p : StateM Terminal Bool) := fun _ => rfl
  rw [Host.ensureDirectory.settle]
  split
  · refine hfound.bind fun found => ?_
    split
    · exact .pure _
    · exact .pure _
  · exact .pure _

theorem ensureDirectory_silent (p : Path) :
    Silent (Host.ensureDirectory p : StateM Terminal (Except IoFault Unit)) :=
  Host.ensureDirectory_closed .pure (fun _ _ => .bind) makeDirectory_silent settle_silent p

theorem write_silent (a : Artifact) :
    Silent (a.write : Host.Step (StateM Terminal) Unit).run := by
  have hwrite : Silent (Host.write a.path (octets a.content) :
      StateM Terminal (Except IoFault Unit)) := fun _ => rfl
  have hrest : Silent (do
      Host.orFail (Host.write a.path (octets a.content)) (.write a.path)
      Host.tell (.wrote a.path a.size) : Host.Step (StateM Terminal) Unit).run :=
    (Silent.orFail hwrite).andThen fun _ => .tell rfl
  rw [Artifact.write]
  cases a.path.parent? with
  | none => exact hrest
  | some parent => exact (Silent.orFail (ensureDirectory_silent parent)).andThen fun _ => hrest

theorem deliver_silent (mode : OutputMode) (layout : Layout) (file : Path) (code : String) :
    Silent (Delivery.deliver mode layout file code : Host.Step (StateM Terminal) _).run := by
  cases mode with
  | combined =>
    have hsend : Silent (Host.send (octets code) : StateM Terminal (Except IoFault Unit)) :=
      fun _ => rfl
    exact (Silent.orFail hsend).andThen fun _ => .pure _
  | perFile =>
    rw [Delivery.deliver]
    split
    · exact fun _ => rfl
    · exact (write_silent _).andThen fun _ => .pure _

theorem writeRegistry_silent (layout : Layout) (options : BatchOptions) (files : List Path)
    (r : Registry) :
    Silent (writeRegistry layout options files r : Host.Step (StateM Terminal) _).run := by
  unfold writeRegistry
  split
  · exact (write_silent _).andThen fun _ => .pure _
  · exact .pure _

/-! ## Definitions -/

theorem perform_readDefinition (t : Terminal) (file : Path) :
    t.perform (Invocation.readDefinition file) =
      ((t.tree.source file).mapError (.read file), t) := by
  have hread : t.perform (Host.orFail (Host.read file) (.read file)) =
    ((t.tree.read file).mapError (.read file), t) := rfl
  rw [Invocation.readDefinition, perform_bind, hread, FileTree.source]
  cases t.tree.read file <;> rfl

theorem perform_readTemplate (t : Terminal) (path : Path) :
    t.perform (Invocation.readTemplate path) =
      ((t.tree.template path).mapError (.read path), t) := by
  have hread : t.perform (Host.orFail (Invocation.readTemplate.absent <$> Host.read path)
      (.read path)) =
    ((Invocation.readTemplate.absent (t.tree.read path)).mapError (.read path), t) := rfl
  rw [Invocation.readTemplate, perform_bind, hread, FileTree.template]
  cases t.tree.read path with
  | ok data =>
    simp only [Invocation.readTemplate.absent, ok_mapError]
    cases decode data <;> rfl
  | error fault => cases fault <;> rfl

theorem bindings_log {source moduleName : String} {g : Generated}
    (h : Engine.bindings.generate source moduleName = .ok g) :
    ∀ e ∈ g.log, e.isToldAt .warn = false := by
  obtain ⟨d, -, hg⟩ := bind_eq_ok.1 h
  cases hg
  intro e he
  rw [List.mem_singleton.1 he]
  rfl

theorem perform_invocation (layout : Layout) (t : Terminal) (file : Path) :
    t.perform (Invocation.run .bindings layout file) =
      (Invocation.answer .bindings layout t.tree file, t) := by
  simp only [Invocation.run, Invocation.answer, perform_bind, perform_readDefinition,
    perform_readTemplate]
  cases t.tree.source file with
  | error fault => rfl
  | ok source =>
    simp only [ok_mapError, ok_bind]
    cases t.tree.template (layout.templatePath file) with
    | error fault => rfl
    | ok template =>
      simp only [ok_mapError, ok_bind, perform_tell (e := .invoking _) rfl]
      cases hg : Engine.bindings.generate source file.moduleName with
      | error fault => rfl
      | ok generated =>
        simp only [perform_bind, perform_tell_all (bindings_log hg),
          perform_tell (e := .finished _ _ _) rfl, LineBuffer.drain, LineBuffer.appendAll_lines]
        rfl

/-! ## Files one after the other -/

def warnings (r : Registry) : Except Failure Invocation → String
  | .ok i => String.join ((r.overrides i.descriptors.messages).map warning)
  | .error _ => ""

variable {layout : Layout} {mode : OutputMode}

theorem doFile_errors (done : Done) (t : Terminal) (file : Path) :
    (t.perform (doFile .bindings layout mode done file)).2.errors =
      t.errors ++ warnings done.magicNumbers (Invocation.answer .bindings layout t.tree file) := by
  rw [doFile, perform_bind, perform_invocation]
  cases Invocation.answer .bindings layout t.tree file with
  | error e => exact (String.append_empty).symm
  | ok i =>
    dsimp only
    rw [perform_bind, perform_warnings]
    exact ((deliver_silent mode layout file i.code).andThen fun _ => .pure _) _

theorem shown_progressAll (t : Terminal) (pieces : List String) :
    ((Host.progressAll pieces : StateM Terminal (Except IoFault Unit)) t).2 =
      t.showing (String.join pieces) := by
  induction pieces generalizing t with
  | nil => exact congrArg (fun s => { t with errors := s }) String.append_empty.symm
  | cons piece rest ih =>
    refine (ih (t.showing piece)).trans ?_
    rw [showing, showing, showing, String.join_cons, String.append_assoc]

theorem perform_showFile (done : Done) (t : Terminal) (file : Path) :
    t.perform (showFile .bindings layout mode done file) =
      let result := (t.showing (started file)).perform (doFile .bindings layout mode done file)
      (result.1, result.2.showing (if result.1.isOk then " done\n" else "\n")) := by
  rw [← started_pieces, ← shown_progressAll]
  rfl

/-- What is shown of files that are worked through until one of them fails: of each that is started
its name, its warnings, and whether it is done. -/
def progress (layout : Layout) (mode : OutputMode) (done : Done) (t : Terminal) :
    List Path → String
  | [] => ""
  | file :: rest =>
    started file ++
      warnings done.magicNumbers (Invocation.answer .bindings layout t.tree file) ++
      match t.perform (showFile .bindings layout mode done file) with
      | (.ok done, after) => " done\n" ++ progress layout mode done after rest
      | (.error _, _) => "\n"

theorem showFile_errors (done : Done) (t : Terminal) (file : Path) :
    (t.perform (showFile .bindings layout mode done file)).2.errors =
      t.errors ++ (started file ++
        warnings done.magicNumbers (Invocation.answer .bindings layout t.tree file) ++
        if (t.perform (showFile .bindings layout mode done file)).1.isOk then " done\n"
        else "\n") := by
  rw [perform_showFile]
  dsimp only
  rw [showing, doFile_errors]
  simp only [showing, String.append_assoc]

theorem doFiles_errors (done : Done) (t : Terminal) (files : List Path) :
    (t.perform (doFiles .bindings layout mode done files)).2.errors =
      t.errors ++ progress layout mode done t files := by
  induction files generalizing done t with
  | nil => exact (String.append_empty).symm
  | cons file files ih =>
    have hshown := @showFile_errors layout mode done t file
    rw [doFiles, perform_bind, progress]
    rcases hs : t.perform (showFile .bindings layout mode done file) with ⟨e | next, after⟩
    · rw [hs] at hshown
      exact hshown
    · rw [hs] at hshown
      dsimp only
      rw [ih, hshown]
      simp [Except.isOk, Except.toBool, String.append_assoc]

theorem progress_ended (done : Done) (t : Terminal) (files : List Path) :
    progress layout mode done t files = "" ∨
      ∃ text, progress layout mode done t files = text ++ "\n" := by
  have hdone : " done\n" = " done" ++ "\n" := by decide
  induction files generalizing done t with
  | nil => exact .inl rfl
  | cons file files ih =>
    rw [progress]
    split
    · rename_i next after _
      obtain hrest | ⟨text, hrest⟩ := ih next after
      · rw [hrest, hdone, String.append_empty, ← String.append_assoc]
        exact .inr ⟨_, rfl⟩
      · rw [hrest, ← String.append_assoc, ← String.append_assoc]
        exact .inr ⟨_, rfl⟩
    · exact .inr ⟨_, rfl⟩

theorem batch_errors (layout : Layout) (t : Terminal) (files : List Path)
    (options : BatchOptions) :
    (t.perform (Batch.run .bindings files options layout)).2.errors =
      t.errors ++ progress layout (.select files.length options) .nothing t files := by
  rw [Batch.run, perform_bind, perform_tell rfl]
  dsimp only
  rw [perform_bind, ← doFiles_errors]
  rcases t.perform (doFiles .bindings layout (.select files.length options) .nothing files) with
    ⟨e | done, after⟩
  · rfl
  · exact ((writeRegistry_silent layout options files done.magicNumbers).andThen
      fun _ => .pure _) after

end Terminal

end DialectBindings.CommandLine
