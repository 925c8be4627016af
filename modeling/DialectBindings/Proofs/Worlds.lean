import DialectBindings.Artifact
import DialectBindings.Proofs.Files
import DialectBindings.Proofs.Paths
import DialectBindings.Proofs.Results
import DialectBindings.World

/-!
# Steps in a world

Steps are run one after the other until one fails. No step of a batch looks at what the display
or the log holds. The directory beside a file that can be read is there already, so an artifact
that cannot be written there leaves the tree as it was.
-/

set_option autoImplicit false

namespace DialectBindings
open Text

theorem Sink.accept_nil (s : Sink) : s.accept [] = s := by
  rcases s with ⟨taken, _ | n⟩ <;> simp [accept]

namespace Host

/-- Whatever holds of the acts that a directory is made by, and of acts one after the other, holds
of making all directories that are missing. -/
theorem ensureDirectory_closed {m : Type → Type} [Monad m] [Host m]
    {P : m (Except IoFault Unit) → Prop} (hpure : ∀ answer, P (pure answer))
    (hbind : ∀ (act : m (Except IoFault Unit)) (next : Except IoFault Unit → m _),
      P act → (∀ answer, P (next answer)) → P (act >>= next))
    (hmake : ∀ p, P (Host.makeDirectory p))
    (hsettle : ∀ p fault, P (ensureDirectory.settle p fault)) (p : Path) :
    P (ensureDirectory p) := by
  induction hn : p.octets.length using Nat.strongRecOn generalizing p with
  | _ n ih =>
    rw [ensureDirectory]
    split
    · exact hpure _
    · rename_i parent hp
      refine hbind _ _ (hmake p) fun answer => ?_
      split
      · exact hpure _
      · refine hbind _ _ (ih _ (hn ▸ Path.parent?_length hp) parent rfl) fun answer => ?_
        split
        · exact hpure _
        · refine hbind _ _ (hmake p) fun answer => ?_
          split
          · exact hpure _
          · exact hsettle p _
      · exact hsettle p _

end Host

namespace World
open Results

variable {α β : Type}

def perform (w : World) (step : Host.Step (StateM World) α) : Except Failure α × World :=
  step.run w

def holding (files : List (String × String)) : World :=
  .start ⟨files.map fun (name, content) => ([octets name], .file (octets content)), []⟩ none none

def displaying (w : World) (text : String) : World :=
  { w with display := w.display.accept (octets text) }

theorem displaying_append (w : World) (s t : String) :
    w.displaying (s ++ t) = (w.displaying s).displaying t := by
  simp only [displaying, octets_append, Sink.accept_append]

theorem progress_apply (w : World) (text : String) :
    (Host.progress text : StateM World (Except IoFault Unit)) w =
      (if w.display.overflows (octets text) then .error .streamFull else .ok (),
        w.displaying text) := rfl

theorem progressAll_cons (w : World) (piece : String) (rest : List String) :
    (Host.progressAll (piece :: rest) : StateM World (Except IoFault Unit)) w =
      if w.display.overflows (octets piece) then (.error .streamFull, w.displaying piece)
      else (Host.progressAll rest : StateM World (Except IoFault Unit)) (w.displaying piece) := by
  rw [Host.progressAll]
  simp only [bind, StateT.bind, progress_apply]
  cases w.display.overflows (octets piece) <;> rfl

theorem shown_progressAll (w : World) (pieces : List String) :
    ((Host.progressAll pieces : StateM World (Except IoFault Unit)) w).2 =
      w.displaying (String.join pieces) := by
  induction pieces generalizing w with
  | nil => exact congrArg (fun s => { w with display := s }) (Sink.accept_nil _).symm
  | cons piece rest ih =>
    rw [progressAll_cons, String.join_cons, displaying_append]
    cases h : w.display.overflows (octets piece) with
    | false => exact ih (w.displaying piece)
    | true =>
      simp only [displaying, Sink.accept_of_overflows h]
      rfl

theorem perform_eq_error {w : World} {step : Host.Step (StateM World) α} {e : Failure}
    (h : (w.perform step).1 = .error e) : w.perform step = (.error e, (w.perform step).2) :=
  Prod.ext h rfl

theorem perform_eq_ok {w : World} {step : Host.Step (StateM World) α}
    (h : (w.perform step).1.isOk = true) : ∃ a w', w.perform step = (.ok a, w') := by
  obtain ⟨a, ha⟩ := exists_ok h
  exact ⟨a, _, Prod.ext ha rfl⟩

theorem perform_eq_ok_of_map {w : World} {step : Host.Step (StateM World) α} {f : α → β} {b : β}
    (h : (w.perform step).1.map f = .ok b) :
    ∃ a, w.perform step = (.ok a, (w.perform step).2) ∧ f a = b := by
  obtain ⟨a, ha, hb⟩ := map_eq_ok.1 h
  exact ⟨a, Prod.ext ha rfl, hb⟩

theorem perform_pure (w : World) (a : α) : w.perform (pure a) = (.ok a, w) := rfl

theorem perform_tell (w : World) (e : Event) :
    w.perform (Host.tell e) = (.ok (), { w with log := w.log ++ [e] }) := rfl

theorem perform_orFail (w : World) (act : StateM World (Except IoFault α))
    (failure : IoFault → Failure) :
    w.perform (Host.orFail act failure) = ((act w).1.mapError failure, (act w).2) := rfl

theorem perform_bind (w : World) (step : Host.Step (StateM World) α)
    (next : α → Host.Step (StateM World) β) :
    w.perform (step >>= next) =
      match w.perform step with
      | (.ok a, w') => w'.perform (next a)
      | (.error e, w') => (.error e, w') := by
  have h : w.perform (step >>= next) =
    (ExceptT.bindCont next (w.perform step).1 : StateM World _) (w.perform step).2 := rfl
  rw [h]
  rcases w.perform step with ⟨_ | a, w'⟩ <;> rfl

theorem perform_bind_ok {w w'' : World} {step : Host.Step (StateM World) α}
    {next : α → Host.Step (StateM World) β} {b : β} :
    w.perform (step >>= next) = (.ok b, w'') ↔
      ∃ a w', w.perform step = (.ok a, w') ∧ w'.perform (next a) = (.ok b, w'') := by
  rw [perform_bind]
  rcases w.perform step with ⟨e | a, w'⟩
  · simp
  · exact ⟨fun h => ⟨a, w', rfl, h⟩, fun ⟨_, _, hs, h⟩ => by cases hs; exact h⟩

theorem perform_bind_error {w w'' : World} {step : Host.Step (StateM World) α}
    {next : α → Host.Step (StateM World) β} {e : Failure} :
    w.perform (step >>= next) = (.error e, w'') ↔
      w.perform step = (.error e, w'') ∨
        ∃ a w', w.perform step = (.ok a, w') ∧ w'.perform (next a) = (.error e, w'') := by
  rw [perform_bind]
  rcases w.perform step with ⟨e | a, w'⟩
  · simp
  · refine ⟨fun h => .inr ⟨a, w', rfl, h⟩, ?_⟩
    rintro (hs | ⟨_, _, hs, h⟩)
    · cases hs
    · cases hs
      exact h

theorem perform_forM {γ : Type} (w : World) (told : List γ) (event : γ → Event) :
    w.perform (told.forM fun t => Host.tell (event t)) =
      (.ok (), { w with log := w.log ++ told.map event }) := by
  induction told generalizing w with
  | nil => simp [List.forM, perform_pure]
  | cons t told ih =>
    change w.perform (Host.tell (event t) >>= fun _ => told.forM fun t => Host.tell (event t)) = _
    rw [perform_bind, perform_tell]
    exact (ih _).trans (by simp)

theorem perform_forM_tell (w : World) (events : List Event) :
    w.perform (events.forM Host.tell) = (.ok (), { w with log := w.log ++ events }) := by
  simpa using perform_forM w events id

/-- A step that may look at the files and the output but neither at the display nor at the log:
to these it only adds, and always the same. -/
def Blind (step : Host.Step (StateM World) α) : Prop :=
  ∀ tree output, ∃ answer tree' output' shown told, ∀ display log,
    perform ⟨tree, output, display, log⟩ step =
      (answer, ⟨tree', output', display.accept shown, log ++ told⟩)

theorem Blind.pure (a : α) : Blind (Pure.pure a) := by
  intro tree output
  refine ⟨.ok a, tree, output, [], [], fun display log => ?_⟩
  rw [Sink.accept_nil, List.append_nil]
  rfl

theorem Blind.throw (e : Failure) : Blind (throw e : Host.Step (StateM World) α) := by
  intro tree output
  refine ⟨.error e, tree, output, [], [], fun display log => ?_⟩
  rw [Sink.accept_nil, List.append_nil]
  rfl

theorem Blind.bind {step : Host.Step (StateM World) α} {next : α → Host.Step (StateM World) β}
    (hs : Blind step) (hn : ∀ a, Blind (next a)) : Blind (step >>= next) := by
  intro tree output
  obtain ⟨answer, tree₁, output₁, shown₁, told₁, h₁⟩ := hs tree output
  cases answer with
  | error e =>
    refine ⟨.error e, tree₁, output₁, shown₁, told₁, fun display log => ?_⟩
    rw [perform_bind, h₁]
  | ok a =>
    obtain ⟨answer, tree₂, output₂, shown₂, told₂, h₂⟩ := hn a tree₁ output₁
    refine ⟨answer, tree₂, output₂, shown₁ ++ shown₂, told₁ ++ told₂, fun display log => ?_⟩
    rw [perform_bind, h₁]
    simp only [h₂, Sink.accept_append, List.append_assoc]

theorem Blind.tell {γ : Type} (told : List γ) (event : γ → Event) :
    Blind (told.forM fun t => Host.tell (event t)) := by
  intro tree output
  refine ⟨.ok (), tree, output, [], told.map event, fun display log => ?_⟩
  rw [perform_forM, Sink.accept_nil]

theorem Blind.orFail {act : StateM World (Except IoFault α)} {failure : IoFault → Failure}
    (h : ∀ tree output, ∃ answer tree' output', ∀ display log,
      act ⟨tree, output, display, log⟩ = (answer, ⟨tree', output', display, log⟩)) :
    Blind (Host.orFail act failure) := by
  intro tree output
  obtain ⟨answer, tree', output', h⟩ := h tree output
  refine ⟨answer.mapError failure, tree', output', [], [], fun display log => ?_⟩
  rw [perform_orFail, h, Sink.accept_nil, List.append_nil]

theorem Blind.log {step : Host.Step (StateM World) α} (hb : Blind step) {w w' : World}
    {answer : Except Failure α} (h : w.perform step = (answer, w')) (log : List Event) :
    ∃ log', ({ w with log := log }).perform step = (answer, { w' with log := log' }) := by
  obtain ⟨_, tree, output, shown, told, hs⟩ := hb w.tree w.output
  have hw : w.perform step = _ := hs w.display w.log
  rw [h] at hw
  obtain ⟨rfl, rfl⟩ := Prod.mk.inj hw
  exact ⟨log ++ told, hs w.display log⟩

def MakesDirectories (act : StateM World (Except IoFault Unit)) : Prop :=
  ∀ tree, ∃ answer tree', FileTree.SameFiles tree tree' ∧ ∀ output display log,
    act ⟨tree, output, display, log⟩ = (answer, ⟨tree', output, display, log⟩)

theorem settle_apply (p : Path) (fault : IoFault) (w : World) :
    (Host.ensureDirectory.settle p fault : StateM World (Except IoFault Unit)) w =
      (if fault = .alreadyThere ∧ w.tree.isDirectory p = true then .ok () else .error fault, w) := by
  by_cases hf : fault = .alreadyThere
  · subst hf
    change (if w.tree.isDirectory p = true then pure (.ok ()) else
      pure (.error .alreadyThere) : StateM World (Except IoFault Unit)) w = _
    by_cases hd : w.tree.isDirectory p = true
    · simp only [hd, if_true, and_self]
      rfl
    · simp only [hd]
      rfl
  · rw [Host.ensureDirectory.settle]
    simp only [hf, if_false, false_and]
    rfl

theorem settle_makes (p : Path) (fault : IoFault) :
    MakesDirectories (Host.ensureDirectory.settle p fault) := by
  intro tree
  refine ⟨if fault = .alreadyThere ∧ tree.isDirectory p = true then .ok () else .error fault,
    tree, .refl tree, fun output display log => settle_apply p fault _⟩

theorem makeDirectory_makes (p : Path) : MakesDirectories (Host.makeDirectory p) := by
  intro tree
  refine ⟨(tree.attempt (·.makeDirectory p)).1, (tree.attempt (·.makeDirectory p)).2, ?_,
    fun output display log => rfl⟩
  rw [FileTree.attempt]
  split
  · rename_i h
    exact FileTree.makeDirectory_sameFiles h
  · exact .refl tree

theorem MakesDirectories.bind {act : StateM World (Except IoFault Unit)}
    {next : Except IoFault Unit → StateM World (Except IoFault Unit)}
    (ha : MakesDirectories act) (hn : ∀ answer, MakesDirectories (next answer)) :
    MakesDirectories (act >>= next) := by
  intro tree
  obtain ⟨answer, tree₁, hs₁, h₁⟩ := ha tree
  obtain ⟨answer', tree₂, hs₂, h₂⟩ := hn answer tree₁
  refine ⟨answer', tree₂, hs₁.trans hs₂, fun output display log => ?_⟩
  change next (act ⟨tree, output, display, log⟩).1 (act ⟨tree, output, display, log⟩).2 = _
  rw [h₁, h₂]

theorem MakesDirectories.pure (answer : Except IoFault Unit) :
    MakesDirectories (Pure.pure answer) :=
  fun tree => ⟨answer, tree, .refl tree, fun _ _ _ => rfl⟩

theorem ensureDirectory_makes (p : Path) : MakesDirectories (Host.ensureDirectory p) :=
  Host.ensureDirectory_closed .pure (fun _ _ => .bind) makeDirectory_makes settle_makes p

theorem ensureDirectory_top {p : Path} (h : p.parent? = none) :
    (Host.ensureDirectory p : StateM World (Except IoFault Unit)) = pure (.ok ()) := by
  rw [Host.ensureDirectory]
  split
  · rfl
  · rename_i hp
    rw [h] at hp
    cases hp

theorem ensureDirectory_below {p parent : Path} (h : p.parent? = some parent) :
    (Host.ensureDirectory p : StateM World (Except IoFault Unit)) = (do
      match ← Host.makeDirectory p with
      | .ok () => return .ok ()
      | .error .missing =>
        match ← Host.ensureDirectory parent with
        | .error fault => return .error fault
        | .ok () => Host.ensureDirectory.makeOrKeep p
      | .error fault => Host.ensureDirectory.settle p fault) := by
  rw [Host.ensureDirectory]
  split
  · rename_i hp
    rw [h] at hp
    cases hp
  · rename_i hp
    cases h.symm.trans hp
    rfl

theorem ensureDirectory_of_isDirectory {p : Path} {w : World} (h : w.tree.isDirectory p = true) :
    (Host.ensureDirectory p : StateM World (Except IoFault Unit)) w = (.ok (), w) := by
  have hm : (Host.makeDirectory p : StateM World (Except IoFault Unit)) w =
      (.error .alreadyThere, w) := by
    change ((w.tree.attempt (·.makeDirectory p)).1,
      { w with tree := (w.tree.attempt (·.makeDirectory p)).2 }) = _
    rw [FileTree.attempt, FileTree.makeDirectory_of_isDirectory h]
  cases hp : p.parent? with
  | none => rw [ensureDirectory_top hp]; rfl
  | some parent =>
    rw [ensureDirectory_below hp]
    simp only [bind, StateT.bind, hm]
    exact (settle_apply p .alreadyThere w).trans (by simp [h])

end World

namespace Artifact
open World

def prepare (a : Artifact) : Host.Step (StateM World) Unit :=
  match a.path.parent? with
  | some parent => Host.orFail (Host.ensureDirectory parent) (.write a.path)
  | none => pure ()

theorem write_steps (a : Artifact) :
    (a.write : Host.Step (StateM World) Unit) = (do
      a.prepare
      Host.orFail (Host.write a.path (octets a.content)) (.write a.path)
      Host.tell (.wrote a.path a.size)) := by
  rw [write, prepare]
  cases a.path.parent? <;> rfl

/-- The directory of a path does not have to be made. -/
def HasDirectory (tree : FileTree) (p : Path) : Prop :=
  ∀ q, p.parent? = some q → q.parent? = none ∨ tree.isDirectory q = true

theorem prepare_apply (a : Artifact) (tree : FileTree) :
    ∃ answer : Except IoFault Unit, ∃ tree', FileTree.SameFiles tree tree' ∧
      (HasDirectory tree a.path → answer = .ok () ∧ tree' = tree) ∧ ∀ output display log,
        perform ⟨tree, output, display, log⟩ a.prepare =
          (answer.mapError (.write a.path), ⟨tree', output, display, log⟩) := by
  rw [prepare]
  split
  · rename_i parent hp
    obtain ⟨answer, tree', hs, h⟩ := ensureDirectory_makes parent tree
    refine ⟨answer, tree', hs, fun hd => ?_, fun output display log => ?_⟩
    · have hk := h (.empty none) (.empty none) []
      obtain hd | hd := hd parent hp
      · rw [ensureDirectory_top hd] at hk
        cases hk
        exact ⟨rfl, rfl⟩
      · rw [ensureDirectory_of_isDirectory hd] at hk
        cases hk
        exact ⟨rfl, rfl⟩
    · rw [perform_orFail, h]
  · exact ⟨.ok (), tree, .refl tree, fun _ => ⟨rfl, rfl⟩, fun _ _ _ => rfl⟩

theorem perform_write (w : World) (p : Path) (content : Octets) (failure : IoFault → Failure) :
    w.perform (Host.orFail (Host.write p content) failure) =
      match w.tree.write p content with
      | .ok tree => (.ok (), { w with tree := tree })
      | .error fault => (.error (failure fault), w) := by
  change ((w.tree.attempt fun t => t.write p content).1.mapError failure,
    { w with tree := (w.tree.attempt fun t => t.write p content).2 }) = _
  rw [FileTree.attempt]
  cases w.tree.write p content <;> rfl

theorem write_done {a : Artifact} {w w' : World} (h : w.perform a.write = (.ok (), w')) :
    ∃ tree tree', FileTree.SameFiles w.tree tree ∧
      tree.write a.path (octets a.content) = .ok tree' ∧
      w' = { w with tree := tree', log := w.log ++ [.wrote a.path a.size] } := by
  rw [write_steps, perform_bind_ok] at h
  obtain ⟨_, w₁, hp, h⟩ := h
  obtain ⟨answer, tree, hs, -, ha⟩ := prepare_apply a w.tree
  rw [ha] at hp
  obtain rfl : (⟨tree, w.output, w.display, w.log⟩ : World) = w₁ := congrArg Prod.snd hp
  rw [perform_bind_ok] at h
  obtain ⟨_, w₂, hw, h⟩ := h
  rw [perform_write] at hw
  split at hw
  · rename_i tree' ht
    cases hw
    cases h
    exact ⟨tree, tree', hs, ht, rfl⟩
  · cases hw

/-- An artifact that is not written leaves at most new directories behind, and nothing where its
own directory was there. -/
theorem write_failed {a : Artifact} {w w' : World} {e : Failure}
    (h : w.perform a.write = (.error e, w')) :
    ∃ tree fault, FileTree.SameFiles w.tree tree ∧ w' = { w with tree := tree } ∧
      (HasDirectory w.tree a.path → tree = w.tree) ∧ e = .write a.path fault := by
  obtain ⟨answer, tree, hs, hk, ha⟩ := prepare_apply a w.tree
  rw [write_steps, perform_bind_error, ha] at h
  obtain h | ⟨_, w₁, hp, h⟩ := h
  · cases answer with
    | ok u => cases h
    | error fault =>
      cases h
      exact ⟨tree, fault, hs, rfl, fun hd => (hk hd).2, rfl⟩
  · obtain rfl : (⟨tree, w.output, w.display, w.log⟩ : World) = w₁ := congrArg Prod.snd hp
    rw [perform_bind_error, perform_write] at h
    obtain h | ⟨_, w₂, -, h⟩ := h
    · split at h
      · cases h
      · rename_i fault _
        cases h
        exact ⟨tree, fault, hs, rfl, fun hd => (hk hd).2, rfl⟩
    · cases h

theorem write_blind (a : Artifact) : Blind a.write := by
  rw [write_steps]
  refine Blind.bind ?_ fun _ => Blind.bind (Blind.orFail ?_) fun _ =>
    Blind.tell [Event.wrote a.path a.size] id
  · intro tree output
    obtain ⟨answer, tree', -, -, h⟩ := prepare_apply a tree
    refine ⟨answer.mapError (.write a.path), tree', output, [], [], fun display log => ?_⟩
    rw [h, Sink.accept_nil, List.append_nil]
  · intro tree output
    exact ⟨(tree.attempt fun t => t.write a.path (octets a.content)).1,
      (tree.attempt fun t => t.write a.path (octets a.content)).2, output, fun _ _ => rfl⟩

end Artifact

end DialectBindings
