import DialectBindings.Proofs.Terminals
import DialectBindings.Proofs.Wording

/-!
# How the program complains

A run that does not succeed has shown the progress of the files that it started, in whole lines, and
then complains of what it ended with. The complaint begins a line. It is the only line unless the
message carries a text with line feeds: only faults of usage other than an unknown parameter are cut
to their first line.
-/

set_option autoImplicit false

namespace DialectBindings.CommandLine
open Text Terminal

/-- What the program ends with when it does not succeed. -/
inductive Cause
  | usage (fault : UsageFault)
  | noInput
  | batch (failure : Failure)
  deriving DecidableEq

namespace Cause

def message : Cause → String
  | .usage fault => fault.message
  | .noInput => "no input specified"
  | .batch failure => failure.message

/-- The texts that a message shows as they are. -/
def carried : Cause → List String
  | .usage fault => fault.carried
  | .noInput => []
  | .batch failure => failure.carried

theorem lineFeeds_message (c : Cause) : lineFeeds c.message = lineFeedsIn c.carried := by
  unfold message carried
  cases c with
  | usage fault => exact fault.lineFeeds_message
  | noInput => exact lineFeeds_fixed (by decide)
  | batch failure => exact failure.lineFeeds_message

end Cause

variable {arguments : List Octets} {tree : FileTree} {cause : Cause}

def cause? (arguments : List Octets) (tree : FileTree) : Option Cause :=
  match Request.read arguments with
  | .help => none
  | .version => none
  | .refused fault => some (.usage fault)
  | .nothing => some .noInput
  | .generate files options =>
    match (Terminal.start tree).perform (Batch.run .bindings files options .standard) with
    | (.ok _, _) => none
    | (.error failure, _) => some (.batch failure)

def shown (arguments : List Octets) (tree : FileTree) : String :=
  match Request.read arguments with
  | .generate files options =>
    progress .standard (.select files.length options) .nothing (Terminal.start tree) files
  | _ => ""

theorem failure_code : Exit.failure.code ≠ 0 := by decide

theorem usage_code : Exit.usage.code ≠ 0 := by decide

theorem outcome_cases (arguments : List Octets) (tree : FileTree) :
    match cause? arguments tree with
    | none => (outcome arguments tree).1.code = 0
    | some cause => (outcome arguments tree).1.code ≠ 0 ∧
        (outcome arguments tree).2.errors = shown arguments tree ++ complaint cause.message := by
  have hasks := read_asks arguments
  have hout : outcome arguments tree =
      (perform (.read arguments) : StateM Terminal Exit) (.start tree) := rfl
  rw [hout, cause?, shown]
  cases hr : Request.read arguments with
  | help => rfl
  | version => rfl
  | refused fault => exact ⟨usage_code, rfl⟩
  | nothing => exact ⟨failure_code, rfl⟩
  | generate files options =>
    rw [hr] at hasks
    obtain ⟨-, -, -, -, rfl, rfl⟩ := hasks
    generalize words arguments = ws
    have hshown := batch_errors .standard (.start tree) (filesIn ws) (optionsIn ws)
    have honce : batchOnce ws (.start tree) = (Terminal.start tree).perform
        (Batch.run .bindings (filesIn ws) (optionsIn ws) .standard) := rfl
    dsimp only
    rw [perform_generate, honce]
    rcases hb : (Terminal.start tree).perform
      (Batch.run .bindings (filesIn ws) (optionsIn ws) .standard) with ⟨failure | report, done⟩
    · rw [hb] at hshown
      refine ⟨failure_code, ?_⟩
      change done.errors = "" ++ _ at hshown
      change done.errors ++ complaint failure.message = _
      rw [hshown, String.empty_append]
      rfl
    · rfl

theorem cause?_of_code (h : (outcome arguments tree).1.code ≠ 0) :
    ∃ cause, cause? arguments tree = some cause := by
  have hcases := outcome_cases arguments tree
  cases hc : cause? arguments tree with
  | none =>
    rw [hc] at hcases
    exact absurd hcases h
  | some cause => exact ⟨cause, rfl⟩

theorem outcome_of_cause (h : cause? arguments tree = some cause) :
    (outcome arguments tree).1.code ≠ 0 ∧
      (outcome arguments tree).2.errors = shown arguments tree ++ complaint cause.message := by
  have hcases := outcome_cases arguments tree
  rw [h] at hcases
  exact hcases

theorem shown_ended (arguments : List Octets) (tree : FileTree) :
    shown arguments tree = "" ∨ ∃ text, shown arguments tree = text ++ "\n" := by
  rw [shown]
  cases Request.read arguments with
  | generate files options => exact progress_ended .nothing (.start tree) files
  | _ => exact .inl rfl

theorem complaint_inj {s t : String} : complaint s = complaint t ↔ s = t := by
  simp [complaint]

theorem lineFeeds_complaint (message : String) :
    lineFeeds (complaint message) = lineFeeds message + 1 := by
  have hmark : lineFeeds "ERROR: " = 0 := lineFeeds_fixed (by decide)
  have hend : lineFeeds "\n" = 1 := by
    rw [lineFeeds]
    decide
  rw [complaint, lineFeeds_append, lineFeeds_append, hmark, hend, Nat.zero_add]

/-- Behind what is shown there is exactly one line, and it begins with the mark of an error. -/
def KeepsContract (arguments : List Octets) (tree : FileTree) : Prop :=
  ∃ line : String, '\n' ∉ line.toList ∧
    (outcome arguments tree).2.errors = shown arguments tree ++ ("ERROR: " ++ line ++ "\n")

theorem keepsContract_iff (h : cause? arguments tree = some cause) :
    KeepsContract arguments tree ↔ ∀ text ∈ cause.carried, '\n' ∉ text.toList := by
  rw [← lineFeedsIn_eq_zero, ← cause.lineFeeds_message, lineFeeds_eq_zero, KeepsContract,
    (outcome_of_cause h).2]
  constructor
  · rintro ⟨line, hline, herrors⟩
    have hmessage : complaint cause.message = complaint line :=
      (String.append_right_inj _).1 herrors
    rwa [complaint_inj.1 hmessage]
  · exact fun hmessage => ⟨cause.message, hmessage, rfl⟩

/-- A run that does not succeed has shown whole lines, the progress and the warnings of the files
that it started, and then complains of its cause: in one line and one more for every line feed of a
text that the message carries, so in exactly one line just when no such text has a line feed. -/
theorem run_complains (arguments : List Octets) (tree : FileTree)
    (h : (outcome arguments tree).1.code ≠ 0) :
    ∃ cause, cause? arguments tree = some cause ∧
      (outcome arguments tree).2.errors = shown arguments tree ++ complaint cause.message ∧
      (shown arguments tree = "" ∨ ∃ text, shown arguments tree = text ++ "\n") ∧
      lineFeeds (complaint cause.message) = lineFeedsIn cause.carried + 1 ∧
      (KeepsContract arguments tree ↔ ∀ text ∈ cause.carried, '\n' ∉ text.toList) := by
  obtain ⟨cause, hc⟩ := cause?_of_code h
  refine ⟨cause, hc, (outcome_of_cause hc).2, shown_ended arguments tree, ?_,
    keepsContract_iff hc⟩
  rw [lineFeeds_complaint, cause.lineFeeds_message]

theorem run_complains_missing :
    let arguments := [octets "a.xml"]
    let tree : FileTree := ⟨[], []⟩
    (outcome arguments tree).1.code ≠ 0 ∧ shown arguments tree = "Generating a.xml...\n" ∧
      KeepsContract arguments tree := by
  intro arguments tree
  have hcode : (outcome arguments tree).1.code ≠ 0 := by decide +kernel
  have hcause : cause? arguments tree = some (.batch (.read (.ofString "a.xml") .missing)) := by
    decide +kernel
  obtain ⟨cause, hc, -, -, -, hkeeps⟩ := run_complains arguments tree hcode
  obtain rfl := Option.some.inj (hcause.symm.trans hc)
  exact ⟨hcode, by decide +kernel, hkeeps.2 (by decide +kernel)⟩

/-- The type of a field stands in a complaint as it is, with its line feed. -/
theorem run_complains_in_two_lines :
    let definition := "<mavlink><messages><message id='1' name='M'>" ++
      "<field type='x&#10;y' name='f'/></message></messages></mavlink>"
    let arguments := [octets "a.xml"]
    let tree : FileTree := ⟨[([octets "a.xml"], .file (octets definition))], []⟩
    (outcome arguments tree).1.code ≠ 0 ∧ ¬ KeepsContract arguments tree := by
  intro definition arguments tree
  have hcause : cause? arguments tree = some (.batch (.generation (.ofString "a.xml")
      (.definition (.unknownType "M" "f" "x\ny")))) := by
    decide +kernel
  refine ⟨(outcome_of_cause hcause).1, ?_⟩
  rw [keepsContract_iff hcause]
  exact fun hplain => hplain "x\ny" (by decide +kernel) (by decide)

end DialectBindings.CommandLine
