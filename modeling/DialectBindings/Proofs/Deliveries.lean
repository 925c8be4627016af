import DialectBindings.Engine.Plain
import DialectBindings.Proofs.Artifacts
import Mathlib.Data.List.Induction

/-!
# Whose code an artifact holds

When a batch is done, each artifact can be read. It holds the code of the last file whose artifact
leads to the same place, unless the registry, which is written after all of them, leads there.
-/

set_option autoImplicit false

namespace DialectBindings.Batch
open Text World Results FileTree

variable {engine : Engine} {layout : Layout} {options : BatchOptions} {w w' : World}

/-- The files as a file of a batch finds them when its turn comes. -/
def treeBefore (engine : Engine) (layout : Layout) (w : World) (files : List Path) (i : Nat) :
    FileTree :=
  (w.perform (doFiles engine layout .perFile .nothing (files.take i))).2.tree

/-- The code that a file of a batch gives when its turn comes. -/
def CodeAt (engine : Engine) (layout : Layout) (w : World) (files : List Path) (i : Nat)
    (code : String) : Prop :=
  ∃ file invocation, files[i]? = some file ∧
    Invocation.answer engine layout (treeBefore engine layout w files i) file = .ok invocation ∧
    code = invocation.code

theorem treeBefore_eq (files : List Path) (i : Nat) :
    treeBefore engine layout w files i =
      (filesStep engine layout .nothing w.tree (files.take i)).2 :=
  congrArg Prod.snd (doFiles_outcome engine layout w .nothing (files.take i))

theorem codeAt_concat {files : List Path} {file : Path} {i : Nat} {code : String}
    (h : CodeAt engine layout w files i code) :
    CodeAt engine layout w (files ++ [file]) i code := by
  obtain ⟨found, invocation, hf, hi, rfl⟩ := h
  have hlt := (List.getElem?_eq_some_iff.1 hf).1
  refine ⟨found, invocation, by rw [List.getElem?_append_left hlt, hf], ?_, rfl⟩
  rw [treeBefore, List.take_append_of_le_length (Nat.le_of_lt hlt)]
  exact hi

theorem filesStep_append (done : Done) (t : FileTree) (files rest : List Path) :
    filesStep engine layout done t (files ++ rest) =
      match filesStep engine layout done t files with
      | (.error e, t) => (.error e, t)
      | (.ok done, t) => filesStep engine layout done t rest := by
  induction files generalizing done t with
  | nil => rfl
  | cons file files ih =>
    rw [List.cons_append, filesStep, filesStep]
    cases fileStep engine layout done file t with
    | error e => rfl
    | ok found => exact ih found.1 found.2

/-- An artifact holds the code of the last file, from its own on, whose artifact leads to the same
place in a tree. -/
def HoldsLast (engine : Engine) (layout : Layout) (w : World) (files artifacts : List Path)
    (t : FileTree) (i : Nat) (path : Path) (content : Octets) : Prop :=
  ∃ j last code, i ≤ j ∧ artifacts[j]? = some last ∧ t.Meet last path ∧
    (∀ k > j, ∀ other, artifacts[k]? = some other → ¬ t.Meet other path) ∧
    CodeAt engine layout w files j code ∧ content = octets code

theorem filesStep_concat {done done' : Done} {t t' : FileTree} {files : List Path} {file : Path}
    (h : filesStep engine layout done t (files ++ [file]) = (.ok done', t')) :
    ∃ done₁ t₁, filesStep engine layout done t files = (.ok done₁, t₁) ∧
      fileStep engine layout done₁ file t₁ = .ok (done', t') := by
  rw [filesStep_append] at h
  rcases hf : filesStep engine layout done t files with ⟨e | done₁, t₁⟩
  · rw [hf] at h
    cases h
  · simp only [hf, filesStep] at h
    cases hs : fileStep engine layout done₁ file t₁ with
    | error e =>
      rw [hs] at h
      cases h
    | ok found =>
      rw [hs] at h
      cases h
      exact ⟨done₁, t₁, rfl, hs⟩

theorem holdsLast_new {files artifacts : List Path} {file path q : Path} {t : FileTree}
    {invocation : Invocation} {i : Nat} (hlen : artifacts.length = files.length)
    (hi : Invocation.answer engine layout (treeBefore engine layout w files files.length) file =
      .ok invocation)
    (hle : i ≤ files.length) (hm : t.Meet path q) :
    HoldsLast engine layout w (files ++ [file]) (artifacts ++ [path]) t i q
      (octets invocation.code) := by
  refine ⟨files.length, path, invocation.code, hle, ?_, hm, fun k hk other ho => ?_, ?_, rfl⟩
  · rw [← hlen, List.getElem?_concat_length]
  · have := (List.getElem?_eq_some_iff.1 ho).1
    simp only [List.length_append, List.length_singleton] at this
    omega
  · refine ⟨file, invocation, List.getElem?_concat_length, ?_, rfl⟩
    rw [treeBefore, List.take_append_of_le_length (Nat.le_refl _)]
    exact hi

theorem HoldsLast.agree {files artifacts : List Path} {path : Path} {t t' : FileTree} {i : Nat}
    {content : Octets} {places : Location → Prop}
    (h : HoldsLast engine layout w files artifacts t i path content) (ha : AgreeOff places t t') :
    HoldsLast engine layout w files artifacts t' i path content := by
  obtain ⟨j, last, code, hij, hlast, hmeet, hafter, hcode⟩ := h
  exact ⟨j, last, code, hij, hlast, ha.meet.2 hmeet,
    fun k hk other ho hmk => hafter k hk other ho (ha.meet.1 hmk), hcode⟩

theorem holdsLast_kept {files artifacts : List Path} {file path q : Path} {t : FileTree} {i : Nat}
    {content : Octets} (hm : ¬ t.Meet q path)
    (h : HoldsLast engine layout w files artifacts t i q content) :
    HoldsLast engine layout w (files ++ [file]) (artifacts ++ [path]) t i q content := by
  obtain ⟨j, last, code, hij, hlast, hmeet, hafter, hcode, rfl⟩ := h
  have hlt := (List.getElem?_eq_some_iff.1 hlast).1
  refine ⟨j, last, code, hij, by rw [List.getElem?_append_left hlt, hlast], hmeet,
    fun k hk other ho hmk => ?_, codeAt_concat hcode, rfl⟩
  rcases Nat.lt_or_ge k artifacts.length with hk' | hk'
  · rw [List.getElem?_append_left hk'] at ho
    exact hafter k hk other ho hmk
  · rw [List.getElem?_append_right hk'] at ho
    obtain rfl : other = path := by simpa using List.mem_of_getElem? ho
    exact hm hmk.symm

theorem filesStep_holds {files : List Path} {done : Done} {t : FileTree}
    (h : filesStep engine layout .nothing w.tree files = (.ok done, t)) :
    done.artifacts.map some = files.map layout.artifactPath? ∧
      ∀ i path, done.artifacts[i]? = some path → ∃ content, t.read path = .ok content ∧
        HoldsLast engine layout w files done.artifacts t i path content := by
  -- From the end, as the last file may take the place of any artifact before it.
  induction files using List.reverseRecOn generalizing done t with
  | nil =>
    cases h
    exact ⟨rfl, nofun⟩
  | append_singleton files file ih =>
    obtain ⟨done₁, t₁, hf, hs⟩ := filesStep_concat h
    obtain ⟨hartifacts, hholds⟩ := ih hf
    have hlen : done₁.artifacts.length = files.length := by
      simpa using congrArg List.length hartifacts
    obtain ⟨invocation, path, l, hi, hpath, hl, hfree, rfl, hread, rfl⟩ := fileStep_located hs
    have ha : AgreeOff (· = l) t₁ (t₁.set l (.file (octets invocation.code))) :=
      set_agreeOff _ rfl hfree
    have hbefore : treeBefore engine layout w files files.length = t₁ := by
      rw [treeBefore_eq, List.take_length, hf]
    refine ⟨by simp [hartifacts, hpath], fun i q hq => ?_⟩
    rcases Nat.lt_or_ge i done₁.artifacts.length with hlt | hge
    case inl =>
      rw [List.getElem?_append_left hlt] at hq
      obtain ⟨content, hr, hholds⟩ := hholds i q hq
      obtain ⟨hnew, hkept⟩ := read_set (octets invocation.code) hl hfree hr
      by_cases hm : t₁.Meet q path
      · refine ⟨_, hnew hm, holdsLast_new hlen (hbefore ▸ hi) ?_ (ha.meet.2 hm).symm⟩
        exact Nat.le_of_lt (hlen ▸ hlt)
      · exact ⟨_, hkept hm, holdsLast_kept (mt ha.meet.1 hm) (hholds.agree ha)⟩
    case inr =>
      rw [List.getElem?_append_right hge] at hq
      obtain rfl : q = path := by simpa using List.mem_of_getElem? hq
      have hi' := (List.getElem?_eq_some_iff.1 hq).1
      refine ⟨_, hread, holdsLast_new hlen (hbefore ▸ hi) ?_ ?_⟩
      · simp only [List.length_singleton] at hi'
        omega
      · exact ha.meet.2 ⟨l, hl, hl⟩

theorem finish_report {files : List Path} {mode : OutputMode} {done : Done} {report : BatchReport}
    (h : w.perform (finish layout options files mode done) = (.ok report, w')) :
    report.mode = mode ∧ report.artifacts = done.artifacts ∧
      report.magicNumbers = done.magicNumbers ∧
      ((∀ first, files.head? = some first →
          Artifact.HasDirectory w.tree (layout.registryPath first)) →
        report.registry = none ∧ w'.tree = w.tree ∨ ∃ path, report.registry = some path ∧
          w.tree.write path (octets done.magicNumbers.render) = .ok w'.tree) := by
  rw [finish, perform_bind_ok] at h
  obtain ⟨registry, w₁, hw, h⟩ := h
  cases h
  refine ⟨rfl, rfl, rfl, fun hd => ?_⟩
  unfold writeRegistry at hw
  split at hw
  · rename_i first rest hm
    obtain ⟨_, w₂, ha, hw⟩ := perform_bind_ok.1 hw
    cases hw
    refine .inr ⟨_, rfl, ?_⟩
    rw [Artifact.perform_write_there (by exact hd first rfl)] at ha
    dsimp only at ha
    split at ha
    · rename_i tree ht
      cases ha
      exact ht
    · cases ha
  · cases hw
    exact .inl ⟨rfl, rfl⟩

/-- When a batch that writes artifacts is done, every file has one. It holds the code of the last
file, from its own on, whose artifact leads to the same place, or the registry if that does. -/
theorem run_artifacts {files : List Path} {report : BatchReport} (hl : layout.IsPlain)
    (h : w.perform (run engine files options layout) = (.ok report, w'))
    (hm : report.mode = .perFile) :
    report.artifacts.map some = files.map layout.artifactPath? ∧
      ∀ i path, report.artifacts[i]? = some path → ∃ content,
        HoldsLast engine layout w files report.artifacts w'.tree i path content ∧
        ((∀ registry, report.registry = some registry → ¬ w'.tree.Meet path registry) →
          w'.tree.read path = .ok content) ∧
        ∀ registry, report.registry = some registry → w'.tree.Meet path registry →
          w'.tree.read path = .ok (octets report.magicNumbers.render) := by
  obtain ⟨done, w₁, hf⟩ := doFiles_of_run h
  obtain ⟨log, hr⟩ := run_of_done hf
  obtain ⟨hmode, hartifacts, hnumbers, hend⟩ := finish_report (hr.symm.trans h)
  rw [hm] at hmode
  rw [← hmode] at hf
  have hsteps : filesStep engine layout .nothing w.tree files = (.ok done, w₁.tree) := by
    rw [← doFiles_outcome, outcome, hf]
  obtain ⟨hpaths, hholds⟩ := filesStep_holds hsteps
  rw [hartifacts, hnumbers]
  refine ⟨hpaths, fun i path hi => ?_⟩
  obtain ⟨content, hread, hcontent⟩ := hholds i path hi
  refine ⟨content, ?_⟩
  have hdir (first : Path) (hfirst : files.head? = some first) :
      Artifact.HasDirectory w₁.tree (layout.registryPath first) := by
    have hd := filesStep_registry hl (congrArg Prod.fst hsteps) first hfirst
    rw [hsteps] at hd
    exact hd.2
  obtain ⟨hnone, htree⟩ | ⟨registry, hsome, hwrite⟩ := hend hdir
  · have htree : w'.tree = w₁.tree := htree
    rw [htree]
    exact ⟨hcontent, fun _ => hread, by simp [hnone]⟩
  · obtain ⟨-, l, hloc, hfree, htree, -⟩ := (AgreeOff.refl (fun _ => False) w₁.tree).write hwrite
    have ha : AgreeOff (· = l) w₁.tree w'.tree := by
      rw [htree]
      exact set_agreeOff _ rfl hfree
    obtain ⟨hnew, hkept⟩ :=
      read_set (octets done.magicNumbers.render) hloc hfree hread
    rw [← htree] at hnew hkept
    refine ⟨hcontent.agree ha, fun hn => hkept (mt ha.meet.2 (hn registry hsome)), ?_⟩
    rintro q hq hmeet
    cases hsome.symm.trans hq
    exact hnew (ha.meet.1 hmeet)

theorem run_artifacts_registry :
    let w := holding [("a.xml", "1:A:2\n"), ("b.xml", "2:B:3\n"), ("b.imports.ts", "// own")]
    let files := [Path.ofString "a.xml", .ofString "b.xml"]
    let artifacts := [Path.ofString "a.ts", .ofString "b.ts"]
    ∃ report w', w.perform (run .echo files ⟨false, true⟩ .standard) = (.ok report, w') ∧
      report.artifacts = artifacts ∧ report.registry = some (.ofString "magic-numbers.ts") ∧
      ∀ i path, artifacts[i]? = some path → ∃ content,
        HoldsLast .echo .standard w files report.artifacts w'.tree i path content ∧
        w'.tree.read path = .ok content := by
  intro w files artifacts
  have h : (w.perform (run .echo files ⟨false, true⟩ .standard)).1.map
      (fun report => (report.mode, report.artifacts, report.registry)) =
        .ok (.perFile, artifacts, some (.ofString "magic-numbers.ts")) := by
    decide +kernel
  -- The registry has a place of its own.
  have happart : ∀ path ∈ artifacts,
      ¬ (w.perform (run .echo files ⟨false, true⟩ .standard)).2.tree.Meet path
        (.ofString "magic-numbers.ts") := by
    decide +kernel
  obtain ⟨report, h, hparts⟩ := perform_eq_ok_of_map h
  obtain ⟨hmode, hartifacts, hregistry⟩ : report.mode = .perFile ∧ report.artifacts = artifacts ∧
    report.registry = some (.ofString "magic-numbers.ts") := by simpa using hparts
  obtain ⟨-, hholds⟩ := run_artifacts (by decide +kernel) h hmode
  refine ⟨report, _, h, hartifacts, hregistry, fun i path hi => ?_⟩
  obtain ⟨content, hlast, hread, -⟩ := hholds i path (by rw [hartifacts]; exact hi)
  refine ⟨content, hlast, hread fun registry hsome => ?_⟩
  cases hregistry.symm.trans hsome
  exact happart path (List.mem_of_getElem? hi)

/-- Two files with one artifact: the code of the first is lost. -/
theorem run_replaces_artifact :
    let w := World.start ⟨[([octets "a.xml"], .file (octets "1:A:2\n")),
      ([octets "a.json"], .file (octets "2:B:3\n"))], []⟩ none none
    let files := [Path.ofString "a.xml", .ofString "a.json"]
    let artifact := Path.ofString "a.ts"
    ∃ report w', w.perform (run .echo files ⟨false, false⟩ .standard) = (.ok report, w') ∧
      report.mode = .perFile ∧ report.artifacts = [artifact, artifact] ∧
      CodeAt .echo .standard w files 0 "// a\n1:A:2\n" ∧
      w'.tree.read artifact = .ok (octets "// a\n2:B:3\n") := by
  intro w files artifact
  have h : (w.perform (run .echo files ⟨false, false⟩ .standard)).1.map
      (fun report => (report.mode, report.artifacts)) = .ok (.perFile, [artifact, artifact]) := by
    decide +kernel
  obtain ⟨report, h, hparts⟩ := perform_eq_ok_of_map h
  obtain ⟨hmode, hartifacts⟩ := Prod.mk.inj hparts
  refine ⟨report, _, h, hmode, hartifacts, ?code, by decide +kernel⟩
  exact ⟨.ofString "a.xml", ⟨"a", ["// a", "1:A:2"], ⟨[], [], [⟨1, "A", some 2⟩]⟩⟩, rfl,
    by decide +kernel, by decide +kernel⟩

end DialectBindings.Batch
