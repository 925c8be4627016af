import DialectBindings.Proofs.Batches
import DialectBindings.Proofs.Definitions
import Mathlib.Data.List.Induction

/-!
# Magic numbers of a batch

The registry of a batch holds for every id the magic number of the last file that declares a
message of that id which is not a work in progress. What a file declares is what the run reads
there: an artifact of an earlier file may have taken its place.
-/

set_option autoImplicit false

namespace DialectBindings

namespace Registry

theorem get?_add_of_none {r : Registry} {m : MessageSummary} {id : UInt32}
    (h : m.id = id → m.magic = none) : (r.add m).get? id = r.get? id := by
  rw [add]
  split
  · rfl
  · rename_i magic hm
    rw [get?_insert, if_neg]
    intro he
    cases hm.symm.trans (h he.symm)

theorem get?_add_of_some {r : Registry} {m : MessageSummary} {magic : UInt8}
    (h : m.magic = some magic) : (r.add m).get? m.id = some magic := by
  rw [add, h]
  simp only [get?_insert, if_true]

theorem get?_addAll_of_none {r : Registry} {ms : List MessageSummary} {id : UInt32}
    (h : ∀ m ∈ ms, m.id = id → m.magic = none) : (r.addAll ms).get? id = r.get? id := by
  induction ms generalizing r with
  | nil => rfl
  | cons m ms ih =>
    change ((r.add m).addAll ms).get? id = _
    rw [ih fun n hn => h n (List.mem_cons_of_mem _ hn)]
    exact get?_add_of_none (h m List.mem_cons_self)

theorem get?_addAll_of_mem {r : Registry} {ms : List MessageSummary} {m : MessageSummary}
    {magic : UInt8} (hn : (ms.map (·.id)).Nodup) (hm : m ∈ ms) (h : m.magic = some magic) :
    (r.addAll ms).get? m.id = some magic := by
  induction ms generalizing r with
  | nil => cases hm
  | cons n ms ih =>
    change ((r.add n).addAll ms).get? m.id = _
    rw [List.map_cons, List.nodup_cons] at hn
    rcases List.mem_cons.1 hm with rfl | hm
    · rw [get?_addAll_of_none, get?_add_of_some h]
      intro k hk he
      exact absurd (List.mem_map.2 ⟨k, hk, he⟩) hn.1
    · exact ih hn.2 hm

end Registry

namespace Batch
open Text World Results Definition

variable {layout : Layout} {mode : OutputMode} {options : BatchOptions} {w w' : World}

/-- The files as they are when a run is done with the first of its definitions. -/
def treeAfter (layout : Layout) (mode : OutputMode) (w : World) (before : List Path) : FileTree :=
  (w.perform (doFiles .bindings layout mode .nothing before)).2.tree

/-- The source that a run reads at one of its places. -/
def SourceAt (layout : Layout) (mode : OutputMode) (w : World) (files : List Path) (i : Nat)
    (source : String) : Prop :=
  ∃ file, files[i]? = some file ∧ (treeAfter layout mode w (files.take i)).source file = .ok source

/-- The source at one of the places declares a message, and not as a work in progress. -/
def PublishedAt (layout : Layout) (mode : OutputMode) (w : World) (files : List Path) (i : Nat)
    (id : UInt32) (m : Message) : Prop :=
  ∃ source, SourceAt layout mode w files i source ∧ Publishes source id m

/-- A registry holds what the files of a run declare, each id as it was declared last. -/
structure Tally (layout : Layout) (mode : OutputMode) (w : World) (files : List Path)
    (r : Registry) : Prop where
  /-- Every file is a definition in which no two messages have one id. -/
  accepted : ∀ i < files.length, ∃ source document, SourceAt layout mode w files i source ∧
    Document.parse source = .ok document ∧ (document.messages.map (·.id)).Nodup ∧
    ∀ declaration ∈ document.messages, ∃ m, checkMessage declaration = .ok m
  held : ∀ id magic, r.get? id = some magic ↔ ∃ i m,
    PublishedAt layout mode w files i id m ∧ magic = m.crcExtra ∧
      ∀ j > i, ∀ n, ¬ PublishedAt layout mode w files j id n
  absent : ∀ id, r.get? id = none ↔ ∀ i m, ¬ PublishedAt layout mode w files i id m

theorem SourceAt.lt {files : List Path} {i : Nat} {source : String}
    (h : SourceAt layout mode w files i source) : i < files.length := by
  obtain ⟨file, hf, -⟩ := h
  exact (List.getElem?_eq_some_iff.1 hf).1

theorem sourceAt_concat {files : List Path} {file : Path} {i : Nat} {source : String} :
    SourceAt layout mode w (files ++ [file]) i source ↔
      SourceAt layout mode w files i source ∨
        i = files.length ∧ (treeAfter layout mode w files).source file = .ok source := by
  rcases Nat.lt_trichotomy i files.length with h | rfl | h
  · rw [SourceAt, SourceAt, List.getElem?_append_left h,
      List.take_append_of_le_length (Nat.le_of_lt h)]
    simp [Nat.ne_of_lt h]
  · simp [SourceAt]
  · have hs : ∀ fs : List Path, fs.length ≤ i → ¬ SourceAt layout mode w fs i source :=
      fun fs hi hs => absurd hs.lt (Nat.not_lt.2 hi)
    have hl : (files ++ [file]).length ≤ i := by
      rw [List.length_append]
      exact h
    simp [hs files (Nat.le_of_lt h), hs (files ++ [file]) hl, Nat.ne_of_gt h]

theorem publishedAt_concat {files : List Path} {file : Path} {source : String}
    (hs : (treeAfter layout mode w files).source file = .ok source) {i : Nat} {id : UInt32}
    {m : Message} :
    PublishedAt layout mode w (files ++ [file]) i id m ↔
      PublishedAt layout mode w files i id m ∨ i = files.length ∧ Publishes source id m := by
  constructor
  · rintro ⟨text, ht, hp⟩
    obtain hb | ⟨rfl, hf⟩ := sourceAt_concat.1 ht
    · exact .inl ⟨text, hb, hp⟩
    · cases hs.symm.trans hf
      exact .inr ⟨rfl, hp⟩
  · rintro (⟨text, ht, hp⟩ | ⟨rfl, hp⟩)
    · exact ⟨text, sourceAt_concat.2 (.inl ht), hp⟩
    · exact ⟨source, sourceAt_concat.2 (.inr ⟨rfl, hs⟩), hp⟩

theorem PublishedAt.lt {files : List Path} {i : Nat} {id : UInt32} {m : Message}
    (h : PublishedAt layout mode w files i id m) : i < files.length := by
  obtain ⟨source, hs, -⟩ := h
  exact hs.lt

theorem tally_nil : Tally layout mode w [] Registry.empty := by
  have hp : ∀ i id m, ¬ PublishedAt layout mode w [] i id m :=
    fun i id m h => absurd h.lt (Nat.not_lt_zero i)
  refine ⟨fun i hi => absurd hi (Nat.not_lt_zero i), fun id magic => ⟨nofun, ?_⟩,
    fun id => ⟨fun _ i m => hp i id m, fun _ => rfl⟩⟩
  rintro ⟨i, m, h, -⟩
  exact absurd h (hp i id m)

theorem get?_addAll_published {r : Registry} {source : String} {d : Dialect} {id : UInt32}
    {m : Message} (hd : Dialect.parse source = .ok d) (hm : Publishes source id m) :
    (r.addAll d.descriptors.messages).get? id = some m.crcExtra := by
  obtain ⟨document, -, hc⟩ := Dialect.parse_ok hd
  obtain ⟨-, hn, -⟩ := Document.check_ok hc
  obtain ⟨hmem, rfl, hw⟩ := (publishes_iff hd).1 hm
  have hids : (d.descriptors.messages.map (·.id)).Nodup := by
    rw [Dialect.descriptors, List.map_map]
    exact hn
  have hmagic : m.summary.magic = some m.crcExtra := by
    simp [Message.summary, Message.magic, hw]
  exact Registry.get?_addAll_of_mem hids (List.mem_map_of_mem hmem) hmagic

theorem get?_addAll_unpublished {r : Registry} {source : String} {d : Dialect} {id : UInt32}
    (hd : Dialect.parse source = .ok d) (hp : ¬ ∃ m, Publishes source id m) :
    (r.addAll d.descriptors.messages).get? id = r.get? id := by
  apply Registry.get?_addAll_of_none
  intro summary hs he
  obtain ⟨m, hm, rfl⟩ := List.mem_map.1 hs
  have hw : ¬ m.wip = false := fun hw => hp ⟨m, (publishes_iff hd).2 ⟨hm, he, hw⟩⟩
  simp [Message.summary, Message.magic, hw]

theorem publishedAt_concat_of_not {files : List Path} {file : Path} {source : String} {id : UInt32}
    (hs : (treeAfter layout mode w files).source file = .ok source)
    (hp : ¬ ∃ m, Publishes source id m) (i : Nat) (m : Message) :
    PublishedAt layout mode w (files ++ [file]) i id m ↔
      PublishedAt layout mode w files i id m := by
  rw [publishedAt_concat hs, or_iff_left]
  rintro ⟨-, hm⟩
  exact hp ⟨m, hm⟩

theorem tally_concat {files : List Path} {file : Path} {r : Registry} {source : String}
    {d : Dialect} (ht : Tally layout mode w files r)
    (hs : (treeAfter layout mode w files).source file = .ok source)
    (hd : Dialect.parse source = .ok d) :
    Tally layout mode w (files ++ [file]) (r.addAll d.descriptors.messages) := by
  refine ⟨?accepted, fun id magic => ?held, fun id => ?absent⟩
  case accepted =>
    intro i hi
    rw [List.length_append, List.length_singleton, Nat.lt_succ_iff_lt_or_eq] at hi
    rcases hi with hi | rfl
    · obtain ⟨text, document, hsrc, hrest⟩ := ht.accepted i hi
      exact ⟨text, document, sourceAt_concat.2 (.inl hsrc), hrest⟩
    · obtain ⟨document, hdoc⟩ := Dialect.parse_document hd
      exact ⟨source, document, sourceAt_concat.2 (.inr ⟨rfl, hs⟩), hdoc⟩
  case held =>
    by_cases hp : ∃ m, Publishes source id m
    · obtain ⟨m, hm⟩ := hp
      have hlast : PublishedAt layout mode w (files ++ [file]) files.length id m :=
        (publishedAt_concat hs).2 (.inr ⟨rfl, hm⟩)
      rw [get?_addAll_published hd hm]
      constructor
      · intro h
        cases h
        refine ⟨files.length, m, hlast, rfl, fun j hj n hn => ?_⟩
        have hlt := hn.lt
        rw [List.length_append, List.length_singleton] at hlt
        omega
      · rintro ⟨i, n, hn, rfl, hafter⟩
        obtain hn | ⟨-, hn⟩ := (publishedAt_concat hs).1 hn
        · exact absurd hlast (hafter _ hn.lt m)
        · rw [publishes_unique hd hm hn]
    · rw [get?_addAll_unpublished hd hp, ht.held]
      simp only [publishedAt_concat_of_not hs hp]
  case absent =>
    by_cases hp : ∃ m, Publishes source id m
    · obtain ⟨m, hm⟩ := hp
      rw [get?_addAll_published hd hm]
      refine ⟨nofun, fun h => absurd ?_ (h files.length m)⟩
      exact (publishedAt_concat hs).2 (.inr ⟨rfl, hm⟩)
    · rw [get?_addAll_unpublished hd hp, ht.absent]
      simp only [publishedAt_concat_of_not hs hp]

theorem doFiles_tally {files : List Path} {done : Done}
    (h : w.perform (doFiles .bindings layout mode .nothing files) = (.ok done, w')) :
    Tally layout mode w files done.magicNumbers := by
  -- From the end, as a file is read in the tree that all files before it leave.
  induction files using List.reverseRecOn generalizing done w' with
  | nil =>
    cases h
    exact tally_nil
  | append_singleton files file ih =>
    rw [doFiles_append, perform_bind_ok] at h
    obtain ⟨done₁, w₁, hb, h⟩ := h
    rw [doFiles, perform_bind_ok] at h
    obtain ⟨done₂, w₂, hf, h⟩ := h
    cases h
    obtain ⟨w₃, hd, -⟩ := showFile_done hf
    obtain ⟨-, -, source, generated, hs, hg, hr⟩ := doFile_done hd
    obtain ⟨d, hparse, hdesc, -⟩ := Engine.bindings_ok hg
    rw [hr, hdesc]
    refine tally_concat (ih hb) ?_ hparse
    rw [treeAfter, hb]
    exact hs

/-- The registry of a batch that is done with its files, and the artifact that holds it. -/
theorem run_registry {files : List Path} {report : BatchReport}
    (h : w.perform (run .bindings files options layout) = (.ok report, w')) :
    Tally layout (.select files.length options) w files report.magicNumbers ∧
      ∀ first, options.magic = true → files.head? = some first →
        w'.tree.read (layout.registryPath first) = .ok (octets report.magicNumbers.render) := by
  obtain ⟨done, w₁, hf⟩ := doFiles_of_run h
  obtain ⟨log, hr⟩ := run_of_done hf
  obtain ⟨hm, hw⟩ := finish_done (hr.symm.trans h)
  refine ⟨hm ▸ doFiles_tally hf, fun first hmagic hfirst => ?_⟩
  obtain ⟨tree, tree', -, hwrite, rfl⟩ := Artifact.write_done (hw first hmagic hfirst)
  rw [hm]
  exact FileTree.read_write hwrite

def messagesOnly (messages : String) : String :=
  "<mavlink><messages>" ++ messages ++ "</messages></mavlink>"

theorem run_registry_wip :
    let w := holding [
      ("a.xml", messagesOnly "<message id='7' name='A'><field type='char' name='x'/></message>"),
      ("b.xml", messagesOnly "<message id='7' name='B'/><message id='9' name='D'/>"),
      ("c.xml", messagesOnly "<message id='7' name='C'><wip/></message>")]
    let files := [Path.ofString "a.xml", .ofString "b.xml", .ofString "c.xml"]
    ∃ report w', w.perform (run .bindings files ⟨false, true⟩ .standard) = (.ok report, w') ∧
      Tally .standard .perFile w files report.magicNumbers ∧
      report.magicNumbers.entries = [(7, 200), (9, 76)] ∧
      w'.tree.read (.ofString "magic-numbers.ts") = .ok (octets report.magicNumbers.render) := by
  intro w files
  have h : (w.perform (run .bindings files ⟨false, true⟩ .standard)).1.map
      (fun report => report.magicNumbers.entries) = .ok [(7, 200), (9, 76)] := by
    decide +kernel
  obtain ⟨report, h, hentries⟩ := perform_eq_ok_of_map h
  have hpath : Layout.standard.registryPath (.ofString "a.xml") = .ofString "magic-numbers.ts" := by
    decide +kernel
  obtain ⟨htally, hread⟩ := run_registry h
  exact ⟨report, _, h, htally, hentries, hpath ▸ hread (.ofString "a.xml") rfl rfl⟩

end Batch
end DialectBindings
