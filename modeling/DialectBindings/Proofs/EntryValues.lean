import DialectBindings.Proofs.GivenValues

/-!
# Values of entries

Within a block of an enum an entry that gives no value follows the entry before it. A block starts
at zero again, also where it adds to an enum that has entries already.
-/

set_option autoImplicit false

namespace DialectBindings.Definition
open Results

def valueAfter (entries : List Entry) : Nat :=
  match entries.getLast? with
  | none => 0
  | some e => (e.value.toNat + 1) % UInt32.size

/-- Entries with the values that their declarations give them, one after the other. -/
structure Numbered (declared : List EntryDecl) (entries : List Entry) : Prop where
  names : entries.map (·.name) = declared.map (·.name)
  missing : ∀ (i : Nat) (e : EntryDecl) (entry : Entry), declared[i]? = some e →
    entries[i]? = some entry → e.value = none → entry.value.toNat = valueAfter (entries.take i)
  given : ∀ (i : Nat) (e : EntryDecl) (entry : Entry) (raw : String), declared[i]? = some e →
    entries[i]? = some entry → e.value = some raw → Gives raw entry.value.toNat

theorem toNat_valueAfter (entries : List Entry) (e : Entry) :
    (e.value + 1).toNat = valueAfter (entries ++ [e]) := by
  rw [valueAfter, List.getLast?_concat, UInt32.toNat_add]
  rfl

theorem numbered_nil : Numbered [] [] := by
  refine ⟨rfl, ?_, ?_⟩
  · intro i e entry h
    cases h
  · intro i e entry raw h
    cases h

theorem numbered_concat {declared : List EntryDecl} {entries : List Entry} {e : EntryDecl}
    {next n : UInt32} (h : Numbered declared entries) (hnext : next.toNat = valueAfter entries)
    (hn : e.number? next = some n) :
    Numbered (declared ++ [e]) (entries ++ [e.numbered n]) := by
  have hl : entries.length = declared.length := by
    simpa using congrArg List.length h.names
  -- A place of the longer list is one of the shorter list, or its end.
  have place : ∀ (i : Nat) (x : EntryDecl) (entry : Entry), (declared ++ [e])[i]? = some x →
      (entries ++ [e.numbered n])[i]? = some entry →
      declared[i]? = some x ∧ entries[i]? = some entry ∧ i ≤ entries.length ∨
        i = entries.length ∧ x = e ∧ entry = e.numbered n := by
    intro i x entry hx hentry
    by_cases hi : i < declared.length
    · rw [List.getElem?_append_left hi] at hx
      rw [List.getElem?_append_left (hl ▸ hi)] at hentry
      exact .inl ⟨hx, hentry, by omega⟩
    · have hlast : i < (declared ++ [e]).length := (List.getElem?_eq_some_iff.1 hx).1
      have he : i = declared.length := by
        rw [List.length_append, List.length_singleton] at hlast
        omega
      subst he
      rw [List.getElem?_concat_length] at hx
      rw [← hl, List.getElem?_concat_length] at hentry
      cases hx
      cases hentry
      exact .inr ⟨hl.symm, rfl, rfl⟩
  refine ⟨?names, ?missing, ?given⟩
  case names => simp [h.names, EntryDecl.numbered]
  case missing =>
    intro i x entry hx hentry hv
    rcases place i x entry hx hentry with ⟨hx, hentry, hi⟩ | ⟨rfl, rfl, rfl⟩
    · rw [List.take_append_of_le_length hi]
      exact h.missing i x entry hx hentry hv
    · rw [EntryDecl.number?, hv] at hn
      cases hn
      rw [List.take_left]
      exact hnext
  case given =>
    intro i x entry raw hx hentry hv
    rcases place i x entry hx hentry with ⟨hx, hentry, -⟩ | ⟨rfl, rfl, rfl⟩
    · exact h.given i x entry raw hx hentry hv
    · rw [EntryDecl.number?, hv] at hn
      exact value?_eq_some.1 hn

theorem checkEntries_numbered {enum : String} {next : UInt32} {before declared : List EntryDecl}
    {done entries : List Entry} (hd : Numbered before done)
    (hnext : next.toNat = valueAfter done) (h : checkEntries enum next declared = .ok entries) :
    Numbered (before ++ declared) (done ++ entries) := by
  induction declared generalizing next before done entries with
  | nil =>
    cases h
    simpa using hd
  | cons e rest ih =>
    obtain ⟨n, more, hn, hm, rfl⟩ := checkEntries_cons_ok h
    have hstep := ih (numbered_concat hd hnext hn) (toNat_valueAfter done (e.numbered n)) hm
    simpa using hstep

theorem checkEnum_numbered {block : EnumDecl} {e : Enum} (h : checkEnum block = .ok e) :
    e.name = block.name ∧ Numbered block.entries e.entries := by
  obtain ⟨entries, he, h⟩ := bind_eq_ok.1 h
  cases h
  exact ⟨rfl, checkEntries_numbered numbered_nil rfl he⟩

theorem blocks_numbered {declared : List EnumDecl} {blocks : List Enum} (name : String)
    (h : declared.map checkEnum = blocks.map .ok) :
    List.Forall₂ (fun (d : EnumDecl) (b : Enum) => Numbered d.entries b.entries)
      (declared.filter (·.name == name)) (blocks.filter (·.name == name)) :=
  (blocks_checked name h).imp fun _ _ hb => (checkEnum_numbered hb).2

/-- The entries of an enum are those of its blocks, and these have their values block by block. -/
theorem parse_numbered {source : String} {d : Dialect} (h : Dialect.parse source = .ok d) :
    ∃ document, Document.parse source = .ok document ∧ ∀ e ∈ d.enums, ∃ parts : List (List Entry),
      e.entries = parts.flatten ∧
        List.Forall₂ (fun (block : EnumDecl) (part : List Entry) => Numbered block.entries part)
          (document.enums.filter (·.name == e.name)) parts := by
  obtain ⟨document, hd, hc⟩ := Dialect.parse_ok h
  refine ⟨document, hd, fun e he => ?_⟩
  obtain ⟨blocks, hblocks, hjoins⟩ := (Document.check_defines hc).enums
  obtain ⟨first, -, hjoined⟩ := hjoins.joined e he
  refine ⟨(blocks.filter (·.name == e.name)).map (·.entries), ?_, ?_⟩
  · rw [← List.flatMap_def]
    exact congrArg Enum.entries hjoined
  · rw [List.forall₂_map_right_iff]
    exact blocks_numbered e.name hblocks

def twoBlocks : String :=
  "<mavlink><enums><enum name='A'><entry name='X' value='5'/></enum>" ++
    "<enum name='A'><entry name='Y'/></enum></enums></mavlink>"

theorem parse_numbered_two_blocks :
    ∃ d, Dialect.parse twoBlocks = .ok d ∧
      ∃ document, Document.parse twoBlocks = .ok document ∧
        ∀ e ∈ d.enums, ∃ parts : List (List Entry), e.entries = parts.flatten ∧
          List.Forall₂ (fun (block : EnumDecl) (part : List Entry) => Numbered block.entries part)
            (document.enums.filter (·.name == e.name)) parts := by
  have h : (Dialect.parse twoBlocks).isOk = true := by decide +kernel
  obtain ⟨d, hd⟩ := exists_ok h
  exact ⟨d, hd, parse_numbered hd⟩

/-- The values of an enum need not follow each other across its blocks. -/
theorem values_restart : ∃ d document e, Dialect.parse twoBlocks = .ok d ∧
    Document.parse twoBlocks = .ok document ∧ e ∈ d.enums ∧
      ¬ Numbered ((document.enums.filter (·.name == e.name)).flatMap (·.entries)) e.entries := by
  let x : EntryDecl := ⟨"X", some "5", "", [], none, false⟩
  let y : EntryDecl := ⟨"Y", none, "", [], none, false⟩
  let blocks : List EnumDecl := [⟨"A", false, "", none, [x]⟩, ⟨"A", false, "", none, [y]⟩]
  let e : Enum := ⟨"A", "", false, [x.numbered 5, y.numbered 0], none⟩
  refine ⟨⟨[], none, none, [e], []⟩, ⟨[], none, none, blocks, []⟩, e, ?_, ?_, ?_, ?_⟩
  · decide +kernel
  · decide +kernel
  · simp
  · intro h
    have hy := h.missing 1 y (y.numbered 0) rfl rfl rfl
    exact absurd hy (by decide)

end DialectBindings.Definition
