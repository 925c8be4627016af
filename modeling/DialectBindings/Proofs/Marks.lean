import DialectBindings.Proofs.Words

/-!
# Marks in names

Quotes, backslashes and line ends have no case, and no letter has one of them for its capital or
small letter. So a name has them in Pascal and camel case just when it has them.
-/

set_option autoImplicit false

namespace DialectBindings

namespace Text

def marks : List Nat := [10, 13, 39, 92, 0x2028, 0x2029]

def IsMark (c : Char) : Prop := c.toNat ∈ marks

instance (c : Char) : Decidable (IsMark c) := inferInstanceAs (Decidable (_ ∈ _))

/-- Runs that neither move a code point nor move another one there. -/
def Apart (runs : List CaseRun) (n : Nat) : Prop :=
  ∀ run ∈ runs, run.holds n = false ∧ (run.last + run.shift < n ∨ n < run.first + run.shift)

instance (runs : List CaseRun) (n : Nat) : Decidable (Apart runs n) :=
  inferInstanceAs (Decidable (∀ run ∈ runs, _))

theorem upperRuns_apart : ∀ n ∈ marks, Apart upperRuns n := by
  decide +kernel

theorem lowerRuns_apart : ∀ n ∈ marks, Apart lowerRuns n := by
  decide +kernel

theorem longCapitals_apart : ∀ n ∈ marks, ∀ e ∈ longCapitals, e.1 ≠ n ∧ n ∉ e.2 := by
  decide

theorem ofNat_mark {n : Nat} {x : Char} (hx : IsMark x) (h : Char.ofNat n = x) : n = x.toNat := by
  by_cases hv : n.isValidChar
  · rw [Char.ofNat, dif_pos hv] at h
    exact congrArg Char.toNat h
  · rw [Char.ofNat, dif_neg hv] at h
    rw [← h] at hx
    exact absurd hx (by decide)

theorem mapByRuns_mark {runs : List CaseRun} {c x : Char} (hx : IsMark x)
    (hr : Apart runs x.toNat) : mapByRuns runs c = x ↔ c = x := by
  rw [mapByRuns]
  split
  · rename_i run hf
    obtain ⟨hkeep, himage⟩ := hr run (List.mem_of_find?_eq_some hf)
    have hh := List.find?_some hf
    constructor
    · intro h
      have hn := ofNat_mark hx h
      have hpos : ∀ n ∈ marks, 0 < n := by decide
      have hpos := hpos _ hx
      simp only [CaseRun.holds, Bool.and_eq_true, decide_eq_true_iff] at hh
      omega
    · rintro rfl
      cases hkeep.symm.trans hh
  · rfl

theorem ascii_mark {f : Char → Char}
    (hf : ∀ n < 128, (IsMark (Char.ofNat n) ∨ IsMark (f (Char.ofNat n))) →
      f (Char.ofNat n) = Char.ofNat n)
    {c x : Char} (hc : c.toNat < 128) (hx : IsMark x) : f c = x ↔ c = x := by
  have h := ascii (p := fun c => (IsMark c ∨ IsMark (f c)) → f c = c) hf hc
  constructor
  · rintro rfl
    exact (h (.inr hx)).symm
  · rintro rfl
    exact h (.inl hx)

theorem mem_capital {c x : Char} (hx : IsMark x) : x ∈ capital c ↔ c = x := by
  rw [capital]
  split
  · rename_i hc
    rw [List.mem_singleton, eq_comm]
    exact ascii_mark (by decide) hc hx
  · split
    · rename_i n letters hf
      obtain ⟨hkey, hletters⟩ := longCapitals_apart _ hx _ (List.mem_of_find?_eq_some hf)
      have hn : n = c.toNat := by simpa using List.find?_some hf
      constructor
      · intro h
        obtain ⟨k, hk, he⟩ := List.mem_map.1 h
        exact absurd (ofNat_mark hx he ▸ hk) hletters
      · rintro rfl
        exact absurd hn hkey
    · rw [List.mem_singleton, eq_comm]
      exact mapByRuns_mark hx (upperRuns_apart _ hx)

theorem mem_small {c x : Char} (hx : IsMark x) : x ∈ small c ↔ c = x := by
  rw [small]
  split
  · rename_i hc
    rw [List.mem_singleton, eq_comm]
    exact ascii_mark (by decide) hc hx
  · split
    · rename_i hc
      constructor
      · intro h
        have hi : ¬ IsMark 'i' ∧ ¬ IsMark (Char.ofNat 0x307) := by decide
        rw [List.mem_cons, List.mem_singleton] at h
        rcases h with rfl | rfl
        · exact absurd hx hi.1
        · exact absurd hx hi.2
      · rintro rfl
        exact absurd (hc ▸ hx : (0x130 : Nat) ∈ marks) (by decide)
    · rw [List.mem_singleton, eq_comm]
      exact mapByRuns_mark hx (lowerRuns_apart _ hx)

theorem exists_mem_pieces {α : Type} [DecidableEq α] {separator x : α} {a : List α} (hm : x ∈ a)
    (hx : x ≠ separator) : ∃ piece ∈ pieces separator a, x ∈ piece := by
  induction a with
  | nil => cases hm
  | cons c a ih =>
    rw [pieces]
    by_cases hc : c = separator
    · rw [if_pos hc]
      obtain ⟨piece, hp, hm⟩ := ih ((List.mem_cons.1 hm).resolve_left fun he => hx (he.trans hc))
      exact ⟨piece, List.mem_cons_of_mem _ hp, hm⟩
    · rw [if_neg hc]
      split
      · rename_i hp
        exact absurd hp (pieces_ne_nil separator a)
      · rename_i first more hp
        rcases List.mem_cons.1 hm with rfl | hm
        · exact ⟨x :: first, List.mem_cons_self, List.mem_cons_self⟩
        · obtain ⟨piece, hpiece, hm⟩ := ih hm
          rw [hp] at hpiece
          rcases List.mem_cons.1 hpiece with rfl | hpiece
          · exact ⟨c :: piece, List.mem_cons_self, List.mem_cons_of_mem _ hm⟩
          · exact ⟨piece, List.mem_cons_of_mem _ hpiece, hm⟩

end Text

namespace Identifier
open Text

theorem mem_capitalized {piece : List Char} {x : Char} (hx : IsMark x) :
    x ∈ capitalized piece ↔ x ∈ piece := by
  cases piece with
  | nil => rfl
  | cons c rest =>
    rw [capitalized, List.mem_append, List.mem_cons, mem_capital hx, eq_comm, List.mem_flatMap]
    simp [mem_small hx]

theorem mem_pascalChars {name : List Char} {x : Char} (hx : IsMark x) :
    x ∈ pascalChars name ↔ x ∈ name := by
  rw [pascalChars, List.mem_flatMap]
  simp only [mem_capitalized hx]
  constructor
  · rintro ⟨piece, hp, hm⟩
    exact mem_of_mem_pieces hp hm
  · intro hm
    refine exists_mem_pieces hm ?_
    rintro rfl
    exact absurd hx (by decide)

theorem mem_camelChars {name : List Char} {x : Char} (hx : IsMark x) :
    x ∈ camelChars name ↔ x ∈ name := by
  refine Iff.trans ?_ (mem_pascalChars hx)
  rw [camelChars]
  split
  · rename_i h
    rw [h]
  · rename_i c rest h
    rw [h, List.mem_append, List.mem_cons, mem_small hx, eq_comm]

end Identifier
end DialectBindings
