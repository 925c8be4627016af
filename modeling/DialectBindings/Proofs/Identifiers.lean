import DialectBindings.Identifier

/-!
# Identifiers without underscores

Names in Pascal and camel case are put together from what is between the underscores of a name,
and no other character has an underscore for its capital or small letter.
-/

set_option autoImplicit false

namespace DialectBindings

namespace Text

theorem not_mem_pieces {α : Type} [DecidableEq α] {separator : α} {a piece : List α}
    (h : piece ∈ pieces separator a) : separator ∉ piece := by
  induction a generalizing piece with
  | nil => simp_all [pieces]
  | cons c a ih =>
    rw [pieces] at h
    split at h
    · rcases List.mem_cons.1 h with rfl | h
      · simp
      · exact ih h
    · rename_i hc
      split at h
      · obtain rfl := List.mem_singleton.1 h
        simpa using Ne.symm hc
      · rename_i first more hp
        rcases List.mem_cons.1 h with rfl | h
        · rw [List.mem_cons, not_or]
          exact ⟨Ne.symm hc, ih (hp ▸ List.mem_cons_self)⟩
        · exact ih (hp ▸ List.mem_cons_of_mem _ h)

/-- Characters that runs map away from the underscore's code point. -/
def Spare (runs : List CaseRun) : Prop :=
  ∀ run ∈ runs, run.last + run.shift < 95 ∨ 95 < run.first + run.shift

theorem toNat_ofNat_ne {n : Nat} (h : n ≠ 95) : Char.ofNat n ≠ '_' := by
  intro he
  by_cases hv : n.isValidChar
  · rw [Char.ofNat, dif_pos hv] at he
    exact h (congrArg Char.toNat he)
  · rw [Char.ofNat, dif_neg hv] at he
    cases he

theorem mapByRuns_ne {runs : List CaseRun} (hs : Spare runs) {c : Char} (hc : c ≠ '_') :
    mapByRuns runs c ≠ '_' := by
  rw [mapByRuns]
  split
  · rename_i run hr
    have hm := hs run (List.mem_of_find?_eq_some hr)
    have hh := List.find?_some hr
    simp only [CaseRun.holds, Bool.and_eq_true, decide_eq_true_iff] at hh
    apply toNat_ofNat_ne
    omega
  · exact hc

theorem upperRuns_spare : Spare upperRuns := by
  unfold Spare
  decide +kernel

theorem lowerRuns_spare : Spare lowerRuns := by
  unfold Spare
  decide +kernel

theorem longCapitals_spare : ∀ e ∈ longCapitals, 95 ∉ e.2 := by
  decide

theorem ascii {p : Char → Prop} (h : ∀ n < 128, p (Char.ofNat n)) {c : Char}
    (hc : c.toNat < 128) : p c := by
  have := h c.toNat hc
  rwa [Char.ofNat_toNat] at this

theorem toLower_ne {c : Char} (hl : c.toNat < 128) : c ≠ '_' → c.toLower ≠ '_' :=
  ascii (p := fun c => c ≠ '_' → c.toLower ≠ '_') (by decide) hl

theorem toUpper_ne {c : Char} (hl : c.toNat < 128) : c ≠ '_' → c.toUpper ≠ '_' :=
  ascii (p := fun c => c ≠ '_' → c.toUpper ≠ '_') (by decide) hl

theorem not_mem_small {c : Char} (hc : c ≠ '_') : '_' ∉ small c := by
  rw [small]
  split
  · rename_i hl
    simpa using (toLower_ne hl hc).symm
  · split
    · decide
    · simpa using (mapByRuns_ne lowerRuns_spare hc).symm

theorem not_mem_capital {c : Char} (hc : c ≠ '_') : '_' ∉ capital c := by
  rw [capital]
  split
  · rename_i hl
    simpa using (toUpper_ne hl hc).symm
  · split
    · rename_i n letters hf
      intro h
      obtain ⟨k, hk, he⟩ := List.mem_map.1 h
      have hne : k ≠ 95 := fun h95 =>
        longCapitals_spare _ (List.mem_of_find?_eq_some hf) (h95 ▸ hk)
      exact toNat_ofNat_ne hne he
    · simpa using (mapByRuns_ne upperRuns_spare hc).symm

end Text

namespace Identifier
open Text

theorem not_mem_capitalized {piece : List Char} (h : '_' ∉ piece) : '_' ∉ capitalized piece := by
  cases piece with
  | nil => exact h
  | cons c rest =>
    rw [List.mem_cons, not_or] at h
    rw [capitalized, List.mem_append, List.mem_flatMap, not_or]
    refine ⟨not_mem_capital (Ne.symm h.1), ?_⟩
    rintro ⟨d, hd, hm⟩
    exact not_mem_small (fun he => h.2 (he ▸ hd)) hm

theorem not_mem_pascalChars (name : List Char) : '_' ∉ pascalChars name := by
  rw [pascalChars, List.mem_flatMap]
  rintro ⟨piece, hp, hm⟩
  exact not_mem_capitalized (not_mem_pieces hp) hm

theorem not_mem_camelChars (name : List Char) : '_' ∉ camelChars name := by
  have hp := not_mem_pascalChars name
  rw [camelChars]
  split
  · simp
  · rename_i c rest h
    rw [h, List.mem_cons, not_or] at hp
    rw [List.mem_append, not_or]
    exact ⟨not_mem_small (Ne.symm hp.1), hp.2⟩

end Identifier
end DialectBindings
