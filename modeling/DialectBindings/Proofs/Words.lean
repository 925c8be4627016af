import DialectBindings.Proofs.Files
import DialectBindings.Proofs.Identifiers

/-!
# The words of a name

A name in Pascal case shows the words of the name it is made from: it is cut before its capitals.
What is between underscores is a word in small letters, but without a letter at its start it is
not told apart from the word before it. So two names of ASCII characters become one name in Pascal
or camel case just when they have the same words.
-/

set_option autoImplicit false

namespace DialectBindings.Identifier
open Text

def IsAscii (name : List Char) : Prop := ∀ c ∈ name, c.toNat < 128

instance (name : List Char) : Decidable (IsAscii name) :=
  decidable_of_iff (name.all fun c => decide (c.toNat < 128)) (by simp [IsAscii])

def startsWithLetter : List Char → Bool
  | c :: _ => c.isAlpha
  | [] => false

/-- Words of which each, the first apart, starts with a letter: the others go to the word before
them. -/
def joined : List (List Char) → List (List Char)
  | [] => []
  | word :: rest =>
    match joined rest with
    | [] => [word]
    | next :: more =>
      if startsWithLetter next then word :: next :: more else (word ++ next) :: more

/-- The words of a name, in small letters. -/
def words (name : List Char) : List (List Char) :=
  joined (((pieces '_' name).filter (· ≠ [])).map (·.map Char.toLower))

def titled : List Char → List Char
  | [] => []
  | c :: rest => c.toUpper :: rest

def cut : List Char → List Char × List (List Char)
  | [] => ([], [])
  | c :: rest =>
    let (front, found) := cut rest
    if c.isUpper then ([], (c.toLower :: front) :: found) else (c :: front, found)

def IsSmall (word : List Char) : Prop := IsAscii word ∧ ∀ c ∈ word, c.isUpper = false

theorem toUpper_toLower {c : Char} (hc : c.toNat < 128) : c.toLower.toUpper = c.toUpper :=
  ascii (p := fun c => c.toLower.toUpper = c.toUpper) (by decide) hc

theorem toUpper_toLower_toUpper {c : Char} (hc : c.toNat < 128) :
    c.toUpper.toLower.toUpper = c.toUpper :=
  ascii (p := fun c => c.toUpper.toLower.toUpper = c.toUpper) (by decide) hc

theorem toLower_small {c : Char} (hc : c.toNat < 128) :
    c.toLower.toNat < 128 ∧ c.toLower.isUpper = false :=
  ascii (p := fun c => c.toLower.toNat < 128 ∧ c.toLower.isUpper = false) (by decide) hc

theorem toLower_toUpper {c : Char} (hc : c.toNat < 128) :
    c.isAlpha = true → c.isUpper = false → c.toUpper.isUpper = true ∧ c.toUpper.toLower = c :=
  ascii (p := fun c => c.isAlpha = true → c.isUpper = false →
    c.toUpper.isUpper = true ∧ c.toUpper.toLower = c) (by decide) hc

theorem toUpper_of_not_alpha {c : Char} (hc : c.toNat < 128) : c.isAlpha = false → c.toUpper = c :=
  ascii (p := fun c => c.isAlpha = false → c.toUpper = c) (by decide) hc

theorem capital_ascii {c : Char} (hc : c.toNat < 128) : capital c = [c.toUpper] := if_pos hc

theorem small_ascii {c : Char} (hc : c.toNat < 128) : small c = [c.toLower] := if_pos hc

theorem flatMap_small {word : List Char} (h : IsAscii word) :
    word.flatMap small = word.map Char.toLower := by
  induction word with
  | nil => rfl
  | cons c word ih =>
    rw [List.flatMap_cons, small_ascii (h c List.mem_cons_self),
      ih fun d hd => h d (List.mem_cons_of_mem _ hd)]
    rfl

theorem capitalized_titled {word : List Char} (h : IsAscii word) :
    capitalized word = titled (word.map Char.toLower) := by
  cases word with
  | nil => rfl
  | cons c rest =>
    have hc := h c List.mem_cons_self
    rw [capitalized, capital_ascii hc, flatMap_small fun d hd => h d (List.mem_cons_of_mem _ hd),
      List.map_cons, titled, toUpper_toLower hc]
    rfl

theorem isSmall_map {word : List Char} (h : IsAscii word) : IsSmall (word.map Char.toLower) := by
  constructor
  · intro c hc
    obtain ⟨d, hd, rfl⟩ := List.mem_map.1 hc
    exact (toLower_small (h d hd)).1
  · intro c hc
    obtain ⟨d, hd, rfl⟩ := List.mem_map.1 hc
    exact (toLower_small (h d hd)).2

theorem IsSmall.append {a b : List Char} (ha : IsSmall a) (hb : IsSmall b) : IsSmall (a ++ b) :=
  ⟨fun c hc => (List.mem_append.1 hc).elim (ha.1 c) (hb.1 c),
    fun c hc => (List.mem_append.1 hc).elim (ha.2 c) (hb.2 c)⟩

/-- Words that are told apart by their capitals: only the first may start without a letter. -/
structure Spelled (ws : List (List Char)) : Prop where
  small : ∀ word ∈ ws, IsSmall word
  nonempty : ∀ word ∈ ws, word ≠ []
  letters : ∀ word ∈ ws.tail, startsWithLetter word = true

theorem joined_spelled {ws : List (List Char)} (hs : ∀ word ∈ ws, IsSmall word)
    (hne : ∀ word ∈ ws, word ≠ []) : Spelled (joined ws) := by
  induction ws with
  | nil => exact ⟨nofun, nofun, nofun⟩
  | cons word rest ih =>
    have ih := ih (fun v hv => hs v (List.mem_cons_of_mem _ hv))
      fun v hv => hne v (List.mem_cons_of_mem _ hv)
    have hword := hs word List.mem_cons_self
    have hword' := hne word List.mem_cons_self
    rw [joined]
    split
    · exact ⟨by simpa using hword, by simpa using hword', nofun⟩
    · rename_i next more hj
      rw [hj] at ih
      obtain ⟨hsmall, hnonempty, hletters⟩ := ih
      split
      · rename_i hl
        exact ⟨List.forall_mem_cons.2 ⟨hword, hsmall⟩, List.forall_mem_cons.2 ⟨hword', hnonempty⟩,
          List.forall_mem_cons.2 ⟨hl, hletters⟩⟩
      · obtain ⟨hnext, hmore⟩ := List.forall_mem_cons.1 hsmall
        obtain ⟨-, hmore'⟩ := List.forall_mem_cons.1 hnonempty
        exact ⟨List.forall_mem_cons.2 ⟨hword.append hnext, hmore⟩,
          List.forall_mem_cons.2 ⟨by simp [hword'], hmore'⟩, hletters⟩

theorem joined_titled {ws : List (List Char)} (hs : ∀ word ∈ ws, IsSmall word)
    (hne : ∀ word ∈ ws, word ≠ []) : (joined ws).flatMap titled = ws.flatMap titled := by
  induction ws with
  | nil => rfl
  | cons word rest ih =>
    have hs' := fun v hv => hs v (List.mem_cons_of_mem _ hv)
    have hne' := fun v hv => hne v (List.mem_cons_of_mem _ hv)
    have ih := ih hs' hne'
    rw [joined, List.flatMap_cons, ← ih]
    split
    · rename_i hj
      rw [hj]
      rfl
    · rename_i next more hj
      rw [hj]
      split
      · rfl
      · rename_i hl
        obtain ⟨c, word, rfl⟩ := List.exists_cons_of_ne_nil (hne word List.mem_cons_self)
        have hsp := joined_spelled hs' hne'
        rw [hj] at hsp
        obtain ⟨d, next, rfl⟩ := List.exists_cons_of_ne_nil (hsp.nonempty _ List.mem_cons_self)
        have hd := (hsp.small _ List.mem_cons_self).1 d List.mem_cons_self
        have hup := toUpper_of_not_alpha hd (by simpa [startsWithLetter] using hl)
        simp [titled, hup]

theorem mem_of_mem_pieces {α : Type} [DecidableEq α] {separator c : α} {a piece : List α}
    (hp : piece ∈ pieces separator a) (hc : c ∈ piece) : c ∈ a := by
  induction a generalizing piece with
  | nil =>
    obtain rfl := List.mem_singleton.1 hp
    exact hc
  | cons d a ih =>
    rw [pieces] at hp
    split at hp
    · rcases List.mem_cons.1 hp with rfl | hp
      · cases hc
      · exact List.mem_cons_of_mem _ (ih hp hc)
    · split at hp
      · obtain rfl := List.mem_singleton.1 hp
        rw [List.mem_singleton.1 hc]
        exact List.mem_cons_self
      · rename_i first more hm
        rcases List.mem_cons.1 hp with rfl | hp
        · rcases List.mem_cons.1 hc with rfl | hc
          · exact List.mem_cons_self
          · exact List.mem_cons_of_mem _ (ih (hm ▸ List.mem_cons_self) hc)
        · exact List.mem_cons_of_mem _ (ih (hm ▸ List.mem_cons_of_mem _ hp) hc)

theorem pieces_ascii {name piece : List Char} (h : IsAscii name) (hp : piece ∈ pieces '_' name) :
    IsAscii piece :=
  fun c hc => h c (mem_of_mem_pieces hp hc)

theorem words_spelled {name : List Char} (h : IsAscii name) : Spelled (words name) := by
  apply joined_spelled
  · intro word hw
    obtain ⟨piece, hp, rfl⟩ := List.mem_map.1 hw
    exact isSmall_map (pieces_ascii h (List.mem_filter.1 hp).1)
  · intro word hw
    obtain ⟨piece, hp, rfl⟩ := List.mem_map.1 hw
    simpa using (List.mem_filter.1 hp).2

theorem pascalChars_words {name : List Char} (h : IsAscii name) :
    pascalChars name = (words name).flatMap titled := by
  have hpieces : ∀ ps : List (List Char), (∀ piece ∈ ps, IsAscii piece) →
      ps.flatMap capitalized =
        ((ps.filter (· ≠ [])).map (·.map Char.toLower)).flatMap titled := by
    intro ps hps
    induction ps with
    | nil => rfl
    | cons piece ps ih =>
      have ih := ih fun p hp => hps p (List.mem_cons_of_mem _ hp)
      by_cases hne : piece = []
      · rw [hne, List.filter_cons_of_neg (by simp), List.flatMap_cons, ih]
        rfl
      · rw [List.filter_cons_of_pos (by simpa using hne), List.flatMap_cons, ih, List.map_cons,
          List.flatMap_cons, capitalized_titled (hps piece List.mem_cons_self)]
  rw [words, joined_titled, pascalChars, hpieces _ fun piece hp => pieces_ascii h hp]
  · intro word hw
    obtain ⟨piece, hp, rfl⟩ := List.mem_map.1 hw
    exact isSmall_map (pieces_ascii h (List.mem_filter.1 hp).1)
  · intro word hw
    obtain ⟨piece, hp, rfl⟩ := List.mem_map.1 hw
    simpa using (List.mem_filter.1 hp).2

theorem cut_small {word : List Char} (h : IsSmall word) (s : List Char) :
    cut (word ++ s) = (word ++ (cut s).1, (cut s).2) := by
  induction word with
  | nil => rfl
  | cons c word ih =>
    have hc : c.isUpper = false := h.2 c List.mem_cons_self
    have ih := ih ⟨fun d hd => h.1 d (List.mem_cons_of_mem _ hd),
      fun d hd => h.2 d (List.mem_cons_of_mem _ hd)⟩
    rw [List.cons_append, cut, ih, hc]
    rfl

theorem cut_titled {ws : List (List Char)} (hs : ∀ word ∈ ws, IsSmall word)
    (hl : ∀ word ∈ ws, startsWithLetter word = true) : cut (ws.flatMap titled) = ([], ws) := by
  induction ws with
  | nil => rfl
  | cons word ws ih =>
    have ih := ih (fun v hv => hs v (List.mem_cons_of_mem _ hv))
      fun v hv => hl v (List.mem_cons_of_mem _ hv)
    have hword := hs word List.mem_cons_self
    have hletter := hl word List.mem_cons_self
    cases word with
    | nil => cases hletter
    | cons c word =>
      obtain ⟨hup, hback⟩ := toLower_toUpper (hword.1 c List.mem_cons_self) hletter
        (hword.2 c List.mem_cons_self)
      have hrest : IsSmall word := ⟨fun d hd => hword.1 d (List.mem_cons_of_mem _ hd),
        fun d hd => hword.2 d (List.mem_cons_of_mem _ hd)⟩
      rw [List.flatMap_cons, titled, List.cons_append, cut, cut_small hrest, ih, hup, hback]
      simp

def shown (name : List Char) : List (List Char) :=
  match cut name with
  | ([], found) => found
  | (front, found) => front :: found

theorem shown_titled {ws : List (List Char)} (h : Spelled ws) : shown (ws.flatMap titled) = ws := by
  cases ws with
  | nil => rfl
  | cons word ws =>
    have hs := List.forall_mem_cons.1 h.small
    by_cases hl : startsWithLetter word = true
    · rw [shown, cut_titled h.small (List.forall_mem_cons.2 ⟨hl, h.letters⟩)]
    · obtain ⟨c, word, rfl⟩ := List.exists_cons_of_ne_nil (h.nonempty _ List.mem_cons_self)
      have hup := toUpper_of_not_alpha (hs.1.1 c List.mem_cons_self)
        (by simpa [startsWithLetter] using hl)
      rw [shown, List.flatMap_cons, titled, hup, cut_small hs.1, cut_titled hs.2 h.letters]
      simp

/-- Two names are one in Pascal case just when they have the same words. -/
theorem pascalChars_eq {a b : List Char} (ha : IsAscii a) (hb : IsAscii b) :
    pascalChars a = pascalChars b ↔ words a = words b := by
  rw [pascalChars_words ha, pascalChars_words hb]
  refine ⟨fun h => ?_, fun h => by rw [h]⟩
  rw [← shown_titled (words_spelled ha), h, shown_titled (words_spelled hb)]

theorem pascalChars_start {name rest : List Char} {c : Char} (h : IsAscii name)
    (hp : pascalChars name = c :: rest) : c.toLower.toUpper = c ∧ c.toNat < 128 := by
  rw [pascalChars_words h] at hp
  have hs := words_spelled h
  cases hw : words name with
  | nil =>
    rw [hw] at hp
    cases hp
  | cons word more =>
    rw [hw] at hp hs
    obtain ⟨d, word, rfl⟩ := List.exists_cons_of_ne_nil (hs.nonempty _ List.mem_cons_self)
    have hd := (hs.small _ List.mem_cons_self).1 d List.mem_cons_self
    rw [List.flatMap_cons, titled, List.cons_append] at hp
    obtain ⟨rfl, -⟩ := List.cons.inj hp
    exact ⟨toUpper_toLower_toUpper hd, ascii (p := fun c => c.toUpper.toNat < 128) (by decide) hd⟩

theorem titled_camelChars {name : List Char} (h : IsAscii name) :
    titled (camelChars name) = pascalChars name := by
  rw [camelChars]
  cases hp : pascalChars name with
  | nil => rfl
  | cons c rest =>
    obtain ⟨hup, hc⟩ := pascalChars_start h hp
    simp [small_ascii hc, titled, hup]

/-- Two names are one in camel case just when they have the same words. -/
theorem camelChars_eq {a b : List Char} (ha : IsAscii a) (hb : IsAscii b) :
    camelChars a = camelChars b ↔ words a = words b := by
  rw [← pascalChars_eq ha hb]
  constructor
  · intro h
    rw [← titled_camelChars ha, h, titled_camelChars hb]
  · intro h
    rw [camelChars, camelChars, h]

theorem pascalChars_append (a b : List Char) :
    pascalChars (a ++ '_' :: b) = pascalChars a ++ pascalChars b := by
  rw [pascalChars, pieces_append, List.flatMap_append]
  rfl

end DialectBindings.Identifier
