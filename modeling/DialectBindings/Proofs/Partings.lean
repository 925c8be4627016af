import DialectBindings.Proofs.Cuts
import DialectBindings.Proofs.FlatRecords

/-!
# Elements between texts

A record of attributes and a text takes its text in one piece. An element that it does not know may
stand in front of the text or behind it, where it is passed over. Between two parts of the text it
leaves two texts, the second of which is one too many.
-/

set_option autoImplicit false

namespace DialectBindings.Markup
open Text Results

/-! ## Readings that are kept -/

/-- A reading that succeeds does so again, with a value that is related to the first, or a second
text is found, for which there is a reason. -/
def Carries {α β : Type} (reason : Prop) (V : α → β → Prop) (x : Except Fault α)
    (y : Except Fault β) : Prop :=
  ∀ a, x = .ok a → (∃ b, y = .ok b ∧ V a b) ∨ reason ∧ y = .error (.duplicate textKey)

/-- A reading that gives what is the same for a purpose. -/
def Keeps {α γ : Type} (reason : Prop) (f : α → γ) : Except Fault α → Except Fault α → Prop :=
  Carries reason fun a b => f b = f a

section Carries
variable {α β γ δ : Type} {reason : Prop} {V : α → β → Prop} {W : γ → δ → Prop}

theorem Carries.ok {a : α} {b : β} (h : V a b) : Carries reason V (.ok a) (.ok b) := by
  rintro _ ⟨⟩
  exact .inl ⟨b, rfl, h⟩

theorem Carries.of_error {e : Fault} {y : Except Fault β} : Carries reason V (.error e) y := nofun

theorem Carries.same (reason : Prop) (x : Except Fault α) : Carries reason Eq x x :=
  fun a ha => .inl ⟨a, ha, rfl⟩

theorem Carries.read {x : Except Fault α} {y : Except Fault β} (h : Carries reason V x y) :
    Carries reason (fun a b => x = .ok a ∧ V a b) x y := by
  intro a ha
  rcases h a ha with ⟨b, hb, hab⟩ | hreason
  · exact .inl ⟨b, hb, ha, hab⟩
  · exact .inr hreason

theorem Carries.bind {x : Except Fault α} {y : Except Fault β} {k : α → Except Fault γ}
    {l : β → Except Fault δ} (h : Carries reason V x y)
    (hk : ∀ a b, V a b → Carries reason W (k a) (l b)) : Carries reason W (x >>= k) (y >>= l) := by
  intro c hc
  obtain ⟨a, ha, hc⟩ := bind_eq_ok.1 hc
  rcases h a ha with ⟨b, rfl, hb⟩ | ⟨hreason, rfl⟩
  · exact hk a b hb c hc
  · exact .inr ⟨hreason, rfl⟩

end Carries

namespace Keeps
variable {α β γ δ : Type} {reason : Prop} {f : α → γ} {g : β → δ} {x y : Except Fault α}

theorem refl (reason : Prop) (f : α → γ) (x : Except Fault α) : Keeps reason f x x :=
  fun a ha => .inl ⟨a, ha, rfl⟩

theorem map {h k : α → β} (hx : Keeps reason f x y) (hk : ∀ a b, f b = f a → g (k b) = g (h a)) :
    Keeps reason g (x.map h) (y.map k) := by
  intro c hc
  obtain ⟨a, ha, rfl⟩ := map_eq_ok.1 hc
  rcases hx a ha with ⟨b, rfl, hb⟩ | ⟨hreason, rfl⟩
  · exact .inl ⟨k b, rfl, hk a b hb⟩
  · exact .inr ⟨hreason, rfl⟩

theorem of_commutes {build : List α → Except Fault β} {part : α → α} {whole : β → β}
    (commutes : ∀ vs, (build vs).map whole = build (vs.map part)) {vs ws : List α}
    (h : ws.map part = vs.map part) : Keeps reason whole (build vs) (build ws) := by
  intro b hb
  have hw : (build ws).map whole = .ok (whole b) := by
    rw [commutes, h, ← commutes, hb]
    rfl
  obtain ⟨b', hb', he⟩ := map_eq_ok.1 hw
  exact .inl ⟨b', hb', he⟩

end Keeps

/-! ## Contents with more in them -/

namespace Content

theorem checkWhole_prepend (name : List Char) (v : Except Fault (List Char)) (c : Content) :
    (c.prepend v).checkWhole name = c.checkWhole name := by
  cases c <;> rfl

theorem checkAside_prepend {name : List Char} {v : Except Fault (List Char)} {c : Content} :
    (c.prepend v).checkAside name = .ok () ↔ (∃ s, v = .ok s) ∧ c.checkAside name = .ok () := by
  cases v with
  | error fault =>
    cases c <;> simp [prepend, checkAside, bind, Except.bind]
  | ok s =>
    cases c with
    | text after rest => cases after <;> simp [prepend, checkAside, bind, Except.bind, pure, Except.pure]
    | _ => simp [prepend, checkAside, bind, Except.bind]

theorem text_or (c : Content) :
    (∃ value rest, c = .text value rest) ∨ ∀ v, c.prepend v = .text v c := by
  cases c with
  | text value rest => exact .inl ⟨value, rest, rfl⟩
  | _ => exact .inr fun _ => rfl

theorem prepend_ne_element {v : Except Fault (List Char)} {c inner rest : Content} {tag : Tag} :
    c.prepend v ≠ .element tag inner rest := by
  cases c <;> nofun

end Content

theorem checkAside_erase {name : List Char} (c : Content) :
    c.erase.checkAside name = c.checkAside name := by
  induction c with
  | text value rest ih =>
    rw [Content.erase, Content.checkAside, Content.checkAside, ih]
  | element tag inner rest ihi ihr =>
    rw [Content.erase, Content.checkAside, Content.checkAside, ihi, ihr]
  | closed next => rfl
  | ended => rfl
  | failed fault => rfl

theorem passOver_ok {c : Content} {tag : Tag} : passOver tag c = .ok () ↔
    (∀ first inner rest, c = .element first inner rest → first.check = .ok ()) ∧
      c.checkWhole tag.name = .ok () := by
  cases c with
  | element first inner rest =>
    constructor
    · intro h
      obtain ⟨_, hf, h⟩ := bind_eq_ok.1 h
      refine ⟨?_, h⟩
      rintro _ _ _ he
      cases he
      exact hf
    · rintro ⟨hf, h⟩
      exact bind_eq_ok.2 ⟨(), hf _ _ _ rfl, h⟩
  | _ => exact ⟨fun h => ⟨nofun, h⟩, fun h => h.2⟩

/-- A content and the same with more elements, and more texts, at any depth. Bindings at end tags do
not count. -/
inductive Padded : Content → Content → Prop
  | same {c c' : Content} (h : c.erase = c'.erase) : Padded c c'
  | text {c c' : Content} (v : Except Fault (List Char)) (h : Padded c c') :
      Padded (c.prepend v) (c'.prepend v)
  | front {c c' : Content} (v : Except Fault (List Char)) (h : Padded c c') :
      Padded (.text v c) (.text v c')
  | more {c c' : Content} (s : List Char) (h : Padded c c') : Padded c (c'.prepend (.ok s))
  | insert {tag : Tag} {inner c c' : Content} (clean : tag.fault = none) (sound : inner.Sound)
      (h : Padded c c') : Padded c (.element tag inner c')
  | element {tag : Tag} {inner inner' c c' : Content} (inside : Padded inner inner')
      (h : Padded c c') : Padded (.element tag inner c) (.element tag inner' c')

namespace Padded
variable {c c' : Content}

theorem refl (c : Content) : Padded c c := .same rfl

theorem checkWhole (h : Padded c c') {name : List Char} (hc : c.checkWhole name = .ok ()) :
    c'.checkWhole name = .ok () := by
  induction h with
  | same h => rwa [← checkWhole_erase, ← h, checkWhole_erase]
  | text v h ih =>
    rw [Content.checkWhole_prepend] at hc ⊢
    exact ih hc
  | front v h ih => exact ih hc
  | more s h ih =>
    rw [Content.checkWhole_prepend]
    exact ih hc
  | insert clean sound h ih =>
    rw [Content.checkWhole, sound.checkWhole, ok_bind]
    exact ih hc
  | element inside h ihi ih =>
    obtain ⟨_, hi, hc⟩ := bind_eq_ok.1 hc
    rw [Content.checkWhole, ihi hi, ok_bind]
    exact ih hc

theorem checkAside (h : Padded c c') {name : List Char} (hc : c.checkAside name = .ok ()) :
    c'.checkAside name = .ok () := by
  induction h with
  | same h => rwa [← checkAside_erase, ← h, checkAside_erase]
  | text v h ih =>
    rw [Content.checkAside_prepend] at hc ⊢
    exact ⟨hc.1, ih hc.2⟩
  | front v h ih =>
    obtain ⟨s, hv, hc⟩ := bind_eq_ok.1 hc
    rw [Content.checkAside, hv, ok_bind]
    exact ih hc
  | more s h ih => exact Content.checkAside_prepend.2 ⟨⟨s, rfl⟩, ih hc⟩
  | insert clean sound h ih =>
    rw [Content.checkAside, Content.check_sound clean, ok_bind, sound.checkAside, ok_bind]
    exact ih hc
  | element inside h ihi ih =>
    obtain ⟨_, ht, hc⟩ := bind_eq_ok.1 hc
    obtain ⟨_, hi, hc⟩ := bind_eq_ok.1 hc
    rw [Content.checkAside, ht, ok_bind, ihi hi, ok_bind]
    exact ih hc

theorem starts (h : Padded c c')
    (hc : ∀ tag inner rest, c = .element tag inner rest → tag.check = .ok ()) :
    ∀ tag inner rest, c' = .element tag inner rest → tag.check = .ok () := by
  cases h with
  | same h =>
    rintro tag inner rest rfl
    cases c with
    | element tag' inner' rest' =>
      simp only [Content.erase, Content.element.injEq] at h
      exact h.1 ▸ hc _ _ _ rfl
    | _ => cases h
  | text v h => exact fun _ _ _ he => absurd he Content.prepend_ne_element
  | front v h => rintro _ _ _ ⟨⟩
  | more s h => exact fun _ _ _ he => absurd he Content.prepend_ne_element
  | insert clean sound h =>
    rintro tag inner rest he
    cases he
    exact Content.check_sound clean
  | element inside h =>
    rintro tag inner rest he
    cases he
    exact hc _ _ _ rfl

theorem passOver (h : Padded c c') {tag : Tag} (hc : passOver tag c = .ok ()) :
    passOver tag c' = .ok () := by
  rw [passOver_ok] at hc ⊢
  exact ⟨h.starts hc.1, h.checkWhole hc.2⟩

end Padded

/-! ## An element in a record of texts -/

def Content.Shows : Content → Prop
  | .text (.ok s) _ => ¬ s.all isSpace = true
  | _ => False

/-- The content of a record, and the same with an element that is unknown to it. The element stands
among its children, or inside one that is unknown as well. Where it parts a text there is to be a
reason. -/
inductive Parting (knows : String → Bool) (reason : Prop) : Content → Content → Prop
  | same {c c' : Content} (h : c.erase = c'.erase) : Parting knows reason c c'
  | insert {tag : Tag} {inner c c' : Content} (unknown : knows tag.key = false)
      (clean : tag.fault = none) (sound : inner.Sound)
      (line : c' = c ∨ c' = c.prepend (.ok ['\n'])) :
      Parting knows reason c (.element tag inner c')
  /-- Behind a text, which the text that follows was part of. -/
  | behind {tag : Tag} {inner c c' : Content} (v : Except Fault (List Char))
      (unknown : knows tag.key = false) (clean : tag.fault = none) (sound : inner.Sound)
      (line : c' = c ∨ c' = c.prepend (.ok ['\n']))
      (parted : (Content.text v .ended).Shows → c.Shows → reason) :
      Parting knows reason (c.prepend v) (.text v (.element tag inner c'))
  | inside {tag : Tag} {inner inner' c : Content} (unknown : knows tag.key = false)
      (h : Padded inner inner') : Parting knows reason (.element tag inner c) (.element tag inner' c)
  | element {tag : Tag} {inner inner' c c' : Content} (h : inner.erase = inner'.erase)
      (rest : Parting knows reason c c') :
      Parting knows reason (.element tag inner c) (.element tag inner' c')
  | text {tag : Tag} {inner inner' c c' : Content} (v : Except Fault (List Char))
      (rest : Parting knows reason (.element tag inner c) (.element tag inner' c')) :
      Parting knows reason (.text v (.element tag inner c)) (.text v (.element tag inner' c'))

theorem padded_line {c c' : Content} (line : c' = c ∨ c' = c.prepend (.ok ['\n'])) :
    Padded c c' := by
  rcases line with rfl | rfl
  · exact .refl _
  · exact .more _ (.refl c)

theorem Parting.padded {knows : String → Bool} {reason : Prop} {c c' : Content}
    (h : Parting knows reason c c') : Padded c c' := by
  induction h with
  | same h => exact .same h
  | insert _ clean sound line => exact .insert clean sound (padded_line line)
  | behind v _ clean sound line _ => exact .text v (.insert clean sound (padded_line line))
  | inside _ h => exact .element h (.refl _)
  | element h _ ih => exact .element (.same h) ih
  | text v _ ih => exact .front v ih

namespace Schema
variable {α γ : Type} {schema : Schema α}

/-- A record of attributes and a text, whatever the text. -/
structure Texted (schema : Schema α) (part : String → α) : Prop extends Flat schema where
  text : ∃ slot, schema.slot textKey = some slot ∧
    ∀ place s, slot.read place (.text s) = .ok (part (String.ofList s))
  whole : ∀ k slot, schema.slot k = some slot → ∀ place tag inner a,
    slot.read place (.element tag inner) = .ok a → inner.checkWhole tag.name = .ok ()

theorem children_error {place : Place} {seen : List String} {c : Content} {e : Fault}
    (h : c.first? place.parent.name = .error e) : schema.children place seen c = .error e := by
  rw [children]
  split <;> simp_all

theorem children_fault (place : Place) (seen : List String) (e : Fault) (c : Content) :
    schema.children place seen (.text (.error e) c) = .error e := children_error rfl

variable {part : String → α} (texted : schema.Texted part)
include texted

omit texted in
theorem children_blank {s : List Char} (hs : s.all isSpace = true) (place : Place)
    (seen : List String) (c : Content) :
    schema.children place seen (.text (.ok s) c) = schema.children place seen c := by
  have hfind : schema.find (.text s) = none := by
    rw [Schema.find]
    exact if_pos hs
  rw [children_first rfl, hfind]
  rfl

theorem Texted.children_shows {s : List Char} (hs : ¬ s.all isSpace = true) (place : Place)
    (seen : List String) (c : Content) :
    schema.children place seen (.text (.ok s) c) =
      if textKey ∈ seen then .error (.duplicate textKey)
      else (schema.children place (textKey :: seen) c).map (part (String.ofList s) :: ·) := by
  obtain ⟨slot, hslot, hread⟩ := texted.text
  have hfind : schema.find (.text s) = some (textKey, slot, none) := by
    simp only [Schema.find, texted.body, hslot]
    exact if_neg hs
  rw [children_first rfl, hfind]
  show (fill place seen textKey slot (.text s) >>= fun value =>
    schema.children place (textKey :: seen) c >>= fun values => .ok (value :: values)) = _
  rw [fill, hread]
  by_cases hseen : textKey ∈ seen
  · rw [if_pos hseen, if_pos hseen]
    rfl
  · rw [if_neg hseen, if_neg hseen, ok_bind]
    cases schema.children place (textKey :: seen) c <;> rfl

theorem Texted.children_unknown {tag : Tag} {inner : Content} (ht : tag.check = .ok ())
    (hs : schema.slot tag.key = none) (place : Place) (seen : List String) (c : Content) :
    schema.children place seen (.element tag inner c) =
      passOver tag inner >>= fun _ => schema.children place seen c := by
  have hfind : schema.find (.element tag inner) = none := by
    simp only [Schema.find, texted.body, hs]
    rfl
  have hfirst : (Content.element tag inner c).first? place.parent.name =
      .ok (some (.element tag inner, c)) := by
    rw [Content.first?, ht]
    rfl
  rw [children_first hfirst, hfind]
  rfl

variable {f : α → γ}
  (spaced : ∀ s t, trimBy isSpace s = trimBy isSpace t →
    f (part (String.ofList s)) = f (part (String.ofList t)))
include spaced

theorem Texted.keeps_text {reason : Prop} {place : Place} {s t : List Char} {c c' : Content}
    (h : trimBy isSpace s = trimBy isSpace t) {seen : List String}
    (hc : ∀ seen, Keeps reason (List.map f) (schema.children place seen c)
      (schema.children place seen c')) :
    Keeps reason (List.map f) (schema.children place seen (.text (.ok s) c))
      (schema.children place seen (.text (.ok t) c')) := by
  have hblank : s.all isSpace = true ↔ t.all isSpace = true := by
    rw [← trimBy_eq_nil_iff, ← trimBy_eq_nil_iff, h]
  by_cases hs : s.all isSpace = true
  · rw [children_blank hs, children_blank (hblank.1 hs)]
    exact hc seen
  · rw [texted.children_shows hs, texted.children_shows (mt hblank.2 hs)]
    by_cases hseen : textKey ∈ seen
    · rw [if_pos hseen]
      exact Carries.of_error
    · rw [if_neg hseen, if_neg hseen]
      apply (hc (textKey :: seen)).map
      intro vs ws hvs
      rw [List.map_cons, List.map_cons, hvs, spaced s t h]

theorem Texted.keeps_line {reason : Prop} {place : Place} {c c' : Content}
    (line : c' = c ∨ c' = c.prepend (.ok ['\n'])) (seen : List String) :
    Keeps reason (List.map f) (schema.children place seen c) (schema.children place seen c') := by
  have hspace : ['\n'].all isSpace = true := rfl
  rcases line with rfl | rfl
  · exact .refl _ _ _
  · rcases c.text_or with ⟨value, rest, rfl⟩ | hfront
    · cases value with
      | error e =>
        rw [children_fault]
        exact Carries.of_error
      | ok s =>
        exact texted.keeps_text spaced (trimBy_append_left hspace).symm fun _ => .refl _ _ _
    · rw [hfront, children_blank hspace]
      exact .refl _ _ _

theorem Texted.keeps_behind {reason : Prop} {place : Place} {tag : Tag} {inner c c' : Content}
    {s : List Char} (ht : tag.fault = none) (hs : schema.slot tag.key = none) (sound : inner.Sound)
    (line : c' = c ∨ c' = c.prepend (.ok ['\n']))
    (parted : (Content.text (.ok s) .ended).Shows → c.Shows → reason) (seen : List String) :
    Keeps reason (List.map f) (schema.children place seen (c.prepend (.ok s)))
      (schema.children place seen (.text (.ok s) (.element tag inner c'))) := by
  have hpass (seen : List String) : schema.children place seen (.element tag inner c') =
      schema.children place seen c' := by
    rw [texted.children_unknown (Content.check_sound ht) hs, sound.passOver, ok_bind]
  rcases c.text_or with ⟨value, rest, rfl⟩ | hfront
  · cases value with
    | error e =>
      rw [show (Content.text (.error e) rest).prepend (.ok s) = .text (.error e) rest from rfl,
        children_fault]
      exact Carries.of_error
    | ok t =>
      obtain ⟨u, rfl, hu⟩ : ∃ u, c' = .text (.ok u) rest ∧ trimBy isSpace u = trimBy isSpace t := by
        rcases line with rfl | rfl
        · exact ⟨t, rfl, rfl⟩
        · exact ⟨'\n' :: t, rfl, trimBy_append_left (show ['\n'].all isSpace = true from rfl)⟩
      have hblank : t.all isSpace = true ↔ u.all isSpace = true := by
        rw [← trimBy_eq_nil_iff, ← trimBy_eq_nil_iff, hu]
      rw [show (Content.text (.ok t) rest).prepend (.ok s) = .text (.ok (s ++ t)) rest from rfl]
      by_cases hspace : s.all isSpace = true
      · rw [children_blank hspace, hpass]
        exact texted.keeps_text spaced ((trimBy_append_left hspace).trans hu.symm)
          fun _ => .refl _ _ _
      · by_cases hafter : t.all isSpace = true
        · apply texted.keeps_text spaced (trimBy_append_right hafter)
          intro seen
          rw [hpass, children_blank (hblank.1 hafter)]
          exact .refl _ _ _
        · intro vs _
          refine .inr ⟨parted hspace hafter, ?_⟩
          rw [texted.children_shows hspace, hpass, texted.children_shows (mt hblank.2 hafter),
            if_pos List.mem_cons_self]
          split <;> rfl
  · rw [hfront]
    apply texted.keeps_text spaced rfl
    intro seen
    rw [hpass]
    exact texted.keeps_line spaced line seen

variable {knows : String → Bool} (hknows : ∀ k, knows k = false → schema.slot k = none)
include hknows

/-- A record of a text is read with an unknown element in its content as without, but for space
around its text, unless the element parts the text. -/
theorem Texted.keeps {reason : Prop} {c c' : Content} (h : Parting knows reason c c')
    (place : Place) (seen : List String) :
    Keeps reason (List.map f) (schema.children place seen c) (schema.children place seen c') := by
  induction h generalizing seen with
  | same h =>
    intro vs hvs
    exact .inl ⟨vs, texted.toFlat.children rfl h hvs, rfl⟩
  | insert unknown clean sound line =>
    rw [texted.children_unknown (Content.check_sound clean) (hknows _ unknown), sound.passOver,
      ok_bind]
    exact texted.keeps_line spaced line seen
  | @behind tag inner c c' v unknown clean sound line parted =>
    cases v with
    | error e =>
      have herror : ∃ rest, c.prepend (.error e) = .text (.error e) rest := by
        cases c <;> exact ⟨_, rfl⟩
      obtain ⟨rest, hrest⟩ := herror
      rw [hrest, children_fault]
      exact Carries.of_error
    | ok s => exact texted.keeps_behind spaced clean (hknows _ unknown) sound line parted seen
  | @inside tag inner inner' c unknown h =>
    cases ht : tag.check with
    | error e =>
      rw [children_error (by rw [Content.first?, ht]; rfl)]
      exact Carries.of_error
    | ok u =>
      rw [texted.children_unknown ht (hknows _ unknown),
        texted.children_unknown ht (hknows _ unknown)]
      intro vs hvs
      obtain ⟨_, hpass, hvs⟩ := bind_eq_ok.1 hvs
      rw [h.passOver hpass, ok_bind]
      exact .inl ⟨vs, hvs, rfl⟩
  | @element tag inner inner' c c' h rest ih =>
    cases ht : tag.check with
    | error e =>
      rw [children_error (by rw [Content.first?, ht]; rfl)]
      exact Carries.of_error
    | ok u =>
      have hfirst (inner c : Content) : (Content.element tag inner c).first? place.parent.name =
          .ok (some (.element tag inner, c)) := by
        rw [Content.first?, ht]
        rfl
      have same : (Source.element tag inner).Same (.element tag inner') := .element rfl h
      obtain ⟨hfind, hcases⟩ := texted.toFlat.find same
      rw [children_first (hfirst inner c), children_first (hfirst inner' c'), hfind]
      rcases hcases with hnone | ⟨key, slot, hsome, hslot⟩
      · rw [hnone]
        dsimp only
        rw [same.readPresence]
        exact (Carries.same _ _).bind fun _ _ _ => ih seen
      · rw [hsome]
        dsimp only
        have hfill : fill place seen key slot (.element tag inner') =
            fill place seen key slot (.element tag inner) := by
          rw [fill, fill, texted.read key slot hslot place place _ _ same]
        rw [hfill]
        apply (Carries.same _ _).bind
        rintro a _ rfl
        apply (ih (key :: seen)).bind
        intro vs ws hvs
        exact .ok (congrArg (f a :: ·) hvs)
  | text v rest ih =>
    cases v with
    | error e =>
      rw [children_fault]
      exact Carries.of_error
    | ok s => exact texted.keeps_text spaced rfl ih

end Schema

/-! ## What is read is whole -/

theorem checkWhole_name {c : Content} {name : List Char} (h : c.checkWhole name = .ok ())
    (other : List Char) : c.checkWhole other = .ok () := by
  induction c with
  | text value rest ih => exact ih h
  | element tag inner rest ihi ih =>
    obtain ⟨_, hi, h⟩ := bind_eq_ok.1 h
    rw [Content.checkWhole, ihi hi, ok_bind]
    exact ih h
  | closed next => rfl
  | ended => cases h
  | failed fault => cases h

namespace Schema
variable {α β : Type} {schema : Schema α} {part : String → α} (texted : schema.Texted part)
include texted

theorem Texted.checkWhole {place : Place} {seen : List String} {c : Content} {vs : List α}
    (h : schema.children place seen c = .ok vs) (name : List Char) :
    c.checkWhole name = .ok () := by
  induction c generalizing seen vs with
  | closed next => rfl
  | ended =>
    rw [children_error rfl] at h
    cases h
  | failed fault =>
    rw [children_error rfl] at h
    cases h
  | text value rest ih =>
    cases value with
    | error e =>
      rw [children_fault] at h
      cases h
    | ok s =>
      by_cases hs : s.all isSpace = true
      · rw [children_blank hs] at h
        exact ih h
      · rw [texted.children_shows hs] at h
        split at h
        · cases h
        · obtain ⟨ws, hws, _⟩ := map_eq_ok.1 h
          exact ih hws
  | element tag inner rest _ ih =>
    cases ht : tag.check with
    | error e =>
      rw [children_error (by rw [Content.first?, ht]; rfl)] at h
      cases h
    | ok u =>
      have hfirst : (Content.element tag inner rest).first? place.parent.name =
          .ok (some (.element tag inner, rest)) := by
        rw [Content.first?, ht]
        rfl
      rw [children_first hfirst] at h
      have hboth : inner.checkWhole tag.name = .ok () ∧
          ∃ seen vs, schema.children place seen rest = .ok vs := by
        rcases (texted.toFlat.find (.element rfl rfl)).2 with hnone | ⟨key, slot, hsome, hslot⟩
        · rw [hnone] at h
          obtain ⟨_, hpass, h⟩ := bind_eq_ok.1 h
          exact ⟨(passOver_ok.1 hpass).2, _, _, h⟩
        · rw [hsome] at h
          obtain ⟨a, hfill, h⟩ := bind_eq_ok.1 h
          obtain ⟨ws, hws, _⟩ := bind_eq_ok.1 h
          exact ⟨texted.whole _ _ hslot _ _ _ _ (fill_eq_ok.1 hfill).2, _, _, hws⟩
      obtain ⟨hinner, _, _, hrest⟩ := hboth
      rw [Content.checkWhole, checkWhole_name hinner name, ok_bind]
      exact ih hrest

theorem Texted.passOver {build : List α → Except Fault β} {place : Place} {tag : Tag}
    {inner : Content} {b : β} (h : schema.read build place (.element tag inner) = .ok b) :
    passOver tag inner = .ok () := by
  obtain ⟨seen, found, given, _, hgiven, _⟩ := read_ok h
  refine passOver_ok.2 ⟨?_, texted.checkWhole hgiven tag.name⟩
  rintro first inside rest rfl
  cases hf : first.check with
  | error e =>
    rw [children_error (by rw [Content.first?, hf]; rfl)] at hgiven
    cases hgiven
  | ok u => rfl

end Schema

/-! ## Records -/

theorem keeps_read {α β γ δ : Type} {schema : Schema α} {reason : Prop} {f : α → γ} {g : β → δ}
    {build : List α → Except Fault β} {place : Place} {tag : Tag} {inner inner' : Content}
    (hbuild : ∀ vs ws, ws.map f = vs.map f → Keeps reason g (build vs) (build ws))
    (hchildren : ∀ seen, Keeps reason (List.map f) (schema.children ⟨tag, place.ahead⟩ seen inner)
      (schema.children ⟨tag, place.ahead⟩ seen inner')) :
    Keeps reason g (schema.read build place (.element tag inner))
      (schema.read build place (.element tag inner')) := by
  show Keeps reason g (schema.values place.ahead tag inner >>= build)
    (schema.values place.ahead tag inner' >>= build)
  have hvalues : Keeps reason (List.map f) (schema.values place.ahead tag inner)
      (schema.values place.ahead tag inner') := by
    unfold Schema.values
    apply (Carries.same _ _).bind
    rintro ⟨seen, found⟩ _ rfl
    apply (hchildren seen).bind
    intro vs ws hvs
    exact .ok (by rw [List.map_append, List.map_append, hvs])
  exact hvalues.bind hbuild

theorem keeps_optional {β γ : Type} {reason : Prop} {f : β → γ}
    {read : Source → Except Fault β} {place : Place} {tag : Tag} {inner inner' : Content}
    (hread : Keeps reason f (read (.element tag inner)) (read (.element tag inner')))
    (hpass : passOver tag inner = .ok () → passOver tag inner' = .ok ())
    (hwhole : ∀ b, read (.element tag inner) = .ok b → passOver tag inner = .ok ())
    (marked : (Source.element tag inner).isAbsent place = true →
      (Source.element tag inner').isAbsent place = true) :
    Keeps reason (fun _ => ()) ((Source.element tag inner).readOptional read place)
      ((Source.element tag inner').readOptional read place) := by
  have habsent (h : (Source.element tag inner').isAbsent place = true)
      (hp : passOver tag inner = .ok ()) :
      (Source.element tag inner').readOptional read place = .ok none := by
    rw [Source.readOptional, if_pos h, Source.readPresence, hpass hp]
    rfl
  intro b hb
  rw [Source.readOptional] at hb
  by_cases h : (Source.element tag inner).isAbsent place = true
  · rw [if_pos h] at hb
    obtain ⟨_, hp, _⟩ := bind_eq_ok.1 hb
    exact .inl ⟨none, habsent (marked h) hp, rfl⟩
  · rw [if_neg h] at hb
    by_cases h' : (Source.element tag inner').isAbsent place = true
    · obtain ⟨a, ha, _⟩ := map_eq_ok.1 hb
      exact .inl ⟨none, habsent h' (hwhole a ha), rfl⟩
    · rw [Source.readOptional, if_neg h']
      have hmap : Keeps reason (fun _ : Option β => ()) ((read (.element tag inner)).map some)
          ((read (.element tag inner')).map some) := hread.map fun _ _ _ => rfl
      exact hmap b hb

end DialectBindings.Markup
