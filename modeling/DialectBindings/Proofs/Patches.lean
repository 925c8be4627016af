import DialectBindings.Proofs.Openings
import DialectBindings.Proofs.Partings

/-!
# Contents that differ in one record of texts

An element that is put into a record of texts, somewhere in a document, leaves all elements around
the record as they are. A record with a child that differs so is kept as soon as the child is. The
tags that are open at a place say which records are around it.
-/

set_option autoImplicit false

namespace DialectBindings.Definition
open Markup Results

def Role.hasText : Role → Bool
  | .param | .deprecation | .field => true
  | _ => false

/-- A mark of absence that counts for an element counts for it with another content as well. -/
def MarkKept (parent tag : Tag) (inner inner' : Content) : Prop :=
  (Source.element tag inner).isAbsent ⟨parent, none⟩ = true →
    (Source.element tag inner').isAbsent ⟨parent, none⟩ = true

theorem markKept_of_ahead (parent tag : Tag) {inner inner' : Content}
    (h : ∀ outer, inner'.scopeAhead outer = inner.scopeAhead outer) :
    MarkKept parent tag inner inner' := by
  intro hmark
  rw [Source.isAbsent] at hmark ⊢
  rwa [Option.getD_none, h tag.scope]

/-- The content of an element of a role, and the same with an element put into some of the records of
texts that are in it. -/
inductive Patched (reason : Prop) : Tag → Role → Content → Content → Prop
  | same (parent : Tag) (ρ : Role) (c : Content) : Patched reason parent ρ c c
  | text {parent : Tag} {ρ : Role} {c c' : Content} (v : Except Markup.Fault (List Char))
      (rest : Patched reason parent ρ c c') : Patched reason parent ρ (.text v c) (.text v c')
  | element {parent : Tag} {ρ : Role} {tag : Tag} {inner inner' c c' : Content}
      (inside : Patched reason tag (ρ.child tag.key) inner inner')
      (rest : Patched reason parent ρ c c') :
      Patched reason parent ρ (.element tag inner c) (.element tag inner' c')
  | record {parent : Tag} {ρ : Role} {tag : Tag} {inner inner' c c' : Content}
      (role : (ρ.child tag.key).hasText = true)
      (parting : Parting (ρ.child tag.key).knows reason inner inner')
      (marked : ρ.mayBeAbsent tag.key = true → MarkKept parent tag inner inner')
      (rest : Patched reason parent ρ c c') :
      Patched reason parent ρ (.element tag inner c) (.element tag inner' c')

def PatchedChild (reason : Prop) (parent : Tag) (ρ : Role) (tag : Tag) (inner inner' : Content) :
    Prop :=
  Patched reason tag (ρ.child tag.key) inner inner' ∨ (ρ.child tag.key).hasText = true ∧
    Parting (ρ.child tag.key).knows reason inner inner' ∧
    (ρ.mayBeAbsent tag.key = true → MarkKept parent tag inner inner')

namespace Patched
variable {reason : Prop} {parent : Tag} {ρ : Role} {c c' : Content}

theorem padded (h : Patched reason parent ρ c c') : Padded c c' := by
  induction h with
  | same parent ρ c => exact .refl c
  | text v rest ih => exact .front v ih
  | element inside rest ihi ih => exact .element ihi ih
  | record role parting marked rest ih => exact .element parting.padded ih

theorem of_element {tag : Tag} {inner rest : Content}
    (h : Patched reason parent ρ (.element tag inner rest) c') :
    ∃ inner' rest', c' = .element tag inner' rest' ∧
      PatchedChild reason parent ρ tag inner inner' ∧ Patched reason parent ρ rest rest' := by
  cases h with
  | same => exact ⟨inner, rest, rfl, .inl (.same ..), .same ..⟩
  | element inside rest => exact ⟨_, _, rfl, .inl inside, rest⟩
  | record role parting marked rest => exact ⟨_, _, rfl, .inr ⟨role, parting, marked⟩, rest⟩

theorem of_text {v : Except Markup.Fault (List Char)} {rest : Content}
    (h : Patched reason parent ρ (.text v rest) c') :
    ∃ rest', c' = .text v rest' ∧ Patched reason parent ρ rest rest' := by
  cases h with
  | same => exact ⟨rest, rfl, .same ..⟩
  | text v rest => exact ⟨_, rfl, rest⟩

theorem child (h : Patched reason parent ρ c c') {tag : Tag} {inner inner' : Content}
    (hchild : PatchedChild reason parent ρ tag inner inner') :
    Patched reason parent ρ (.element tag inner c) (.element tag inner' c') := by
  rcases hchild with inside | ⟨role, parting, marked⟩
  · exact .element inside h
  · exact .record role parting marked h

theorem prepend (h : Patched reason parent ρ c c') (v : Except Markup.Fault (List Char)) :
    Patched reason parent ρ (c.prepend v) (c'.prepend v) := by
  cases h with
  | same => exact .same ..
  | text w rest => exact .text _ rest
  | element inside rest => exact .text v (.element inside rest)
  | record role parting marked rest => exact .text v (.record role parting marked rest)

theorem scopeAhead (h : Patched reason parent ρ c c') (outer : Scope) :
    c'.scopeAhead outer = c.scopeAhead outer := by
  cases h <;> rfl

theorem scopeAfter (h : Patched reason parent ρ c c') : c'.scopeAfter = c.scopeAfter := by
  induction h with
  | same parent ρ c => rfl
  | text v rest ih => exact ih
  | element inside rest _ ih => exact ih
  | record role parting marked rest ih => exact ih

end Patched

theorem PatchedChild.padded {reason : Prop} {parent : Tag} {ρ : Role} {tag : Tag}
    {inner inner' : Content} (h : PatchedChild reason parent ρ tag inner inner') :
    Padded inner inner' :=
  h.elim Patched.padded fun hr => hr.2.1.padded

/-! ## Records with a child that is patched -/

section Records
variable {α γ : Type} {schema : Schema α} {reason : Prop} {f : α → γ} {parent : Tag} {ρ : Role}

theorem find_wanted {s : Source} {key : String} {slot : Slot α} {group : Schema.Group}
    (h : schema.find s = some (key, slot, some group)) {tag : Tag} (hw : group.wanted tag = true)
    (inner : Content) : ∃ key' group', schema.find (.element tag inner) = some (key', slot, group') := by
  have hbody (hb : schema.body.map (fun slot => (bodyKey, slot,
      some (Schema.Group.mk (fun tag => (schema.slot tag.key).isNone) true))) =
        some (key, slot, some group)) :
      ∃ key' group', schema.find (.element tag inner) = some (key', slot, group') := by
    obtain ⟨slot, hslot, he⟩ := Option.map_eq_some_iff.1 hb
    cases he
    have hnone : schema.slot tag.key = none := Option.isNone_iff_eq_none.1 hw
    simp only [Schema.find, hnone, hslot]
    exact ⟨_, _, rfl⟩
  rcases s with raw | value | ⟨first, inside⟩
  · cases h
  · simp only [Schema.find] at h
    split at h
    · cases h
    · rcases Option.or_eq_some_iff.1 h with hb | ⟨_, ht⟩
      · exact hbody hb
      · obtain ⟨_, _, he⟩ := Option.map_eq_some_iff.1 ht
        cases he
  · simp only [Schema.find] at h
    split at h
    · exact hbody h
    · rename_i slot' hslot
      split at h
      · cases h
        have hkey : tag.key = first.key := Schema.key_eq (beq_iff_eq.1 hw)
        simp only [Schema.find, hkey, hslot]
        exact ⟨_, _, rfl⟩
      · cases h

variable (hread : ∀ tag inner inner', PatchedChild reason parent ρ tag inner inner' →
  ∀ key slot group, schema.find (.element tag inner) = some (key, slot, group) → ∀ ahead,
    Keeps reason f (slot.read ⟨parent, ahead⟩ (.element tag inner))
      (slot.read ⟨parent, ahead⟩ (.element tag inner')))
include hread

theorem Patched.collect {c c' : Content} (h : Patched reason parent ρ c c') {s : Source}
    {key : String} {slot : Slot α} {group : Schema.Group}
    (hs : schema.find s = some (key, slot, some group)) (ahead : Option Scope) :
    Carries reason (fun p q => q.1.map f = p.1.map f ∧ Patched reason parent ρ p.2 q.2)
      (Markup.collect group.wanted group.texts (slot.read ⟨parent, ahead⟩) parent.name c)
      (Markup.collect group.wanted group.texts (slot.read ⟨parent, ahead⟩) parent.name c') := by
  induction c generalizing c' with
  | closed next =>
    cases h
    exact .ok ⟨rfl, .same ..⟩
  | ended => exact Carries.of_error
  | failed fault => exact Carries.of_error
  | text value rest ih =>
    obtain ⟨rest', rfl, hrest⟩ := h.of_text
    rw [Markup.collect, Markup.collect]
    apply (Carries.same _ _).bind
    rintro s _ rfl
    split
    · apply (Carries.same _ _).bind
      rintro a _ rfl
      apply (ih hrest).bind
      rintro p q ⟨hvalues, hothers⟩
      exact .ok ⟨congrArg (f a :: ·) hvalues, hothers⟩
    · apply (ih hrest).bind
      rintro p q ⟨hvalues, hothers⟩
      exact .ok ⟨hvalues, .text _ hothers⟩
  | element tag inner rest _ ih =>
    obtain ⟨inner', rest', rfl, hchild, hrest⟩ := h.of_element
    rw [Markup.collect, Markup.collect]
    apply (Carries.same _ _).bind
    rintro _ _ rfl
    split
    · rename_i hw
      obtain ⟨key', group', hfind⟩ := find_wanted hs hw inner
      apply (hread tag inner inner' hchild key' slot group' hfind ahead).bind
      intro a b hab
      apply (ih hrest).bind
      rintro p q ⟨hvalues, hothers⟩
      exact .ok ⟨by rw [List.map_cons, List.map_cons, hab, hvalues], hothers⟩
    · have haside : Carries reason Eq (inner.checkAside parent.name)
          (inner'.checkAside parent.name) :=
        fun u hu => .inl ⟨(), hchild.padded.checkAside hu, rfl⟩
      apply haside.bind
      rintro _ _ rfl
      apply (ih hrest).bind
      rintro p q ⟨hvalues, hothers⟩
      exact .ok ⟨hvalues, hothers.child hchild⟩

theorem keeps_first {ahead : Option Scope} {seen : List String} {c c' rest rest' : Content}
    {s s' : Source} (hc : c.first? parent.name = .ok (some (s, rest)))
    (hc' : c'.first? parent.name = .ok (some (s', rest'))) (hrest : Patched reason parent ρ rest rest')
    (hfind : schema.find s' = schema.find s)
    (hpresence : s.readPresence = .ok () → s'.readPresence = .ok ())
    (hsource : ∀ key slot group, schema.find s = some (key, slot, group) →
      Keeps reason f (slot.read ⟨parent, ahead⟩ s) (slot.read ⟨parent, ahead⟩ s'))
    (ih : ∀ d d', d.width < c.width → Patched reason parent ρ d d' → ∀ ahead seen,
      Keeps reason (List.map f) (schema.children ⟨parent, ahead⟩ seen d)
        (schema.children ⟨parent, ahead⟩ seen d')) :
    Keeps reason (List.map f) (schema.children ⟨parent, ahead⟩ seen c)
      (schema.children ⟨parent, ahead⟩ seen c') := by
  have hless := Content.first?_width hc
  have hvalues : schema.children ⟨parent, ahead⟩ seen c = _ := Schema.children_first hc
  have hvalues' : schema.children ⟨parent, ahead⟩ seen c' = _ := Schema.children_first hc'
  rw [hvalues, hvalues', hfind]
  have hfill {key : String} {slot : Slot α} {group : Option Schema.Group}
      (hs : schema.find s = some (key, slot, group)) :
      Keeps reason f (Schema.fill ⟨parent, ahead⟩ seen key slot s)
        (Schema.fill ⟨parent, ahead⟩ seen key slot s') := by
    rw [Schema.fill, Schema.fill]
    split
    · exact Carries.of_error
    · exact hsource key slot group hs
  obtain hs | ⟨key, slot, _ | group, hs⟩ : schema.find s = none ∨
      ∃ key slot group, schema.find s = some (key, slot, group) := by
    cases schema.find s with
    | none => exact .inl rfl
    | some found => exact .inr ⟨_, _, _, rfl⟩
  · rw [hs]
    have hpass : Carries reason Eq s.readPresence s'.readPresence :=
      fun u hu => .inl ⟨(), hpresence hu, rfl⟩
    exact hpass.bind fun _ _ _ => ih _ _ hless hrest ahead seen
  · rw [hs]
    apply (hfill hs).bind
    intro a b hab
    apply (ih _ _ hless hrest ahead (key :: seen)).bind
    intro vs ws hvs
    exact .ok (by rw [List.map_cons, List.map_cons, hab, hvs])
  · rw [hs]
    apply (hfill hs).bind
    intro a b hab
    apply (hrest.collect hread hs ahead).read.bind
    rintro p q ⟨hcollect, hmore, hothers⟩
    have hwidth := Nat.lt_of_le_of_lt (collect_width hcollect) hless
    rw [hrest.scopeAfter]
    apply (ih _ _ hwidth hothers _ (key :: seen)).bind
    intro vs ws hvs
    refine .ok ?_
    rw [List.map_append, List.map_append, List.map_cons, List.map_cons, hab, hmore, hvs]

theorem Patched.children {c c' : Content} (h : Patched reason parent ρ c c') (ahead : Option Scope)
    (seen : List String) :
    Keeps reason (List.map f) (schema.children ⟨parent, ahead⟩ seen c)
      (schema.children ⟨parent, ahead⟩ seen c') := by
  induction hn : c.width using Nat.strongRecOn generalizing c c' ahead seen with
  | ind n ih =>
    subst hn
    have hless : ∀ d d', d.width < c.width → Patched reason parent ρ d d' → ∀ ahead seen,
        Keeps reason (List.map f) (schema.children ⟨parent, ahead⟩ seen d)
          (schema.children ⟨parent, ahead⟩ seen d') :=
      fun d d' hd hp ahead seen => ih _ hd hp ahead seen rfl
    cases c with
    | closed next =>
      cases h
      exact .refl _ _ _
    | ended =>
      cases h
      exact .refl _ _ _
    | failed fault =>
      cases h
      exact .refl _ _ _
    | text value rest =>
      obtain ⟨rest', rfl, hrest⟩ := h.of_text
      cases value with
      | error e =>
        rw [Schema.children_fault]
        exact Carries.of_error
      | ok s =>
        exact keeps_first hread rfl rfl hrest rfl id (fun _ _ _ _ => .refl _ _ _) hless
    | element tag inner rest =>
      obtain ⟨inner', rest', rfl, hchild, hrest⟩ := h.of_element
      cases ht : tag.check with
      | error e =>
        rw [Schema.children_error (by rw [Content.first?, ht]; rfl)]
        exact Carries.of_error
      | ok u =>
        have hfirst (inner rest : Content) : (Content.element tag inner rest).first? parent.name =
            .ok (some (.element tag inner, rest)) := by
          rw [Content.first?, ht]
          rfl
        exact keeps_first hread (hfirst inner rest) (hfirst inner' rest') hrest rfl
          hchild.padded.passOver (fun key slot group hs => hread _ _ _ hchild key slot group hs ahead)
          hless

end Records

/-! ## Places inside records of texts -/

def roleOf (tags : List Tag) : Role := roleIn (stackOf tags)

def parentOf (tags : List Tag) : Tag := tags.headD ⟨[], [], [], none⟩

/-- What follows a place is patched, for the element that the place is in and for every element
around it. -/
def LevelsPatched (reason : Prop) (tags : List Tag) (l l' : Levels) : Prop :=
  ∀ n, Patched reason (parentOf (tags.drop n)) (roleOf (tags.drop n)) (l.level n) (l'.level n)

theorem LevelsPatched.before {reason : Prop} {tags : List Tag} {l l' : Levels} (e : Markup.Event)
    (h : LevelsPatched reason (e.open tags) l l') :
    LevelsPatched reason tags (l.before e) (l'.before e) := by
  intro n
  cases e with
  | opening tag =>
    cases n with
    | zero =>
      rw [Levels.opening_level_zero, Levels.opening_level_zero]
      exact .element (h 0) (h 1)
    | succ n =>
      rw [Levels.opening_level_succ, Levels.opening_level_succ]
      exact h (n + 2)
  | closing outer =>
    cases n with
    | zero =>
      rw [Levels.closing_level_zero, Levels.closing_level_zero, (h 0).scopeAhead]
      exact .same ..
    | succ n =>
      have hn := h n
      rw [Levels.closing_level_succ, Levels.closing_level_succ]
      rwa [show (Event.closing outer).open tags = tags.drop 1 from List.drop_one.symm,
        List.drop_drop, Nat.add_comm] at hn
  | text value =>
    cases n with
    | zero =>
      rw [Levels.text_level_zero, Levels.text_level_zero]
      exact (h 0).prepend value
    | succ n =>
      rw [Levels.text_level_succ, Levels.text_level_succ]
      exact h (n + 1)

theorem LevelsPatched.behind {reason : Prop} {es : List Markup.Event} {l l' : Levels}
    (h : LevelsPatched reason (openTags [] es) l l') :
    LevelsPatched reason [] (l.behind es) (l'.behind es) := by
  induction es generalizing l l' with
  | nil => exact h
  | cons e es ih => exact ih (h.before e)

section Record
variable {reason : Prop} {tags : List Tag} {tag : Tag} {l l' : Levels}

theorem levelsPatched_record {earlier : List Markup.Event} (hopen : openTags [] earlier = tags)
    (role : (roleOf (tag :: tags)).hasText = true)
    (parting : Parting (roleOf (tag :: tags)).knows reason (l.level 0) (l'.level 0))
    (marked : (roleOf tags).mayBeAbsent tag.key = true →
      MarkKept (parentOf tags) tag (l.level 0) (l'.level 0))
    (around : ∀ n, l.level (n + 1) = l'.level (n + 1)) :
    LevelsPatched reason [] ((l.before (.opening tag)).behind earlier)
      ((l'.before (.opening tag)).behind earlier) := by
  apply LevelsPatched.behind
  rw [hopen]
  intro n
  cases n with
  | zero =>
    rw [Levels.opening_level_zero, Levels.opening_level_zero, around]
    exact .record role parting marked (.same ..)
  | succ n =>
    rw [Levels.opening_level_succ, Levels.opening_level_succ, around]
    exact .same ..

/-- What lies behind an element, or behind the text in front of it: that the content is parted
there carries over to all that may stand in front. -/
structure Spread (knows : String → Bool) (reason : Prop) (c c' : Content) : Prop where
  parting : Parting knows reason c c'
  prepend : ∀ v, Parting knows reason (c.prepend v) (c'.prepend v)
  ahead : ∀ outer, c'.scopeAhead outer = c.scopeAhead outer

namespace Spread
variable {knows : String → Bool} {c c' inner inner' : Content}

theorem of_element (h : Parting knows reason (.element tag inner c) (.element tag inner' c')) :
    Spread knows reason (.element tag inner c) (.element tag inner' c') :=
  ⟨h, fun v => .text v h, fun _ => rfl⟩

theorem text (v : Except Markup.Fault (List Char)) (h : Spread knows reason c c') :
    Spread knows reason (c.prepend v) (c'.prepend v) where
  parting := h.prepend v
  prepend := fun w => by
    rw [Content.prepend_prepend, Content.prepend_prepend]
    exact h.prepend _
  ahead := fun outer => by
    cases c <;> cases c' <;> rfl

end Spread

theorem spread_within {es : List Markup.Event} {knows : String → Bool} (h : Within es)
    (hl : Spread knows reason (l.level 0) (l'.level 0)) :
    Spread knows reason ((l.behind es).level 0) ((l'.behind es).level 0) :=
  h.lift (fun v _ _ hc => hc.text v)
    (fun _ _ _ _ _ hi hc => .of_element (.element hi hc.parting)) hl

def frontText (es : List Markup.Event) : Content :=
  ((Levels.mk [] .ended).behind (es.takeWhile Event.isText)).level 0

theorem parting_within {es : List Markup.Event} {knows : String → Bool} {inner c : Content}
    (h : Within es) (unknown : knows tag.key = false) (clean : tag.fault = none)
    (sound : inner.Sound) (line : c = l.level 0 ∨ c = (l.level 0).prepend (.ok ['\n']))
    (parted : (frontText es).Shows → (l.level 0).Shows → reason)
    (hl : l'.level 0 = .element tag inner c) :
    Parting knows reason ((l.behind es).level 0) ((l'.behind es).level 0) ∧
      (es ≠ [] → ∀ outer, ((l'.behind es).level 0).scopeAhead outer =
        ((l.behind es).level 0).scopeAhead outer) := by
  have hsplit := List.takeWhile_append_dropWhile (p := Event.isText) (l := es)
  have hfront : frontText es = ((Levels.mk [] .ended).behind (es.takeWhile Event.isText)).level 0 :=
    rfl
  have htexts := (onlyTexts_takeWhile es).front
  generalize es.takeWhile Event.isText = texts at hsplit hfront htexts
  have hparting : Parting knows reason ((l.behind texts).level 0) ((l'.behind texts).level 0) := by
    rcases htexts with rfl | ⟨v, hv⟩
    · exact hl ▸ .insert unknown clean sound line
    · rw [hv, hv, hl]
      apply Parting.behind v unknown clean sound line
      intro hshows
      apply parted
      rwa [hfront, hv]
  have hahead : texts ≠ [] → ∀ outer, ((l'.behind texts).level 0).scopeAhead outer =
      ((l.behind texts).level 0).scopeAhead outer := by
    intro hne outer
    obtain ⟨v, hv⟩ := htexts.resolve_left hne
    rw [hv, hv, Content.scopeAhead_prepend, Content.scopeAhead_prepend]
  have hwithin := h.dropWhile
  have hstart := List.head?_dropWhile_not Event.isText es
  rw [← hsplit, Levels.behind_append, Levels.behind_append]
  generalize es.dropWhile Event.isText = front at hwithin hstart ⊢
  generalize l.behind texts = m, l'.behind texts = m' at hparting hahead ⊢
  cases hwithin with
  | nil => exact ⟨hparting, fun hne => hahead (by rwa [List.append_nil] at hne)⟩
  | text value h => cases hstart
  | @element child outer inside more hinside hmore =>
    obtain ⟨content, hsame, hlevel⟩ := hinside.around child outer
    have hbehind : Event.closing outer :: (inside ++ .opening child :: more) =
        (.closing outer :: (inside ++ [.opening child])) ++ more := by simp
    have hchild : Spread knows reason
        ((m.behind (.closing outer :: (inside ++ [.opening child]))).level 0)
        ((m'.behind (.closing outer :: (inside ++ [.opening child]))).level 0) := by
      rw [hlevel, hlevel]
      exact .of_element (.element (hsame m m') hparting)
    have hspread := spread_within hmore hchild
    rw [hbehind, Levels.behind_append, Levels.behind_append]
    exact ⟨hspread.parting, fun _ => hspread.ahead⟩

end Record

/-- Whether a place is in a record of texts, or in an element there that the record does not know. -/
def inText : Open → Bool
  | [] => false
  | (name, scope) :: outer =>
    (roleIn ((name, scope) :: outer)).hasText ||
      (inText outer && !(roleIn outer).knows (String.ofList (localName name)))

theorem inText_outer {tag : Tag} {tags : List Tag}
    (role : ¬ (roleOf (tag :: tags)).hasText = true) (h : inText (stackOf (tag :: tags)) = true) :
    inText (stackOf tags) = true ∧ (roleOf tags).knows tag.key = false := by
  have hboth : ((roleOf (tag :: tags)).hasText ||
      (inText (stackOf tags) && !(roleOf tags).knows tag.key)) = true := h
  simpa [role] using hboth

theorem levelsPatched_inside {reason : Prop} {tags : List Tag} {earlier : List Markup.Event}
    {child : Tag} {inner inner' rest : Content} {l l' : Levels}
    (hopen : openTags [] earlier = tags) (intext : inText (stackOf tags) = true)
    (unknown : (roleOf tags).knows child.key = false) (more : Padded inner inner')
    (hl : l.level 0 = .element child inner rest) (hl' : l'.level 0 = .element child inner' rest)
    (around : ∀ n, l.level (n + 1) = l'.level (n + 1)) :
    LevelsPatched reason [] (l.behind earlier) (l'.behind earlier) := by
  induction tags generalizing earlier child inner inner' rest l l' with
  | nil => cases intext
  | cons tag tags ih =>
    obtain ⟨front, before, rfl, hwithin, hbefore⟩ := exists_opening hopen
    have haround : ∀ n, (l.behind front).level (n + 1) = (l'.behind front).level (n + 1) := by
      intro n
      rw [hwithin.level_succ, hwithin.level_succ, around]
    rw [Levels.behind_append, Levels.behind_append, Levels.behind_cons, Levels.behind_cons]
    by_cases role : (roleOf (tag :: tags)).hasText = true
    · have hspread : Spread (roleOf (tag :: tags)).knows reason (l.level 0) (l'.level 0) := by
        rw [hl, hl']
        exact .of_element (.inside unknown more)
      have hfront := spread_within hwithin hspread
      exact levelsPatched_record hbefore role hfront.parting
        (fun _ => markKept_of_ahead _ _ hfront.ahead) haround
    · have hpadded : Padded ((l.behind front).level 0) ((l'.behind front).level 0) := by
        apply hwithin.lift (fun v _ _ h => .text v h) (fun _ _ _ _ _ h h' => .element (.same h) h')
        rw [hl, hl']
        exact .element more (.refl rest)
      obtain ⟨houter, hunknown⟩ := inText_outer role intext
      apply ih hbefore houter hunknown hpadded (Levels.opening_level_zero _ _)
      · rw [Levels.opening_level_zero, haround]
      · intro n
        rw [Levels.opening_level_succ, Levels.opening_level_succ, haround]

end DialectBindings.Definition
