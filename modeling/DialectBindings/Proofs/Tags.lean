import DialectBindings.Markup.Content

/-!
# Well-formed start tags

A tag as documents write it: a name, and attributes with quoted values, each behind at least one
blank. The scan finds these attributes, the tag ends where it should, and the bindings it makes do
not depend on attributes without a prefix.
-/

set_option autoImplicit false

namespace DialectBindings.Markup
open Text

def isNameChar (c : Char) : Bool :=
  inKey c && !(['>', '"', '\'', '/', '!', '?'].contains c)

structure IsName (s : List Char) : Prop where
  nonempty : s ≠ []
  chars : ∀ c ∈ s, isNameChar c = true

def isQuote (c : Char) : Bool := c == '"' || c == '\''

/-- A text that writes attributes. -/
inductive Written : List Char → List Attribute → Prop
  | nil {gap : List Char} (hgap : ∀ c ∈ gap, isSpace c = true) : Written gap []
  | cons {gap name left right value rest : List Char} {quote : Char} {as : List Attribute}
      (hne : gap ≠ []) (hgap : ∀ c ∈ gap, isSpace c = true) (hname : IsName name)
      (hleft : ∀ c ∈ left, isSpace c = true) (hright : ∀ c ∈ right, isSpace c = true)
      (hquote : isQuote quote = true) (hvalue : quote ∉ value) (hrest : Written rest as) :
      Written (gap ++ (name ++ (left ++ '=' :: (right ++ quote :: (value ++ quote :: rest)))))
        (⟨name, value⟩ :: as)

theorem isNameChar_inKey {c : Char} (h : isNameChar c = true) : inKey c = true := by
  simp only [isNameChar, Bool.and_eq_true] at h
  exact h.1

theorem isNameChar_not_space {c : Char} (h : isNameChar c = true) : ¬ isSpace c = true := by
  have hk := isNameChar_inKey h
  simp only [inKey, Bool.and_eq_true] at hk
  simpa using hk.2

theorem isNameChar_ne {c d : Char} (h : isNameChar c = true)
    (hd : d ∈ ['=', '>', '"', '\'', '/', '!', '?', ' ', '\t', '\r', '\n']) : c ≠ d := by
  rintro rfl
  simp only [List.mem_cons, List.not_mem_nil, or_false] at hd
  rcases hd with rfl | rfl | rfl | rfl | rfl | rfl | rfl | rfl | rfl | rfl | rfl <;> cases h

namespace Written
variable {s t : List Char} {as bs : List Attribute}

theorem append (h : Written s as) (h' : Written t bs) : Written (s ++ t) (as ++ bs) := by
  induction h with
  | @nil gap hgap =>
    cases h' with
    | nil hgap' => exact .nil fun c hc => (List.mem_append.1 hc).elim (hgap c) (hgap' c)
    | @cons gap' name left right value rest quote as hne hgap' hname hleft hright hquote hvalue hrest =>
      rw [← List.append_assoc]
      refine .cons ?_ ?_ hname hleft hright hquote hvalue hrest
      · simp [hne]
      · exact fun c hc => (List.mem_append.1 hc).elim (hgap c) (hgap' c)
  | cons hne hgap hname hleft hright hquote hvalue hrest ih =>
    simp only [List.append_assoc, List.cons_append]
    exact .cons hne hgap hname hleft hright hquote hvalue ih

theorem head_space (h : Written s as) {c : Char} (hc : s.head? = some c) : isSpace c = true := by
  cases h with
  | nil hgap => exact hgap c (List.mem_of_mem_head? hc)
  | @cons gap name left right value rest quote as hne hgap =>
    cases gap with
    | nil => exact absurd rfl hne
    | cons d gap =>
      cases hc
      exact hgap c List.mem_cons_self

theorem last_ne (h : Written s as) : s.getLast? ≠ some '/' := by
  induction h with
  | nil hgap =>
    intro hlast
    have hspace := hgap _ (List.mem_of_getLast? hlast)
    cases hspace
  | @cons gap name left right value rest quote as hne hgap hname hleft hright hquote hvalue hrest ih =>
    have hsplit : gap ++ (name ++ (left ++ '=' :: (right ++ quote :: (value ++ quote :: rest)))) =
        (gap ++ name ++ left ++ '=' :: right ++ quote :: value ++ [quote]) ++ rest := by
      simp
    rw [hsplit, List.getLast?_append]
    cases hlast : rest.getLast? with
    | some c =>
      rw [hlast] at ih
      exact ih
    | none =>
      rw [Option.none_or, List.getLast?_concat]
      intro hq
      cases hq
      cases hquote

/-! ## The end of the tag -/

theorem cutTag?_outside {s : List Char} (h : ∀ c ∈ s, c ≠ '>' ∧ c ≠ '"' ∧ c ≠ '\'')
    (more : List Char) :
    cutTag? none (s ++ more) = (cutTag? none more).map fun p => (s ++ p.1, p.2) := by
  induction s with
  | nil => simp
  | cons c s ih =>
    obtain ⟨⟨hgt, hq, ha⟩, hs⟩ := List.forall_mem_cons.1 h
    rw [List.cons_append, cutTag?]
    simp only [if_neg hgt, hq, ha, or_self, if_false, ih hs, Option.map_map]
    rfl

theorem cutTag?_inside {quote : Char} {value : List Char} (h : quote ∉ value)
    (more : List Char) : cutTag? (some quote) (value ++ quote :: more) =
      (cutTag? none more).map fun p => (value ++ quote :: p.1, p.2) := by
  induction value with
  | nil => simp [cutTag?]
  | cons c value ih =>
    have hc : c ≠ quote := fun hc => h (hc ▸ List.mem_cons_self)
    rw [List.cons_append, cutTag?]
    simp only [if_neg hc, ih fun hm => h (List.mem_cons_of_mem _ hm), Option.map_map]
    rfl

theorem not_special_of_space {c : Char} (h : isSpace c = true) : c ≠ '>' ∧ c ≠ '"' ∧ c ≠ '\'' := by
  refine ⟨?_, ?_, ?_⟩ <;> rintro rfl <;> cases h

theorem not_special_of_name {c : Char} (h : isNameChar c = true) :
    c ≠ '>' ∧ c ≠ '"' ∧ c ≠ '\'' :=
  ⟨isNameChar_ne h (by simp), isNameChar_ne h (by simp), isNameChar_ne h (by simp)⟩

theorem cutTag (h : Written s as) (more : List Char) :
    cutTag? none (s ++ more) = (cutTag? none more).map fun p => (s ++ p.1, p.2) := by
  induction h with
  | nil hgap => exact cutTag?_outside (fun c hc => not_special_of_space (hgap c hc)) more
  | @cons gap name left right value rest quote as hne hgap hname hleft hright hquote hvalue hrest ih =>
    have hopen : ∀ more : List Char, cutTag? none (quote :: (value ++ quote :: more)) =
        (cutTag? none more).map fun p => (quote :: (value ++ quote :: p.1), p.2) := by
      intro more
      have hq : quote = '"' ∨ quote = '\'' := by simpa [isQuote] using hquote
      have hgt : quote ≠ '>' := by rcases hq with rfl | rfl <;> decide
      rw [cutTag?]
      simp only [if_neg hgt, if_pos hq, cutTag?_inside hvalue, Option.map_map]
      rfl
    have hfront : ∀ c ∈ gap ++ name ++ left ++ '=' :: right, c ≠ '>' ∧ c ≠ '"' ∧ c ≠ '\'' := by
      intro c hc
      simp only [List.mem_append, List.mem_cons] at hc
      rcases hc with ((hc | hc) | hc) | rfl | hc
      · exact not_special_of_space (hgap c hc)
      · exact not_special_of_name (hname.chars c hc)
      · exact not_special_of_space (hleft c hc)
      · decide
      · exact not_special_of_space (hright c hc)
    have hsplit : ∀ more : List Char,
        gap ++ (name ++ (left ++ '=' :: (right ++ quote :: (value ++ quote :: rest)))) ++ more =
          (gap ++ name ++ left ++ '=' :: right) ++ quote :: (value ++ quote :: (rest ++ more)) := by
      simp
    rw [hsplit, cutTag?_outside hfront, hopen, ih]
    simp [Option.map_map, Function.comp_def]

end Written

def attributeText (a : Attribute) (quote : Char) : List Char :=
  ' ' :: (a.name ++ '=' :: quote :: (a.value ++ [quote]))

theorem written_attributeText {a : Attribute} {quote : Char} (hkey : IsName a.name)
    (hquote : isQuote quote = true) (hvalue : quote ∉ a.value) : Written (attributeText a quote) [a] := by
  have hnil : Written [] [] := .nil nofun
  have hblank : ∀ c ∈ [' '], isSpace c = true := List.all_eq_true.1 rfl
  exact @Written.cons [' '] a.name [] [] a.value [] quote [] (by simp) hblank hkey nofun nofun
    hquote hvalue hnil

/-! ## What the scan finds -/

theorem dropWhile_front {p : Char → Bool} {s : List Char} (hs : ∀ c ∈ s, p c = true) {c : Char}
    (hc : ¬ p c = true) (t : List Char) : (s ++ c :: t).dropWhile p = c :: t := by
  rw [List.dropWhile_append_of_pos hs, List.dropWhile_cons_of_neg hc]

theorem takeWhile_front {p : Char → Bool} {s : List Char} (hs : ∀ c ∈ s, p c = true) {c : Char}
    (hc : ¬ p c = true) (t : List Char) : (s ++ c :: t).takeWhile p = s := by
  rw [List.takeWhile_append_of_pos hs, List.takeWhile_cons_of_neg hc, List.append_nil]

theorem dropWhile_all {p : Char → Bool} {s : List Char} (hs : ∀ c ∈ s, p c = true) :
    s.dropWhile p = [] := by
  rw [← List.append_nil s, List.dropWhile_append_of_pos hs]
  rfl

theorem items_blank {gap : List Char} (h : ∀ c ∈ gap, isSpace c = true) (position : Nat) :
    items position gap = [] := by
  have hdrop := dropWhile_all h
  rw [items]
  split
  · rfl
  · rename_i hs
    rw [hdrop] at hs
    cases hs

theorem items_cons {gap name left right value rest : List Char} {quote : Char}
    (hgap : ∀ c ∈ gap, isSpace c = true) (hname : IsName name)
    (hleft : ∀ c ∈ left, isSpace c = true) (hright : ∀ c ∈ right, isSpace c = true)
    (hquote : isQuote quote = true) (hvalue : quote ∉ value) (position : Nat) :
    ∃ start next, items position
        (gap ++ (name ++ (left ++ '=' :: (right ++ quote :: (value ++ quote :: rest))))) =
      .keyed name start (.ok value) :: items next rest := by
  obtain ⟨hne, hchars⟩ := hname
  have hq : quote = '"' ∨ quote = '\'' := by simpa [isQuote] using hquote
  have hqs : ¬ isSpace quote = true := by rcases hq with rfl | rfl <;> decide
  cases name with
  | nil => exact absurd rfl hne
  | cons c name =>
    obtain ⟨hc, hmore⟩ := List.forall_mem_cons.1 hchars
    have hdrop := dropWhile_front hgap (isNameChar_not_space hc)
      (name ++ (left ++ '=' :: (right ++ quote :: (value ++ quote :: rest))))
    have hkeys : ∀ d ∈ name, inKey d = true := fun d hd => isNameChar_inKey (hmore d hd)
    -- The key ends at the first blank or at the equals sign.
    have hkey : (name ++ (left ++ '=' :: (right ++ quote :: (value ++ quote :: rest)))).takeWhile
        inKey = name ∧ ((name ++ (left ++ '=' :: (right ++ quote :: (value ++ quote ::
        rest)))).dropWhile inKey).dropWhile isSpace =
          '=' :: (right ++ quote :: (value ++ quote :: rest)) := by
      cases left with
      | nil => exact ⟨takeWhile_front hkeys (by decide) _, by
          rw [List.nil_append, dropWhile_front hkeys (by decide)]; rfl⟩
      | cons d left =>
        have hd : ¬ inKey d = true := by simp [inKey, hleft d List.mem_cons_self]
        refine ⟨takeWhile_front hkeys hd _, ?_⟩
        rw [List.cons_append, dropWhile_front hkeys hd, ← List.cons_append]
        exact dropWhile_front hleft (by decide) _
    have hval := dropWhile_front hright hqs (value ++ quote :: rest)
    have hin : ∀ d ∈ value, (d != quote) = true := by
      intro d hd
      simpa using fun he : d = quote => hvalue (he ▸ hd)
    have htake := takeWhile_front hin (c := quote) (by simp) rest
    have hleave := dropWhile_front hin (c := quote) (by simp) rest
    rw [items]
    split
    · rename_i hs
      rw [List.cons_append, hdrop] at hs
      cases hs
    · rename_i hs
      rw [List.cons_append, hdrop] at hs
      cases hs
      dsimp only
      split
      · rename_i hk
        rw [hkey.2] at hk
        cases hk
      · rename_i hk
        rw [hkey.2] at hk
        cases hk
        split
        · rename_i hv
          rw [hval] at hv
          cases hv
        · rename_i hv
          rw [hval] at hv
          cases hv
          rw [if_pos hq]
          split
          · rename_i hl
            rw [hleave] at hl
            cases hl
          · rename_i hl
            rw [hleave] at hl
            cases hl
            rw [hkey.1, htake]
            exact ⟨_, _, rfl⟩
      · rename_i hno hk
        rw [hkey.2] at hk
        cases hk
        exact (hno rfl).elim

def Item.attribute? : Item → Option Attribute
  | .keyed name _ (.ok value) => some ⟨name, value⟩
  | _ => none

theorem Item.attribute?_eq_some {i : Item} {a : Attribute} (h : i.attribute? = some a) :
    ∃ position, i = .keyed a.name position (.ok a.value) := by
  cases i with
  | stray position fault => cases h
  | keyed name position value =>
    cases value with
    | error fault => cases h
    | ok value =>
      cases h
      exact ⟨position, rfl⟩

theorem Written.items {s : List Char} {as : List Attribute} (h : Written s as) (position : Nat) :
    (items position s).map Item.attribute? = as.map some := by
  induction h generalizing position with
  | nil hgap => rw [items_blank hgap]; rfl
  | cons hne hgap hname hleft hright hquote hvalue hrest ih =>
    obtain ⟨start, next, heq⟩ := items_cons hgap hname hleft hright hquote hvalue position
    rw [heq, List.map_cons, ih]
    rfl

theorem distinct_items {its : List Item} {as : List Attribute}
    (h : its.map Item.attribute? = as.map some) {seen : List (List Char × Nat)}
    (hs : ∀ a ∈ as, seen.lookup a.name = none) (hn : (as.map (·.name)).Nodup) :
    distinct seen its = as.map .ok := by
  induction its generalizing as seen with
  | nil =>
    cases as with
    | nil => rfl
    | cons a as => cases h
  | cons i its ih =>
    cases as with
    | nil => cases h
    | cons a as =>
      simp only [List.map_cons, List.cons.injEq] at h
      obtain ⟨hi, hits⟩ := h
      obtain ⟨position, rfl⟩ := Item.attribute?_eq_some hi
      obtain ⟨hfirst, hmore⟩ := List.forall_mem_cons.1 hs
      obtain ⟨hnot, hnodup⟩ := List.nodup_cons.1 hn
      have hseen : ∀ b ∈ as, ((a.name, position) :: seen).lookup b.name = none := by
        intro b hb
        have hne : (b.name == a.name) = false := by
          simp only [beq_eq_false_iff_ne]
          intro he
          exact hnot (List.mem_map.2 ⟨b, hb, he⟩)
        rw [List.lookup_cons, hne]
        exact hmore b hb
      simp only [distinct, hfirst, List.map_cons, ih hits hseen hnodup]

def Unprefixed (name : List Char) : Prop := ':' ∉ name

theorem Unprefixed.split {name : List Char} (h : Unprefixed name) :
    splitName name = (none, name) := by
  have hdrop : name.dropWhile (· != ':') = [] := by
    apply dropWhile_all
    intro c hc
    simpa using fun he : c = ':' => h (he ▸ hc)
  rw [splitName, hdrop]

theorem Unprefixed.not_bound {name : List Char} (h : Unprefixed name) (bound : List Char) :
    boundPrefix? name ≠ some (some bound) := by
  intro hb
  unfold boundPrefix? at hb
  split at hb
  · cases hb
  · exact h (by simp)
  · cases hb

theorem Unprefixed.key {a : Attribute} (h : Unprefixed a.name) :
    a.key = String.ofList ('@' :: a.name) := by
  rw [Attribute.key, localName, h.split]
  simp

theorem bindings_items {its : List Item} {as : List Attribute}
    (h : its.map Item.attribute? = as.map some) (scope : Scope) :
    bindings scope its = bindings scope (as.map fun a => .keyed a.name 0 (.ok a.value)) := by
  induction its generalizing as scope with
  | nil =>
    cases as with
    | nil => rfl
    | cons a as => cases h
  | cons i its ih =>
    cases as with
    | nil => cases h
    | cons a as =>
      simp only [List.map_cons, List.cons.injEq] at h
      obtain ⟨hi, hits⟩ := h
      obtain ⟨position, rfl⟩ := Item.attribute?_eq_some hi
      simp only [List.map_cons, bindings, ih hits]

theorem bindings_insert {as bs : List Attribute} {a : Attribute} (h : Unprefixed a.name)
    (scope : Scope) :
    bindings scope ((as ++ a :: bs).map fun a => .keyed a.name 0 (.ok a.value)) =
      bindings scope ((as ++ bs).map fun a => .keyed a.name 0 (.ok a.value)) := by
  induction as generalizing scope with
  | nil =>
    simp only [List.nil_append, List.map_cons, bindings]
    split
    · rename_i hb
      exact absurd hb (h.not_bound _)
    · rfl
  | cons b as ih => simp only [List.cons_append, List.map_cons, bindings, ih]

/-! ## The tag -/

section Tag
variable {name s : List Char} {as : List Attribute}

theorem takeWhile_name (hname : IsName name) (h : Written s as) :
    (name ++ s).takeWhile (!isSpace ·) = name ∧ (name ++ s).dropWhile (!isSpace ·) = s := by
  have hchars : ∀ c ∈ name, (!isSpace c) = true := by
    intro c hc
    simpa using isNameChar_not_space (hname.chars c hc)
  cases s with
  | nil =>
    rw [List.append_nil]
    exact ⟨by rw [← List.append_nil name, List.takeWhile_append_of_pos hchars]; simp,
      dropWhile_all hchars⟩
  | cons c s =>
    have hc : ¬ (!isSpace c) = true := by simp [h.head_space rfl]
    exact ⟨takeWhile_front hchars hc s, dropWhile_front hchars hc s⟩

theorem itemsOf_written (hname : IsName name) (h : Written s as) :
    (Tag.itemsOf (name ++ s)).map Item.attribute? = as.map some := by
  rw [Tag.itemsOf]
  simp only [(takeWhile_name hname h).1, (takeWhile_name hname h).2]
  exact h.items _

theorem ofText_name (hname : IsName name) (h : Written s as) (outer : Scope) :
    (Tag.ofText outer (name ++ s)).name = name := by
  rw [Tag.ofText]
  split <;> exact (takeWhile_name hname h).1

theorem ofText_text (outer : Scope) (text : List Char) : (Tag.ofText outer text).text = text := by
  rw [Tag.ofText]
  split <;> rfl

theorem ofText_attributes (hname : IsName name) (h : Written s as)
    (hn : (as.map (·.name)).Nodup) (outer : Scope) :
    (Tag.ofText outer (name ++ s)).attributes = as.map .ok := by
  rw [Tag.attributes, ofText_text]
  exact distinct_items (itemsOf_written hname h) (fun _ _ => rfl) hn

theorem last_written (hname : IsName name) (h : Written s as) :
    (name ++ s).getLast? ≠ some '/' := by
  rw [List.getLast?_append]
  cases hs : s.getLast? with
  | some c =>
    have hne := h.last_ne
    rw [hs] at hne
    exact hne
  | none =>
    intro hlast
    exact isNameChar_ne (hname.chars _ (List.mem_of_getLast? hlast)) (by simp) rfl

theorem markup_name (hname : IsName name) (more : List Char) :
    markup (name ++ more) = startTag (name ++ more) := by
  obtain ⟨hne, hchars⟩ := hname
  cases name with
  | nil => exact absurd rfl hne
  | cons c name =>
    have hc := hchars c List.mem_cons_self
    have hslash : c ≠ '/' := isNameChar_ne hc (by simp)
    have hbang : c ≠ '!' := isNameChar_ne hc (by simp)
    have hquestion : c ≠ '?' := isNameChar_ne hc (by simp)
    rw [List.cons_append]
    unfold markup
    split <;> simp_all

def tagEnd (isEmpty : Bool) (after : List Char) : List Char :=
  (if isEmpty then ['/'] else []) ++ '>' :: after

theorem head_tag (hname : IsName name) (h : Written s as) (isEmpty : Bool) (after : List Char) :
    head ('<' :: (name ++ (s ++ tagEnd isEmpty after))) =
      .token (.opening (name ++ s) isEmpty) after := by
  have hcut : cutTag? none (name ++ (s ++ tagEnd isEmpty after)) =
      some (name ++ (s ++ if isEmpty then ['/'] else []), after) := by
    unfold tagEnd
    rw [Written.cutTag?_outside fun c hc => Written.not_special_of_name (hname.chars c hc),
      h.cutTag]
    cases isEmpty <;> simp [cutTag?]
  show markup _ = _
  rw [markup_name hname, startTag, hcut]
  cases isEmpty with
  | true =>
    have hlast : (name ++ (s ++ ['/'])).getLast? = some '/' := by simp [List.getLast?_append]
    have hdrop : (name ++ (s ++ ['/'])).dropLast = name ++ s := by
      rw [← List.append_assoc, List.dropLast_concat]
    simp only [if_true, hlast, hdrop]
  | false =>
    have hlast := last_written hname h
    simp only [Bool.false_eq_true, if_false, List.append_nil, if_neg hlast]

end Tag

end DialectBindings.Markup
