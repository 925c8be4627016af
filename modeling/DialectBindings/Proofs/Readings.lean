import DialectBindings.Markup.Content

/-!
# Reading a text in parts

A text that ends where one of its tokens ends can be read apart from what follows it. Only a
carriage return at its end waits for the next character: with a line feed behind it, both are one
line end. The events of a reading do not depend on those before it.
-/

set_option autoImplicit false

namespace DialectBindings.Markup
open Text

/-! ## Heads of longer texts -/

def Head.append : Head → List Char → Head
  | .passed rest, more => .passed (rest ++ more)
  | .token t rest, more => .token t (rest ++ more)
  | .ended, _ => .ended
  | .faulty fault, _ => .faulty fault

theorem cutTag?_append {quote : Option Char} {s inside rest : List Char}
    (h : cutTag? quote s = some (inside, rest)) (more : List Char) :
    cutTag? quote (s ++ more) = some (inside, rest ++ more) := by
  induction s generalizing quote inside rest with
  | nil => cases h
  | cons c s ih =>
    have step : ∀ {q : Option Char}, (cutTag? q s).map (fun p => (c :: p.1, p.2)) =
        some (inside, rest) →
        (cutTag? q (s ++ more)).map (fun p => (c :: p.1, p.2)) = some (inside, rest ++ more) := by
      intro q hq
      obtain ⟨⟨i, r⟩, hr, he⟩ := Option.map_eq_some_iff.1 hq
      cases he
      rw [ih hr]
      rfl
    rw [List.cons_append]
    cases quote with
    | some q => exact step h
    | none =>
      simp only [cutTag?] at h ⊢
      by_cases hc : c = '>'
      · rw [if_pos hc] at h ⊢
        cases h
        rfl
      · rw [if_neg hc] at h ⊢
        exact step h

theorem cutBalanced?_append {depth : Nat} {s inside rest : List Char}
    (h : cutBalanced? depth s = some (inside, rest)) (more : List Char) :
    cutBalanced? depth (s ++ more) = some (inside, rest ++ more) := by
  induction s generalizing depth inside rest with
  | nil => cases h
  | cons c s ih =>
    have step : ∀ {d : Nat}, (cutBalanced? d s).map (fun p => (c :: p.1, p.2)) =
        some (inside, rest) →
        (cutBalanced? d (s ++ more)).map (fun p => (c :: p.1, p.2)) =
          some (inside, rest ++ more) := by
      intro d hd
      obtain ⟨⟨i, r⟩, hr, he⟩ := Option.map_eq_some_iff.1 hd
      cases he
      rw [ih hr]
      rfl
    rw [List.cons_append]
    simp only [cutBalanced?] at h ⊢
    by_cases ho : c = '<'
    · rw [if_pos ho] at h ⊢
      exact step h
    · rw [if_neg ho] at h ⊢
      by_cases hc : c = '>'
      · rw [if_pos hc] at h ⊢
        by_cases hd : depth = 0
        · rw [if_pos hd] at h ⊢
          cases h
          rfl
        · rw [if_neg hd] at h ⊢
          exact step h
      · rw [if_neg hc] at h ⊢
        exact step h

theorem cutTag?_split {quote : Option Char} {s inside rest : List Char}
    (h : cutTag? quote s = some (inside, rest)) : s = inside ++ '>' :: rest := by
  induction s generalizing quote inside rest with
  | nil => cases h
  | cons c s ih =>
    have step : ∀ {q : Option Char}, (cutTag? q s).map (fun p => (c :: p.1, p.2)) =
        some (inside, rest) → c :: s = inside ++ '>' :: rest := by
      intro q hq
      obtain ⟨⟨i, r⟩, hr, he⟩ := Option.map_eq_some_iff.1 hq
      cases he
      rw [ih hr]
      rfl
    cases quote with
    | some q => exact step h
    | none =>
      simp only [cutTag?] at h
      by_cases hc : c = '>'
      · rw [if_pos hc] at h
        cases h
        rw [hc]
        rfl
      · rw [if_neg hc] at h
        exact step h

theorem cutBalanced?_split {depth : Nat} {s inside rest : List Char}
    (h : cutBalanced? depth s = some (inside, rest)) : s = inside ++ '>' :: rest := by
  induction s generalizing depth inside rest with
  | nil => cases h
  | cons c s ih =>
    have step : ∀ {d : Nat}, (cutBalanced? d s).map (fun p => (c :: p.1, p.2)) =
        some (inside, rest) → c :: s = inside ++ '>' :: rest := by
      intro d hd
      obtain ⟨⟨i, r⟩, hr, he⟩ := Option.map_eq_some_iff.1 hd
      cases he
      rw [ih hr]
      rfl
    simp only [cutBalanced?] at h
    by_cases ho : c = '<'
    · rw [if_pos ho] at h
      exact step h
    · rw [if_neg ho] at h
      by_cases hc : c = '>'
      · rw [if_pos hc] at h
        by_cases hd : depth = 0
        · rw [if_pos hd] at h
          cases h
          rw [hc]
          rfl
        · rw [if_neg hd] at h
          exact step h
      · rw [if_neg hc] at h
        exact step h

theorem cutAt?_split {marker s before after : List Char} (h : cutAt? marker s = some (before, after)) :
    s = before ++ marker ++ after := by
  induction s generalizing before after with
  | nil =>
    rw [cutAt?] at h
    split at h
    · rename_i hm
      cases h
      simpa using hm
    · cases h
  | cons c rest ih =>
    rw [cutAt?] at h
    split at h
    · rename_i hm
      cases h
      obtain ⟨t, ht⟩ := List.isPrefixOf_iff_prefix.1 hm
      rw [← ht, List.nil_append, List.drop_left]
    · obtain ⟨⟨b, a⟩, hb, he⟩ := Option.map_eq_some_iff.1 h
      cases he
      rw [ih hb]
      rfl

theorem cutAt?_append {marker s before after : List Char} (hm : marker ≠ [])
    (h : cutAt? marker s = some (before, after)) (more : List Char) :
    cutAt? marker (s ++ more) = some (before, after ++ more) := by
  induction s generalizing before after with
  | nil =>
    rw [cutAt?, if_neg (by simpa using hm)] at h
    cases h
  | cons c rest ih =>
    rw [cutAt?] at h
    rw [List.cons_append, cutAt?]
    by_cases hp : marker <+: c :: rest
    · obtain ⟨t, ht⟩ := hp
      rw [if_pos (by rw [← ht]; simp), ← ht, List.drop_left] at h
      cases h
      have hpos : marker.isPrefixOf (c :: (rest ++ more)) = true := by
        rw [← List.cons_append, ← ht, List.append_assoc]
        simp
      rw [if_pos hpos, ← List.cons_append, ← ht, List.append_assoc, List.drop_left]
    · rw [if_neg (by simpa using hp)] at h
      obtain ⟨⟨b, a⟩, hb, he⟩ := Option.map_eq_some_iff.1 h
      cases he
      -- The marker stands in the rest, so it is no longer than that.
      have hlen : marker.length ≤ (c :: rest).length := by
        rw [cutAt?_split hb]
        simp only [List.length_cons, List.length_append]
        omega
      have hneg : ¬ marker <+: c :: (rest ++ more) := by
        intro hlong
        apply hp
        exact List.prefix_of_prefix_length_le hlong (List.prefix_append (c :: rest) more) hlen
      rw [if_neg (by simpa using hneg), ih hb]
      rfl

theorem startTag_append {s rest : List Char} (h : (startTag s).rest? = some rest)
    (more : List Char) : startTag (s ++ more) = (startTag s).append more := by
  unfold startTag at h ⊢
  cases hc : cutTag? none s with
  | none => simp [hc, Head.rest?] at h
  | some p =>
    obtain ⟨inside, after⟩ := p
    simp only [cutTag?_append hc more]
    split <;> rfl

theorem closingTag_append {s rest : List Char} (h : (closingTag s).rest? = some rest)
    (more : List Char) : closingTag (s ++ more) = (closingTag s).append more := by
  unfold closingTag at h ⊢
  cases hc : cutTag? none s with
  | none => simp [hc, Head.rest?] at h
  | some p =>
    obtain ⟨inside, after⟩ := p
    simp only [cutTag?_append hc more]
    rfl

theorem comment_append {s rest : List Char} (h : (comment s).rest? = some rest)
    (more : List Char) : comment (s ++ more) = (comment s).append more := by
  unfold comment at h ⊢
  cases hc : cutAt? ['-', '-', '>'] s with
  | none => simp [hc, Head.rest?] at h
  | some p =>
    obtain ⟨inside, after⟩ := p
    simp only [cutAt?_append (by simp) hc more]
    rfl

theorem rawText_append {s rest : List Char} (h : (rawText s).rest? = some rest)
    (more : List Char) : rawText (s ++ more) = (rawText s).append more := by
  unfold rawText at h ⊢
  cases hc : cutAt? [']', ']', '>'] s with
  | none => simp [hc, Head.rest?] at h
  | some p =>
    obtain ⟨inside, after⟩ := p
    simp only [cutAt?_append (by simp) hc more]
    rfl

theorem instruction_append {s rest : List Char} (h : (instruction s).rest? = some rest)
    (more : List Char) : instruction (s ++ more) = (instruction s).append more := by
  unfold instruction at h ⊢
  by_cases hs : s.head? = some '>'
  · rw [if_pos hs] at h
    cases h
  · rw [if_neg hs] at h ⊢
    cases hc : cutAt? ['?', '>'] s with
    | none => simp [hc, Head.rest?] at h
    | some p =>
      obtain ⟨inside, after⟩ := p
      have hs' : (s ++ more).head? ≠ some '>' := by
        cases s with
        | nil => simp [cutAt?] at hc
        | cons c s => exact hs
      rw [if_neg hs']
      simp only [cutAt?_append (by simp) hc more]
      rfl

theorem doctype_append {s rest : List Char} (h : (doctype s).rest? = some rest)
    (more : List Char) : doctype (s ++ more) = (doctype s).append more := by
  unfold doctype at h ⊢
  cases hc : cutBalanced? 0 s with
  | none => simp [hc, Head.rest?] at h
  | some p =>
    obtain ⟨inside, after⟩ := p
    simp only [cutBalanced?_append hc more]
    split
    · rfl
    · split <;> rfl

theorem declaration_append {s rest : List Char} (h : (declaration s).rest? = some rest)
    (more : List Char) : declaration (s ++ more) = (declaration s).append more := by
  unfold declaration at h
  split at h
  · exact comment_append h more
  · cases h
  · exact rawText_append h more
  · cases h
  · exact doctype_append h more
  · exact doctype_append h more
  · cases h

theorem markup_append {s rest : List Char} (h : (markup s).rest? = some rest)
    (more : List Char) : markup (s ++ more) = (markup s).append more := by
  unfold markup at h
  split at h
  · exact closingTag_append h more
  · exact declaration_append h more
  · exact instruction_append h more
  · rename_i hslash hbang hquestion
    cases s with
    | nil => cases h
    | cons c s =>
      have htag : ∀ t : List Char, markup (c :: t) = startTag (c :: t) := by
        intro t
        unfold markup
        split <;> simp_all
      rw [List.cons_append, htag, htag, ← List.cons_append]
      exact startTag_append h more

theorem reference_append {s rest : List Char} (h : (reference s).rest? = some rest)
    (more : List Char) : reference (s ++ more) = (reference s).append more := by
  unfold reference at h
  split at h
  · rename_i after hd
    have hlen : (s.takeWhile inReference).length ≠ s.length := by
      intro hlen
      have hall := List.takeWhile_append_dropWhile (p := inReference) (l := s)
      have hsum := congrArg List.length hall
      rw [List.length_append, hlen, hd, List.length_cons] at hsum
      omega
    have hdrop : (s ++ more).dropWhile inReference = ';' :: (after ++ more) := by
      rw [List.dropWhile_append, hd]
      rfl
    have htake : (s ++ more).takeWhile inReference = s.takeWhile inReference := by
      rw [List.takeWhile_append, if_neg hlen]
    simp only [reference, hd, hdrop, htake]
    rfl
  · cases h

/-- A carriage return at the end of a text that is one line end together with what follows. -/
def splitsLineEnd (s more : List Char) : Prop :=
  s.getLast? = some '\r' ∧ (more.head? = some '\n' ∨ more.head? = some '\u0085')

instance decidableSplitsLineEnd (s more : List Char) : Decidable (splitsLineEnd s more) :=
  inferInstanceAs (Decidable (_ ∧ _))

theorem head_char {c : Char} {s : List Char} (hlt : c ≠ '<') (hamp : c ≠ '&')
    (hcr : ¬ splitsLineEnd [c] s) :
    head (c :: s) = .token (.text [if isLineEnd c then '\n' else c]) s := by
  unfold head
  split
  · rename_i h
    cases h
  · rename_i h
    cases h
    exact absurd rfl hlt
  · rename_i h
    cases h
    exact absurd rfl hamp
  · rename_i h
    cases h
    exact absurd ⟨rfl, .inl rfl⟩ hcr
  · rename_i h
    cases h
    exact absurd ⟨rfl, .inr rfl⟩ hcr
  · rename_i h
    cases h
    rfl

theorem head_append {s rest more : List Char} (h : (head s).rest? = some rest)
    (hs : ¬ (rest = [] ∧ splitsLineEnd s more)) : head (s ++ more) = (head s).append more := by
  unfold head at h
  split at h
  · cases h
  · exact markup_append h more
  · exact reference_append h more
  · rfl
  · rfl
  · rename_i c t hlt hamp hcrlf hcrnel
    cases h
    have hcr : ¬ splitsLineEnd [c] rest := by
      rintro ⟨hc, hn⟩
      cases hc
      cases rest with
      | nil => simp at hn
      | cons d t =>
        rcases hn with hn | hn <;> cases hn
        · exact hcrlf t rfl rfl
        · exact hcrnel t rfl rfl
    have hcr' : ¬ splitsLineEnd [c] (rest ++ more) := by
      cases rest with
      | nil => simpa using hs
      | cons d t => exact hcr
    rw [List.cons_append, head_char hlt hamp hcr', head_char hlt hamp hcr]
    rfl

theorem markup_used {s rest : List Char} (h : (markup s).rest? = some rest) :
    ∃ used, s = used ++ '>' :: rest := by
  have tag : ∀ {t : List Char}, (startTag t).rest? = some rest → ∃ used, t = used ++ '>' :: rest := by
    intro t h
    unfold startTag at h
    split at h
    · cases h
    · rename_i inside after hc
      split at h <;> cases h <;> exact ⟨inside, cutTag?_split hc⟩
  have marked : ∀ {t inside : List Char} {marker : List Char},
      cutAt? (marker ++ ['>']) t = some (inside, rest) → ∃ used, t = used ++ '>' :: rest := by
    intro t inside marker hc
    exact ⟨inside ++ marker, by rw [cutAt?_split hc]; simp⟩
  have type : ∀ {t : List Char}, (doctype t).rest? = some rest → ∃ used, t = used ++ '>' :: rest := by
    intro t h
    unfold doctype at h
    split at h
    · cases h
    · rename_i inside after hc
      split at h
      · cases h
      · split at h <;> cases h
        exact ⟨inside, cutBalanced?_split hc⟩
  have behind : ∀ {front t : List Char}, (∃ used, t = used ++ '>' :: rest) →
      ∃ used, front ++ t = used ++ '>' :: rest := by
    rintro front t ⟨used, rfl⟩
    exact ⟨front ++ used, by simp⟩
  unfold markup at h
  split at h
  · rename_i t
    unfold closingTag at h
    split at h
    · cases h
    · rename_i inside after hc
      cases h
      exact @behind ['/'] t ⟨inside, cutTag?_split hc⟩
  · rename_i t
    apply @behind ['!'] t
    unfold declaration at h
    split at h
    · rename_i u
      unfold comment at h
      split at h
      · cases h
      · rename_i inside after hc
        cases h
        exact @behind ['-', '-'] u (@marked u inside ['-', '-'] hc)
    · cases h
    · rename_i u
      unfold rawText at h
      split at h
      · cases h
      · rename_i inside after hc
        cases h
        exact @behind ['[', 'C', 'D', 'A', 'T', 'A', '['] u (@marked u inside [']', ']'] hc)
    · cases h
    · exact type h
    · exact type h
    · cases h
  · rename_i t
    unfold instruction at h
    split at h
    · cases h
    · split at h
      · cases h
      · rename_i inside after hc
        cases h
        exact @behind ['?'] t (@marked t inside ['?'] hc)
  · exact tag h

theorem head_used {s rest : List Char} (h : (head s).rest? = some rest) :
    ∃ used, s = used ++ rest ∧ used ≠ [] ∧ (used.getLast? = some '\r' → used = ['\r']) := by
  unfold head at h
  split at h
  · cases h
  · obtain ⟨used, hu⟩ := markup_used h
    refine ⟨'<' :: used ++ ['>'], by rw [hu]; simp, by simp, ?_⟩
    rw [List.getLast?_concat]
    intro hlast
    cases hlast
  · rename_i t
    unfold reference at h
    split at h
    · rename_i after hd
      cases h
      have hall := List.takeWhile_append_dropWhile (p := inReference) (l := t)
      refine ⟨'&' :: t.takeWhile inReference ++ [';'], ?_, by simp, ?_⟩
      · rw [List.cons_append, List.cons_append, List.append_assoc, List.singleton_append, ← hd, hall]
      · rw [List.getLast?_concat]
        intro hlast
        cases hlast
    · cases h
  · rename_i t
    cases h
    refine ⟨['\r', '\n'], rfl, by simp, ?_⟩
    intro hlast
    cases hlast
  · rename_i t
    cases h
    refine ⟨['\r', '\u0085'], rfl, by simp, ?_⟩
    intro hlast
    cases hlast
  · rename_i c t _ _ _ _
    cases h
    refine ⟨[c], rfl, by simp, ?_⟩
    intro hlast
    cases hlast
    rfl

theorem head_eq_ended {s : List Char} (h : head s = .ended) : s = [] := by
  cases s with
  | nil => rfl
  | cons c s =>
    exfalso
    unfold head at h
    split at h
    · rename_i hs
      cases hs
    · unfold markup closingTag declaration comment rawText doctype instruction startTag at h
      repeat' split at h
      all_goals cases h
    · unfold reference at h
      split at h <;> cases h
    all_goals cases h

/-! ## Readings of longer texts -/

namespace Reading

theorem run_ended {r : Reading} {s : List Char} (h : head s = .ended) : r.run s = (r, none) := by
  rw [run]
  split <;> simp_all

theorem run_faulty {r : Reading} {s : List Char} {fault : Fault} (h : head s = .faulty fault) :
    r.run s = (r, some fault) := by
  rw [run]
  split <;> simp_all

theorem run_passed {r : Reading} {s rest : List Char} (h : head s = .passed rest) :
    r.run s = r.run rest := by
  rw [run]
  split <;> simp_all

theorem run_token {r : Reading} {s rest : List Char} {t : Token} (h : head s = .token t rest) :
    r.run s = match r.enter t with
      | .ok next => next.run rest
      | .error fault => (r, some fault) := by
  rw [run]
  split <;> rename_i hs <;> rw [hs] at h <;> cases h
  rfl

/-- What is left of a text behind another whose last line end may take up its first character. -/
def rest (before after : List Char) : List Char :=
  if splitsLineEnd before after then after.tail else after

theorem rest_nil (after : List Char) : rest [] after = after := by
  rw [rest, if_neg]
  simp [splitsLineEnd]

theorem rest_of_not {before after : List Char} (h : ¬ splitsLineEnd before after) :
    rest before after = after := if_neg h

theorem rest_suffix {used before : List Char} (after : List Char) (h : before ≠ []) :
    rest (used ++ before) after = rest before after := by
  have hlast : (used ++ before).getLast? = before.getLast? := by
    rw [List.getLast?_append, List.getLast?_eq_some_getLast h]
    rfl
  have hiff : splitsLineEnd (used ++ before) after ↔ splitsLineEnd before after := by
    rw [splitsLineEnd, hlast]
    rfl
  by_cases hs : splitsLineEnd before after
  · rw [rest, rest, if_pos hs, if_pos (hiff.2 hs)]
  · rw [rest_of_not hs, rest_of_not (mt hiff.1 hs)]

/-- The head of a text is that of the longer text, and what is left of the longer text behind what
follows the head is what is left of it behind the whole text. -/
theorem head_append_rest {s left : List Char} (h : (head s).rest? = some left)
    (after : List Char) :
    ∃ more, head (s ++ after) = (head s).append more ∧ rest left more = rest s after := by
  obtain ⟨used, hs, hne, hcr⟩ := head_used h
  by_cases hsplit : left = [] ∧ splitsLineEnd s after
  · obtain ⟨rfl, hsplit⟩ := hsplit
    rw [List.append_nil] at hs
    have hcr' : s = ['\r'] := by
      rw [hs]
      exact hcr (hs ▸ hsplit.1)
    refine ⟨after.tail, ?_, ?_⟩
    · subst hcr'
      cases after with
      | nil => simp [splitsLineEnd] at hsplit
      | cons c tail =>
        rcases hsplit.2 with hc | hc <;> cases hc <;> rfl
    · rw [rest_nil, rest, if_pos hsplit]
  · refine ⟨after, head_append h hsplit, ?_⟩
    by_cases hl : left = []
    · subst hl
      have hno : ¬ splitsLineEnd s after := fun hs => hsplit ⟨rfl, hs⟩
      rw [rest_nil, rest_of_not hno]
    · rw [hs, rest_suffix after hl]

theorem run_append {r next : Reading} {before : List Char} (h : r.run before = (next, none))
    (after : List Char) : r.run (before ++ after) = next.run (rest before after) := by
  induction hn : before.length using Nat.strongRecOn generalizing r before after with
  | ind n ih =>
    subst hn
    cases hh : head before with
    | ended =>
      rw [run_ended hh] at h
      cases h
      rw [head_eq_ended hh, rest_nil]
      rfl
    | faulty fault =>
      rw [run_faulty hh] at h
      cases h
    | passed left =>
      have hrest : (head before).rest? = some left := by rw [hh]; rfl
      obtain ⟨more, hlong, hleft⟩ := head_append_rest hrest after
      rw [hh] at hlong
      rw [run_passed hh] at h
      rw [run_passed hlong, ih _ (head_length hrest) h more rfl, hleft]
    | token t left =>
      have hrest : (head before).rest? = some left := by rw [hh]; rfl
      obtain ⟨more, hlong, hleft⟩ := head_append_rest hrest after
      rw [hh] at hlong
      rw [run_token hh] at h
      rw [run_token hlong]
      cases he : r.enter t with
      | error fault =>
        rw [he] at h
        cases h
      | ok entered =>
        rw [he] at h
        show entered.run (left ++ more) = _
        rw [ih _ (head_length hrest) h more rfl, hleft]

theorem enter_events (es : List Event) (o : Open) (t : Token) :
    enter ⟨es, o⟩ t = (enter ⟨[], o⟩ t).map fun r => ⟨r.events ++ es, r.stack⟩ := by
  cases t with
  | opening text isEmpty => cases isEmpty <;> rfl
  | closing name =>
    simp only [enter]
    cases o with
    | nil => rfl
    | cons top outer =>
      obtain ⟨expected, scope⟩ := top
      by_cases hn : name = expected
      · simp only [if_pos hn]
        rfl
      · simp only [if_neg hn]
        rfl
  | text s => rfl
  | reference name => rfl

theorem run_events (es : List Event) (o : Open) (s : List Char) :
    run ⟨es, o⟩ s = (⟨(run ⟨[], o⟩ s).1.events ++ es, (run ⟨[], o⟩ s).1.stack⟩,
      (run ⟨[], o⟩ s).2) := by
  induction hn : s.length using Nat.strongRecOn generalizing es o s with
  | ind n ih =>
    subst hn
    cases hh : head s with
    | ended => simp only [run_ended hh, List.nil_append]
    | faulty fault => simp only [run_faulty hh, List.nil_append]
    | passed left =>
      have hrest : (head s).rest? = some left := by rw [hh]; rfl
      simp only [run_passed hh]
      exact ih _ (head_length hrest) es o left rfl
    | token t left =>
      have hrest : (head s).rest? = some left := by rw [hh]; rfl
      have hless := head_length hrest
      rw [run_token hh, run_token hh, enter_events]
      cases he : enter ⟨[], o⟩ t with
      | error fault => rfl
      | ok entered =>
        obtain ⟨events, stack⟩ := entered
        show run ⟨events ++ es, stack⟩ left = (⟨(run ⟨events, stack⟩ left).1.events ++ es,
          (run ⟨events, stack⟩ left).1.stack⟩, (run ⟨events, stack⟩ left).2)
        rw [ih _ hless (events ++ es) stack left rfl, ih _ hless events stack left rfl]
        simp only [List.append_assoc]

end Reading

end DialectBindings.Markup
