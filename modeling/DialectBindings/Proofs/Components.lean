import DialectBindings.Proofs.Encodings
import DialectBindings.Proofs.Templates

/-!
# What lies beside a definition file

Two paths are one when they have the same components, however they are spelled. An artifact is
found by another extension, a template by another name and a registry by a name in the directory.
Each treats the slashes and dots that do not count in its own way, and yet all three paths are the
directory of the definition file with one name after it.
-/

set_option autoImplicit false

namespace DialectBindings
open Text Results

namespace Path

/-! ## The components of a path -/

def leading (p : Path) : List Component :=
  match (cutStart p.octets).1 with
  | [] => []
  | [46] => [.here]
  | _ => [.root]

/-- The components by which paths are compared: a dot counts only at the very start. -/
def components (p : Path) : List Component := p.leading ++ p.steps.filter (· ≠ .here)

theorem cutStart_one (c : UInt8) :
    (cutStart [c]).1 = if c = slash then [slash] else if c = dot then [dot] else [] := by
  unfold cutStart
  split <;> simp_all [slash, dot]

theorem cutStart_two (c d : UInt8) (rest : Octets) :
    (cutStart (c :: d :: rest)).1 =
      if c = slash then [slash] else if c = dot ∧ d = slash then [dot] else [] := by
  by_cases hd : c = dot ∧ d = slash
  · obtain ⟨rfl, rfl⟩ := hd
    rfl
  · rw [if_neg hd]
    unfold cutStart
    split <;> simp_all [slash, dot]

theorem cutStart_below {a : Octets} (ha : a ≠ []) (rest : Octets) :
    (cutStart (a ++ slash :: rest)).1 = (cutStart a).1 := by
  rcases a with _ | ⟨c, _ | ⟨d, a⟩⟩
  · exact absurd rfl ha
  · simp only [List.singleton_append, cutStart_two, cutStart_one, and_true]
  · simp only [List.cons_append, cutStart_two]

theorem cutStart_slash (a rest : Octets) :
    (cutStart (a ++ slash :: rest)).1 = (cutStart (a ++ [slash])).1 := by
  by_cases ha : a = []
  · rw [ha]
    rfl
  · rw [cutStart_below ha, cutStart_below ha]

theorem cutStart_name {name : Octets} (hn : IsName name) : (cutStart name).1 = [] := by
  have hslash := hn.no_slash
  rcases name with _ | ⟨c, _ | ⟨d, name⟩⟩
  · rfl
  · have hdot : c ≠ dot := fun hc => hn.not_here (by rw [hc])
    rw [List.mem_singleton] at hslash
    rw [cutStart_one, if_neg (Ne.symm hslash), if_neg hdot]
  · rw [List.mem_cons, List.mem_cons, not_or, not_or] at hslash
    rw [cutStart_two, if_neg (Ne.symm hslash.1), if_neg fun h => hslash.2.1 h.2.symm]

theorem leading_eq {p q : Path} (h : (cutStart p.octets).1 = (cutStart q.octets).1) :
    p.leading = q.leading := by
  rw [leading, leading, h]

theorem last?_leading {p : Path} {name before parent : Octets}
    (h : p.last? = some (.name name, before, parent)) :
    p.leading = (⟨parent⟩ : Path).leading := by
  refine leading_eq ?_
  by_cases hempty : parent = []
  · subst hempty
    obtain ⟨back, -, -, -, hparent⟩ := last?_trimmed h
    rw [(List.append_eq_nil_iff.1 hparent.symm).1]
    rfl
  obtain hp | rfl | ⟨rest, hp⟩ := last?_parent h
  · exact absurd hp hempty
  · obtain ⟨more, hp⟩ := (last?_steps h).1
    rw [← hp]
    rfl
  · rw [hp, cutStart_below hempty]

theorem last?_components {p : Path} {name before parent : Octets}
    (h : p.last? = some (.name name, before, parent)) :
    p.components = (⟨parent⟩ : Path).components ++ [.name name] := by
  have hnone {steps : List Component} (hs : ∀ step ∈ steps, step = .here) :
      steps.filter (· ≠ .here) = [] := by
    simpa using hs
  obtain ⟨-, inner, outer, hinner, houter, hsteps⟩ := last?_steps h
  rw [components, components, last?_leading h, hsteps, List.filter_append, List.filter_append,
    List.filter_cons_of_pos (by simp), hnone hinner, hnone houter, List.append_nil,
    List.append_assoc]

theorem components_join (parent : Octets) {name : Octets} (hn : IsName name) :
    ((⟨parent⟩ : Path).join name).components = (⟨parent⟩ : Path).components ++ [.name name] := by
  have hleading : ((⟨parent⟩ : Path).join name).leading = (⟨parent⟩ : Path).leading := by
    refine leading_eq ?_
    rcases join_cases parent hn.no_slash with ⟨rfl, hj⟩ | ⟨a, rfl, hj⟩ | ⟨hp, hj⟩
    · rw [hj, cutStart_name hn]
      rfl
    · rw [hj, cutStart_slash]
    · rw [hj, cutStart_below hp]
  rw [components, components, hleading, join_steps parent hn, List.filter_append,
    List.append_assoc]
  rfl

/-! ## A path that ends in a name, as it is spelled -/

/-- Octets at the end of a path that do not count: slashes, and dots that stand alone. -/
inductive Idle : Octets → Prop
  | nil : Idle []
  | slashed {rest : Octets} (h : Idle rest) : Idle (slash :: rest)
  | dotted {rest : Octets} (h : Idle rest) : Idle (slash :: dot :: rest)

theorem Idle.start {junk : Octets} (h : Idle junk) :
    junk = [] ∨ ∃ rest, junk = slash :: rest := by
  cases h with
  | nil => exact .inl rfl
  | slashed h => exact .inr ⟨_, rfl⟩
  | dotted h => exact .inr ⟨_, rfl⟩

theorem Idle.append {a b : Octets} (ha : Idle a) (hb : Idle b) : Idle (a ++ b) := by
  induction ha with
  | nil => exact hb
  | slashed h ih => exact .slashed ih
  | dotted h ih => exact .dotted ih

theorem Idle.take {junk : Octets} (h : Idle junk) (n : Nat) : Idle (junk.take n) := by
  induction h generalizing n with
  | nil =>
    rw [List.take_nil]
    exact .nil
  | slashed h ih =>
    cases n with
    | zero => exact .nil
    | succ n => exact .slashed (ih n)
  | dotted h ih =>
    rcases n with _ | _ | n
    · exact .nil
    · exact .slashed .nil
    · exact .dotted (ih n)

theorem trimmed_drop {front : Octets} (hf : front = [] ∨ front = [dot]) (back : Octets) :
    trimmed (front ++ slash :: back) = trimmed back := by
  have htake : (front ++ slash :: back).takeWhile (· != slash) = front := by
    rcases hf with rfl | rfl <;> rfl
  have hdrop : (front ++ slash :: back).dropWhile (· != slash) = slash :: back := by
    rcases hf with rfl | rfl <;> rfl
  rw [trimmed, htake, if_pos hf]
  split
  · rename_i hd
    rw [hdrop] at hd
    cases hd
  · rename_i hd
    rw [hdrop] at hd
    rw [(List.cons.inj hd).2]

theorem trimmed_idle {junk : Octets} (h : Idle junk) (keep : Octets) :
    trimmed (junk.reverse ++ keep) = trimmed keep := by
  induction h generalizing keep with
  | nil => rfl
  | slashed h ih =>
    rw [List.reverse_cons, List.append_assoc, List.singleton_append, ih]
    exact trimmed_drop (.inl rfl) keep
  | dotted h ih =>
    rw [List.reverse_cons, List.reverse_cons, List.append_assoc, List.append_assoc,
      List.singleton_append, List.singleton_append, ih]
    exact trimmed_drop (.inr rfl) keep

theorem trimmed_split (back : Octets) :
    trimmed back = [] ∨ ∃ junk, Idle junk ∧ back = junk.reverse ++ trimmed back := by
  fun_induction trimmed back with
  | case1 back hb hd => exact .inl rfl
  | case2 back hb c rest hd ih =>
    obtain hs | ⟨_, hs⟩ := dropWhile_slash back
    · rw [hd] at hs
      cases hs
    obtain ⟨rfl, rfl⟩ := List.cons.inj (hd.symm.trans hs)
    have hback := List.takeWhile_append_dropWhile (p := (· != slash)) (l := back)
    rw [hd] at hback
    obtain ht | ⟨junk, hj, ht⟩ := ih
    · exact .inl ht
    refine .inr ⟨junk ++ slash :: (back.takeWhile (· != slash)).reverse, ?_, ?_⟩
    · refine hj.append ?_
      rcases hb with hb | hb
      · rw [hb]
        exact .slashed .nil
      · rw [hb]
        exact .dotted .nil
    · rw [List.reverse_append, List.reverse_cons, List.reverse_reverse, List.append_assoc,
        List.append_assoc, List.singleton_append, ← ht, hback]
  | case3 back hb => exact .inr ⟨[], .nil, rfl⟩

theorem reverse_plain {separator : UInt8} {s : Octets} (h : separator ∉ s) :
    ∀ c ∈ s.reverse, (c != separator) = true := by
  intro c hc
  have hne : c ≠ separator := fun he => h (he ▸ List.mem_reverse.1 hc)
  simpa using hne

def Opens (before : Octets) : Prop := before = [] ∨ ∃ front, before = front ++ [slash]

/-- A path is spelled with a name at its end. -/
structure Ends (p : Path) (before name : Octets) : Prop where
  opens : Opens before
  isName : IsName name
  octets : ∃ junk, Idle junk ∧ p.octets = before ++ (name ++ junk)

def directory (before : Octets) : Octets :=
  (cutStart before).1 ++ (trimmed (cutStart before).2.reverse.tail).reverse

theorem cutStart_ends {before name junk : Octets} (hb : Opens before) (hn : IsName name)
    (hj : Idle junk) : cutStart (before ++ (name ++ junk)) =
      ((cutStart before).1, (cutStart before).2 ++ (name ++ junk)) := by
  have hstart : (cutStart (before ++ (name ++ junk))).1 = (cutStart before).1 := by
    rcases hb with rfl | ⟨front, rfl⟩
    · obtain rfl | ⟨rest, rfl⟩ := hj.start
      · rw [List.nil_append, List.append_nil, cutStart_name hn]
        rfl
      · rw [List.nil_append, cutStart_below hn.not_empty, cutStart_name hn]
        rfl
    · rw [List.append_assoc, List.singleton_append, cutStart_slash]
  have hbody : (cutStart before).1 ++ (cutStart (before ++ (name ++ junk))).2 =
      (cutStart before).1 ++ ((cutStart before).2 ++ (name ++ junk)) := by
    rw [← List.append_assoc _ (cutStart before).2, cutStart_append before, ← hstart]
    exact cutStart_append _
  exact Prod.ext hstart (List.append_cancel_left hbody)

theorem Opens.front {before : Octets} (h : Opens before) : Opens (cutStart before).2 := by
  obtain he | ⟨front, c, he⟩ := List.eq_nil_or_concat (cutStart before).2
  · exact .inl he
  · have ho := cutStart_append before
    rw [he, List.concat_eq_append, ← List.append_assoc] at ho
    rcases h with rfl | ⟨_, rfl⟩
    · simp at ho
    · obtain ⟨-, hc⟩ := List.append_inj' ho rfl
      rw [he, List.concat_eq_append, hc]
      exact .inr ⟨front, rfl⟩

theorem last?_of_ends {p : Path} {before name : Octets} (h : Ends p before name) :
    p.last? = some (.name name, before, directory before) := by
  obtain ⟨junk, hj, ho⟩ := h.octets
  have hplain := reverse_plain h.isName.no_slash
  generalize hf : (cutStart before).2 = front
  have hfront : front.reverse.takeWhile (· != slash) = [] ∧
      front.reverse.dropWhile (· != slash) = front.reverse := by
    obtain rfl | ⟨a, rfl⟩ := hf ▸ h.opens.front
    · exact ⟨rfl, rfl⟩
    · simp
  have htake : (name.reverse ++ front.reverse).takeWhile (· != slash) = name.reverse := by
    rw [List.takeWhile_append_of_pos hplain, hfront.1, List.append_nil]
  have hdrop : (name.reverse ++ front.reverse).dropWhile (· != slash) = front.reverse := by
    rw [List.dropWhile_append_of_pos hplain, hfront.2]
  have hback : trimmed (front ++ (name ++ junk)).reverse = name.reverse ++ front.reverse := by
    rw [List.reverse_append, List.reverse_append, List.append_assoc, trimmed_idle hj, trimmed,
      htake, if_neg]
    rintro (he | he)
    · exact h.isName.not_empty (List.reverse_eq_nil_iff.1 he)
    · exact h.isName.not_here (List.reverse_eq_iff.1 he)
  have hne : name.reverse ++ front.reverse ≠ [] := fun he =>
    h.isName.not_empty (List.reverse_eq_nil_iff.1 (List.append_eq_nil_iff.1 he).1)
  have hbefore : (cutStart before).1 ++ front = before := hf ▸ cutStart_append before
  simp only [last?, ho, cutStart_ends h.opens h.isName hj, hf, hback, htake, hdrop, if_neg hne,
    List.reverse_reverse, if_neg h.isName.not_up, hbefore, directory]

theorem opens_before {s back junk : Octets} (hbody : (cutStart s).2 = back.reverse ++ junk)
    (hn : IsName (back.takeWhile (· != slash)).reverse) :
    Opens ((cutStart s).1 ++ (back.dropWhile (· != slash)).reverse) := by
  rw [reverse_cut] at hbody
  obtain hd | ⟨tail, hd⟩ := dropWhile_slash back
  · rw [hd, List.reverse_nil, List.nil_append] at hbody
    rw [hd, List.reverse_nil, List.append_nil]
    -- The name is right after the start, so the start is no dot.
    obtain hs | hs | hs | ⟨rest, hs⟩ := cutStart_start s
    · exact .inl hs
    · exact .inr ⟨[], hs⟩
    · rw [hs] at hbody
      exact absurd (List.append_eq_nil_iff.1 hbody.symm).1 hn.not_empty
    · obtain ⟨c, more, hc⟩ := List.exists_cons_of_ne_nil hn.not_empty
      rw [hs, hc] at hbody
      refine absurd ?_ hn.no_slash
      rw [hc, (List.cons.inj hbody).1]
      exact List.mem_cons_self
  · rw [hd, List.reverse_cons, ← List.append_assoc]
    exact .inr ⟨_, rfl⟩

theorem ends_of_last? {p : Path} {name before parent : Octets}
    (h : p.last? = some (.name name, before, parent)) :
    Ends p before name ∧ parent = directory before := by
  obtain ⟨back, hback, rfl, hn, rfl⟩ := last?_trimmed h
  have hne : back ≠ [] := fun he => hn.not_empty (by rw [he]; rfl)
  obtain rfl : before = (cutStart p.octets).1 ++ (back.dropWhile (· != slash)).reverse := by
    simp only [last?, hback, if_neg hne, Option.some.injEq, Prod.mk.injEq] at h
    exact h.2.1.symm
  obtain ⟨junk, hj, hbody⟩ := (trimmed_split (cutStart p.octets).2.reverse).resolve_left
    (hback ▸ hne)
  have hbody : (cutStart p.octets).2 = back.reverse ++ junk := by
    rw [hback] at hbody
    simpa using congrArg List.reverse hbody
  have hopens := opens_before hbody hn
  have ho : p.octets = (cutStart p.octets).1 ++ (back.dropWhile (· != slash)).reverse ++
      ((back.takeWhile (· != slash)).reverse ++ junk) := by
    conv => lhs; rw [← cutStart_append p.octets, hbody, reverse_cut]
    simp only [List.append_assoc]
  refine ⟨⟨hopens, hn, junk, hj, ho⟩, ?_⟩
  generalize hb : (cutStart p.octets).1 ++ (back.dropWhile (· != slash)).reverse = before at *
  have hcut := cutStart_ends hopens hn hj
  rw [← ho] at hcut
  have hfront : (cutStart before).2 = (back.dropWhile (· != slash)).reverse := by
    rw [hcut] at hb
    exact List.append_cancel_left ((cutStart_append before).trans hb.symm)
  rw [directory, hfront, hcut, List.reverse_reverse]

/-- The last component of a path is a name just when the path is spelled with it at its end, and
its directory is that of what is before the name. -/
theorem last?_iff {p : Path} {name before parent : Octets} :
    p.last? = some (.name name, before, parent) ↔
      Ends p before name ∧ parent = directory before := by
  constructor
  · exact ends_of_last?
  · rintro ⟨h, rfl⟩
    exact last?_of_ends h

/-! ## Stems and extensions -/

/-- A file name, its stem and its extension: it is parted at its last dot, unless that is the
first octet or there is none. -/
inductive Parted : Octets → Octets → Option Octets → Prop
  | whole {name : Octets} (h : dot ∉ name.tail) : Parted name name none
  | parted {stem extension : Octets} (hs : stem ≠ []) (he : dot ∉ extension) :
      Parted (stem ++ dot :: extension) stem (some extension)

theorem exists_parted (name : Octets) : ∃ stem extension, Parted name stem extension := by
  by_cases h : dot ∈ name.tail
  · obtain ⟨back, front, ht, hb⟩ := List.eq_append_cons_of_mem (List.mem_reverse.2 h)
    cases name with
    | nil => cases h
    | cons c tail =>
      have ht : tail = front.reverse ++ dot :: back.reverse := by
        simpa using congrArg List.reverse ht
      rw [ht, ← List.cons_append]
      exact ⟨_, _, .parted (List.cons_ne_nil c _) (by simpa using hb)⟩
  · exact ⟨_, _, .whole h⟩

theorem splitName_of_parted {name stem : Octets} {extension : Option Octets}
    (h : Parted name stem extension) : splitName name = (stem, extension) := by
  cases h with
  | whole h =>
    cases name with
    | nil => rfl
    | cons c tail =>
      have h : dot ∉ tail := h
      rw [splitName, List.reverse_cons, List.dropWhile_append_of_pos (reverse_plain h)]
      by_cases hc : c = dot
      · simp [hc]
      · simp [hc]
  | @parted stem extension hs he =>
    have hback : (stem ++ dot :: extension).reverse =
        extension.reverse ++ dot :: stem.reverse := by
      simp
    obtain ⟨c, front, hc⟩ := List.exists_cons_of_ne_nil (mt List.reverse_eq_nil_iff.1 hs)
    rw [splitName, hback, List.dropWhile_append_of_pos (reverse_plain he),
      List.takeWhile_append_of_pos (reverse_plain he), hc]
    have hstem : stem = (c :: front).reverse := by rw [← hc, List.reverse_reverse]
    simp [hstem]

/-- Every name is parted, in one way, and that is how it is split. -/
theorem splitName_iff {name stem : Octets} {extension : Option Octets} :
    splitName name = (stem, extension) ↔ Parted name stem extension := by
  constructor
  · intro h
    obtain ⟨stem', extension', hp⟩ := exists_parted name
    obtain ⟨rfl, rfl⟩ := Prod.mk.inj (h.symm.trans (splitName_of_parted hp))
    exact hp
  · exact splitName_of_parted

theorem isName_parted {stem extension : Octets} (hs : stem ≠ []) (hslash : slash ∉ stem)
    (he : slash ∉ extension) (hup : stem ≠ [dot] ∨ extension ≠ []) :
    IsName (stem ++ dot :: extension) where
  no_slash := by
    rw [List.mem_append, List.mem_cons, not_or, not_or]
    exact ⟨hslash, by decide, he⟩
  not_empty := by simp
  not_here h := by
    obtain ⟨h, -⟩ := List.append_eq_singleton_iff.1 h |>.resolve_right (by simp)
    exact hs h
  not_up h := by
    obtain ⟨c, stem, rfl⟩ := List.exists_cons_of_ne_nil hs
    have hlength := congrArg List.length h
    simp only [List.length_append, List.length_cons, List.length_nil] at hlength
    obtain ⟨rfl, -⟩ := List.cons.inj h
    obtain rfl := List.eq_nil_of_length_eq_zero (show stem.length = 0 by omega)
    obtain rfl := List.eq_nil_of_length_eq_zero (show extension.length = 0 by omega)
    exact hup.elim (· rfl) (· rfl)

/-- When a path is cut short by as many octets as its extension has, what is behind the name goes
first, and then at most the extension: the dot before it stays and is the last one. -/
theorem ends_take {p : Path} {before stem extension : Octets}
    (h : Ends p before (stem ++ dot :: extension)) (hs : stem ≠ []) (hd : stem ≠ [dot])
    (he : dot ∉ extension) : ∃ left, dot ∉ left ∧
      Ends ⟨p.octets.take (p.octets.length - extension.length)⟩ before (stem ++ dot :: left) := by
  obtain ⟨junk, hj, ho⟩ := h.octets
  have hslash := h.isName.no_slash
  rw [List.mem_append, List.mem_cons, not_or, not_or] at hslash
  have hleft : extension.take junk.length <+: extension := List.take_prefix _ _
  refine ⟨extension.take junk.length, fun hm => he (hleft.subset hm), h.opens,
    isName_parted hs hslash.1 (fun hm => hslash.2.2 (hleft.subset hm)) (.inl hd),
    junk.take (junk.length - extension.length), hj.take _, ?_⟩
  have ho : p.octets = (before ++ (stem ++ [dot])) ++ (extension ++ junk) := by
    rw [ho]
    simp
  have hlength : p.octets.length - extension.length =
      (before ++ (stem ++ [dot])).length + junk.length := by
    simp only [ho, List.length_append]
    omega
  rw [hlength, ho, List.take_length_add_append, List.take_append]
  simp

theorem withExtension_ends {p : Path} {before name stem extension : Octets} {old : Option Octets}
    (h : Ends p before name) (hdots : ¬ [dot, dot] <+: name) (hp : Parted name stem old)
    (he : extension ≠ []) :
    p.withExtension extension = ⟨before ++ (stem ++ dot :: extension)⟩ := by
  have hset {q : Path} {found : Octets} {last : Option Octets} (hq : Ends q before found)
      (hl : Parted found stem last) :
      q.setExtension extension = ⟨before ++ (stem ++ dot :: extension)⟩ := by
    rw [setExtension, last?_of_ends hq]
    simp only [splitName_of_parted hl, if_neg he, List.append_assoc]
  have hold : p.extension? = old := by
    rw [extension?, fileName?_eq_some.2 ⟨before, _, last?_of_ends h⟩, Option.bind_some,
      splitName_of_parted hp]
  rw [withExtension, hold]
  cases hp with
  | whole hw =>
    rw [Option.map_none, Option.getD_none, Nat.sub_zero, List.take_length]
    exact hset h (.whole hw)
  | @parted stem extension hs hx =>
    -- A stem that is a dot would be the step up once all of its extension is cut off.
    have hd : stem ≠ [dot] := by
      rintro rfl
      exact hdots ⟨extension, rfl⟩
    obtain ⟨left, hleft, hcut⟩ := ends_take h hs hd hx
    exact hset hcut (.parted hs hleft)

theorem Parted.isName {name stem extension : Octets} {old : Option Octets}
    (h : Parted name stem old) (hn : IsName name) (hslash : slash ∉ extension)
    (he : extension ≠ []) : IsName (stem ++ dot :: extension) := by
  cases h with
  | whole h => exact isName_parted hn.not_empty hn.no_slash hslash (.inr he)
  | parted hs hx =>
    refine isName_parted hs (fun hm => hn.no_slash ?_) hslash (.inr he)
    exact List.mem_append_left _ hm

theorem Parted.name_iff {name stem extension : Octets} {old : Option Octets}
    (h : Parted name stem old) :
    stem ++ dot :: extension = name ↔ old = some extension := by
  cases h with
  | whole h => simp
  | parted hs he => simp [eq_comm]

theorem Parted.decode_stem {name stem : Octets} {old : Option Octets} {text : String}
    (h : Parted name stem old) (hd : decode name = .ok text) :
    ∃ front, decode stem = .ok front := by
  cases h with
  | whole h => exact ⟨text, hd⟩
  | @parted stem extension hs he =>
    have hcut : encode text.toList = stem ++ UInt8.ofNat '.'.toNat :: extension := octets_decode hd
    obtain ⟨front, hfront⟩ := encode_cut (by decide) hcut
    refine ⟨String.ofList front, ?_⟩
    rw [← decode_octets, Text.octets, String.toList_ofList, hfront]

end Path

namespace Layout
open DialectBindings.Path (Ends Parted dot)
open DialectBindings.Invocation (templateName templateName_isName templateName_text templatePath_eq)

theorem ne_templateName {name stem : Octets} {ext : Option Octets} (hp : Parted name stem ext) :
    stem ++ octets ".ts" ≠ templateName name := by
  intro h
  rw [templateName, Path.splitName_of_parted hp, show ".imports.ts" = ".imports" ++ ".ts" from rfl,
    octets_append, ← List.append_assoc, ← octets_append] at h
  have hstem : lenient stem = lenient stem ++ ".imports" := by
    conv => lhs; rw [List.append_cancel_right h, lenient_octets]
  have hlength := congrArg String.length hstem
  rw [String.length_append] at hlength
  exact absurd hlength (Nat.ne_of_lt (Nat.lt_add_of_pos_right (by decide)))

/-- What belongs to a definition file lies in the file's directory under its stem. The paths are
compared by components. -/
theorem standard_beside {file : Path} {name stem : Octets} {ext : Option Octets}
    (hname : file.fileName? = some name) (hdots : ¬ [dot, dot] <+: name)
    (hstem : Parted name stem ext) :
    ∃ artifact, standard.artifactPath? file = some artifact ∧
      artifact.components = (file.dir.join (stem ++ octets ".ts")).components ∧
      (standard.registryPath file).components =
        (file.dir.join (octets "magic-numbers.ts")).components ∧
      ((∃ text, decode name = .ok text) → (standard.templatePath file).components =
        (file.dir.join (stem ++ octets ".imports.ts")).components) ∧
      file.moduleName = lenient stem ∧ file.displayName = lenient name ∧
      artifact.components ≠ (standard.templatePath file).components ∧
      (artifact.components = file.components ↔ ext = some (octets "ts")) := by
  obtain ⟨before, parent, hlast⟩ := Path.fileName?_eq_some.1 hname
  obtain ⟨hends, rfl⟩ := Path.last?_iff.1 hlast
  have hdir : file.dir = ⟨Path.directory before⟩ := by
    rw [Path.dir, Path.parent?, hlast]
    rfl
  have hn : Path.IsName (stem ++ octets ".ts") :=
    show Path.IsName (stem ++ dot :: octets "ts") from
      hstem.isName hends.isName (by decide) (by decide)
  have hartifact : (⟨before ++ (stem ++ octets ".ts")⟩ : Path).components =
      (⟨Path.directory before⟩ : Path).components ++ [.name (stem ++ octets ".ts")] :=
    Path.last?_components (Path.last?_of_ends ⟨hends.opens, hn, [], .nil, by simp⟩)
  have htemplate : (standard.templatePath file).components =
      (⟨Path.directory before⟩ : Path).components ++ [.name (templateName name)] := by
    rw [templatePath_eq hlast, Path.components_join _ (templateName_isName hends.isName)]
  refine ⟨⟨before ++ (stem ++ octets ".ts")⟩, ?_, ?_, rfl, ?_, ?_, ?_, ?_, ?_⟩
  · rw [artifactPath?, if_pos (by decide)]
    exact congrArg some (Path.withExtension_ends hends hdots hstem (by decide))
  · rw [hartifact, hdir, Path.components_join _ hn]
  · rintro ⟨text, hd⟩
    obtain ⟨front, hfront⟩ := hstem.decode_stem hd
    have hsplit := Path.splitName_of_parted hstem
    rw [templatePath_eq hlast, hdir, templateName_text (by rw [hsplit]; exact hfront), hsplit]
  · rw [Path.moduleName, Path.stem?, hname, Option.map_some, Path.splitName_of_parted hstem]
    rfl
  · rw [Path.displayName, hname]
    rfl
  · rw [hartifact, htemplate]
    intro h
    exact ne_templateName hstem (by simpa using h)
  · rw [hartifact, Path.last?_components hlast, ← hstem.name_iff]
    exact ⟨fun h => Component.name.inj (List.cons.inj (List.append_cancel_left h)).1,
      fun h => by rw [← h]; rfl⟩

theorem standard_beside_spelled :
    let file := Path.ofString ".//d/./.a.ts//."
    file.fileName? = some (octets ".a.ts") ∧ ¬ [dot, dot] <+: octets ".a.ts" ∧
      Parted (octets ".a.ts") (octets ".a") (some (octets "ts")) ∧
      ∃ artifact, standard.artifactPath? file = some artifact ∧
        artifact ≠ file ∧ artifact.components = file.components ∧
        (standard.templatePath file).components =
          [.here, .name (octets "d"), .name (octets ".a.imports.ts")] := by
  intro file
  have hname : file.fileName? = some (octets ".a.ts") := by decide +kernel
  have hdots : ¬ [dot, dot] <+: octets ".a.ts" := by decide
  have hstem : Parted (octets ".a" ++ dot :: octets "ts") (octets ".a") (some (octets "ts")) :=
    .parted (by decide) (by decide)
  have hspelled : standard.artifactPath? file ≠ some file := by decide +kernel
  obtain ⟨artifact, ha, -, -, htemplate, -, -, -, hsame⟩ := standard_beside hname hdots hstem
  refine ⟨hname, hdots, hstem, artifact, ha, ?_, hsame.2 rfl, ?_⟩
  · rintro rfl
    exact hspelled ha
  · rw [htemplate ⟨".a.ts", decode_octets ".a.ts"⟩]
    decide +kernel

/-- Without the octets of its extension, a name that starts with two dots may be no name. -/
example : standard.artifactPath? (Path.ofString "d/..xml") = some (Path.ofString "d/..") := by
  decide +kernel

end Layout
end DialectBindings
