import DialectBindings.Layout

/-!
# Where an artifact lies

A path is cut into the octets before its last component, that component and what does not count.
Another extension touches nothing before the last slash, so the directory of an artifact is one
that the path of its definition file goes through.
-/

set_option autoImplicit false

namespace DialectBindings
open Text

namespace Path

theorem cutStart_append (s : Octets) : (cutStart s).1 ++ (cutStart s).2 = s := by
  unfold cutStart
  split <;> simp

theorem cutStart_start (s : Octets) :
    (cutStart s).1 = [] ∨ (cutStart s).1 = [slash] ∨
      s = [dot] ∨ ∃ rest, (cutStart s).2 = slash :: rest := by
  unfold cutStart
  split <;> simp [slash, dot]

theorem dropWhile_slash (s : Octets) :
    s.dropWhile (· != slash) = [] ∨ ∃ rest, s.dropWhile (· != slash) = slash :: rest := by
  cases h : s.dropWhile (· != slash) with
  | nil => exact .inl rfl
  | cons c rest =>
    have hc := List.head?_dropWhile_not (· != slash) s
    rw [h] at hc
    have : c = slash := by simpa using hc
    exact .inr ⟨rest, by rw [this]⟩

theorem not_mem_takeWhile_slash (s : Octets) : slash ∉ s.takeWhile (· != slash) := by
  intro h
  simpa using List.all_eq_true.1 List.all_takeWhile slash h

theorem reverse_cut (s : Octets) :
    s.reverse = (s.dropWhile (· != slash)).reverse ++ (s.takeWhile (· != slash)).reverse := by
  rw [← List.reverse_append, List.takeWhile_append_dropWhile]

theorem trimmed_cut (back : Octets) :
    trimmed back = [] ∨ trimmed back = back ∨ ∃ front, back = front ++ slash :: trimmed back := by
  fun_induction trimmed back with
  | case1 back hb hd => exact .inl rfl
  | case2 back hb c rest hd ih =>
    have hback : back = back.takeWhile (· != slash) ++ slash :: rest := by
      conv => lhs; rw [← List.takeWhile_append_dropWhile (p := (· != slash)) (l := back)]
      obtain h | ⟨_, h⟩ := dropWhile_slash back
      · simp [h] at hd
      · rw [h] at hd ⊢
        rw [(List.cons.inj hd).2]
    obtain h | h | ⟨front, h⟩ := ih
    · exact .inl h
    · exact .inr (.inr ⟨_, h.symm ▸ hback⟩)
    · refine .inr (.inr ⟨back.takeWhile (· != slash) ++ slash :: front, ?_⟩)
      rw [List.append_assoc, List.cons_append, ← h]
      exact hback
  | case3 back hb => exact .inr (.inl rfl)

theorem last?_cut {p : Path} {c : Component} {before parent : Octets}
    (h : p.last? = some (c, before, parent)) :
    (parent = [] ∧ ∀ name, c ≠ .name name) ∨
      ∃ back junk, (cutStart p.octets).2 = back.reverse ++ junk ∧ back ≠ [] ∧
        before = (cutStart p.octets).1 ++ (back.dropWhile (· != slash)).reverse ∧
        parent = (cutStart p.octets).1 ++ (trimmed (back.dropWhile (· != slash)).tail).reverse ∧
        ∀ name, c = .name name → name = (back.takeWhile (· != slash)).reverse := by
  simp only [last?] at h
  split at h
  · split at h
    · cases h
    · cases h
      exact .inl ⟨rfl, by simp⟩
    · cases h
      exact .inl ⟨rfl, by simp⟩
  · rename_i hb
    simp only [Option.some.injEq, Prod.mk.injEq] at h
    obtain ⟨hc, rfl, rfl⟩ := h
    refine .inr ⟨trimmed (cutStart p.octets).2.reverse, ?_⟩
    have hname (name : Octets) (hn : c = .name name) : name =
        ((trimmed (cutStart p.octets).2.reverse).takeWhile (· != slash)).reverse := by
      rw [hn] at hc
      split at hc
      · cases hc
      · exact (Component.name.inj hc).symm
    obtain ht | ht | ⟨front, ht⟩ := trimmed_cut (cutStart p.octets).2.reverse
    · exact absurd ht hb
    · exact ⟨[], by rw [ht]; simp, hb, rfl, rfl, hname⟩
    · refine ⟨slash :: front.reverse, ?_, hb, rfl, rfl, hname⟩
      simpa using congrArg List.reverse ht

theorem last?_parent {p : Path} {c : Component} {before parent : Octets}
    (h : p.last? = some (c, before, parent)) :
    parent = [] ∨ parent = [slash] ∨ ∃ rest, p.octets = parent ++ slash :: rest := by
  obtain ⟨hp, -⟩ | ⟨back, junk, hbody, hne, -, rfl, -⟩ := last?_cut h
  · exact .inl hp
  have hs := cutStart_append p.octets
  -- Without a component before the last one the start alone is left.
  have hstart (hx : trimmed (back.dropWhile (· != slash)).tail = []) :
      (cutStart p.octets).1 ++ (trimmed (back.dropWhile (· != slash)).tail).reverse = [] ∨
      (cutStart p.octets).1 ++ (trimmed (back.dropWhile (· != slash)).tail).reverse = [slash] ∨
      ∃ rest, p.octets = (cutStart p.octets).1 ++
        (trimmed (back.dropWhile (· != slash)).tail).reverse ++ slash :: rest := by
    rw [hx, List.reverse_nil, List.append_nil]
    obtain he | he | he | ⟨rest, he⟩ := cutStart_start p.octets
    · exact .inl he
    · exact .inr (.inl he)
    · rw [he, show (cutStart [dot]).2 = [] from rfl] at hbody
      simp [hne] at hbody
    · exact .inr (.inr ⟨rest, by rw [← he, hs]⟩)
  obtain hd | ⟨tail, hd⟩ := dropWhile_slash back
  · exact hstart (by rw [hd]; simp [trimmed])
  · have hback : back.reverse =
        tail.reverse ++ slash :: (back.takeWhile (· != slash)).reverse := by
      rw [reverse_cut, hd]
      simp
    rw [hd, List.tail_cons] at hstart ⊢
    obtain ht | ht | ⟨front, ht⟩ := trimmed_cut tail
    · exact hstart ht
    · refine .inr (.inr ⟨(back.takeWhile (· != slash)).reverse ++ junk, ?_⟩)
      conv => lhs; rw [← hs, hbody, hback]
      simp [ht]
    · refine .inr (.inr ⟨front.reverse ++ slash :: ((back.takeWhile (· != slash)).reverse ++ junk),
        ?_⟩)
      have htail : tail.reverse = (trimmed tail).reverse ++ slash :: front.reverse := by
        simpa using congrArg List.reverse ht
      conv => lhs; rw [← hs, hbody, hback, htail]
      simp

theorem last?_name {p : Path} {name before parent : Octets}
    (h : p.last? = some (.name name, before, parent)) :
    slash ∉ name ∧ ∃ rest, p.octets = before ++ name ++ rest := by
  obtain ⟨-, hn⟩ | ⟨back, junk, hbody, -, rfl, -, hn⟩ := last?_cut h
  · exact absurd rfl (hn name)
  rw [hn name rfl]
  refine ⟨by simpa using not_mem_takeWhile_slash back, junk, ?_⟩
  conv => lhs; rw [← cutStart_append p.octets, hbody, reverse_cut]
  simp only [List.append_assoc]

theorem parent?_cut {p q : Path} (h : p.parent? = some q) :
    q.octets = [] ∨ q.octets = [slash] ∨ ∃ rest, p.octets = q.octets ++ slash :: rest := by
  unfold parent? at h
  split at h
  · cases h
  · cases h
  · rename_i hl
    cases h
    exact last?_parent hl

theorem parent?_top {p : Path} (h : p.octets = [] ∨ p.octets = [slash]) : p.parent? = none := by
  obtain h | h := h <;> simp [parent?, last?, cutStart, trimmed, slash, h]

theorem splitName_stem (name : Octets) : ∃ rest, name = (splitName name).1 ++ rest := by
  simp only [splitName]
  split
  · exact ⟨[], by simp⟩
  · exact ⟨[], by simp⟩
  · rename_i c stem _ hd
    refine ⟨c :: (name.reverse.takeWhile (· != dot)).reverse, ?_⟩
    have h := List.takeWhile_append_dropWhile (p := (· != dot)) (l := name.reverse)
    rw [hd] at h
    simpa using (congrArg List.reverse h).symm

theorem setExtension_cut (p : Path) (extension : Octets) (he : slash ∉ extension) :
    ∃ before added rest, (p.setExtension extension).octets = before ++ added ∧
      p.octets = before ++ rest ∧ slash ∉ added := by
  unfold setExtension
  split
  · rename_i name before parent hl
    obtain ⟨hn, rest, hp⟩ := last?_name hl
    obtain ⟨dropped, hstem⟩ := splitName_stem name
    refine ⟨before, _, name ++ rest, by rw [List.append_assoc], by simpa using hp, ?_⟩
    rw [hstem] at hn
    simp only [List.mem_append, not_or] at hn ⊢
    refine ⟨hn.1, ?_⟩
    split
    · simp
    · rw [List.mem_cons, not_or]
      exact ⟨by decide, he⟩
  · exact ⟨p.octets, [], [], by simp, by simp, by simp⟩

end Path

namespace Layout

theorem artifactPath?_cut {layout : Layout} {file artifact : Path}
    (h : layout.artifactPath? file = some artifact) :
    ∃ before added rest, artifact.octets = before ++ added ∧ file.octets = before ++ rest ∧
      Path.slash ∉ added := by
  rw [artifactPath?] at h
  split at h
  · rename_i hp
    cases h
    have he : Path.slash ∉ octets layout.extension := by simpa [hasPlainExtension] using hp
    let old := (file.extension?.map List.length).getD 0
    obtain ⟨before, added, rest, ha, hf, hs⟩ :=
      Path.setExtension_cut ⟨file.octets.take (file.octets.length - old)⟩ _ he
    refine ⟨before, added, rest ++ file.octets.drop (file.octets.length - old), ha, ?_, hs⟩
    rw [← List.append_assoc, ← hf, List.take_append_drop]
  · cases h

theorem artifactPath?_parent {layout : Layout} {file artifact q : Path}
    (h : layout.artifactPath? file = some artifact) (hq : artifact.parent? = some q) :
    q.octets = [] ∨ q.octets = [Path.slash] ∨
      ∃ rest, file.octets = q.octets ++ Path.slash :: rest := by
  obtain ⟨before, added, rest, ha, hf, hs⟩ := artifactPath?_cut h
  obtain hq | hq | ⟨more, hq⟩ := Path.parent?_cut hq
  · exact .inl hq
  · exact .inr (.inl hq)
  · refine .inr (.inr ?_)
    rw [ha] at hq
    obtain ⟨cut, hcut, hmore⟩ | ⟨cut, hcut, hmore⟩ := List.append_eq_append_iff.1 hq
    · exact absurd (hmore ▸ List.mem_append_right cut List.mem_cons_self) hs
    · cases cut with
      | nil =>
        exact absurd (show Path.slash ∈ added by
          rw [List.nil_append] at hmore; simp [← hmore]) hs
      | cons c cut =>
        obtain ⟨rfl, -⟩ := List.cons.inj hmore
        exact ⟨cut ++ rest, by rw [hf, hcut]; simp⟩

end Layout

end DialectBindings
