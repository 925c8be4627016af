import DialectBindings.Registry
import Mathlib.Data.List.Pairwise

/-!
# Overrides and the order of messages

A registry is determined by what it holds for each id. Messages that give an id one magic number
only are folded without an override, and to the same registry in every order and however they are
divided into files. If some id is given two magic numbers, the message that comes last decides, and
one of them takes the place of a different one on the way.
-/

set_option autoImplicit false

namespace DialectBindings.Registry

def addFiles (r : Registry) (files : List (List MessageSummary)) : Registry :=
  files.foldl addAll r

/-- The overrides that are told of while the messages of files are folded in. -/
def overridesIn (r : Registry) : List (List MessageSummary) → List Override
  | [] => []
  | file :: rest => r.overrides file ++ (r.addAll file).overridesIn rest

theorem addAll_append (r : Registry) (ms ns : List MessageSummary) :
    r.addAll (ms ++ ns) = (r.addAll ms).addAll ns := List.foldl_append

theorem overrides_append (r : Registry) (ms ns : List MessageSummary) :
    r.overrides (ms ++ ns) = r.overrides ms ++ (r.addAll ms).overrides ns := by
  induction ms generalizing r with
  | nil => rfl
  | cons m ms ih =>
    rw [List.cons_append, overrides, overrides, ih, List.append_assoc]
    rfl

/-- It does not count how messages are divided into files. -/
theorem addFiles_eq (r : Registry) (files : List (List MessageSummary)) :
    r.addFiles files = r.addAll files.flatten := by
  induction files generalizing r with
  | nil => rfl
  | cons file files ih =>
    rw [List.flatten_cons, addAll_append]
    exact ih (r.addAll file)

theorem overridesIn_eq (r : Registry) (files : List (List MessageSummary)) :
    r.overridesIn files = r.overrides files.flatten := by
  induction files generalizing r with
  | nil => rfl
  | cons file files ih => rw [List.flatten_cons, overrides_append, overridesIn, ih]

/-! ## What a registry holds -/

theorem lookup_of_below {entries : List (UInt32 × UInt8)} {id : UInt32}
    (h : ∀ e ∈ entries, id < e.1) : entries.lookup id = none := by
  induction entries with
  | nil => rfl
  | cons e entries ih =>
    obtain ⟨he, hrest⟩ := List.forall_mem_cons.1 h
    rw [List.lookup_cons, beq_false_of_ne (UInt32.ne_of_lt he)]
    exact ih hrest

theorem first_not_below {e f : UInt32 × UInt8} {es fs : List (UInt32 × UInt8)}
    (hf : (f :: fs).Pairwise (·.1 < ·.1))
    (h : ∀ id, (e :: es).lookup id = (f :: fs).lookup id) : ¬ e.1 < f.1 := by
  intro hlt
  have hnone : (f :: fs).lookup e.1 = none := by
    apply lookup_of_below
    intro g hg
    rcases List.mem_cons.1 hg with rfl | hg
    · exact hlt
    · exact UInt32.lt_trans hlt ((List.pairwise_cons.1 hf).1 g hg)
  rw [← h, List.lookup_cons_self] at hnone
  cases hnone

theorem entries_ext {es fs : List (UInt32 × UInt8)} (he : es.Pairwise (·.1 < ·.1))
    (hf : fs.Pairwise (·.1 < ·.1)) (h : ∀ id, es.lookup id = fs.lookup id) : es = fs := by
  induction es generalizing fs with
  | nil =>
    cases fs with
    | nil => rfl
    | cons f fs =>
      have hnone := h f.1
      rw [List.lookup_cons_self] at hnone
      cases hnone
  | cons e es ih =>
    cases fs with
    | nil =>
      have hnone := h e.1
      rw [List.lookup_cons_self] at hnone
      cases hnone
    | cons f fs =>
      have hid : e.1 = f.1 :=
        UInt32.le_antisymm (UInt32.not_lt.1 (first_not_below he fun id => (h id).symm))
          (UInt32.not_lt.1 (first_not_below hf h))
      have hmagic := h e.1
      rw [List.lookup_cons_self, hid, List.lookup_cons_self] at hmagic
      have hfirst : e = f := Prod.ext hid (Option.some.inj hmagic)
      subst hfirst
      obtain ⟨hbelow, he⟩ := List.pairwise_cons.1 he
      obtain ⟨hbelow', hf⟩ := List.pairwise_cons.1 hf
      rw [ih he hf]
      intro id
      by_cases hk : id = e.1
      · rw [hk, lookup_of_below hbelow, lookup_of_below hbelow']
      · have hrest := h id
        rwa [List.lookup_cons, List.lookup_cons, beq_false_of_ne hk] at hrest

theorem ext_get? {r s : Registry} (h : ∀ id, r.get? id = s.get? id) : r = s := by
  obtain ⟨es, he⟩ := r
  obtain ⟨fs, hf⟩ := s
  obtain rfl : es = fs := entries_ext he hf h
  rfl

/-! ## Messages that agree -/

def Fits (m n : MessageSummary) : Prop :=
  m.id = n.id → ∀ a b, m.magic = some a → n.magic = some b → a = b

theorem Fits.refl (m : MessageSummary) : Fits m m := by
  intro _ a b ha hb
  exact Option.some.inj (ha.symm.trans hb)

theorem Fits.symm {m n : MessageSummary} (h : Fits m n) : Fits n m :=
  fun hid a b ha hb => (h hid.symm b a hb ha).symm

instance : Std.Symm Fits := ⟨fun _ _ => Fits.symm⟩

/-- No two of the messages give different magic numbers to one id. -/
def Agree (ms : List MessageSummary) : Prop := ms.Pairwise Fits

theorem Agree.fits {ms : List MessageSummary} (h : Agree ms) {m n : MessageSummary}
    (hm : m ∈ ms) (hn : n ∈ ms) : Fits m n :=
  List.Pairwise.forall_of_forall (fun k _ => Fits.refl k) h hm hn

theorem Agree.perm {ms ns : List MessageSummary} (h : Agree ms) (hp : ns.Perm ms) : Agree ns :=
  (hp.pairwise_iff Fits.symm).2 h

/-- A message does not give a magic number to an id for which a different one is held. -/
def Takes (r : Registry) (m : MessageSummary) : Prop :=
  ∀ magic, m.magic = some magic → ∀ held, r.get? m.id = some held → held = magic

theorem overridden_eq_none {r : Registry} {m : MessageSummary} :
    r.overridden m = none ↔ r.Takes m := by
  rw [overridden, Takes]
  cases m.magic <;> cases r.get? m.id <;> simp

theorem get?_add (r : Registry) (m : MessageSummary) (id : UInt32) :
    (r.add m).get? id = if m.id = id then m.magic.or (r.get? id) else r.get? id := by
  rw [add]
  cases m.magic with
  | none => simp
  | some magic =>
    by_cases h : m.id = id
    · simp [get?_insert, h]
    · simp [get?_insert, h, Ne.symm h]

theorem takes_add {r : Registry} {m n : MessageSummary} (hm : r.Takes m) :
    (r.add m).Takes n ↔ r.Takes n ∧ Fits m n := by
  by_cases hid : m.id = n.id
  · cases hmagic : m.magic with
    | none => simp [Takes, Fits, get?_add, hid, hmagic]
    | some a =>
      -- What is held for the id now is what the first message gave it.
      have hheld : (r.add m).get? n.id = some a := by
        rw [get?_add, if_pos hid, hmagic]
        rfl
      constructor
      · intro h
        refine ⟨?_, ?_⟩
        · intro b hb held hget
          rw [hm a hmagic held (hid ▸ hget)]
          exact h b hb a hheld
        · intro _ a' b ha hb
          cases hmagic.symm.trans ha
          exact h b hb a hheld
      · rintro ⟨-, hfits⟩ b hb held hget
        cases hheld.symm.trans hget
        exact hfits hid a b hmagic hb
  · simp [Takes, Fits, get?_add, hid]

theorem overrides_eq_nil {r : Registry} {ms : List MessageSummary} :
    r.overrides ms = [] ↔ (∀ m ∈ ms, r.Takes m) ∧ Agree ms := by
  induction ms generalizing r with
  | nil => simp [overrides, Agree]
  | cons m ms ih =>
    rw [overrides, List.append_eq_nil_iff, ih, Option.toList_eq_nil_iff, overridden_eq_none, Agree,
      Agree, List.pairwise_cons, List.forall_mem_cons]
    constructor
    · rintro ⟨hm, hs, ha⟩
      refine ⟨⟨hm, fun n hn => ?_⟩, fun n hn => ?_, ha⟩
      · exact ((takes_add hm).1 (hs n hn)).1
      · exact ((takes_add hm).1 (hs n hn)).2
    · rintro ⟨⟨hm, hs⟩, hf, ha⟩
      exact ⟨hm, fun n hn => (takes_add hm).2 ⟨hs n hn, hf n hn⟩, ha⟩

/-! ## Messages in any order -/

theorem get?_addAll_cases {r : Registry} {ms : List MessageSummary} {id : UInt32} {magic : UInt8}
    (h : (r.addAll ms).get? id = some magic) :
    r.get? id = some magic ∨ ∃ m ∈ ms, m.id = id ∧ m.magic = some magic := by
  induction ms generalizing r with
  | nil => exact .inl h
  | cons m ms ih =>
    obtain hr | ⟨n, hn, hid, hmagic⟩ := ih h
    · rw [get?_add] at hr
      split at hr
      · rename_i hid
        cases hma : m.magic with
        | none =>
          rw [hma] at hr
          exact .inl hr
        | some a =>
          rw [hma] at hr
          cases hr
          exact .inr ⟨m, List.mem_cons_self, hid, hma⟩
      · exact .inl hr
    · exact .inr ⟨n, List.mem_cons_of_mem m hn, hid, hmagic⟩

theorem get?_addAll_concat {r : Registry} {ms : List MessageSummary} {m : MessageSummary}
    {magic : UInt8} (h : m.magic = some magic) :
    (r.addAll (ms ++ [m])).get? m.id = some magic := by
  rw [addAll_append]
  change ((r.addAll ms).add m).get? m.id = _
  rw [get?_add, if_pos rfl, h]
  rfl

theorem get?_addAll_mem {r : Registry} {ms : List MessageSummary} {m : MessageSummary}
    (hm : m ∈ ms) (h : m.magic.isSome = true) : ((r.addAll ms).get? m.id).isSome = true := by
  obtain ⟨before, after, rfl⟩ := List.append_of_mem hm
  obtain ⟨magic, hmagic⟩ := Option.isSome_iff_exists.1 h
  have kept : ∀ (ns : List MessageSummary) (s : Registry), (s.get? m.id).isSome = true →
      ((s.addAll ns).get? m.id).isSome = true := by
    intro ns
    induction ns with
    | nil => exact fun s hs => hs
    | cons n ns ih =>
      intro s hs
      refine ih (s.add n) ?_
      rw [get?_add]
      split
      · cases n.magic <;> simp [hs]
      · exact hs
  have hsplit : before ++ m :: after = (before ++ [m]) ++ after := by simp
  rw [hsplit, addAll_append]
  refine kept after _ ?_
  rw [get?_addAll_concat hmagic]
  rfl

theorem get?_addAll_agree {ms : List MessageSummary} (h : Agree ms) {id : UInt32} {magic : UInt8} :
    (empty.addAll ms).get? id = some magic ↔ ∃ m ∈ ms, m.id = id ∧ m.magic = some magic := by
  constructor
  · intro hget
    exact (get?_addAll_cases hget).resolve_left nofun
  · rintro ⟨m, hm, rfl, hmagic⟩
    obtain ⟨held, hheld⟩ := Option.isSome_iff_exists.1
      (get?_addAll_mem (r := empty) hm (by rw [hmagic]; rfl))
    obtain ⟨n, hn, hid, hheldn⟩ := (get?_addAll_cases hheld).resolve_left nofun
    rw [hheld, h.fits hn hm hid held magic hheldn hmagic]

theorem Agree.addAll_eq {ms ns : List MessageSummary} (h : Agree ms) (hp : ns.Perm ms) :
    empty.addAll ns = empty.addAll ms := by
  apply ext_get?
  intro id
  apply Option.ext
  intro magic
  rw [get?_addAll_agree (h.perm hp), get?_addAll_agree h]
  simp only [hp.mem_iff]

/-- Messages that come to the same registry in every order agree: any of them may be the last. -/
theorem agree_of_addAll {ms : List MessageSummary}
    (h : ∀ ns : List MessageSummary, ns.Perm ms → empty.addAll ns = empty.addAll ms) :
    Agree ms := by
  have held : ∀ m ∈ ms, ∀ magic, m.magic = some magic →
      (empty.addAll ms).get? m.id = some magic := by
    intro m hm magic hmagic
    have hp : (ms.erase m ++ [m]).Perm ms :=
      (List.perm_append_singleton m (ms.erase m)).trans (List.perm_cons_erase hm).symm
    rw [← h _ hp]
    exact get?_addAll_concat hmagic
  apply List.pairwise_of_forall_mem_list
  intro m hm n hn hid a b hma hnb
  have hb := held n hn b hnb
  rw [← hid, held m hm a hma] at hb
  exact Option.some.inj hb

/-- No override is told of exactly if the messages come to the same registry in every order. -/
theorem overridesIn_eq_nil_iff (files : List (List MessageSummary)) :
    empty.overridesIn files = [] ↔
      ∀ later : List (List MessageSummary), later.flatten.Perm files.flatten →
        empty.addFiles later = empty.addFiles files := by
  have takes : ∀ m ∈ files.flatten, empty.Takes m := fun _ _ _ _ _ => nofun
  rw [overridesIn_eq, overrides_eq_nil, and_iff_right takes]
  constructor
  · intro agree later hp
    rw [addFiles_eq, addFiles_eq]
    exact agree.addAll_eq hp
  · intro h
    apply agree_of_addAll
    intro ms hp
    have hlater := h [ms] (by simpa using hp)
    rwa [addFiles_eq, addFiles_eq, List.flatten_singleton] at hlater

example : empty.overridesIn [[⟨1, "A", some 7⟩], [⟨1, "B", none⟩, ⟨1, "C", some 8⟩]] =
    [⟨1, "C", 7, 8⟩] := by decide

end DialectBindings.Registry
