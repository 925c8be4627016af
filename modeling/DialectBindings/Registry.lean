/-!
# The registry of magic numbers

Message ids with their magic numbers in ascending order of id. Messages are folded in one after
the other; a message with a magic number takes the place of an earlier one with its id.
-/

set_option autoImplicit false

namespace DialectBindings

structure MessageSummary where
  id : UInt32
  name : String
  magic : Option UInt8
  deriving Repr, DecidableEq

structure Registry where
  entries : List (UInt32 × UInt8)
  sorted : entries.Pairwise (·.1 < ·.1) := by simp

namespace Registry

def empty : Registry where
  entries := []

def insertInto (id : UInt32) (magic : UInt8) : List (UInt32 × UInt8) → List (UInt32 × UInt8)
  | [] => [(id, magic)]
  | e :: rest =>
    if id < e.1 then (id, magic) :: e :: rest
    else if id = e.1 then (id, magic) :: rest
    else e :: insertInto id magic rest

theorem mem_insertInto {id : UInt32} {magic : UInt8} {e : UInt32 × UInt8}
    {entries : List (UInt32 × UInt8)} (h : e ∈ insertInto id magic entries) :
    e = (id, magic) ∨ e ∈ entries := by
  induction entries with
  | nil => simpa [insertInto] using h
  | cons f rest ih =>
    rw [insertInto] at h
    split at h
    · simpa using h
    · split at h
      · rcases List.mem_cons.1 h with h | h
        · exact .inl h
        · exact .inr (List.mem_cons_of_mem _ h)
      · rcases List.mem_cons.1 h with h | h
        · exact .inr (h ▸ List.mem_cons_self)
        · exact (ih h).imp_right (List.mem_cons_of_mem _)

theorem insertInto_sorted (id : UInt32) (magic : UInt8) {entries : List (UInt32 × UInt8)}
    (h : entries.Pairwise (·.1 < ·.1)) : (insertInto id magic entries).Pairwise (·.1 < ·.1) := by
  induction entries with
  | nil => simp [insertInto]
  | cons e rest ih =>
    have hc := List.pairwise_cons.1 h
    rw [insertInto]
    split
    · rename_i hlt
      refine List.pairwise_cons.2 ⟨fun f hf => ?_, h⟩
      rcases List.mem_cons.1 hf with rfl | hf
      · exact hlt
      · exact UInt32.lt_trans hlt (hc.1 f hf)
    · split
      · rename_i heq
        exact List.pairwise_cons.2 ⟨fun f hf => heq ▸ hc.1 f hf, hc.2⟩
      · rename_i hnlt hne
        refine List.pairwise_cons.2 ⟨fun f hf => ?_, ih hc.2⟩
        rcases mem_insertInto hf with rfl | hf
        · exact UInt32.lt_of_le_of_ne (UInt32.not_lt.1 hnlt) (Ne.symm hne)
        · exact hc.1 f hf

def insert (r : Registry) (id : UInt32) (magic : UInt8) : Registry where
  entries := insertInto id magic r.entries
  sorted := insertInto_sorted id magic r.sorted

def get? (r : Registry) (id : UInt32) : Option UInt8 := r.entries.lookup id

theorem lookup_insertInto (id : UInt32) (magic : UInt8) (k : UInt32)
    (entries : List (UInt32 × UInt8)) :
    (insertInto id magic entries).lookup k = if k = id then some magic else entries.lookup k := by
  induction entries with
  | nil => by_cases h : k = id <;> simp [insertInto, List.lookup_cons, h, beq_false_of_ne]
  | cons e rest ih =>
    obtain ⟨i, m⟩ := e
    rw [insertInto]
    split
    · by_cases h : k = id <;> simp [List.lookup_cons, h, beq_false_of_ne]
    · split
      · rename_i heq
        by_cases h : k = i <;> simp_all [List.lookup_cons, beq_false_of_ne]
      · rename_i hne
        rw [List.lookup_cons, List.lookup_cons, ih]
        by_cases h : k = id
        · simp [h, beq_false_of_ne hne]
        · simp [h]

theorem get?_insert (r : Registry) (id : UInt32) (magic : UInt8) (k : UInt32) :
    (r.insert id magic).get? k = if k = id then some magic else r.get? k :=
  lookup_insertInto id magic k r.entries

def size (r : Registry) : Nat := r.entries.length

def isEmpty (r : Registry) : Bool := r.entries.isEmpty

/-- A magic number that took the place of a different one. -/
structure Override where
  id : UInt32
  name : String
  previous : UInt8
  magic : UInt8
  deriving Repr, DecidableEq

def add (r : Registry) (m : MessageSummary) : Registry :=
  match m.magic with
  | none => r
  | some magic => r.insert m.id magic

/-- What folding in a message overrides. -/
def overridden (r : Registry) (m : MessageSummary) : Option Override :=
  match m.magic, r.get? m.id with
  | some magic, some previous =>
    if previous = magic then none else some ⟨m.id, m.name, previous, magic⟩
  | _, _ => none

def addAll (r : Registry) (ms : List MessageSummary) : Registry := ms.foldl add r

def overrides (r : Registry) : List MessageSummary → List Override
  | [] => []
  | m :: rest => (r.overridden m).toList ++ (r.add m).overrides rest

def row (e : UInt32 × UInt8) : String :=
  "  '" ++ toString e.1.toNat ++ "': " ++ toString e.2.toNat ++ ",\n"

def render (r : Registry) : String :=
  "export const MSG_ID_MAGIC_NUMBER: Record<string, number> = \x7b\n" ++
    String.join (r.entries.map row) ++ "\x7d\n"

end Registry

end DialectBindings
