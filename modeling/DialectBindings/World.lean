import DialectBindings.FileTree
import DialectBindings.Host

/-!
# Worlds

A host that is a value: a file tree, an output stream and a display that may run full, and the
events told so far. A stream takes octets as long as it has room, also part of a text that does
not fit.
-/

set_option autoImplicit false

namespace DialectBindings
open Text

structure Sink where
  taken : Octets
  room : Option Nat
  deriving Repr, DecidableEq

namespace Sink

def empty (room : Option Nat) : Sink := ⟨[], room⟩

def overflows (s : Sink) (data : Octets) : Bool :=
  match s.room with
  | none => false
  | some n => n < data.length

def accept (s : Sink) (data : Octets) : Sink :=
  match s.room with
  | none => ⟨s.taken ++ data, none⟩
  | some n => ⟨s.taken ++ data.take n, some (n - data.length)⟩

theorem accept_append (s : Sink) (a b : Octets) : (s.accept a).accept b = s.accept (a ++ b) := by
  cases h : s.room with
  | none => simp [accept, h]
  | some n => simp [accept, h, List.take_append, Nat.sub_sub]

/-- Behind what does not fit nothing more is taken. -/
theorem accept_of_overflows {s : Sink} {a : Octets} (h : s.overflows a = true) (b : Octets) :
    (s.accept a).accept b = s.accept a := by
  cases hr : s.room with
  | none => simp [overflows, hr] at h
  | some n =>
    have hn : n < a.length := by simpa [overflows, hr] using h
    simp [accept, hr, Nat.sub_eq_zero_of_le (Nat.le_of_lt hn)]

end Sink

structure World where
  tree : FileTree
  output : Sink
  display : Sink
  log : List Event
  deriving Repr, DecidableEq

namespace World

def start (tree : FileTree) (outputRoom displayRoom : Option Nat) : World :=
  ⟨tree, Sink.empty outputRoom, Sink.empty displayRoom, []⟩

def change (f : FileTree → Except IoFault FileTree) : StateM World (Except IoFault Unit) :=
  fun w => ((w.tree.attempt f).1, { w with tree := (w.tree.attempt f).2 })

instance : Host (StateM World) where
  read p := fun w => (w.tree.read p, w)
  write p content := change fun t => t.write p content
  makeDirectory p := change fun t => t.makeDirectory p
  isDirectory p := fun w => (w.tree.isDirectory p, w)
  send data := fun w =>
    (if w.output.overflows data then .error .streamFull else .ok (),
      { w with output := w.output.accept data })
  progress text := fun w =>
    (if w.display.overflows (octets text) then .error .streamFull else .ok (),
      { w with display := w.display.accept (octets text) })
  flushProgress := fun w => (.ok (), w)
  log e := fun w => ((), { w with log := w.log ++ [e] })

end World

end DialectBindings
