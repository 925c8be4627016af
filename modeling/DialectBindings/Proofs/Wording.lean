import DialectBindings.CommandLine.Program
import DialectBindings.Proofs.Comments

/-!
# How faults are worded

A message is made of fixed texts, of numbers, of quoted texts, and of texts that it carries as they
are: parameters, paths, names and values. Of these only the last can have line feeds, so a message
has the line feeds of the texts that it carries, and a message that carries none is one line.
-/

set_option autoImplicit false

namespace DialectBindings
open Text

@[irreducible]
def lineFeeds (s : String) : Nat := s.toList.count '\n'

@[simp] theorem lineFeeds_append (s t : String) :
    lineFeeds (s ++ t) = lineFeeds s + lineFeeds t := by
  simp only [lineFeeds, String.toList_append, List.count_append]

@[simp] theorem lineFeeds_toString (s : String) : lineFeeds (toString s) = lineFeeds s := rfl

theorem lineFeeds_eq_zero {s : String} : lineFeeds s = 0 ↔ '\n' ∉ s.toList := by
  rw [lineFeeds]
  exact List.count_eq_zero

theorem lineFeeds_fixed {s : List Char} (h : '\n' ∉ s) : lineFeeds (String.ofList s) = 0 := by
  rw [lineFeeds_eq_zero, String.toList_ofList]
  exact h

theorem lineFeeds_after {s : List Char} (h : '\n' ∉ s) (text : String) :
    lineFeeds (String.ofList s ++ text) = lineFeeds text := by
  rw [lineFeeds_append, lineFeeds_fixed h, Nat.zero_add]

theorem lineFeeds_around {s t : List Char} (hs : '\n' ∉ s) (ht : '\n' ∉ t) (text : String) :
    lineFeeds (String.ofList s ++ text ++ String.ofList t) = lineFeeds text := by
  rw [lineFeeds_append, lineFeeds_after hs, lineFeeds_fixed ht, Nat.add_zero]

@[simp]
def lineFeedsIn : List String → Nat
  | [] => 0
  | text :: rest => lineFeeds text + lineFeedsIn rest

theorem lineFeedsIn_eq_zero {texts : List String} :
    lineFeedsIn texts = 0 ↔ ∀ text ∈ texts, '\n' ∉ text.toList := by
  induction texts with
  | nil => simp
  | cons text rest ih =>
    rw [lineFeedsIn, Nat.add_eq_zero_iff, lineFeeds_eq_zero, ih, List.forall_mem_cons]

/-! ## Numbers and quoted texts -/

@[simp] theorem lineFeeds_number (n : Nat) : lineFeeds n.repr = 0 := by
  rw [lineFeeds_eq_zero, Nat.toList_repr]
  intro h
  cases Nat.isDigit_of_mem_toDigits (by decide) (by decide) h

theorem hexDigit_ne_newline : ∀ n < 16, hexDigit n ≠ '\n' ∧ (hexDigit n).toUpper ≠ '\n' := by
  decide

theorem exists_of_mem_hex {n : Nat} {c : Char} (h : c ∈ hex n) : ∃ d < 16, c = hexDigit d := by
  fun_induction hex n with
  | case1 n hn => exact ⟨n, hn, List.mem_singleton.1 h⟩
  | case2 n hn ih =>
    rcases List.mem_append.1 h with h | h
    · exact ih h
    · exact ⟨n % 16, Nat.mod_lt n (by decide), List.mem_singleton.1 h⟩

theorem newline_not_mem_hex (n : Nat) : '\n' ∉ hex n := by
  intro h
  obtain ⟨d, hd, hc⟩ := exists_of_mem_hex h
  exact (hexDigit_ne_newline d hd).1 hc.symm

theorem newline_not_mem_escape (c : Char) : '\n' ∉ escape c := by
  unfold escape
  split
  case h_7 hne _ _ =>
    split
    · simp [newline_not_mem_hex]
    · rw [List.mem_singleton]
      rintro rfl
      exact hne rfl
  all_goals decide

@[simp] theorem lineFeeds_quoted (s : String) : lineFeeds (quoted s) = 0 := by
  apply lineFeeds_fixed
  simp [newline_not_mem_escape]

theorem printable_ne_newline : ∀ n < 127, 32 ≤ n → Char.ofNat n ≠ '\n' := by decide

theorem newline_not_mem_escapeOctet (octet : UInt8) : '\n' ∉ escapeOctet octet := by
  simp only [escapeOctet]
  split
  · decide
  · split
    · rename_i h
      rw [List.mem_singleton]
      exact (printable_ne_newline _ (Nat.lt_succ_of_le h.2) h.1).symm
    · rw [List.mem_cons, List.mem_cons, List.mem_map]
      rintro (h | h | ⟨c, hc, hup⟩)
      · cases h
      · cases h
      · obtain ⟨d, hd, rfl⟩ := exists_of_mem_hex hc
        exact (hexDigit_ne_newline d hd).2 hup

@[simp] theorem lineFeeds_quotedOctets (octets : List UInt8) :
    lineFeeds (quotedOctets octets) = 0 := by
  apply lineFeeds_fixed
  simp [newline_not_mem_escapeOctet]

/-! ## Texts that messages carry -/

namespace Markup

def ReferenceFault.carried : ReferenceFault → List String
  | .unknown _ _ name => [String.ofList name]
  | _ => []

theorem ReferenceFault.lineFeeds_message (f : ReferenceFault) :
    lineFeeds f.message = lineFeedsIn f.carried := by
  unfold message carried
  cases f with
  | unknown start stop name =>
    have hat : lineFeeds "at " = 0 := lineFeeds_fixed (by decide)
    have hto : lineFeeds ".." = 0 := lineFeeds_fixed (by decide)
    have hname : lineFeeds ": unrecognized entity " = 0 := lineFeeds_fixed (by decide)
    have htick : lineFeeds "`" = 0 := lineFeeds_fixed (by decide)
    simp [hat, hto, hname, htick]
  | unterminated start stop =>
    have hrange : lineFeeds "Error while escaping character at range " = 0 :=
      lineFeeds_fixed (by decide)
    have hto : lineFeeds ".." = 0 := lineFeeds_fixed (by decide)
    have hend : lineFeeds ": Cannot find ';' after '&'" = 0 := lineFeeds_fixed (by decide)
    simp [hrange, hto, hend]
  | numeral fault =>
    have hfault : lineFeeds (numeralMessage fault) = 0 := by
      cases fault <;> exact lineFeeds_fixed (by decide)
    exact (lineFeeds_after (by decide) _).trans hfault
  | sign => exact lineFeeds_fixed (by decide)
  | zero => exact lineFeeds_fixed (by decide)
  | notCharacter code =>
    exact (lineFeeds_around (by decide) (by decide) _).trans (lineFeeds_number code)

def AttributeFault.carried : AttributeFault → List String
  | .unclosedQuote quote => [String.ofList [quote]]
  | _ => []

theorem AttributeFault.lineFeeds_message (f : AttributeFault) :
    lineFeeds f.message = lineFeedsIn f.carried := by
  unfold message carried
  cases f with
  | noEquals => exact lineFeeds_fixed (by decide)
  | noValue => exact lineFeeds_fixed (by decide)
  | unquoted => exact lineFeeds_fixed (by decide)
  | unclosedQuote quote => exact lineFeeds_around (by decide) (by decide) _
  | duplicate previous =>
    have hposition : lineFeeds "duplicated attribute, previous declaration at position " = 0 :=
      lineFeeds_fixed (by decide)
    simp [hposition]

def BindingFault.carried : BindingFault → List String
  | .reservedPrefix name _ => [String.ofList name]
  | .reservedNamespace _ uri => [String.ofList uri]

theorem BindingFault.lineFeeds_message (f : BindingFault) :
    lineFeeds f.message = lineFeedsIn f.carried := by
  have hnamed : lineFeeds "the namespace prefix '" = 0 := lineFeeds_fixed (by decide)
  have hbound : lineFeeds "' cannot be bound to '" = 0 := lineFeeds_fixed (by decide)
  have hend : lineFeeds "'" = 0 := lineFeeds_fixed (by decide)
  unfold message carried
  cases f <;> simp [hnamed, hbound, hend]

theorem lineFeeds_endTag (name : List Char) :
    lineFeeds (endTag name) = lineFeeds (String.ofList name) :=
  lineFeeds_around (by decide) (by decide) _

theorem Expected.lineFeeds_name (e : Expected) : lineFeeds e.name = 0 := by
  cases e <;> exact lineFeeds_fixed (by decide)

def Fault.carried : Fault → List String
  | .mismatchedEnd expected found => [String.ofList expected, String.ofList found]
  | .unmatchedEnd name => [String.ofList name]
  | .missingEnd name => [String.ofList name]
  | .binding fault => fault.carried
  | .reference fault => fault.carried
  | .attribute _ fault => fault.carried
  | .missing key => [key]
  | .duplicate key => [key]
  | _ => []

theorem Fault.lineFeeds_message (f : Fault) : lineFeeds f.message = lineFeedsIn f.carried := by
  unfold message carried
  match f with
  | .mismatchedEnd expected found =>
    have hexpected : lineFeeds "ill-formed document: expected " = 0 := lineFeeds_fixed (by decide)
    have hbut : lineFeeds ", but " = 0 := lineFeeds_fixed (by decide)
    have hfound : lineFeeds " was found" = 0 := lineFeeds_fixed (by decide)
    simp [hexpected, hbut, hfound, lineFeeds_endTag]
  | .unmatchedEnd name =>
    exact (lineFeeds_around (by decide) (by decide) _).trans (lineFeeds_endTag name)
  | .missingEnd name =>
    exact (lineFeeds_around (by decide) (by decide) _).trans (lineFeeds_endTag name)
  | .binding fault => exact fault.lineFeeds_message
  | .reference fault => exact fault.lineFeeds_message
  | .attribute position fault =>
    have hposition : lineFeeds "error while parsing attribute: position " = 0 :=
      lineFeeds_fixed (by decide)
    have hcolon : lineFeeds ": " = 0 := lineFeeds_fixed (by decide)
    simp [hposition, hcolon, fault.lineFeeds_message]
  | .unexpectedElement name =>
    exact (lineFeeds_around (by decide) (by decide) _).trans (lineFeeds_quotedOctets _)
  | .wrongType text expected =>
    have hinvalid : lineFeeds "invalid type: string " = 0 := lineFeeds_fixed (by decide)
    have hexpected : lineFeeds ", expected " = 0 := lineFeeds_fixed (by decide)
    simp [hinvalid, hexpected, expected.lineFeeds_name]
  | .missing key => exact lineFeeds_around (by decide) (by decide) _
  | .duplicate key => exact lineFeeds_around (by decide) (by decide) _
  | .unclosedTag | .unclosedInstruction | .unclosedComment | .unclosedData | .unclosedDoctype
  | .unknownMarkup | .namelessDoctype | .unclosedReference | .noElement =>
    exact lineFeeds_fixed (by decide)

end Markup

namespace Definition

def Fault.carried : Fault → List String
  | .markup fault => fault.carried
  | .unknownType message field type => [type, field, message]
  | .arrayLength message field type => [type, field, message]
  | .entryValue enum entry value => [value, entry, enum]
  | .duplicateId _ first second => [first, second]

theorem Fault.lineFeeds_message (f : Fault) : lineFeeds f.message = lineFeedsIn f.carried := by
  have hfield : lineFeeds "' for field '" = 0 := lineFeeds_fixed (by decide)
  have hmessage : lineFeeds "' of message " = 0 := lineFeeds_fixed (by decide)
  unfold message carried
  cases f with
  | markup fault => exact (lineFeeds_after (by decide) _).trans fault.lineFeeds_message
  | unknownType message field type =>
    have hunknown : lineFeeds "unknown type '" = 0 := lineFeeds_fixed (by decide)
    simp [hunknown, hfield, hmessage, Nat.add_assoc]
  | arrayLength message field type =>
    have hinvalid : lineFeeds "invalid array length in '" = 0 := lineFeeds_fixed (by decide)
    simp [hinvalid, hfield, hmessage, Nat.add_assoc]
  | entryValue enum entry value =>
    have hinvalid : lineFeeds "invalid value '" = 0 := lineFeeds_fixed (by decide)
    have hentry : lineFeeds "' for entry " = 0 := lineFeeds_fixed (by decide)
    have henum : lineFeeds " of enum " = 0 := lineFeeds_fixed (by decide)
    simp [hinvalid, hentry, henum, Nat.add_assoc]
  | duplicateId id first second =>
    have hid : lineFeeds "message id " = 0 := lineFeeds_fixed (by decide)
    have hboth : lineFeeds " is declared by both " = 0 := lineFeeds_fixed (by decide)
    have hand : lineFeeds " and " = 0 := lineFeeds_fixed (by decide)
    simp [hid, hboth, hand]

end Definition

def EngineFault.carried : EngineFault → List String
  | .definition fault => fault.carried
  | .invalidLine line => [line]
  | .unexpectedEnd => []

theorem EngineFault.lineFeeds_message (f : EngineFault) :
    lineFeeds f.message = lineFeedsIn f.carried := by
  unfold message carried
  cases f with
  | definition fault => exact fault.lineFeeds_message
  | invalidLine line => exact lineFeeds_around (by decide) (by decide) _
  | unexpectedEnd => exact lineFeeds_fixed (by decide)

def IoFault.carried : IoFault → List String
  | .other message => [message]
  | _ => []

theorem Text.Utf8Fault.lineFeeds_message (f : Utf8Fault) : lineFeeds f.message = 0 := by
  have hindex : lineFeeds " bytes from index " = 0 := lineFeeds_fixed (by decide)
  have hsize : lineFeeds "invalid utf-8 sequence of " = 0 := lineFeeds_fixed (by decide)
  have hcut : lineFeeds "incomplete utf-8 byte sequence from index " = 0 :=
    lineFeeds_fixed (by decide)
  unfold message
  cases f <;> simp [hindex, hsize, hcut]

theorem IoFault.lineFeeds_message (f : IoFault) : lineFeeds f.message = lineFeedsIn f.carried := by
  unfold message carried
  cases f with
  | badSequence fault => exact fault.lineFeeds_message
  | other message => rfl
  | _ => exact lineFeeds_fixed (by decide)

namespace Failure

def carriedReason : Failure → List String
  | .read _ fault => fault.carried
  | .generation _ fault => fault.carried
  | .write _ fault => fault.carried
  | .extension _ text => [text]

def carried (f : Failure) : List String := f.path.display :: f.carriedReason

theorem lineFeeds_reason (f : Failure) : lineFeeds f.reason = lineFeedsIn f.carriedReason := by
  unfold reason carriedReason
  cases f with
  | read path fault => exact fault.lineFeeds_message
  | generation path fault => exact fault.lineFeeds_message
  | write path fault => exact fault.lineFeeds_message
  | extension path text => exact lineFeeds_around (by decide) (by decide) _

theorem lineFeeds_action (f : Failure) : lineFeeds f.action = 0 := by
  cases f <;> exact lineFeeds_fixed (by decide)

theorem lineFeeds_message (f : Failure) : lineFeeds f.message = lineFeedsIn f.carried := by
  have hfailed : lineFeeds "failed to " = 0 := lineFeeds_fixed (by decide)
  have hblank : lineFeeds " " = 0 := lineFeeds_fixed (by decide)
  have hcolon : lineFeeds ": " = 0 := lineFeeds_fixed (by decide)
  simp [message, carried, hfailed, hblank, hcolon, f.lineFeeds_action, f.lineFeeds_reason]

end Failure

namespace CommandLine

/-- Of the other faults of usage only a first line is told. -/
def UsageFault.carried : UsageFault → List String
  | .unknown parameter => [parameter]
  | _ => []

theorem lineFeeds_firstLine (s : List Char) :
    lineFeeds (String.ofList ((lines s).headD [])) = 0 := by
  apply lineFeeds_fixed
  cases h : lines s with
  | nil => exact List.not_mem_nil
  | cons line more => exact newline_not_mem_lines (h ▸ List.mem_cons_self)

theorem UsageFault.lineFeeds_message (f : UsageFault) :
    lineFeeds f.message = lineFeedsIn f.carried := by
  cases f with
  | unknown parameter => exact lineFeeds_after (by decide) parameter
  | repeated flag => exact lineFeeds_firstLine _
  | unneededValue flag value => exact lineFeeds_firstLine _
  | emptyFile => exact lineFeeds_firstLine _

end CommandLine

end DialectBindings
