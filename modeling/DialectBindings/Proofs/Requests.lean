import DialectBindings.CommandLine.Terminal
import DialectBindings.Proofs.Identifiers
import DialectBindings.Proofs.Octets
import Mathlib.Data.List.Induction
import Mathlib.Data.List.TakeWhile

/-!
# What a command line asks for

The arguments of a command line are words: files, flags, and what is neither. Some words offend: what
is neither file nor flag, a flag that was there before, and a file without a name. A command line is
rejected if a word offends before help is asked for, or if a dash alone is among the files and help
is not asked for. Any other command line asks for help, for the version, for nothing, or for one
batch over its files.
-/

set_option autoImplicit false

namespace DialectBindings.CommandLine
open Text

/-- What an argument, or a letter of a cluster of flags, says by itself. -/
inductive Word
  | file (name : Octets)
  | flag (flag : Flag)
  /-- An unknown flag, or a flag with a value. -/
  | stray
  deriving Repr, DecidableEq

namespace Word

def ofName (name : Octets) : Word :=
  if name = octets "write" then .flag .write
  else if name = octets "magic" then .flag .magic
  else if name = octets "version" then .flag .version
  else if name = octets "help" then .flag .help
  else .stray

def ofLetter (octet : UInt8) : Word :=
  match Char.ofNat octet.toNat with
  | 'w' => .flag .write
  | 'm' => .flag .magic
  | 'V' => .flag .version
  | 'h' => .flag .help
  | _ => .stray

def file? : Word → Option Path
  | .file name => some ⟨name⟩
  | _ => none

/-- Whether a word is wrong behind others. -/
def Offends (before : List Word) : Word → Prop
  | .stray => True
  | .file name => name = []
  | .flag f => .flag f ∈ before

end Word

/-- The words of arguments; behind two dashes alone there are only files. -/
def words : List Octets → List Word
  | [] => []
  | argument :: rest =>
    match argument with
    | [45, 45] => rest.map .file
    | 45 :: 45 :: name => .ofName name :: words rest
    | 45 :: first :: more => (first :: more).map .ofLetter ++ words rest
    | name => .file name :: words rest

def filesIn (ws : List Word) : List Path := ws.filterMap Word.file?

/-- Some word offends, and help is not asked for before it. -/
def Faulty (ws : List Word) : Prop :=
  ∃ before w after, ws = before ++ w :: after ∧ w.Offends before ∧ .flag .help ∉ before

def Rejected (ws : List Word) : Prop :=
  Faulty ws ∨ .flag .help ∉ ws ∧ .file [45] ∈ ws

theorem mem_filesIn {ws : List Word} {name : Octets} : ⟨name⟩ ∈ filesIn ws ↔ .file name ∈ ws := by
  rw [filesIn, List.mem_filterMap]
  constructor
  · rintro ⟨w, hw, hfile⟩
    cases w with
    | file other =>
      cases hfile
      exact hw
    | _ => cases hfile
  · exact fun h => ⟨_, h, rfl⟩

theorem Faulty.append {ws : List Word} (h : Faulty ws) (more : List Word) :
    Faulty (ws ++ more) := by
  obtain ⟨before, w, after, rfl, hw, hhelp⟩ := h
  exact ⟨before, w, after ++ more, by simp, hw, hhelp⟩

theorem faulty_of_offends {ws : List Word} {w : Word} (hw : w.Offends ws)
    (hhelp : .flag .help ∉ ws) (more : List Word) : Faulty (ws ++ w :: more) :=
  ⟨ws, w, more, rfl, hw, hhelp⟩

theorem faulty_concat {ws : List Word} {w : Word} :
    Faulty (ws ++ [w]) ↔ Faulty ws ∨ w.Offends ws ∧ .flag .help ∉ ws := by
  constructor
  · rintro ⟨before, v, after, h, hv, hhelp⟩
    rcases List.eq_nil_or_concat after with rfl | ⟨after, u, hafter⟩
    · obtain ⟨rfl, hvw⟩ := List.append_inj' h rfl
      cases hvw
      exact .inr ⟨hv, hhelp⟩
    · have hsplit : before ++ v :: (after ++ [u]) = (before ++ v :: after) ++ [u] := by simp
      rw [hafter, List.concat_eq_append, hsplit] at h
      obtain ⟨rfl, -⟩ := List.append_inj' h rfl
      exact .inl ⟨before, v, after, rfl, hv, hhelp⟩
  · rintro (h | ⟨hw, hhelp⟩)
    · exact h.append [w]
    · exact faulty_of_offends hw hhelp []

theorem not_faulty_append {ws : List Word} (hhelp : .flag .help ∈ ws) (h : ¬ Faulty ws)
    (more : List Word) : ¬ Faulty (ws ++ more) := by
  induction more using List.reverseRecOn with
  | nil => simpa using h
  | append_singleton more w ih =>
    rw [← List.append_assoc, faulty_concat]
    rintro (hf | ⟨-, hno⟩)
    · exact ih hf
    · exact hno (List.mem_append_left more hhelp)

/-! ## Reading word by word -/

/-- What was read of words: no help was asked for, and at most a file name is missing. -/
structure Holds (a : Arguments) (ws : List Word) : Prop where
  files : a.files = filesIn ws
  flags : ∀ f, f ∈ a.flags ↔ .flag f ∈ ws
  noHelp : .flag .help ∉ ws
  sound : Faulty ws → .file [] ∈ ws

def Reads (x : Except Stop Arguments) (ws : List Word) : Prop :=
  match x with
  | .ok a => Holds a ws
  | .error .help => .flag .help ∈ ws ∧ ¬ Faulty ws
  | .error (.fault _) => Faulty ws

theorem holds_none : Holds .none [] where
  files := rfl
  flags := fun f => by simp [Arguments.none]
  noHelp := nofun
  sound := by
    rintro ⟨before, w, after, h, -⟩
    cases before <;> cases h

theorem Reads.bind {x : Except Stop Arguments} {ws more : List Word}
    {next : Arguments → Except Stop Arguments} (hx : Reads x ws)
    (hn : ∀ a, Holds a ws → Reads (next a) (ws ++ more)) : Reads (x >>= next) (ws ++ more) := by
  cases x with
  | ok a => exact hn a hx
  | error stop =>
    cases stop with
    | help => exact ⟨List.mem_append_left more hx.1, not_faulty_append hx.1 hx.2 more⟩
    | fault fault => exact Faulty.append hx more

variable {a : Arguments} {ws : List Word}

theorem Holds.any_file (h : Holds a ws) (name : Octets) :
    (a.files.any fun p => decide (p.octets = name)) = true ↔ .file name ∈ ws := by
  rw [h.files, ← mem_filesIn, List.any_eq_true]
  constructor
  · rintro ⟨p, hp, hname⟩
    obtain rfl := of_decide_eq_true hname
    exact hp
  · exact fun hmem => ⟨_, hmem, decide_eq_true rfl⟩

theorem Holds.hasEmptyFile (h : Holds a ws) : a.hasEmptyFile = true ↔ .file [] ∈ ws :=
  h.any_file []

theorem faulty_of_empty (hhelp : .flag .help ∉ ws) (h : .file [] ∈ ws) : Faulty ws := by
  obtain ⟨before, after, rfl⟩ := List.append_of_mem h
  exact ⟨before, _, after, rfl, rfl, fun hmem => hhelp (List.mem_append_left _ hmem)⟩

theorem Holds.settle (h : Holds a ws) :
    a.settle = .ok a ∧ ¬ Faulty ws ∨ a.settle = .error (.fault .emptyFile) ∧ Faulty ws := by
  rw [Arguments.settle]
  by_cases he : a.hasEmptyFile = true
  · rw [if_pos he]
    exact .inr ⟨rfl, faulty_of_empty h.noHelp (h.hasEmptyFile.1 he)⟩
  · rw [if_neg he]
    exact .inl ⟨rfl, fun hf => he (h.hasEmptyFile.2 (h.sound hf))⟩

theorem Holds.takeFile (h : Holds a ws) (name : Octets) :
    Holds (a.takeFile name) (ws ++ [.file name]) where
  files := by
    rw [Arguments.takeFile, h.files]
    simp [filesIn, Word.file?]
  flags := fun f => by simp [Arguments.takeFile, h.flags]
  noHelp := by simpa using h.noHelp
  sound := by
    rw [faulty_concat]
    rintro (hf | ⟨rfl, -⟩)
    · exact List.mem_append_left _ (h.sound hf)
    · simp

theorem Holds.takeFlag (h : Holds a ws) (f : Flag) :
    Reads (a.takeFlag f) (ws ++ [.flag f]) := by
  rw [Arguments.takeFlag]
  obtain ⟨hs, hsound⟩ | ⟨hs, hfaulty⟩ := h.settle
  · rw [hs]
    change Reads (if f = .help then .error .help
      else if f ∈ a.flags then .error (.fault (.repeated f))
      else .ok { a with flags := a.flags ++ [f] }) _
    split
    · rename_i hf
      subst hf
      refine ⟨by simp, ?_⟩
      rw [faulty_concat]
      rintro (hf | ⟨hmem, hhelp⟩)
      · exact hsound hf
      · exact hhelp hmem
    · rename_i hne
      split
      · rename_i hmem
        exact faulty_concat.2 (.inr ⟨(h.flags f).1 hmem, h.noHelp⟩)
      · rename_i hnew
        exact {
          files := by simp [h.files, filesIn, Word.file?]
          flags := fun g => by simp [h.flags]
          noHelp := by simpa [h.noHelp] using fun he => hne he.symm
          sound := by
            rw [faulty_concat]
            rintro (hf | ⟨hmem, -⟩)
            · exact absurd hf hsound
            · exact absurd ((h.flags f).2 hmem) hnew }
  · rw [hs]
    exact hfaulty.append _

theorem Holds.stray (h : Holds a ws) (fault : UsageFault) (more : List Word) :
    Reads (.error (.fault fault)) (ws ++ .stray :: more) :=
  have hw : Word.stray.Offends ws := trivial
  faulty_of_offends hw h.noHelp more

/-! ## Flags after two dashes -/

theorem ofName_eq_flag {name : Octets} {f : Flag} (h : octets f.longName = name) :
    Word.ofName name = .flag f := by
  subst h
  cases f <;> decide +kernel

theorem ofName_eq_stray {name : Octets} (h : ∀ f : Flag, octets f.longName ≠ name) :
    Word.ofName name = .stray := by
  have hwrite : name ≠ octets "write" := (h .write).symm
  have hmagic : name ≠ octets "magic" := (h .magic).symm
  have hversion : name ≠ octets "version" := (h .version).symm
  have hhelp : name ≠ octets "help" := (h .help).symm
  rw [Word.ofName, if_neg hwrite, if_neg hmagic, if_neg hversion, if_neg hhelp]

theorem longName_plain (f : Flag) : ∀ o ∈ octets f.longName, decide (o ≠ 61) = true := by
  cases f <;> decide +kernel

theorem decode_longName (f : Flag) :
    (decode (octets f.longName)).toOption.bind Flag.ofLongName? = some f := by
  cases f <;> decide +kernel

theorem octets_of_longName {name : Octets} {f : Flag}
    (h : (decode name).toOption.bind Flag.ofLongName? = some f) : octets f.longName = name := by
  cases hd : decode name with
  | error fault =>
    rw [hd] at h
    cases h
  | ok text =>
    rw [hd] at h
    have hname := List.find?_some h
    rw [of_decide_eq_true hname, octets_decode hd]

theorem Holds.takeLong (h : Holds a ws) (body : Octets) :
    Reads (a.takeLong body) (ws ++ [.ofName body]) := by
  have hlong (f : Flag) (hf : octets f.longName = body) :
      body.takeWhile (fun o => decide (o ≠ 61)) = body := by
    subst hf
    exact List.takeWhile_eq_self_iff.2 (longName_plain f)
  have hbody : body.takeWhile (fun o => decide (o ≠ 61)) ++
      body.dropWhile (fun o => decide (o ≠ 61)) = body := List.takeWhile_append_dropWhile
  rw [Arguments.takeLong]
  generalize body.takeWhile (fun o => decide (o ≠ 61)) = name at hlong hbody ⊢
  generalize body.dropWhile (fun o => decide (o ≠ 61)) = value at hbody ⊢
  cases hfind : (decode name).toOption.bind Flag.ofLongName? with
  | none =>
    have hstray : Word.ofName body = .stray := by
      apply ofName_eq_stray
      intro f hf
      obtain rfl := hlong f hf
      rw [← hf, decode_longName] at hfind
      cases hfind
    rw [hstray]
    exact h.stray _ []
  | some f =>
    have hname := octets_of_longName hfind
    cases value with
    | nil =>
      rw [List.append_nil] at hbody
      rw [ofName_eq_flag (hname.trans hbody)]
      exact h.takeFlag f
    | cons sign value =>
      have hstray : Word.ofName body = .stray := by
        apply ofName_eq_stray
        intro g hg
        rw [hlong g hg] at hbody
        exact absurd (List.append_right_eq_self.1 hbody) (List.cons_ne_nil _ _)
      rw [hstray]
      exact h.stray _ []

/-! ## Letters after one dash -/

/-- Octets as text and remaining octets, as far as letters of flags are concerned: up to the first
octet that is no character by itself they are read one by one, and what is read from there on does
not begin with a letter. -/
inductive Spells : List Char → Octets → Octets → Prop
  | nil : Spells [] [] []
  | letter {octet : UInt8} (h : octet.toNat < 128) {text : List Char} {other body : Octets}
      (more : Spells text other body) :
      Spells (Char.ofNat octet.toNat :: text) other (octet :: body)
  | beyond {octet : UInt8} (h : 128 ≤ octet.toNat) {text : List Char} {other body : Octets}
      (htext : ∀ c ∈ text.head?, 128 ≤ c.toNat) (hother : text = [] → other ≠ []) :
      Spells text other (octet :: body)

theorem head_beyond {first : UInt8} (h : 128 ≤ first.toNat) {rest : Octets} {c : Char} {size : Nat}
    (hc : head first rest = .char c size) : 128 ≤ c.toNat := by
  by_contra hsmall
  have hfirst := ofNat_eq_iff.1 (head_ascii hc (Nat.lt_of_not_le hsmall))
  omega

theorem lenientChars_beyond {first : UInt8} (h : 128 ≤ first.toNat) (rest : Octets) :
    ∃ c more, lenientChars (first :: rest) = c :: more ∧ 128 ≤ c.toNat := by
  rw [lenientChars]
  split
  · rename_i c size hc
    exact ⟨c, _, rfl, head_beyond h hc⟩
  · exact ⟨_, _, rfl, by decide⟩
  · exact ⟨_, _, rfl, by decide⟩

def start : Utf8Fault → Nat
  | .invalid _ index => index
  | .incomplete index => index

/-- What strict reading makes of octets, whose text is read again, leniently, up to a fault. -/
def Strict (index : Nat) (body : Octets) : Except Utf8Fault (List Char) → Prop
  | .ok text => Spells text [] body
  | .error fault => index ≤ start fault ∧
      Spells (lenientChars (body.take (start fault - index))) (body.drop (start fault - index)) body

theorem spells_cut {first : UInt8} (h : 128 ≤ first.toNat) (rest : Octets) (size : Nat) :
    Spells (lenientChars ((first :: rest).take size)) ((first :: rest).drop size)
      (first :: rest) := by
  cases size with
  | zero => exact .beyond h (by simp [lenientChars]) fun _ => List.cons_ne_nil _ _
  | succ size =>
    obtain ⟨c, more, hc, hbeyond⟩ := lenientChars_beyond h (rest.take size)
    rw [List.take_succ_cons, hc]
    exact .beyond h (by simpa using hbeyond) fun hnil => absurd hnil (List.cons_ne_nil _ _)

theorem strict_letter {index : Nat} {first : UInt8} {rest : Octets} (h : first.toNat < 128)
    {x : Except Utf8Fault (List Char)} (hx : Strict (index + 1) rest x) :
    Strict index (first :: rest) (x.map (Char.ofNat first.toNat :: ·)) := by
  cases x with
  | ok text => exact .letter h hx
  | error fault =>
    obtain ⟨hstart, hspells⟩ := hx
    have hsize : start fault - index = start fault - (index + 1) + 1 := by omega
    refine ⟨Nat.le_of_succ_le hstart, ?_⟩
    rw [hsize, List.take_succ_cons, List.drop_succ_cons, lenientChars_letter h]
    exact .letter h hspells

theorem strict_beyond {index size : Nat} {first : UInt8} {rest left : Octets} {c : Char}
    (h : 128 ≤ first.toNat) (hc : 128 ≤ c.toNat) {x : Except Utf8Fault (List Char)}
    (hx : Strict (index + size) left x) : Strict index (first :: rest) (x.map (c :: ·)) := by
  cases x with
  | ok text => exact .beyond h (by simpa using hc) nofun
  | error fault => exact ⟨Nat.le_of_add_right_le hx.1, spells_cut h rest _⟩

theorem strict_decodeFrom (index : Nat) (body : Octets) :
    Strict index body (decodeFrom index body) := by
  fun_induction decodeFrom index body with
  | case1 index => exact .nil
  | case2 index first rest c size hh ih =>
    rcases Nat.lt_or_ge first.toNat 128 with h | h
    · rw [head_letter h] at hh
      cases hh
      exact strict_letter h ih
    · exact strict_beyond h (head_beyond h hh) ih
  | case3 index first rest size hh =>
    rcases Nat.lt_or_ge first.toNat 128 with h | h
    · rw [head_letter h] at hh
      cases hh
    · exact ⟨Nat.le_refl index, spells_cut h rest _⟩
  | case4 index first rest hh =>
    rcases Nat.lt_or_ge first.toNat 128 with h | h
    · rw [head_letter h] at hh
      cases hh
    · exact ⟨Nat.le_refl index, spells_cut h rest _⟩

theorem spells_cutText (body : Octets) :
    Spells (Arguments.cutText body).1 (Arguments.cutText body).2 body := by
  have h := strict_decodeFrom 0 body
  rw [Arguments.cutText, decode]
  cases hd : decodeFrom 0 body with
  | ok text =>
    rw [hd] at h
    simp only [Except.map, String.toList_ofList]
    exact h
  | error fault =>
    rw [hd] at h
    cases fault <;> exact h.2

theorem ofLetter?_beyond {c : Char} (h : 128 ≤ c.toNat) : Flag.ofLetter? c = none := by
  rw [Flag.ofLetter?, List.find?_eq_none]
  intro f _ hf
  obtain rfl := of_decide_eq_true hf
  cases f <;> exact absurd h (by decide)

theorem ofLetter_eq (octet : UInt8) :
    Word.ofLetter octet = (Flag.ofLetter? (Char.ofNat octet.toNat)).elim .stray .flag := by
  rw [Word.ofLetter]
  generalize Char.ofNat octet.toNat = c
  split
  case h_5 hw hm hv hh =>
    have hnone : Flag.ofLetter? c = none := by
      rw [Flag.ofLetter?, List.find?_eq_none]
      intro f _ hf
      obtain rfl := of_decide_eq_true hf
      cases f
      exacts [hw rfl, hm rfl, hv rfl, hh rfl]
    rw [hnone]
    rfl
  all_goals rfl

theorem Holds.takeLetters {text : List Char} {other body : Octets} (hb : Spells text other body)
    (h : Holds a ws) :
    Reads (a.takeLetters other text) (ws ++ body.map .ofLetter) := by
  induction hb generalizing a ws with
  | nil =>
    rw [List.map_nil, List.append_nil]
    exact h
  | @letter octet hoctet text other body hb ih =>
    rw [Arguments.takeLetters, List.map_cons, ofLetter_eq]
    cases Flag.ofLetter? (Char.ofNat octet.toNat) with
    | none => exact h.stray _ _
    | some f =>
      rw [List.append_cons]
      exact (h.takeFlag f).bind fun b hb => ih hb
  | @beyond octet hoctet text other body htext hother =>
    have hstray : Word.ofLetter octet = .stray := by
      have hv : octet.toNat.isValidChar := .inl (by have := octet.toNat_lt; omega)
      rw [ofLetter_eq, ofLetter?_beyond (hoctet.trans_eq (val_ofNat hv).symm)]
      rfl
    rw [List.map_cons, hstray]
    cases text with
    | nil =>
      rw [Arguments.takeLetters, if_neg (hother rfl)]
      exact h.stray _ _
    | cons c text =>
      rw [Arguments.takeLetters, ofLetter?_beyond (htext c rfl)]
      exact h.stray _ _

/-! ## All arguments -/

def Ends (x : Except Stop Arguments) (ws : List Word) : Prop :=
  Reads x ws ∧ ∀ a, x = .ok a → ¬ Faulty ws

theorem Reads.andThen {x : Except Stop Arguments} {ws more : List Word}
    {next : Arguments → Except Stop Arguments} (hx : Reads x ws)
    (hn : ∀ a, Holds a ws → Ends (next a) (ws ++ more)) : Ends (x >>= next) (ws ++ more) := by
  refine ⟨hx.bind fun a ha => (hn a ha).1, ?_⟩
  cases x with
  | ok a => exact (hn a hx).2
  | error stop => nofun

theorem Holds.ends (h : Holds a ws) : Ends a.settle ws := by
  obtain ⟨hs, hsound⟩ | ⟨hs, hfaulty⟩ := h.settle
  · rw [hs]
    exact ⟨h, fun _ _ => hsound⟩
  · rw [hs]
    exact ⟨hfaulty, nofun⟩

theorem Holds.takeFiles (h : Holds a ws) (names : List Octets) :
    Holds (names.foldl Arguments.takeFile a) (ws ++ names.map .file) := by
  induction names generalizing a ws with
  | nil => simpa using h
  | cons name names ih =>
    rw [List.foldl_cons, List.map_cons, List.append_cons]
    exact ih (h.takeFile name)

theorem Holds.takeAll (h : Holds a ws) (arguments : List Octets) :
    Ends (a.takeAll arguments) (ws ++ words arguments) := by
  induction arguments generalizing a ws with
  | nil =>
    rw [words, List.append_nil]
    exact h.ends
  | cons argument rest ih =>
    rw [Arguments.takeAll.eq_def]
    dsimp only
    split
    · exact (h.takeFiles rest).ends
    · rename_i body hbody
      rw [words.eq_3 _ _ hbody, List.append_cons]
      exact (h.takeLong _).andThen fun b hb => ih hb
    · rename_i first more hend hlong
      rw [words.eq_4 _ _ _ hend hlong, ← List.append_assoc]
      exact (h.takeLetters (spells_cutText _)).andThen fun b hb => ih hb
    · rename_i hend hlong hletters
      rw [words.eq_5 _ _ hend hlong hletters, List.append_cons]
      exact ih (h.takeFile _)

/-! ## What is asked for -/

def optionsIn (ws : List Word) : BatchOptions where
  write := .flag .write ∈ ws ∨ .flag .magic ∈ ws
  magic := .flag .magic ∈ ws

def Asks (ws : List Word) : Request → Prop
  | .refused _ => Rejected ws
  | .help => ¬ Rejected ws ∧ .flag .help ∈ ws
  | .version => ¬ Rejected ws ∧ .flag .help ∉ ws ∧ .flag .version ∈ ws
  | .nothing => ¬ Rejected ws ∧ .flag .help ∉ ws ∧ filesIn ws = []
  | .generate files options => ¬ Rejected ws ∧ .flag .help ∉ ws ∧ .flag .version ∉ ws ∧
      filesIn ws ≠ [] ∧ files = filesIn ws ∧ options = optionsIn ws

theorem Holds.options (h : Holds a ws) : Request.options a = optionsIn ws := by
  simp [Request.options, optionsIn, h.flags]

theorem Holds.asks (h : Holds a ws) (hsound : ¬ Faulty ws) : Asks ws (.ofArguments a) := by
  rw [Request.ofArguments]
  by_cases hdash : a.files.any (·.octets = [45]) = true
  · rw [if_pos hdash]
    exact .inr ⟨h.noHelp, (h.any_file [45]).1 hdash⟩
  · rw [if_neg hdash]
    have hkept : ¬ Rejected ws := fun hrej =>
      hrej.elim hsound fun hmem => hdash ((h.any_file [45]).2 hmem.2)
    by_cases hversion : Flag.version ∈ a.flags
    · rw [if_pos hversion]
      exact ⟨hkept, h.noHelp, (h.flags .version).1 hversion⟩
    · rw [if_neg hversion]
      by_cases hfiles : a.files = []
      · rw [if_pos hfiles]
        exact ⟨hkept, h.noHelp, h.files.symm.trans hfiles⟩
      · rw [if_neg hfiles]
        exact ⟨hkept, h.noHelp, fun hmem => hversion ((h.flags .version).2 hmem),
          fun hnil => hfiles (h.files.trans hnil), h.files, h.options⟩

/-- The request that is read is the one that the words ask for. -/
theorem read_asks (arguments : List Octets) : Asks (words arguments) (.read arguments) := by
  obtain ⟨hreads, hends⟩ := holds_none.takeAll arguments
  rw [List.nil_append] at hreads hends
  rw [Request.read]
  cases hx : Arguments.none.takeAll arguments with
  | ok a =>
    rw [hx] at hreads
    exact Holds.asks hreads (hends a hx)
  | error stop =>
    rw [hx] at hreads
    cases stop with
    | help =>
      obtain ⟨hhelp, hsound⟩ := hreads
      exact ⟨fun hrej => hrej.elim hsound fun hdash => hdash.1 hhelp, hhelp⟩
    | fault fault => exact .inl hreads

/-! ## What is done -/

def outcome (arguments : List Octets) (tree : FileTree) : Exit × Terminal :=
  (run arguments : StateM Terminal Exit) (.start tree)

def batchOnce (ws : List Word) (before : Terminal) : Except Failure BatchReport × Terminal :=
  (Batch.run .bindings (filesIn ws) (optionsIn ws) .standard : Host.Step (StateM Terminal) _) before

theorem perform_generate (ws : List Word) (before : Terminal) :
    (perform (.generate (filesIn ws) (optionsIn ws)) : StateM Terminal Exit) before =
      match batchOnce ws before with
      | (.ok _, done) => (.success, done)
      | (.error failure, done) =>
        (.failure, { done with errors := done.errors ++ complaint failure.message }) := by
  rw [perform, batchOnce]
  generalize (Batch.run .bindings (filesIn ws) (optionsIn ws) .standard :
    Host.Step (StateM Terminal) _) = batch
  simp only [ExceptT.run, bind, StateT.bind]
  rcases batch before with ⟨result, done⟩
  cases result <;> rfl

/-- A command line ends in one of three ways. It is refused if it is rejected, and then, as for
help, for the version and for no files, the tree is left alone; any other command line runs one
batch over its files, in their order, and succeeds if that does. -/
theorem run_arguments (arguments : List Octets) (tree : FileTree) :
    let ws := words arguments
    let exit := (outcome arguments tree).1
    let after := (outcome arguments tree).2
    (exit.code = 0 ∨ exit.code = 1 ∨ exit.code = 2) ∧
    (exit.code = 2 ↔ Rejected ws) ∧
    (Rejected ws → after.output = [] ∧ after.tree = tree) ∧
    (.flag .help ∈ ws ∨ .flag .version ∈ ws ∨ filesIn ws = [] → after.tree = tree) ∧
    (¬ Rejected ws → .flag .help ∉ ws → .flag .version ∉ ws → filesIn ws ≠ [] →
      match batchOnce ws (.start tree) with
      | (.ok _, done) => exit.code = 0 ∧ after = done
      | (.error failure, done) =>
        exit.code = 1 ∧
          after = { done with errors := done.errors ++ complaint failure.message }) := by
  intro ws
  have hasks : Asks ws (.read arguments) := read_asks arguments
  have hout : outcome arguments tree =
      (perform (.read arguments) : StateM Terminal Exit) (.start tree) := rfl
  rw [hout]
  cases hr : Request.read arguments with
  | help =>
    rw [hr] at hasks
    obtain ⟨hkept, hhelp⟩ := hasks
    exact ⟨.inl rfl, iff_of_false nofun hkept, fun h => absurd h hkept, fun _ => rfl,
      fun _ h => absurd hhelp h⟩
  | version =>
    rw [hr] at hasks
    obtain ⟨hkept, -, hversion⟩ := hasks
    exact ⟨.inl rfl, iff_of_false nofun hkept, fun h => absurd h hkept, fun _ => rfl,
      fun _ _ h => absurd hversion h⟩
  | refused fault =>
    rw [hr] at hasks
    exact ⟨.inr (.inr rfl), iff_of_true rfl hasks, fun _ => ⟨rfl, rfl⟩, fun _ => rfl,
      fun h => absurd hasks h⟩
  | nothing =>
    rw [hr] at hasks
    obtain ⟨hkept, -, hfiles⟩ := hasks
    exact ⟨.inr (.inl rfl), iff_of_false nofun hkept, fun h => absurd h hkept, fun _ => rfl,
      fun _ _ _ h => absurd hfiles h⟩
  | generate files options =>
    rw [hr] at hasks
    obtain ⟨hkept, hhelp, hversion, hfiles, rfl, rfl⟩ := hasks
    rw [perform_generate]
    rcases batchOnce ws (.start tree) with ⟨result, done⟩
    have hno : ¬ (.flag .help ∈ ws ∨ .flag .version ∈ ws ∨ filesIn ws = []) := by
      rintro (h | h | h)
      exacts [hhelp h, hversion h, hfiles h]
    cases result with
    | ok report =>
      exact ⟨.inl rfl, iff_of_false nofun hkept, fun h => absurd h hkept,
        fun h => absurd h hno, fun _ _ _ _ => ⟨rfl, rfl⟩⟩
    | error failure =>
      exact ⟨.inr (.inl rfl), iff_of_false nofun hkept, fun h => absurd h hkept,
        fun h => absurd h hno, fun _ _ _ _ => ⟨rfl, rfl⟩⟩

example : words (["-mw", "b.xml", "--", "--help"].map octets) =
    [.flag .magic, .flag .write, .file (octets "b.xml"), .file (octets "--help")] := by
  decide +kernel

end DialectBindings.CommandLine
