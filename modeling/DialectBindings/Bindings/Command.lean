import DialectBindings.Bindings.Enum

/-!
# Command classes

Every entry of the enum of commands becomes a class. Its labelled parameters are reached through
accessors; of two accessors with one name the first is kept.
-/

set_option autoImplicit false

namespace DialectBindings.Bindings
open Identifier Listing

def accessorName (label : String) : String :=
  let name := camelChars (label.toList.map fun c => if c.isAlphanum then c else '_')
  String.ofList (if startsWithDigit name then "param".toList ++ name else name)

def commandClass (entry : String) : String :=
  let name := pascalChars ((memberChars commandEnum.toList entry.toList).filter (· != '\''))
  if startsWithDigit name then pascal commandEnum ++ String.ofList name ++ "Command"
  else String.ofList name ++ "Command"

structure Accessor where
  name : String
  param : Param
  deriving Repr, DecidableEq

def accessor? (p : Param) : Option Accessor :=
  match p.label with
  | none => none
  | some label =>
    let name := accessorName label
    if name = "" then none else some ⟨name, p⟩

/-- The accessors whose names are neither among those seen nor met before. -/
def firstOfName (seen : List String) : List Accessor → List Accessor
  | [] => []
  | a :: rest =>
    if a.name ∈ seen then firstOfName seen rest else a :: firstOfName (a.name :: seen) rest

def accessors (e : Entry) : List Accessor := firstOfName [] (e.params.filterMap accessor?)

def accessorLines (a : Accessor) : List Directive :=
  let store := "this._param" ++ toString a.param.index.toNat
  [.blank,
    .doc (a.param.description :: (a.param.units.map ("@units " ++ ·)).toList),
    .line ("get " ++ a.name ++ "() \x7b")] ++
    indented [.line ("return " ++ store)] ++
    [.line "\x7d", .line ("set " ++ a.name ++ "(value: number) \x7b")] ++
    indented [.line (store ++ " = value")] ++ [.line "\x7d"]

def commandAccess (enum : Enum) (e : Entry) : String :=
  memberAccess (pascal enum.name) enum.name e.name

def commandConstructor (enum : Enum) (e : Entry) : List Directive :=
  .line "constructor(targetSystem = 1, targetComponent = 1) \x7b" ::
    indented [.line "super()",
      .line "this.targetSystem = targetSystem",
      .line "this.targetComponent = targetComponent",
      .line ("this.command = " ++ commandAccess enum e ++ " as number")] ++ [.line "\x7d"]

def commandDeclaration (enum : Enum) (e : Entry) : List Directive :=
  [.doc (e.description :: (e.deprecated.map deprecationTag).toList),
    .line ("export class " ++ commandClass e.name ++ " extends CommandLong \x7b")] ++
    indented (commandConstructor enum e ++ (accessors e).flatMap accessorLines) ++
    [.line "\x7d", .blank]

end DialectBindings.Bindings
