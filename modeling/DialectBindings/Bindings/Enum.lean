import DialectBindings.Dialect
import DialectBindings.Identifier
import DialectBindings.Listing

/-!
# Enum declarations

An enum of the dialect becomes an enum of the module with one member for every entry. What is
known of an enum or entry goes into a documentation comment before it.
-/

set_option autoImplicit false

namespace DialectBindings.Bindings
open Identifier Listing

def deprecationTag (d : Deprecation) : String :=
  "@deprecated" ++ (d.since.elim "" (" since " ++ ·)) ++
    (d.replacedBy.elim "" (", replaced by " ++ ·)) ++
    (if d.note = "" then "" else "; " ++ d.note)

def wipTag (wip : Bool) : List String := if wip then ["@wip"] else []

def memberLine (enum : String) (e : Entry) : String :=
  member enum e.name ++ " = " ++ toString e.value.toNat ++ ","

def enumMember (enum : String) (e : Entry) : List Directive :=
  [.doc (e.description :: wipTag e.wip ++ (e.deprecated.map deprecationTag).toList),
    .line (memberLine enum e)]

def enumDeclaration (e : Enum) : List Directive :=
  [.doc (e.description :: (e.deprecated.map deprecationTag).toList),
    .line ("export enum " ++ pascal e.name ++ " \x7b")] ++
    indented (e.entries.flatMap (enumMember e.name)) ++ [.line "\x7d", .blank]

end DialectBindings.Bindings
