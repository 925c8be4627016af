import DialectBindings.Text.Numeral
import DialectBindings.Text.Quoted
import DialectBindings.Text.Utf8

/-!
# Faults of a marked-up document

What can be wrong with a document or with the record read from it, and how each is worded.
-/

set_option autoImplicit false

namespace DialectBindings.Markup
open Text

inductive ReferenceFault
  /-- The octets of the name in the text that is read, and the name. -/
  | unknown (start stop : Nat) (name : List Char)
  | unterminated (start stop : Nat)
  | numeral (fault : NumeralFault)
  | sign
  | zero
  | notCharacter (code : Nat)
  deriving Repr, DecidableEq

inductive AttributeFault
  | noEquals
  | noValue
  | unquoted
  | unclosedQuote (quote : Char)
  | duplicate (previous : Nat)
  deriving Repr, DecidableEq

inductive BindingFault
  /-- A reserved prefix is bound to a name of another namespace. -/
  | reservedPrefix (name uri : List Char)
  /-- A reserved namespace gets another prefix. -/
  | reservedNamespace (name uri : List Char)
  deriving Repr, DecidableEq

inductive Expected
  | word
  | byte
  | boolean
  | definition
  | record
  deriving Repr, DecidableEq

inductive Fault
  | unclosedTag
  | unclosedInstruction
  | unclosedComment
  | unclosedData
  | unclosedDoctype
  | unknownMarkup
  | namelessDoctype
  | unclosedReference
  | mismatchedEnd (expected found : List Char)
  | unmatchedEnd (name : List Char)
  | missingEnd (name : List Char)
  | binding (fault : BindingFault)
  | reference (fault : ReferenceFault)
  | attribute (position : Nat) (fault : AttributeFault)
  | unexpectedElement (name : List Char)
  | noElement
  | wrongType (text : List Char) (expected : Expected)
  | missing (key : String)
  | duplicate (key : String)
  deriving Repr, DecidableEq

def numeralMessage : NumeralFault → String
  | .empty => "cannot parse integer from empty string"
  | .notDigit => "invalid digit found in string"
  | .tooLarge => "number too large to fit in target type"

def ReferenceFault.message : ReferenceFault → String
  | .unknown start stop name =>
    s!"at {start}..{stop}: unrecognized entity " ++ "`" ++ String.ofList name ++ "`"
  | .unterminated start stop =>
    s!"Error while escaping character at range {start}..{stop}: Cannot find ';' after '&'"
  | .numeral fault => "invalid character reference: " ++ numeralMessage fault
  | .sign => "invalid character reference: unexpected number sign"
  | .zero => "invalid character reference: 0x0 character is not permitted in XML"
  | .notCharacter code =>
    "invalid character reference: `" ++ toString code ++ "` is not a valid codepoint"

def AttributeFault.message : AttributeFault → String
  | .noEquals => "attribute key must be directly followed by `=` or space"
  | .noValue => "`=` must be followed by an attribute value"
  | .unquoted => "attribute value must be enclosed in `\"` or `'`"
  | .unclosedQuote quote =>
    "missing closing quote `" ++ String.ofList [quote] ++ "` in attribute value"
  | .duplicate previous =>
    s!"duplicated attribute, previous declaration at position {previous}"

def BindingFault.message : BindingFault → String
  | .reservedPrefix name uri =>
    "the namespace prefix '" ++ String.ofList name ++ "' cannot be bound to '" ++
      quotedOctets (encode uri) ++ "'"
  | .reservedNamespace name uri =>
    "the namespace prefix '" ++ quotedOctets (encode name) ++ "' cannot be bound to '" ++
      String.ofList uri ++ "'"

def Expected.name : Expected → String
  | .word => "u32"
  | .byte => "u8"
  | .boolean => "a boolean"
  | .definition => "struct DefinitionXml"
  | .record => "a record"

def endTag (name : List Char) : String := "`</" ++ String.ofList name ++ ">`"

def Fault.message : Fault → String
  | .unclosedTag => "syntax error: tag not closed: `>` not found before end of input"
  | .unclosedInstruction =>
    "syntax error: processing instruction or xml declaration not closed: `?>` not found before end of input"
  | .unclosedComment => "syntax error: comment not closed: `-->` not found before end of input"
  | .unclosedData => "syntax error: CDATA not closed: `]]>` not found before end of input"
  | .unclosedDoctype => "syntax error: DOCTYPE not closed: `>` not found before end of input"
  | .unknownMarkup => "syntax error: unknown or missed symbol in markup"
  | .namelessDoctype =>
    "ill-formed document: `<!DOCTYPE>` declaration does not contain a name of a document type"
  | .unclosedReference =>
    "ill-formed document: entity or character reference not closed: `;` not found before end of input"
  | .mismatchedEnd expected found =>
    "ill-formed document: expected " ++ endTag expected ++ ", but " ++ endTag found ++ " was found"
  | .unmatchedEnd name =>
    "ill-formed document: close tag " ++ endTag name ++ " does not match any open tag"
  | .missingEnd name =>
    "ill-formed document: start tag not closed: " ++ endTag name ++ " not found before end of input"
  | .binding fault => fault.message
  | .reference fault => fault.message
  | .attribute position fault =>
    s!"error while parsing attribute: position {position}: " ++ fault.message
  | .unexpectedElement name =>
    "unexpected `Event::Start(" ++ quotedOctets (encode name) ++ ")`"
  | .noElement => "unexpected `Event::Eof`"
  | .wrongType text expected =>
    "invalid type: string " ++ quoted (String.ofList text) ++ ", expected " ++ expected.name
  | .missing key => "missing field `" ++ key ++ "`"
  | .duplicate key => "duplicate field `" ++ key ++ "`"

end DialectBindings.Markup
