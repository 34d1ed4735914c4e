import MatlabOutline.Attribute.Value

/-!
What can be wrong with a declaration. A fault leaves no usable result; a warning is worked
around. The words of the messages are here and nowhere else.
-/

namespace MatlabOutline

/-- What a declaration should have held at some place. -/
inductive Expected
  | outputsOrName
  | parameterName
  | commaOrParenthesis
  | attributeName
  | attributeValue
  | className
  | closingBrace
deriving DecidableEq, Repr

/-- Why a source unit cannot be read. -/
inductive Fault
  | missingFunctionName
  | missingClassName
  | malformedSignature (expected : Expected) (found : String)
  | unknownAttribute (vocabulary name : String)
  | malformedAttributes (expected : Expected) (found : String)
deriving DecidableEq, Repr

/-- The blocks that a warning can name. -/
inductive BlockKind
  | properties
  | methods
  | events
  | enumeration
  | arguments
deriving DecidableEq, Repr

/-- A problem that reading works around. -/
inductive Warning
  | nameMismatch (declared expected : String)
  | attributeKind (name : String) (expected : AttrKind) (value : AttrValue)
  /-- A token that no class body holds. -/
  | unexpectedToken (found : String)
  | unexpectedInBlock (found : String) (block : BlockKind)
  | invalidSize (name : String)
  | unterminatedBlock (block : BlockKind)
  | unterminatedClass (name : String)
deriving DecidableEq, Repr

namespace Expected

def text : Expected → String
  | outputsOrName => "output arguments or a function name"
  | parameterName => "a parameter name"
  | commaOrParenthesis => "`,` or `)`"
  | attributeName => "an attribute name"
  | attributeValue => "an attribute value"
  | className => "a class name after `?`"
  | closingBrace => "`\x7d`"

end Expected

namespace Fault

def message : Fault → String
  | missingFunctionName => "Function declaration lacks a name."
  | missingClassName => "Class declaration lacks a name."
  | malformedSignature expected found =>
    "Expected " ++ expected.text ++ " in function signature but found " ++ found ++ "."
  | unknownAttribute vocabulary name => "Unknown " ++ vocabulary ++ " attribute `" ++ name ++ "`."
  | malformedAttributes expected found =>
    "Expected " ++ expected.text ++ " in attribute list but found " ++ found ++ "."

end Fault

namespace BlockKind

def word : BlockKind → String
  | properties => "properties"
  | methods => "methods"
  | events => "events"
  | enumeration => "enumeration"
  | arguments => "arguments"

end BlockKind

namespace Warning

def message : Warning → String
  | nameMismatch declared expected =>
    "Declared name `" ++ declared ++ "` does not match expected name `" ++ expected ++ "`."
  | attributeKind name expected value =>
    "Attribute `" ++ name ++ "` should be " ++ expected.display ++ ", not `" ++ value.display ++
      "`."
  | unexpectedToken found =>
    "Unexpected " ++ found ++ " in class body.  Skipping to the end of the line."
  | unexpectedInBlock found block =>
    "Unexpected " ++ found ++ " in " ++ block.word ++
      " block.  Skipping to the end of the line."
  | invalidSize name => "Invalid size specification for `" ++ name ++ "`."
  | unterminatedBlock block => "End of input inside " ++ block.word ++ " block."
  | unterminatedClass name => "End of input before `end` of class `" ++ name ++ "`."

end Warning

end MatlabOutline
