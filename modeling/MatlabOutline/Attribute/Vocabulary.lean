import MatlabOutline.Attribute.Value
import MatlabOutline.Text.CaseFold

/-!
The attributes that each kind of declaration accepts.
-/

namespace MatlabOutline

/-- A closed list of attributes: their spellings and the kinds of their values. -/
structure Vocabulary where
  /-- The kind of declaration, as messages name it. -/
  name : String
  attributes : List (String × AttrKind)
deriving DecidableEq, Repr

namespace Vocabulary

/-- The spelling and the kind of the attribute that `name` means, in any letter case. -/
def lookup (v : Vocabulary) (name : String) : Option (String × AttrKind) :=
  v.attributes.find? fun (spelling, _) => CaseFold.sameAs spelling name

def ofClass : Vocabulary where
  name := "class"
  attributes :=
    [("Abstract", .bool), ("AllowedSubclasses", .classes), ("ConstructOnLoad", .bool),
      ("HandleCompatible", .bool), ("Hidden", .bool), ("InferiorClasses", .classes),
      ("Sealed", .bool), ("Description", .string), ("DetailedDescription", .string),
      ("Framework", .name)]

def ofProperty : Vocabulary where
  name := "property"
  attributes :=
    [("AbortSet", .bool), ("Abstract", .bool), ("Access", .access), ("Constant", .bool),
      ("Dependent", .bool), ("GetAccess", .access), ("GetObservable", .bool), ("Hidden", .bool),
      ("NonCopyable", .bool), ("PartialMatchPriority", .number), ("SetAccess", .access),
      ("SetObservable", .bool), ("Transient", .bool), ("ClassSetupParameter", .bool),
      ("MethodSetupParameter", .bool), ("TestParameter", .bool), ("Description", .string),
      ("DetailedDescription", .string)]

def ofMethod : Vocabulary where
  name := "method"
  attributes :=
    [("Abstract", .bool), ("Access", .access), ("Hidden", .bool), ("Sealed", .bool),
      ("Static", .bool), ("Test", .bool), ("TestClassSetup", .bool), ("TestMethodSetup", .bool),
      ("TestClassTeardown", .bool), ("TestMethodTeardown", .bool),
      ("ParameterCombination", .string), ("TestTags", .list), ("Description", .string),
      ("DetailedDescription", .string)]

def ofEvents : Vocabulary where
  name := "events"
  attributes :=
    [("Hidden", .bool), ("ListenAccess", .access), ("NotifyAccess", .access),
      ("Description", .string), ("DetailedDescription", .string)]

def ofEnumeration : Vocabulary where
  name := "enumeration"
  attributes := [("Hidden", .bool)]

def ofArguments : Vocabulary where
  name := "arguments"
  attributes := [("Input", .bool), ("Output", .bool), ("Repeating", .bool)]

def all : List Vocabulary :=
  [ofClass, ofProperty, ofMethod, ofEvents, ofEnumeration, ofArguments]

end Vocabulary

end MatlabOutline
