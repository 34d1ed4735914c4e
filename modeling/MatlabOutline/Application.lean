import MatlabOutline.Archive.Zip
import MatlabOutline.Docstring.Basic
import MatlabOutline.Entity.Basic
import MatlabOutline.Xml.Node

/-!
Applications: archives with a member of metadata, which documents the application.
-/

namespace MatlabOutline

/-- Why a file cannot be loaded, apart from faults in its source text. -/
inductive LoadError
  | read (f : ReadFault)
  | archive (f : ArchiveFault)
  | missingMetadata
  /-- The metadata is not XML, or a field occurs twice or holds elements. -/
  | metadata
deriving DecidableEq, Repr

namespace LoadError

def message : LoadError → String
  | read f => "I/O error: " ++ f.message
  | archive f => "Invalid application archive: " ++ f.message
  | missingMetadata => "Application archive lacks `metadata/appMetadata.xml`."
  | metadata => "Invalid application metadata: ill-formed document"

end LoadError

/-- What an application says of itself. -/
structure AppMetadata where
  name : String := ""
  summary : String := ""
  description : String := ""
deriving DecidableEq, Repr

namespace AppMetadata

/-- The member of an archive that holds the metadata. -/
def memberName : String :=
  "metadata/appMetadata.xml"

/-- The fields that are read. -/
def keys : List String :=
  ["name", "summary", "description"]

/-- Whether an element called `name` is the field `key`, whatever its namespace. The key may also
stand behind `ns2:`. -/
def isField (key : String) (name : List Char) : Bool :=
  [key.toList, ("ns2:" ++ key).toList].contains (Xml.localName name)

/-- The contents of the elements that are the field `key`. -/
def elements (key : String) (children : List Xml.Node) : List (List Xml.Node) :=
  children.filterMap fun
    | .element name _ inner => if isField key name then some inner else none
    | _ => none

/-- The text of a field, empty if the field is absent. A field occurs at most once. -/
def field (key : String) (children : List Xml.Node) : Option String :=
  match elements key children with
  | [] => some ""
  | [inner] => Xml.textOf inner
  | _ => none

/-- Whether a child of the root is sound as far as that is looked at: text has no unknown
references, and of elements other than the fields only a part is seen. -/
def childFits : Xml.Node → Bool
  | .element name attributes inner =>
    Xml.bindingsFit attributes && (keys.any (isField · name) || Xml.skippedFits inner)
  | piece => (Xml.pieceText piece).isSome

/-- Reads metadata. Elements other than the fields are skipped. -/
def ofXml (text : String) : Option AppMetadata :=
  match Xml.parse text with
  | some (.element _ attributes children) =>
    if Xml.bindingsFit attributes && Xml.attributesFit attributes && children.all childFits then do
      let name ← field "name" children
      let summary ← field "summary" children
      let description ← field "description" children
      return { name, summary, description }
    else none
  | _ => none

/-- The summary and the description with an empty line between them. -/
def docstring (m : AppMetadata) : Option String :=
  let parts := ([m.summary, m.description].map fun s => Text.trim s.toList).filter (!·.isEmpty)
  Docstring.ofText ("\n\n".intercalate (parts.map String.ofList))

/-- A remark on an application that goes by another name than its file. -/
def remark? (m : AppMetadata) (name : String) : Option String :=
  if m.name.isEmpty || m.name = name then none
  else some ("application `" ++ name ++ "` calls itself `" ++ m.name ++ "`")

/-- Reads the metadata in an archive. -/
def ofArchive (bytes : Bytes) : Except LoadError AppMetadata := do
  let members ← (Zip.members bytes).mapError .archive
  let wanted := memberName.toUTF8.toList
  let some m := members.reverse.find? (·.name = wanted) | throw .missingMetadata
  let packed ← (Zip.packed bytes m).mapError .archive
  let contents ← (Zip.unpack m packed).mapError .read
  let some text := Utf8.decode? contents | throw (.read .notUtf8)
  let some metadata := ofXml text | throw .metadata
  return metadata

end AppMetadata

/-- Reads the application in an archive, with a remark if it goes by another name. -/
def readApplication (bytes : Bytes) (name scope : String) :
    Except LoadError (ApplicationDoc × Option String) :=
  (AppMetadata.ofArchive bytes).map fun m =>
    ({ name, scope, doc := m.docstring }, m.remark? name)

end MatlabOutline
