import MatlabOutline.Entity.Basic

/-!
Entities as JSON values, with their fields in a fixed order.
-/

namespace MatlabOutline

def Dimension.toJson : Dimension → JsonValue
  | fixed n => .nat n
  | any => .str ":"

def AttrValue.toJson : AttrValue → JsonValue
  | bool b => .bool b
  | string s => .str s
  | list items => .ofStrs items
  | name s => .str s

def Table.toJson {α : Type} (f : α → JsonValue) (t : Table α) : JsonValue :=
  .obj (t.map f).entries

def ValueSpec.fields (s : ValueSpec) : List (String × JsonValue) :=
  [("size", .ofOption (fun dims => .arr (dims.map Dimension.toJson)) s.size),
    ("type_name", .ofStr? s.typeName),
    ("validators", .ofOption .ofStrs s.validators),
    ("default", .ofStr? s.default),
    ("docstring", .ofStr? s.doc)]

def Argument.toJson (a : Argument) : JsonValue :=
  .obj (("name", .str a.name) :: a.spec.fields)

def FunctionDoc.fields (f : FunctionDoc) : List (String × JsonValue) :=
  [("name", .str f.name), ("namespace", .str f.scope), ("docstring", .ofStr? f.doc),
    ("args", .arr (f.args.map Argument.toJson)), ("retv", .arr (f.returns.map Argument.toJson))]

def MethodDoc.toJson (m : MethodDoc) : JsonValue :=
  .obj (m.function.fields ++
    [("attrs", m.attrs.toJson AttrValue.toJson), ("class", .str m.className)])

def PropertyDoc.toJson (p : PropertyDoc) : JsonValue :=
  .obj (("name", .str p.name) :: ("class", .str p.className) ::
    ("attrs", p.attrs.toJson AttrValue.toJson) :: p.spec.fields)

def ClassDoc.fields (c : ClassDoc) : List (String × JsonValue) :=
  [("name", .str c.name), ("namespace", .str c.scope), ("attrs", c.attrs.toJson AttrValue.toJson),
    ("superclass_names", .ofStrs c.superclasses), ("docstring", .ofStr? c.doc),
    ("properties", c.properties.toJson PropertyDoc.toJson),
    ("methods", c.methods.toJson MethodDoc.toJson)]

/-- An entity as an object that begins with its kind. -/
def Entity.toJson : Entity → JsonValue
  | module m => .obj [("kind", .str "Module"), ("name", .str m.name), ("path", .str m.path),
      ("docstring", .ofStr? m.doc)]
  | cls c => .obj (("kind", .str "Class") :: c.fields)
  | function f => .obj (("kind", .str "Function") :: f.fields)
  | script s => .obj [("kind", .str "Script"), ("name", .str s.name), ("namespace", .str s.scope),
      ("docstring", .ofStr? s.doc), ("body", .str s.body)]
  | application a => .obj [("kind", .str "Application"), ("name", .str a.name),
      ("namespace", .str a.scope), ("docstring", .ofStr? a.doc)]

end MatlabOutline
