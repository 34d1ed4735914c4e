import MatlabOutline.PathText
import MatlabOutline.JsonValue
import MatlabOutline.Text.Encoding
import MatlabOutline.Toml

/-!
Settings: where the source tree is and how its files are encoded.
-/

namespace MatlabOutline

structure Settings where
  root : String := "."
  encoding : EncodingChoice := .fixed .utf8
deriving DecidableEq, Repr

inductive SettingsError
  /-- The text is not TOML, or holds a key or value that settings do not have. -/
  | malformed
  | unknownEncoding (label : String)
deriving DecidableEq, Repr

namespace SettingsError

/-- The message, where the cause has words of its own. -/
def message? : SettingsError → Option String
  | malformed => none
  | unknownEncoding label => some (EncodingChoice.unknownLabel label)

end SettingsError

namespace Settings

def keys : List String :=
  ["root", "encoding"]

/-- Reads settings from TOML. A relative root is taken from `base`. -/
def ofToml (text base : String) : Except SettingsError Settings := do
  let some pairs := Toml.parse text | throw .malformed
  if !pairs.all (fun (name, _) => keys.contains name) then throw .malformed
  let root := match pairs.lookup "root" with
    | some root => PathText.join base root
    | none => "."
  match pairs.lookup "encoding" with
  | none => return { root := root }
  | some label =>
    match EncodingChoice.ofLabel? label with
    | some encoding => return { root, encoding }
    | none => throw (.unknownEncoding label)

def toJson (s : Settings) : JsonValue :=
  .obj [("root", .str s.root), ("encoding", .str s.encoding.display)]

end Settings

end MatlabOutline
