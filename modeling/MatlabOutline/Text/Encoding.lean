import MatlabOutline.Text.Utf16
import MatlabOutline.Text.Windows1252

/-!
Encodings of text: their labels, byte order marks, and reading.
-/

namespace MatlabOutline

inductive Encoding
  | utf8
  | windows1252
  | utf16le
  | utf16be
deriving DecidableEq, Repr

/-- How to read source files. -/
inductive EncodingChoice
  | fixed (e : Encoding)
  /-- Judge each file by its bytes. -/
  | detect
deriving DecidableEq, Repr

/-- A text that was read: its encoding, and whether some of its bytes were malformed. -/
structure DecodedText where
  encoding : Encoding
  text : String
  malformed : Bool
deriving DecidableEq, Repr

namespace Encoding

def name : Encoding → String
  | utf8 => "UTF-8"
  | windows1252 => "windows-1252"
  | utf16le => "UTF-16LE"
  | utf16be => "UTF-16BE"

def labels : Encoding → List String
  | utf8 => ["unicode-1-1-utf-8", "unicode11utf8", "unicode20utf8", "utf-8", "utf8",
      "x-unicode20utf8"]
  | windows1252 => ["ansi_x3.4-1968", "ascii", "cp1252", "cp819", "csisolatin1", "ibm819",
      "iso-8859-1", "iso-ir-100", "iso8859-1", "iso88591", "iso_8859-1", "iso_8859-1:1987", "l1",
      "latin1", "us-ascii", "windows-1252", "x-cp1252"]
  | utf16le => ["csunicode", "iso-10646-ucs-2", "ucs-2", "unicode", "unicodefeff", "utf-16",
      "utf-16le"]
  | utf16be => ["unicodefffe", "utf-16be"]

def all : List Encoding :=
  [utf8, windows1252, utf16le, utf16be]

/-- White space that may stand around a label. -/
def isLabelSpace (c : Char) : Bool :=
  c == '\t' || c == '\n' || c == '\x0c' || c == '\r' || c == ' '

/-- A label without the white space around it, in lower case. -/
def normalLabel (label : String) : String :=
  let trimmed := (label.toList.dropWhile isLabelSpace).reverse.dropWhile isLabelSpace
  String.ofList (trimmed.reverse.map Char.toLower)

def ofLabel? (label : String) : Option Encoding :=
  all.find? (·.labels.contains (normalLabel label))

/-- The encoding that a byte order mark tells, and the bytes behind the mark. -/
def ofMark? : Bytes → Option (Encoding × Bytes)
  | 0xEF :: 0xBB :: 0xBF :: r => some (utf8, r)
  | 0xFF :: 0xFE :: r => some (utf16le, r)
  | 0xFE :: 0xFF :: r => some (utf16be, r)
  | _ => none

/-- The characters of a text, with none for each malformed unit. -/
def chars (e : Encoding) (bytes : Bytes) : List (Option Char) :=
  match e with
  | utf8 => Utf8.decode bytes
  | windows1252 => Windows1252.decode bytes
  | utf16le => Utf16.decode false bytes
  | utf16be => Utf16.decode true bytes

/-- Reads bytes that no byte order mark begins. The replacement character stands for each
malformed unit. -/
def read (e : Encoding) (bytes : Bytes) : DecodedText where
  encoding := e
  text := String.ofList ((e.chars bytes).map (·.getD '\ufffd'))
  malformed := (e.chars bytes).any (·.isNone)

/-- Reads bytes. A byte order mark wins over `e`. -/
def decode (e : Encoding) (bytes : Bytes) : DecodedText :=
  match ofMark? bytes with
  | some (marked, r) => marked.read r
  | none => e.read bytes

/-- UTF-8 for bytes that are, and else the encoding in which all bytes are characters. -/
def guess (bytes : Bytes) : Encoding :=
  if (Utf8.decode bytes).all (·.isSome) then utf8 else windows1252

end Encoding

namespace EncodingChoice

/-- The choice that a label names. The word for judging each file is not trimmed. -/
def ofLabel? (label : String) : Option EncodingChoice :=
  if String.ofList (label.toList.map Char.toLower) = "detect" then some detect
  else (Encoding.ofLabel? label).map fixed

/-- The name of the encoding, if it is fixed. -/
def name? : EncodingChoice → Option String
  | fixed e => some e.name
  | detect => none

def display (c : EncodingChoice) : String :=
  c.name?.getD "detect"

/-- What is said of a label that names nothing. -/
def unknownLabel (label : String) : String :=
  label ++ ": unknown encoding"

def decode (c : EncodingChoice) (bytes : Bytes) : DecodedText :=
  match c with
  | fixed e => e.decode bytes
  | detect => (Encoding.guess bytes).decode bytes

end EncodingChoice

end MatlabOutline
