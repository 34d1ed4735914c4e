/-!
Comparison of names without regard to letter case, by Unicode full case folding.
-/

namespace MatlabOutline

namespace CaseFold

/-- The characters outside ASCII whose case folding is ASCII, with their foldings. -/
def toAscii : List (Char × String) :=
  [('\u00df', "ss"), ('\u017f', "s"), ('\u1e9e', "ss"), ('\u212a', "k"), ('\ufb00', "ff"),
    ('\ufb01', "fi"), ('\ufb02', "fl"), ('\ufb03', "ffi"), ('\ufb04', "ffl"), ('\ufb05', "st"),
    ('\ufb06', "st")]

def foldChar (c : Char) : List Char :=
  match toAscii.lookup c with
  | some folded => folded.toList
  | none => [c.toLower]

/-- Folds the characters whose folding is ASCII. The others stay, which never makes them equal to
an ASCII character. -/
def fold (s : String) : List Char :=
  s.toList.flatMap foldChar

/-- Whether `s` is the ASCII name `name` in some letter case. -/
def sameAs (name s : String) : Bool :=
  fold name == fold s

end CaseFold

end MatlabOutline
