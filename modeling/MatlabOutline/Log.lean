/-!
Log records: remarks made on the way, each from some part of the program.
-/

namespace MatlabOutline

inductive LogLevel
  | error
  | warn
  | debug
deriving DecidableEq, Repr

/-- The part of the program that makes a record. -/
inductive LogOrigin
  | display
  | source
  | catalog
  | superclass
  | declaration
  | application
deriving DecidableEq, Repr

structure LogRecord where
  level : LogLevel
  origin : LogOrigin
  message : String
deriving DecidableEq, Repr

namespace LogLevel

def name : LogLevel → String
  | error => "error"
  | warn => "warn"
  | debug => "debug"

/-- The name as it stands in a column of five characters. -/
def column : LogLevel → String
  | error => "ERROR"
  | warn => "WARN "
  | debug => "DEBUG"

/-- More detail is a higher rank. -/
def rank : LogLevel → Nat
  | error => 1
  | warn => 2
  | debug => 3

end LogLevel

namespace LogOrigin

def name : LogOrigin → String
  | display => "matdoc::show"
  | source => "matdoc::source"
  | catalog => "matdoc::resolve"
  | superclass => "matdoc::model"
  | declaration => "matdoc::parse::class"
  | application => "matdoc::app"

end LogOrigin

namespace LogRecord

def display (r : LogRecord) : String :=
  r.level.name ++ ": " ++ r.message

end LogRecord

end MatlabOutline
