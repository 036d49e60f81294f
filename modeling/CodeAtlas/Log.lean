/-!
# Log records

Operations return what they log beside their result.

## Main definitions

* `CodeAtlas.LogRecord` — a record: its level and its text.
* `CodeAtlas.LogRecord.render` — a record as one line.
-/

set_option autoImplicit false

namespace CodeAtlas

/-- How serious a record is. -/
inductive LogLevel where
  | debug
  | warn
  deriving DecidableEq, Repr

/-- The written form of a level. -/
def LogLevel.name : LogLevel → String
  | debug => "DEBUG"
  | warn => "WARN"

/-- A record of what an operation did. -/
structure LogRecord where
  /-- How serious the record is. -/
  level : LogLevel
  /-- What happened. -/
  text : String
  deriving DecidableEq, Repr

/-- A record as one line. -/
def LogRecord.render (record : LogRecord) : String := record.level.name ++ " " ++ record.text

end CodeAtlas
