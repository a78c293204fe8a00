/-
# Log records

The parts of the program log what they do. A record has a level, the part it comes
from and a message. Which records are shown, and how, is up to the logger.
-/

namespace StackScript
namespace Log

/-- How severe a record is, the most severe first. -/
inductive Level where
  | error
  | warn
  | info
  | debug
  | trace
  deriving DecidableEq, Repr

/-- The parts of the program that log. -/
inductive Part where
  | commandLine
  | machine
  | compiler
  | strings
  deriving DecidableEq, Repr

/-- A log record. -/
structure Record where
  level : Level
  part : Part
  message : String
  deriving DecidableEq, Repr

end Log
end StackScript
