/-!
# Messages

Messages tell about the progress of a computation. They are values, which a caller may collect,
print or ignore.
-/

namespace LinearAssignment

/-- How important a message is. -/
inductive Level
  | debug
  | trace
deriving DecidableEq, Repr

/-- The name of a level. -/
def Level.name : Level → String
  | debug => "DEBUG"
  | trace => "TRACE"

/-- A message about the progress of a computation. -/
structure Message where
  /-- How important the message is. -/
  level : Level
  /-- What the message says. -/
  text : String
deriving DecidableEq, Repr

/-- A message with its level in front. -/
def Message.line (message : Message) : String :=
  message.level.name ++ " " ++ message.text

end LinearAssignment
