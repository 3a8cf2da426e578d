import BoxLayout.Outline

/-!
# Log records

What the layout engine logs: a line when a measuring starts and when it ends, a line when a node is
placed, and a line per new client area. `Record.text` is the line as it is written.
-/

namespace BoxLayout

/-- Which records are wanted; each level includes those before it. -/
inductive LogLevel where
  | off
  | debug
  | trace
  deriving DecidableEq, Repr, Inhabited

namespace LogLevel

/-- The layouts for new client areas are logged. -/
def wantsDebug : LogLevel → Bool
  | off => false
  | debug | trace => true

/-- Visits of single nodes are logged. -/
def wantsTrace : LogLevel → Bool
  | off | debug => false
  | trace => true

end LogLevel

/-- An event worth a line in the log. -/
inductive Record where
  /-- The measuring of a node at `depth` starts. -/
  | opened (depth : Nat) (name : String) (given : Constraints)
  /-- The measuring of a node at `depth` ends. -/
  | closed (depth : Nat) (name : String) (answer : Size)
  /-- A node at `depth` is placed. -/
  | placed (depth : Nat) (name : String) (bounds : Rect)
  /-- A tree was laid out anew for a client area, in so many calls. -/
  | relaid (client : Size) (calls : Nat) (measured : Size)
  deriving DecidableEq, Repr

namespace Record

/-- The start of a line about a node at `depth`. -/
def traceHead (depth : Nat) (name : String) : String :=
  "TRACE trellis::layout " ++ indentation depth ++ name

/-- The line for a record. -/
def text : Record → String
  | opened depth name given => traceHead depth name ++ " " ++ given.text
  | closed depth name answer => traceHead depth name ++ " -> " ++ answer.text
  | placed depth name bounds => traceHead depth name ++ " bounds " ++ bounds.text
  | relaid client calls measured =>
    "DEBUG trellis::app relayout " ++ client.text ++ ": " ++ toString calls ++
      " layout calls, root measured " ++ measured.text

end Record

end BoxLayout
