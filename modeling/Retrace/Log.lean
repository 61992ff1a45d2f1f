import Retrace.Direction
import Retrace.Source.Printer

/-!
# The log

What the library tells about its work, as data. Every event has a level and a source, and a text
that is made only when someone reads it.
-/

namespace Retrace

/-- How much an event matters. -/
inductive Level where
  | debug
  | info
  | warning
  | error
deriving DecidableEq, Repr, Inhabited

namespace Level

/-- Levels by weight. -/
def weight : Level → Nat
  | .debug => 0
  | .info => 1
  | .warning => 2
  | .error => 3

/-- The name of a level in a log line. -/
def name : Level → String
  | .debug => "DEBUG"
  | .info => "INFO"
  | .warning => "WARNING"
  | .error => "ERROR"

end Level

/-- Something that happened. -/
inductive Event where
  | entering (depth : Int) (direction : Direction) (procedure : String)
  | executing (depth : Int) (procedure : String) (statement : Stmt)
  | registered (procedure : Procedure)
  | failed (direction : Direction) (procedure reason : String)
  | doubted (message : String)
  | unverified (procedure reason : String)
deriving Inhabited

namespace Event

/-- How much an event matters. -/
def level : Event → Level
  | .entering .. | .executing .. => .debug
  | .registered _ | .failed .. => .info
  | .doubted _ | .unverified .. => .warning

/-- The part of the library that an event comes from. -/
def source : Event → String
  | .entering .. | .executing .. => "revlang.engine"
  | .registered _ | .failed .. => "revlang.registry"
  | .doubted _ | .unverified .. => "revlang.verify"

/-- Two blanks for each level of calls. -/
def margin (depth : Int) : String := String.ofList (List.replicate (2 * depth.toNat) ' ')

/-- What happened, in words. -/
def text : Event → String
  | .entering depth direction procedure => margin depth ++ direction.name ++ " " ++ procedure
  | .executing depth procedure statement =>
    margin depth ++ procedure ++ ": " ++ statement.summary
  | .registered p =>
    "registered procedure " ++ p.name ++ parenthesized (", ".intercalate p.paramNames)
  | .failed direction procedure reason =>
    direction.name ++ " " ++ procedure ++ " failed: " ++ reason
  | .doubted message => message
  | .unverified procedure reason =>
    procedure ++ ": assertions not verified, Z3 rejected the encoding: " ++ reason

/-- An event as a line of a log. -/
def line (e : Event) : String := e.level.name ++ " " ++ e.source ++ ": " ++ e.text

end Event

end Retrace
