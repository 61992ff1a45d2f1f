import Retrace.Failure
import Retrace.Text.Quoted

/-!
# Faults

What can stop an operation of the library. A `failure` carries the error records of the language
itself. All other faults are mistakes of the host: a name that is not known, a value of the wrong
kind, a tree that no source text denotes, a file that cannot be read. `Fault.message` words them;
`Fault.label` names their class where a log line asks for it.
-/

namespace Retrace

/-- The classes of host mistakes. -/
inductive FaultClass where
  | value
  | kind
  | key
  | index
  | attribute
  | overflow
  | memory
  | host
  | system
  | missingFile
  | directory
  | notDirectory
  | json
  | yaml
deriving DecidableEq, Repr, Inhabited

/-- The label of a class of host mistakes. -/
def FaultClass.label : FaultClass → String
  | .value => "ValueError"
  | .kind => "TypeError"
  | .key => "KeyError"
  | .index => "IndexError"
  | .attribute => "AttributeError"
  | .overflow => "OverflowError"
  | .memory => "MemoryError"
  | .host => "RuntimeError"
  | .system => "OSError"
  | .missingFile => "FileNotFoundError"
  | .directory => "IsADirectoryError"
  | .notDirectory => "NotADirectoryError"
  | .json => "JSONDecodeError"
  | .yaml => "YAMLError"

/-- What stopped an operation. -/
inductive Fault where
  | failure (f : Failure)
  /- mistakes in a value -/
  | unknownIntType (name : String) (known : List String)
  | badWidth (bits : Int)
  | notReversible (symbol : String)
  | alreadyBound (name procedure : String)
  | notLocal (name procedure : String)
  | foreignSnapshot
  | unknownUnary (symbol : String)
  | unknownBinary (symbol : String)
  | notPure (name : String)
  | mutationInExpression
  | badCallDepth (limit : Int)
  | unknownPureFunctions (names known : List String)
  | notMapping (path : String)
  | badAssignment (item : String)
  | wrongParameters (procedure : String) (parameters missing unexpected : List String)
  | badInteger (text : String)
  | negativeShift
  | notANumber
  /- values of a wrong kind -/
  | notInteger (kindName : String)
  | argumentCount (procedure : String) (expected given : Nat)
  | unknownStatement (kindName : String)
  | namesNoSlot (kindName : String)
  | notEvaluable (kindName : String)
  | notInvertible (kindName : String)
  | hostArity (function : String)
  | notIterable (kindName : String)
  | noIntegerIn (kindName : String)
  | arrayOperand
  /- unknown names -/
  | unregistered (name : String) (registered : List String)
  | undefined (name : String) (defined : List String)
  | unknownBuiltin (name : String)
  /- others -/
  | badIndex
  | noRecords
  | arrayIndex
  | infinite
  | hostFailure
  | missingFile (path : String)
  | isDirectory (path : String)
  | notDirectory (path : String)
  | malformedJson
  | malformedYaml
  /-- a value that does not serve the purpose for which it was given -/
  | unusable (mistake : FaultClass)
deriving Inhabited

namespace Fault

/-- The class of a host mistake; a failure of the language has none. -/
def class? : Fault → Option FaultClass
  | .failure _ => none
  | .unknownIntType .. | .badWidth .. | .notReversible .. | .alreadyBound .. | .notLocal ..
  | .foreignSnapshot | .unknownUnary .. | .unknownBinary .. | .notPure .. | .mutationInExpression
  | .badCallDepth .. | .unknownPureFunctions .. | .notMapping .. | .badAssignment ..
  | .wrongParameters .. | .badInteger .. | .negativeShift | .notANumber => some .value
  | .notInteger .. | .argumentCount .. | .unknownStatement .. | .namesNoSlot .. | .notEvaluable ..
  | .notInvertible .. | .hostArity .. | .notIterable .. | .noIntegerIn .. | .arrayOperand =>
    some .kind
  | .unregistered .. | .undefined .. | .unknownBuiltin .. => some .key
  | .badIndex | .noRecords => some .index
  | .arrayIndex => some .attribute
  | .infinite => some .overflow
  | .hostFailure => some .host
  | .missingFile .. => some .missingFile
  | .isDirectory .. => some .directory
  | .notDirectory .. => some .notDirectory
  | .malformedJson => some .json
  | .malformedYaml => some .yaml
  | .unusable mistake => some mistake

/-- The class of a fault, as log lines give it. -/
def label : Fault → String
  | .failure f => f.kind.label
  | fault => (fault.class?.map FaultClass.label).getD ""

/-- What went wrong, in words. -/
def message : Fault → String
  | .failure f => f.shown
  | .unknownIntType name known =>
    "Unknown integer type '" ++ name ++ "'. Known: " ++ Text.quotedList known
  | .badWidth bits => "Integer width must be positive, got " ++ toString bits
  | .notReversible symbol => "'" ++ symbol ++ "' is not a reversible operator"
  | .alreadyBound name procedure => "'" ++ name ++ "' is already bound in '" ++ procedure ++ "'"
  | .notLocal name procedure => "'" ++ name ++ "' is not a local of '" ++ procedure ++ "'"
  | .foreignSnapshot => "Snapshot does not belong to this store"
  | .unknownUnary symbol => "Unknown unary operator '" ++ symbol ++ "'"
  | .unknownBinary symbol => "Unknown binary operator '" ++ symbol ++ "'"
  | .notPure name => "'" ++ name ++ "' is not a pure function"
  | .mutationInExpression => "Mutation inside an expression cannot be evaluated"
  | .badCallDepth limit => "max_call_depth must be positive, got " ++ toString limit
  | .unknownPureFunctions names known =>
    "Unknown pure function(s) " ++ Text.quotedList names ++ ". Known: " ++ Text.quotedList known
  | .notMapping path => path ++ ": expected a mapping at the top level"
  | .badAssignment item => "Expected name=value, got '" ++ item ++ "'"
  | .wrongParameters procedure parameters missing unexpected =>
    "'" ++ procedure ++ "' takes parameters " ++ Text.quotedList parameters ++ "; missing " ++
      Text.quotedList missing ++ ", unexpected " ++ Text.quotedList unexpected
  | .badInteger text =>
    "invalid literal for int() with base 10: " ++ Text.clipped 200 (Text.quoted text)
  | .negativeShift => "negative shift count"
  | .notANumber => "cannot convert float NaN to integer"
  | .notInteger kindName => "Slots hold integers, got " ++ kindName
  | .argumentCount procedure expected given =>
    "'" ++ procedure ++ "' takes " ++ toString expected ++ " argument(s), " ++ toString given ++
      " given"
  | .unknownStatement kindName => "Unknown statement type " ++ kindName
  | .namesNoSlot kindName => kindName ++ " does not name a slot"
  | .notEvaluable kindName => "Cannot evaluate " ++ kindName
  | .notInvertible kindName => "Cannot invert " ++ kindName
  | .hostArity function => "wrong number of arguments for " ++ function
  | .notIterable kindName => kindName ++ " is not a sequence"
  | .noIntegerIn kindName => "no integer in a value of kind " ++ kindName
  | .arrayOperand => "an array is not a number"
  | .unregistered name registered =>
    "Unknown procedure '" ++ name ++ "'. Registered: " ++ Text.quotedList registered
  | .undefined name defined =>
    "Unknown procedure '" ++ name ++ "'. Defined: " ++ Text.quotedList defined
  | .unknownBuiltin name => name
  | .badIndex => "index out of range"
  | .noRecords => "no records"
  | .arrayIndex => "an array is not an index"
  | .infinite => "cannot convert float infinity to integer"
  | .hostFailure => "host function failed"
  | .missingFile path => "no such file: " ++ path
  | .isDirectory path => "is a directory: " ++ path
  | .notDirectory path => "not a directory: " ++ path
  | .malformedJson => "malformed JSON"
  | .malformedYaml => "malformed YAML"
  | .unusable _ => "unusable value"

end Fault

/-- A mistake of the host: a fault that is no failure of the language. -/
structure Mistake where
  fault : Fault
  isHost : fault.class?.isSome = true

namespace Mistake

/-- A shift by a negative number of places. -/
def negativeShift : Mistake := ⟨.negativeShift, rfl⟩

/-- An array where a number is needed. -/
def arrayOperand : Mistake := ⟨.arrayOperand, rfl⟩

/-- An array where an index is needed. -/
def arrayIndex : Mistake := ⟨.arrayIndex, rfl⟩

/-- A number that the host cannot hold, told apart by the class of the mistake. -/
def unusable (mistake : FaultClass) : Mistake := ⟨.unusable mistake, rfl⟩

end Mistake

end Retrace
