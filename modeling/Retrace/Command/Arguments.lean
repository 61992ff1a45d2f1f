import Retrace.Fault
import Retrace.Log
import Retrace.Text.CharClass

/-!
# Reading command-line arguments

First every word is classified. An option is a word that begins with a dash; its name may be
shortened as long as it stays unique, and its value follows it or is joined to it by an equals sign.
All other words are operands, also negative numbers and words with a blank, and so is every word
after a lone `--`. Then the words are read from left to right. General options come before the name
of the command, the options of a command anywhere after it. The operands that stand together go to
as many places as they suffice for, and one `--` among the words of a place is dropped.
-/

namespace Retrace.Command

/-- What an option is for. -/
inductive Role where
  | help
  | version
  /-- given or not -/
  | switch
  /-- takes a value, one of the given ones if there are any -/
  | setting (choices : List String)
deriving DecidableEq, Repr, Inhabited

/-- How many operands a place takes. -/
inductive Arity where
  | one
  | optional
  | many
deriving DecidableEq, Repr, Inhabited

/-- The options and the places for operands of a command. -/
structure Grammar where
  options : List (String × Role)
  places : List (String × Arity) := []

/-- What a word is taken for. -/
inductive Word where
  | operand (text : String)
  | separator
  /-- an option, with the text joined to it -/
  | option (name : String) (role : Role) (joined : Option String)
  | unknown
deriving DecidableEq, Repr, Inhabited

/-- What was read so far. The value of a setting is absent if only a separator was given for it. -/
structure Given where
  settings : List (String × Option String) := []
  operands : List (String × List String) := []
  /-- whether there was a word without a place -/
  surplus : Bool := false

/-- Why reading ended early. -/
inductive Interruption where
  | help
  | version
  | refused
deriving DecidableEq, Repr, Inhabited

namespace Given

/-- What was given to an option. -/
def setting? (r : Given) (name : String) : Option (Option String) := Datum.field? name r.settings

/-- Whether an option was given. -/
def has (r : Given) (name : String) : Bool := (r.setting? name).isSome

/-- The operands at a place. -/
def at_ (r : Given) (place : String) : List String := (Datum.field? place r.operands).getD []

end Given

/-! ## Words -/

/-- Whether a character is a decimal digit. -/
def isDecimal (c : Char) : Bool := (Text.decimalValue? c).isSome

/-- Whether a word is a negative number, which one line break may follow. -/
def isNegativeNumber (word : String) : Bool :=
  match word.toList with
  | '-' :: rest =>
    let rest := if rest.getLast? = some '\n' then rest.dropLast else rest
    let whole := rest.takeWhile isDecimal
    match rest.drop whole.length with
    | [] => !whole.isEmpty
    | '.' :: places => !places.isEmpty && places.all isDecimal
    | _ => false
  | _ => false

/-- A word cut at its first equals sign. -/
def cutAtEquals (word : String) : String × Option String :=
  let cs := word.toList
  let name := cs.takeWhile fun c => c ≠ '='
  match cs.drop name.length with
  | _ :: rest => (String.ofList name, some (String.ofList rest))
  | [] => (word, none)

/-- The option of a given name. -/
def Grammar.option? (g : Grammar) (name : String) (joined : Option String) : Option Word :=
  (g.options.find? fun option => option.1 = name).map fun option =>
    .option option.1 option.2 joined

/-- The options that a word may stand for when it is no option name as it is: those whose names it
shortens, or the one that its first letter names. -/
def Grammar.meanings (g : Grammar) (word : String) : List Word :=
  if word.startsWith "--" then
    let (name, joined) := cutAtEquals word
    (g.options.filter fun option => option.1.startsWith name).map fun option =>
      .option option.1 option.2 joined
  else
    let cs := word.toList
    (g.option? (String.ofList (cs.take 2)) (some (String.ofList (cs.drop 2)))).toList

/-- What a word is taken for; nothing if it may be several options. -/
def Grammar.word? (g : Grammar) (word : String) : Option Word :=
  let (name, joined) := cutAtEquals word
  if !word.startsWith "-" then some (.operand word)
  else if let some option := g.option? word none then some option
  else if word = "-" then some (.operand word)
  else if let some option := joined.bind fun text => g.option? name (some text) then some option
  else
    match g.meanings word with
    | [] => some (if isNegativeNumber word || word.contains ' ' then .operand word else .unknown)
    | [option] => some option
    | _ => none

/-- What the words are taken for. After a separator all of them are operands. -/
def Grammar.words? (g : Grammar) : List String → Option (List Word)
  | [] => some []
  | word :: rest =>
    if word = "--" then some (.separator :: rest.map .operand)
    else do return (← g.word? word) :: (← g.words? rest)

/-! ## Options -/

/-- Takes an option. Returns whether the next word was used up as its value. The short name of help
may be joined to itself. -/
def takeOption (r : Given) (name : String) (role : Role) (joined : Option String)
    (next : Option Word) : Except Interruption (Given × Bool) :=
  let give (value : Option String) (used : Bool) : Except Interruption (Given × Bool) :=
    .ok ({ r with settings := Datum.setField name value r.settings }, used)
  match role, joined with
  | .help, none => .error .help
  | .help, some text =>
    if name = "-h" && !text.isEmpty && text.all (· = 'h') then .error .help else .error .refused
  | .version, none => .error .version
  | .switch, none => give none false
  | .version, some _ | .switch, some _ => .error .refused
  | .setting choices, _ =>
    let (given, used) := match joined, next with
      | some value, _ => (some value, false)
      | none, some (.operand value) => (some value, true)
      | none, _ => (none, false)
    match given with
    | some value =>
      if value = "--" then give none used
      else if choices.isEmpty || value ∈ choices then give (some value) used
      else .error .refused
    | none => .error .refused

/-! ## Operands -/

namespace Word

/-- Whether a word is the separator. -/
def isSeparator : Word → Bool
  | .separator => true
  | _ => false

/-- Whether a word is an operand or the separator. -/
def isOperand : Word → Bool
  | .operand _ | .separator => true
  | _ => false

/-- The operands among the words of one place, in which the first `--` does not count. -/
def texts (words : List Word) : List String :=
  List.erase (words.filterMap fun
    | .operand text => some text
    | .separator => some "--"
    | _ => none) "--"

end Word

/-- How many words at the start of `words` belong to one operand with the separators around it, or
to the separators alone if no operand follows them. -/
def reach (words : List Word) : Nat :=
  let before := (words.takeWhile Word.isSeparator).length
  match words.drop before with
  | [] => before
  | _ :: rest => before + 1 + (rest.takeWhile Word.isSeparator).length

/-- Gives operands to places in order. Returns the operands of each place that was reached, the
places that were not, and the words that are left. -/
def fill : List (String × Arity) → List Word →
    List (String × List String) × List (String × Arity) × List Word
  | [], words => ([], [], words)
  | (name, arity) :: places, words =>
    if arity = .one && words.all Word.isSeparator then ([], (name, arity) :: places, words)
    else
      let count := if arity = .many then words.length else reach words
      let (filled, open_, rest) := fill places (words.drop count)
      ((name, Word.texts (words.take count)) :: filled, open_, rest)

/-- Takes a run of operands. Returns the places that are still open. -/
def takeOperands (r : Given) (places : List (String × Arity)) (run : List Word) :
    Given × List (String × Arity) :=
  let (filled, open_, rest) := fill places run
  ({ r with operands := r.operands ++ filled, surplus := r.surplus || !rest.isEmpty }, open_)

/-- Reads the words of a command. Every step uses up a word, so their number is enough `fuel`. -/
def readWords (r : Given) (places : List (String × Arity)) :
    Nat → List Word → Except Interruption Given
  | 0, _ => .error .refused
  | _, [] =>
    let (r, open_) := takeOperands r places []
    if open_.isEmpty && !r.surplus then .ok r else .error .refused
  | fuel + 1, .option name role joined :: rest => do
    let (r, used) ← takeOption r name role joined rest.head?
    readWords r places fuel (if used then rest.drop 1 else rest)
  | fuel + 1, .unknown :: rest => readWords { r with surplus := true } places fuel rest
  | fuel + 1, word :: rest => do
    let (r, places) := takeOperands r places (word :: rest.takeWhile Word.isOperand)
    readWords r places fuel (rest.dropWhile Word.isOperand)

/-- Reads the arguments of a command. -/
def Grammar.read (g : Grammar) (args : List String) : Except Interruption Given :=
  match g.words? args with
  | some words => readWords {} g.places (args.length + 1) words
  | none => .error .refused

/-! ## Commands -/

/-- The general options. -/
def generalOptions : List (String × Role) :=
  [("-h", .help), ("--help", .help), ("--version", .version),
    ("--log-level", .setting ["debug", "info", "warning", "error"]), ("--config", .setting []),
    ("--format", .setting ["json", "pretty"])]

/-- The options that every command has. -/
def helpOptions : List (String × Role) := [("-h", .help), ("--help", .help)]

/-- The commands. -/
def grammars : List (String × Grammar) :=
  [("check",
    { options := helpOptions ++ [("--verify", .switch), ("--int-type", .setting [])]
      places := [("file", .one)] }),
    ("run",
    { options := helpOptions ++
        [("--backward", .switch), ("--verify", .switch), ("--int-type", .setting [])]
      places := [("file", .one), ("procedure", .one), ("values", .many)] }),
    ("invert",
    { options := helpOptions
      places := [("file", .one), ("procedure", .optional)] })]

/-- How failures are written. -/
inductive Format where
  | json
  | pretty
deriving DecidableEq, Repr, Inhabited

/-- The choices that hold for every command. -/
structure General where
  level : Level := .warning
  /-- the settings file; absent if none was asked for, and without a path if the path is missing -/
  settings : Option (Option String) := none
  format : Format := .json
deriving Inhabited

/-- What is to be done. -/
inductive Task where
  | check (file : String) (verify : Bool) (intType : Option String)
  | run (file : String) (procedure : Option String) (values : List String)
    (backward verify : Bool) (intType : Option String)
  | invert (file : String) (procedure : Option String)
deriving Inhabited

/-- What the arguments ask for. -/
inductive Request where
  | usage (exit : Nat)
  | version
  | refused
  /-- the arguments were read and one of them is of no use -/
  | faulty (f : Fault)
  | perform (general : General) (task : Task)
deriving Inhabited

/-- The general choices in what was read. -/
def General.ofGiven (r : Given) : Except Fault General := do
  let level ← match r.setting? "--log-level" with
    | some (some "debug") => pure Level.debug
    | some (some "info") => pure .info
    | some (some "error") => pure .error
    | some none => throw (.unusable .attribute)
    | _ => pure .warning
  return {
    level
    settings := r.setting? "--config"
    format := if r.setting? "--format" = some (some "pretty") then .pretty else .json }

/-- A text that is given and not empty. -/
def given? (text : Option String) : Option String := text.filter fun s => !s.isEmpty

/-- The task of a command with what was read for it. -/
def Task.ofGiven (command : String) (r : Given) : Task :=
  let file := (r.at_ "file").headD ""
  let procedure := (r.at_ "procedure").head?
  let intType := given? (r.setting? "--int-type").join
  match command with
  | "check" => .check file (r.has "--verify") intType
  | "run" =>
    .run file procedure (r.at_ "values") (r.has "--backward") (r.has "--verify") intType
  | _ => .invert file (given? procedure)

/-- What an interruption asks for. -/
def Request.ofInterruption : Interruption → Request
  | .help => .usage 0
  | .version => .version
  | .refused => .refused

/-- The request with the general choices that were read, which have to leave no word over. -/
def Request.ofGiven (r : Given) (request : General → Request) : Request :=
  if r.surplus then .refused
  else match General.ofGiven r with
    | .ok general => request general
    | .error f => .faulty f

/-- Reads the arguments of the named command. -/
def readCommand (r : Given) (name : String) (args : List String) : Request :=
  match Datum.field? name grammars with
  | none => .refused
  | some g =>
    match g.read args with
    | .error i => .ofInterruption i
    | .ok own => .ofGiven r fun general => .perform general (Task.ofGiven name own)

/-- Reads the words up to the name of the command, which has to stand without a separator. Every
step uses up a word, so their number is enough `fuel`. -/
def readGeneral (r : Given) : Nat → List (Word × String) → Request
  | 0, _ => .refused
  | _, [] => .ofGiven r fun _ => .usage 1
  | fuel + 1, (word, text) :: rest =>
    match word with
    | .operand _ => readCommand r text (rest.map Prod.snd)
    | .separator => .refused
    | .unknown => readGeneral { r with surplus := true } fuel rest
    | .option name role joined =>
      match takeOption r name role joined (rest.head?.map Prod.fst) with
      | .error i => .ofInterruption i
      | .ok (r, used) => readGeneral r fuel (if used then rest.drop 1 else rest)

/-- What a list of arguments asks for. -/
def Request.ofArgs (args : List String) : Request :=
  match ({ options := generalOptions } : Grammar).words? args with
  | some words => readGeneral {} (args.length + 1) (words.zip args)
  | none => .refused

end Retrace.Command
