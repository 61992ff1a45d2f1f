import Retrace.Program.Procedure
import Retrace.Source.Lexer
import Retrace.Text.Integer

/-!
# From tokens to programs

The grammar is read from left to right with one token of lookahead (two to tell a function call
from a variable). Expressions have nine levels of binary operators, all grouping to the left, over
operators in front of an operand; a minus directly before a number makes a negative literal.

Every update operator is accepted, in statements and, in parentheses, inside expressions. Which of
them are reversible is a matter of the static rules, so that the report can name the rule.

Nesting is bounded by the number of tokens, which is what `exprAt` and `stmtAt` count down; loops
over the input stop at the latest after as many rounds as there are tokens.
-/

namespace Retrace

/-- Reads something from the front of a list of tokens; `stop` is the place where the text ends. -/
def Parser (α : Type) : Type := (stop : Location) → List Token → Except Fault (α × List Token)

namespace Parser

instance : Monad Parser where
  pure a := fun _ ts => .ok (a, ts)
  bind p f := fun stop ts =>
    match p stop ts with
    | .ok (a, rest) => f a stop rest
    | .error fault => .error fault

/-! ## Single tokens -/

/-- The place of the next token. -/
def here : Parser Location := fun stop ts =>
  .ok ((ts.head?.map Token.loc).getD stop, ts)

/-- The kind of the next token. -/
def peek : Parser (Option TokenKind) := fun _ ts => .ok (ts.head?.map Token.kind, ts)

/-- The text of the next token, empty at the end. -/
def peekText : Parser String := fun _ ts => .ok ((ts.head?.map Token.text).getD "", ts)

/-- Stops with a message about the next token. -/
def fail {α : Type} (message : String) : Parser α := fun stop ts =>
  .error (.failure (.reading message ((ts.head?.map Token.loc).getD stop)))

/-- How messages show the next token. -/
def shownText (text : String) : String :=
  if text.isEmpty then "end of input" else "'" ++ text ++ "'"

/-- How messages name the kind of the next token. -/
def shownKind (kind : Option TokenKind) : String := (kind.map TokenKind.name).getD TokenKind.endName

/-- Takes a token of the given kind. -/
def expect (kind : TokenKind) : Parser Token := fun stop ts =>
  let unexpected : Parser Token := do
    fail ("Expected " ++ kind.name ++ ", got " ++ shownKind (← peek) ++ " " ++
      "(" ++ shownText (← peekText) ++ ")")
  match ts with
  | t :: rest => if t.kind = kind then .ok (t, rest) else unexpected stop ts
  | [] => unexpected stop ts

/-- Takes a token of the given kind if it comes next. -/
def accept (kind : TokenKind) : Parser Bool := fun _ ts =>
  match ts with
  | t :: rest => if t.kind = kind then .ok (true, rest) else .ok (false, ts)
  | [] => .ok (false, ts)

/-- Takes a token if its kind is one that is asked for. -/
def acceptIf (wanted : TokenKind → Bool) : Parser (Option Token) := fun _ ts =>
  match ts with
  | t :: rest => if wanted t.kind then .ok (some t, rest) else .ok (none, ts)
  | [] => .ok (none, ts)

/-! ## Lists -/

/-- More items, each after a comma. -/
def moreItems {α : Type} (item : Parser α) : Nat → Parser (List α)
  | 0 => pure []
  | fuel + 1 => do
    if ← accept .comma then
      let a ← item
      let rest ← moreItems item fuel
      pure (a :: rest)
    else pure []

/-- One or more items with commas between them. -/
def items {α : Type} (item : Parser α) : Parser (List α) := fun stop ts =>
  (do
    let a ← item
    let rest ← moreItems item ts.length
    pure (a :: rest) : Parser (List α)) stop ts

/-- Items in parentheses, possibly none. -/
def arguments {α : Type} (item : Parser α) : Parser (List α) := do
  let _ ← expect .lparen
  let args ← if (← peek) = some .rparen then pure [] else items item
  let _ ← expect .rparen
  pure args

/-! ## Expressions -/

/-- The binary operators, loosest first. -/
def binaryLevels : List (List TokenKind) :=
  [[.or], [.and], [.eq, .neq, .lt, .lte, .gt, .gte], [.pipe], [.caret], [.amp], [.shl, .shr],
    [.plus, .minus], [.star, .slash, .percent]]

/-- The value of a number token. A digit that has no decimal value makes it fail. -/
def numeral (text : String) : Parser Int := fun _ ts =>
  match Text.readDigits? text.toList with
  | some n => .ok (Int.ofNat n, ts)
  | none => .error (.badInteger text)

/-- A variable, or an array with an index. -/
def reference (expr : Parser Expr) : Parser Expr := do
  let name ← expect .ident
  if ← accept .lbracket then
    let index ← expr
    let _ ← expect .rbracket
    pure (.elem (some name.loc) name.text index)
  else pure (.var (some name.loc) name.text)

/-- The rest of what stands in parentheses after its first expression. -/
def parenthesisRest (expr : Parser Expr) (loc : Location) (first : Expr) : Parser Expr := do
  let result ← match ← acceptIf TokenKind.isAssign with
    | some op => do
      let value ← expr
      pure (.update (some loc) op.text first value)
    | none => pure first
  let _ ← expect .rparen
  pure result

/-- A literal, a reference, a function call, or what stands in parentheses. -/
def primary (expr : Parser Expr) : Parser Expr := fun stop ts =>
  match ts with
  | t :: rest =>
    match t.kind with
    | .number => (do pure (.int (some t.loc) (← numeral t.text)) : Parser Expr) stop rest
    | .kwTrue => .ok (.bool (some t.loc) true, rest)
    | .kwFalse => .ok (.bool (some t.loc) false, rest)
    | .ident =>
      if (rest.head?.map Token.kind) = some .lparen then
        (do pure (.call (some t.loc) t.text (← arguments expr)) : Parser Expr) stop rest
      else reference expr stop ts
    | .lparen => (do parenthesisRest expr t.loc (← expr) : Parser Expr) stop rest
    | kind => (fail ("Unexpected token " ++ shownText t.text ++ " (" ++ kind.name ++ ")") :
        Parser Expr) stop ts
  | [] => (fail ("Unexpected token " ++ shownText "" ++ " (" ++ TokenKind.endName ++ ")") :
      Parser Expr) stop ts

/-- Operators in front of an operand. -/
def unary (operand : Parser Expr) (stop : Location) :
    List Token → Except Fault (Expr × List Token)
  | [] => operand stop []
  | t :: rest =>
    if t.kind.isUnary then
      match rest with
      | n :: rest' =>
        if t.text = "-" && n.kind = .number then
          (do pure (.int (some t.loc) (-(← numeral n.text))) : Parser Expr) stop rest'
        else do
          let (e, left) ← unary operand stop (n :: rest')
          pure (.unary (some t.loc) t.text e, left)
      | [] => do
        let (e, left) ← unary operand stop []
        pure (.unary (some t.loc) t.text e, left)
    else operand stop (t :: rest)

/-- More operands, each after one of the given operators, joined to `left` from the left. -/
def chainRest (ops : List TokenKind) (operand : Parser Expr) : Nat → Expr → Parser Expr
  | 0, left => pure left
  | fuel + 1, left => do
    match ← acceptIf ops.contains with
    | some op =>
      let right ← operand
      chainRest ops operand fuel (.binary (some op.loc) op.text left right)
    | none => pure left

/-- Operands joined by operators of one level. -/
def chain (ops : List TokenKind) (operand : Parser Expr) : Parser Expr := fun stop ts =>
  (do chainRest ops operand ts.length (← operand) : Parser Expr) stop ts

/-- An expression with at most `depth` levels of nesting. -/
def exprAt : Nat → Parser Expr
  | 0 => fail "Expression is nested too deeply"
  | depth + 1 => binaryLevels.foldr chain (unary (primary (exprAt depth)))

/-- An expression. -/
def expression : Parser Expr := fun stop ts => exprAt (ts.length + 1) stop ts

/-! ## Statements -/

/-- Statements up to a closing brace or the end, each followed by any number of semicolons. -/
def body (stmt : Parser Stmt) : Nat → Parser (List Stmt)
  | 0 => pure []
  | fuel + 1 => fun stop ts =>
    match ts with
    | [] => .ok ([], [])
    | t :: _ =>
      if t.kind = .rbrace then .ok ([], ts)
      else
        match stmt stop ts with
        | .error fault => .error fault
        | .ok (s, rest) =>
          (do pure (s :: (← body stmt fuel)) : Parser (List Stmt)) stop
            (rest.dropWhile fun t => t.kind = .semicolon)

/-- Statements in braces. -/
def braced (stmt : Parser Stmt) : Parser (List Stmt) := do
  let _ ← expect .lbrace
  let stmts ← fun stop ts => body stmt (ts.length + 1) stop ts
  let _ ← expect .rbrace
  pure stmts

/-- Statements in braces after the given keyword, or none if the keyword does not come next. -/
def optionalBody (keyword : TokenKind) (stmt : Parser Stmt) : Parser (List Stmt) := do
  if ← accept keyword then braced stmt else pure []

/-- An assignment or a swap. -/
def updateStmt : Parser Stmt := do
  let loc ← here
  let target ← reference expression
  if ← accept .swap then
    let other ← reference expression
    pure (.swap (some loc) target other)
  else
    match ← acceptIf TokenKind.isAssign with
    | some op =>
      let value ← expression
      pure (.assign (some loc) target op.text value)
    | none =>
      fail ("Expected an update operator or '<=>' after '" ++ (target.refName?.getD "") ++
        "', got '" ++ (← peekText) ++ "'")

/-- `name = value`, the rest of a declaration. -/
def definition : Parser (String × Expr) := do
  let name ← expect .ident
  let _ ← expect .assign
  let value ← expression
  pure (name.text, value)

/-- The rest of a call after its keyword. -/
def callRest (loc : Location) (uncall : Bool) : Parser Stmt := do
  let callee ← expect .ident
  let args ← arguments (reference expression)
  pure (.call (some loc) callee.text args uncall)

/-- A statement; the statements nested in it are read by `stmt`. -/
def stmtOver (stmt : Parser Stmt) : Parser Stmt := do
  let loc ← here
  match ← peek with
  | some .kwIf =>
    let _ ← expect .kwIf
    let guard ← expression
    let thenBody ← braced stmt
    let elseBody ← optionalBody .kwElse stmt
    let _ ← expect .kwAssert
    let assertion ← expression
    pure (.branch (some loc) guard thenBody elseBody assertion)
  | some .kwCall =>
    let _ ← expect .kwCall
    callRest loc false
  | some .kwUncall =>
    let _ ← expect .kwUncall
    callRest loc true
  | some .kwLocal =>
    let _ ← expect .kwLocal
    let (name, value) ← definition
    pure (.declare (some loc) name value)
  | some .kwDelocal =>
    let _ ← expect .kwDelocal
    let (name, value) ← definition
    pure (.discard (some loc) name value)
  | some .kwFrom =>
    let _ ← expect .kwFrom
    let entry ← expression
    let doBody ← optionalBody .kwDo stmt
    let loopBody ← optionalBody .kwLoop stmt
    let _ ← expect .kwUntil
    let exit ← expression
    pure (.loop (some loc) entry doBody loopBody exit)
  | some .lbrace => pure (.block (some loc) (← braced stmt))
  | some .ident => updateStmt
  | _ => fail ("Expected a statement, got '" ++ (← peekText) ++ "'")

/-- A statement with at most `depth` levels of nesting. -/
def stmtAt : Nat → Parser Stmt
  | 0 => fail "Statement is nested too deeply"
  | depth + 1 => stmtOver (stmtAt depth)

/-- A statement. -/
def statement : Parser Stmt := fun stop ts => stmtAt (ts.length + 1) stop ts

/-! ## Procedures and programs -/

/-- A parameter. -/
def param : Parser Param := do
  let name ← expect .ident
  pure { name := name.text, loc := some name.loc }

/-- A procedure. -/
def procedure : Parser Procedure := do
  let loc ← here
  if (← peek) ≠ some .procedure then
    fail ("Expected 'procedure', got '" ++ (← peekText) ++ "'")
  else
    let _ ← expect .procedure
    let name ← expect .ident
    let params ← arguments param
    let body ← braced statement
    pure { name := name.text, params, body, loc := some loc }

/-- Procedures up to the end. -/
def procedures : Nat → Parser (List Procedure)
  | 0 => pure []
  | fuel + 1 => do
    if (← peek) = none then pure []
    else
      let p ← procedure
      let rest ← procedures fuel
      pure (p :: rest)

/-- Reads from the front of a lexed text; gives the result and the tokens that are left. -/
def run {α : Type} (p : Parser α) (input : TokenList) : Except Fault (α × List Token) :=
  p input.stop input.tokens

end Parser

/-- The procedures that a lexed text denotes. -/
def TokenList.procedures (input : TokenList) : Except Fault (List Procedure) := do
  let (procedures, _) ← (Parser.procedures (input.tokens.length + 1)).run input
  pure procedures

/-- The program that a text denotes. -/
def Program.parse (source file : String) : Except Fault Program := do
  let input ← tokenize source file
  let procedures ← input.procedures
  pure { procedures, file }

/-- The procedure that a text denotes which holds exactly one. -/
def Procedure.parse (source file : String) : Except Fault Procedure := do
  let program ← Program.parse source file
  match program.procedures with
  | [p] => pure p
  | ps => throw (.failure (.reading
      ("Expected exactly one procedure, found " ++ toString ps.length) ⟨1, 1, file⟩))

end Retrace
