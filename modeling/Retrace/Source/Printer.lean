import Retrace.Program.Procedure

/-!
# From programs to text

`Procedure.text` writes a procedure in the form that `Program.parse` reads: one statement a line,
four blanks for each level, and parentheses only where the tree asks for them. `Stmt.summary` is a
statement on one line, with the bodies of compound statements left out; error records show it.
-/

namespace Retrace

/-- How tightly a binary operator binds; an unknown symbol binds least. -/
def binaryPrecedence (op : String) : Nat :=
  match op with
  | "||" => 1
  | "&&" => 2
  | "==" | "!=" | "<" | "<=" | ">" | ">=" => 3
  | "|" => 4
  | "^" => 5
  | "&" => 6
  | "<<" | ">>" => 7
  | "+" | "-" => 8
  | "*" | "/" | "%" => 9
  | _ => 0

/-- How tightly an operator in front of its operand binds. -/
def unaryPrecedence : Nat := 10

/-- A text in parentheses. -/
def parenthesized (text : String) : String := "(" ++ text ++ ")"

namespace Expr

mutual

/-- An expression as an operand of an operator that binds with `prec`, as its right operand if
`right`. Operators of equal strength group to the left. A negative literal under an operator in
front of it is put in parentheses, and so is a literal under a minus, which would otherwise read
back as one negative literal. -/
def textIn (prec : Nat) (right : Bool) : Expr → String
  | .int _ value =>
    if value < 0 && unaryPrecedence ≤ prec then parenthesized (toString value) else toString value
  | .bool _ value => if value then "true" else "false"
  | .var _ name => name
  | .elem _ name index => name ++ "[" ++ textIn 0 false index ++ "]"
  | .binary _ op left right_ =>
    let own := binaryPrecedence op
    let text := textIn own false left ++ " " ++ op ++ " " ++ textIn own true right_
    if own < prec || (right && own = prec) then parenthesized text else text
  | .unary _ op (.int l value) =>
    if op = "-" then "-" ++ parenthesized (toString value)
    else op ++ textIn unaryPrecedence false (.int l value)
  | .unary _ op operand => op ++ textIn unaryPrecedence false operand
  | .call _ name args => name ++ parenthesized (", ".intercalate (textsOf args))
  | .update _ op target value =>
    parenthesized (textIn 0 false target ++ " " ++ op ++ " " ++ textIn 0 false value)
  | .hole _ => "<?>"

/-- Several expressions, each on its own. -/
def textsOf : List Expr → List String
  | [] => []
  | e :: es => textIn 0 false e :: textsOf es

end

/-- An expression on its own. -/
def text (e : Expr) : String := textIn 0 false e

end Expr

namespace Stmt

/-- A statement on one line; the bodies of compound statements are left out. -/
def summary : Stmt → String
  | .assign _ target op value => target.text ++ " " ++ op ++ " " ++ value.text
  | .swap _ left right => left.text ++ " <=> " ++ right.text
  | .call _ callee args uncall =>
    (if uncall then "uncall " else "call ") ++ callee ++
      parenthesized (", ".intercalate (Expr.textsOf args))
  | .declare _ name value => "local " ++ name ++ " = " ++ value.text
  | .discard _ name value => "delocal " ++ name ++ " = " ++ value.text
  | .branch _ guard _ elseBody assertion =>
    "if " ++ guard.text ++ " \x7b ... \x7d" ++
      (if elseBody.isEmpty then "" else " else \x7b ... \x7d") ++ " assert " ++ assertion.text
  | .loop _ entry _ _ exit => "from " ++ entry.text ++ " ... until " ++ exit.text
  | .block _ _ => "\x7b ... \x7d"
  | .hole _ => "<" ++ holeName ++ ">"

/-- The blanks at the start of a line, four for each level. -/
def indent (depth : Nat) : String := String.ofList (List.replicate (4 * depth) ' ')

mutual

/-- The lines of a statement that stands `depth` levels deep. A missing part of a conditional or a
loop is left out. -/
def lines (depth : Nat) : Stmt → List String
  | .branch _ guard thenBody elseBody assertion =>
    (indent depth ++ "if " ++ guard.text ++ " \x7b") :: linesOf (depth + 1) thenBody ++
      (if elseBody.isEmpty then []
        else (indent depth ++ "\x7d else \x7b") :: linesOf (depth + 1) elseBody) ++
      [indent depth ++ "\x7d assert " ++ assertion.text]
  | .loop _ entry doBody loopBody exit =>
    let header := indent depth ++ "from " ++ entry.text
    let closing := indent depth ++ "\x7d"
    let afterDo := if doBody.isEmpty then header else closing
    let afterLoop := if loopBody.isEmpty then afterDo else closing
    (if doBody.isEmpty then [] else (header ++ " do \x7b") :: linesOf (depth + 1) doBody) ++
      (if loopBody.isEmpty then []
        else (afterDo ++ " loop \x7b") :: linesOf (depth + 1) loopBody) ++
      [afterLoop ++ " until " ++ exit.text]
  | .block _ body =>
    (indent depth ++ "\x7b") :: linesOf (depth + 1) body ++ [indent depth ++ "\x7d"]
  | s => [indent depth ++ s.summary]

/-- The lines of several statements that stand `depth` levels deep. -/
def linesOf (depth : Nat) : List Stmt → List String
  | [] => []
  | s :: ss => lines depth s ++ linesOf depth ss

end

end Stmt

/-- A procedure as text, with a line end after each line. -/
def Procedure.text (p : Procedure) : String :=
  let header := "procedure " ++ p.name ++ parenthesized (", ".intercalate p.paramNames) ++ " \x7b"
  "\n".intercalate (header :: Stmt.linesOf 1 p.body ++ ["\x7d"]) ++ "\n"

/-- Several procedures as text, with an empty line between two of them. -/
def Procedure.texts (ps : List Procedure) : String := "\n".intercalate (ps.map Procedure.text)

/-- A program as text. -/
def Program.text (program : Program) : String := Procedure.texts program.procedures

end Retrace
