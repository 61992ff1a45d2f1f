import Retrace.Location

/-!
# Tokens

The words and symbols of source text. A lexed text is its tokens and the place where it ends.
-/

namespace Retrace

/-- The kinds of tokens. -/
inductive TokenKind where
  /- keywords -/
  | procedure | kwIf | kwElse | kwAssert | kwCall | kwUncall | kwLocal | kwDelocal | kwFrom | kwDo
  | kwLoop | kwUntil | kwTrue | kwFalse
  /- literals and names -/
  | number | ident
  /- operators of expressions -/
  | plus | minus | star | slash | percent | amp | pipe | caret | tilde | shl | shr | eq | neq | gte
  | lte | gt | lt | and | or | not
  /- operators of statements -/
  | assign | plusAssign | minusAssign | xorAssign | starAssign | slashAssign | percentAssign
  | andAssign | orAssign | shlAssign | shrAssign | swap
  /- delimiters -/
  | lbrace | rbrace | lparen | rparen | lbracket | rbracket | comma | semicolon
deriving DecidableEq, Repr, Inhabited

namespace TokenKind

/-- The name of a kind of token, as messages give it. -/
def name : TokenKind → String
  | .procedure => "PROCEDURE"
  | .kwIf => "IF"
  | .kwElse => "ELSE"
  | .kwAssert => "ASSERT"
  | .kwCall => "CALL"
  | .kwUncall => "UNCALL"
  | .kwLocal => "LOCAL"
  | .kwDelocal => "DELOCAL"
  | .kwFrom => "FROM"
  | .kwDo => "DO"
  | .kwLoop => "LOOP"
  | .kwUntil => "UNTIL"
  | .kwTrue => "TRUE"
  | .kwFalse => "FALSE"
  | .number => "INT_LIT"
  | .ident => "IDENT"
  | .plus => "PLUS"
  | .minus => "MINUS"
  | .star => "STAR"
  | .slash => "SLASH"
  | .percent => "PERCENT"
  | .amp => "AMP"
  | .pipe => "PIPE"
  | .caret => "CARET"
  | .tilde => "TILDE"
  | .shl => "SHL"
  | .shr => "SHR"
  | .eq => "EQ"
  | .neq => "NEQ"
  | .gte => "GTE"
  | .lte => "LTE"
  | .gt => "GT"
  | .lt => "LT"
  | .and => "AND"
  | .or => "OR"
  | .not => "NOT"
  | .assign => "ASSIGN"
  | .plusAssign => "PLUS_ASSIGN"
  | .minusAssign => "MINUS_ASSIGN"
  | .xorAssign => "XOR_ASSIGN"
  | .starAssign => "STAR_ASSIGN"
  | .slashAssign => "SLASH_ASSIGN"
  | .percentAssign => "PERCENT_ASSIGN"
  | .andAssign => "AND_ASSIGN"
  | .orAssign => "OR_ASSIGN"
  | .shlAssign => "SHL_ASSIGN"
  | .shrAssign => "SHR_ASSIGN"
  | .swap => "SWAP"
  | .lbrace => "LBRACE"
  | .rbrace => "RBRACE"
  | .lparen => "LPAREN"
  | .rparen => "RPAREN"
  | .lbracket => "LBRACKET"
  | .rbracket => "RBRACKET"
  | .comma => "COMMA"
  | .semicolon => "SEMICOLON"

/-- The name that messages give to the end of the text. -/
def endName : String := "EOF"

/-- The words that cannot be names. -/
def keywords : List (String × TokenKind) :=
  [("procedure", .procedure), ("if", .kwIf), ("else", .kwElse), ("assert", .kwAssert),
    ("call", .kwCall), ("uncall", .kwUncall), ("local", .kwLocal), ("delocal", .kwDelocal),
    ("from", .kwFrom), ("do", .kwDo), ("loop", .kwLoop), ("until", .kwUntil), ("true", .kwTrue),
    ("false", .kwFalse)]

/-- The symbols, longer ones first, so that the first that matches is the longest that does. -/
def symbols : List (String × TokenKind) :=
  [("<=>", .swap), ("<<=", .shlAssign), (">>=", .shrAssign),
    ("<<", .shl), (">>", .shr), ("<=", .lte), (">=", .gte), ("==", .eq), ("!=", .neq), ("&&", .and),
    ("||", .or), ("+=", .plusAssign), ("-=", .minusAssign), ("^=", .xorAssign), ("*=", .starAssign),
    ("/=", .slashAssign), ("%=", .percentAssign), ("&=", .andAssign), ("|=", .orAssign),
    ("<", .lt), (">", .gt), ("=", .assign), ("!", .not), ("+", .plus), ("-", .minus), ("*", .star),
    ("/", .slash), ("%", .percent), ("&", .amp), ("|", .pipe), ("^", .caret), ("~", .tilde),
    ("\x7b", .lbrace), ("\x7d", .rbrace), ("(", .lparen), (")", .rparen), ("[", .lbracket),
    ("]", .rbracket), (",", .comma), (";", .semicolon)]

/-- Whether a kind of token is an update operator, reversible or not. -/
def isAssign : TokenKind → Bool
  | .assign | .plusAssign | .minusAssign | .xorAssign | .starAssign | .slashAssign
  | .percentAssign | .andAssign | .orAssign | .shlAssign | .shrAssign => true
  | _ => false

/-- Whether a kind of token is an operator in front of an operand. -/
def isUnary : TokenKind → Bool
  | .minus | .not | .tilde => true
  | _ => false

end TokenKind

/-- A token and where it starts. -/
structure Token where
  kind : TokenKind
  text : String
  loc : Location
deriving DecidableEq, Repr, Inhabited

/-- The tokens of a text, in order, and the place where the text ends. -/
structure TokenList where
  tokens : List Token
  stop : Location
deriving DecidableEq, Repr, Inhabited

end Retrace
