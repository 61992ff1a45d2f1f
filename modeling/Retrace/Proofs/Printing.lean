import Retrace.Proofs.Lexing
import Retrace.Source.Printer

/-!
# The tokens of a printed program

A program can be written if all its names are names in the text, its operators are operators of the
grammar, and nothing is missing in it (`Program.Writable`). The words of its text are known from the
tree: `Expr.wordsIn`, `Stmt.words` and `Procedure.words` say which they are, and
`Program.tokenize_text` that the printed text has exactly these.
-/

namespace Retrace

open Lexer

/-- A symbol as a word. -/
def symbolWord (text : String) : TokenKind × String := (kindIn TokenKind.symbols text, text)

theorem symbolWord_of_mem {text : String} {kind : TokenKind} (h : (text, kind) ∈ TokenKind.symbols) :
    symbolWord text = (kind, text) := by
  rw [symbolWord, kindIn_of_mem nodup_symbols h]

/-- Words in parentheses. -/
def inParens (ws : List (TokenKind × String)) : List (TokenKind × String) :=
  (.lparen, "(") :: (ws ++ [(.rparen, ")")])

/-- Words in braces. -/
def inBraces (ws : List (TokenKind × String)) : List (TokenKind × String) :=
  (.lbrace, "\x7b") :: (ws ++ [(.rbrace, "\x7d")])

/-- Words of several items, with commas between them. -/
def separated (wss : List (List (TokenKind × String))) : List (TokenKind × String) :=
  [(.comma, ",")].intercalate wss

/-- Whether a symbol is an update operator of the grammar, reversible or not. -/
def IsUpdate (op : String) : Prop := ∃ kind, (op, kind) ∈ TokenKind.symbols ∧ kind.isAssign = true

/-! ## Expressions -/

namespace Expr

mutual

/-- All names are names in the text, all operators are operators of the grammar, and nothing is
missing. -/
def Writable : Expr → Prop
  | .int .. | .bool .. => True
  | .var _ name => IsName name
  | .elem _ name index => IsName name ∧ Writable index
  | .binary _ op left right => binaryPrecedence op ≠ 0 ∧ Writable left ∧ Writable right
  | .unary _ op operand => (UnaryOp.ofSymbol? op).isSome = true ∧ Writable operand
  | .call _ name args => IsName name ∧ AllWritable args
  | .update _ op target value => IsUpdate op ∧ Writable target ∧ Writable value
  | .hole _ => False

/-- `Writable`, for several expressions. -/
def AllWritable : List Expr → Prop
  | [] => True
  | e :: es => Writable e ∧ AllWritable es

end

theorem allWritable_iff {es : List Expr} : AllWritable es ↔ ∀ e ∈ es, e.Writable := by
  induction es with
  | nil => simp [AllWritable]
  | cons e es ih => simp [AllWritable, ih]

/-- Whether an expression is an integer literal. -/
def isNumeral : Expr → Bool
  | .int .. => true
  | _ => false

/-- The words of an integer. -/
def numeralWords (value : Int) : List (TokenKind × String) :=
  (if value < 0 then [(.minus, "-")] else []) ++ [(.number, toString value.natAbs)]

mutual

/-- The words of an expression as an operand, see `textIn`. -/
def wordsIn (prec : Nat) (right : Bool) : Expr → List (TokenKind × String)
  | .int _ value =>
    if value < 0 && unaryPrecedence ≤ prec then inParens (numeralWords value)
    else numeralWords value
  | .bool _ value => [if value then (.kwTrue, "true") else (.kwFalse, "false")]
  | .var _ name => [(.ident, name)]
  | .elem _ name index =>
    (.ident, name) :: (.lbracket, "[") :: (wordsIn 0 false index ++ [(.rbracket, "]")])
  | .binary _ op left right_ =>
    let own := binaryPrecedence op
    let words := wordsIn own false left ++ symbolWord op :: wordsIn own true right_
    if own < prec || (right && own = prec) then inParens words else words
  | .unary _ op operand =>
    symbolWord op :: (if op = "-" && operand.isNumeral then inParens (wordsIn 0 false operand)
      else wordsIn unaryPrecedence false operand)
  | .call _ name args => (.ident, name) :: inParens (separated (wordsOf args))
  | .update _ op target value =>
    inParens (wordsIn 0 false target ++ symbolWord op :: wordsIn 0 false value)
  | .hole _ => []

/-- The words of several expressions, each on its own. -/
def wordsOf : List Expr → List (List (TokenKind × String))
  | [] => []
  | e :: es => wordsIn 0 false e :: wordsOf es

end

/-- The words of an expression on its own. -/
def words (e : Expr) : List (TokenKind × String) := e.wordsIn 0 false

end Expr

/-! ## The parts of printed text -/

namespace Lexer

variable {cs rest : List Char}

/-- In front of a break, the text is read as the given words. -/
def Spells (text : String) (ws : List (TokenKind × String)) : Prop :=
  ∀ rest, Breaks rest → Reads text.toList ws rest

/-- The text is read as the given words, whatever follows. -/
def Closes (text : String) (ws : List (TokenKind × String)) : Prop :=
  ∀ rest, Reads text.toList ws rest

/-- A symbol between two blanks. -/
theorem reads_infix {op : String} {kind : TokenKind} (h : (op, kind) ∈ TokenKind.symbols) :
    Reads (' ' :: (op.toList ++ [' '])) [symbolWord op] rest := by
  rw [symbolWord_of_mem h]
  exact .cons_space rfl ((reads_symbol h rest).append (.space rfl))

/-- Two texts with a symbol between them. -/
theorem spells_between {left right op : String} {us vs : List (TokenKind × String)}
    {kind : TokenKind} (h : (op, kind) ∈ TokenKind.symbols)
    (hleft : Spells left us) (hright : Spells right vs) :
    Spells (left ++ " " ++ op ++ " " ++ right) (us ++ symbolWord op :: vs) := by
  intro rest hrest
  have hop : Reads (' ' :: (op.toList ++ [' '])) [symbolWord op] (right.toList ++ rest) :=
    reads_infix h
  have hblank : " ".toList = [' '] := rfl
  have hread := (hleft _ (breaks_cons rfl _)).append (hop.append (hright rest hrest))
  simpa only [String.toList_append, List.append_assoc, List.cons_append, List.nil_append, hblank]
    using hread

/-- Items with a comma and a blank between two of them. -/
theorem spells_separated {texts : List String} {wss : List (List (TokenKind × String))}
    (h : List.Forall₂ Spells texts wss) : Spells (", ".intercalate texts) (separated wss) := by
  intro rest hrest
  induction h with
  | nil => exact .nil
  | @cons text ws texts wss hitem hitems ih =>
    cases hitems with
    | nil =>
      rw [String.intercalate_singleton, separated, List.intercalate_singleton]
      exact hitem rest hrest
    | cons hnext hmore =>
      have hcomma (rest : List Char) : Reads [','] [(.comma, ",")] rest :=
        reads_delimiter (by decide : (",", TokenKind.comma) ∈ delimiters) _
      rw [String.intercalate_cons_cons, separated, List.intercalate_cons_cons,
        String.toList_append, String.toList_append, List.append_assoc, List.append_assoc]
      exact (hitem _ (breaks_cons rfl _)).append ((hcomma _).append (.cons_space rfl ih))

variable {a b : String} {us vs : List (TokenKind × String)}

theorem Closes.spells (h : Closes a us) : Spells a us := fun rest _ => h rest

theorem Closes.append (h : Closes a us) (h' : Spells b vs) : Spells (a ++ b) (us ++ vs) := by
  intro rest hrest
  rw [String.toList_append]
  exact (h _).append (h' rest hrest)

theorem Closes.append_closes (h : Closes a us) (h' : Closes b vs) : Closes (a ++ b) (us ++ vs) := by
  intro rest
  rw [String.toList_append]
  exact (h _).append (h' rest)

/-- The text starts with a break. -/
def StartsBreak (text : String) : Prop := ∃ c ds, text.toList = c :: ds ∧ isBreak c = true

theorem StartsBreak.append (h : StartsBreak a) : StartsBreak (a ++ b) := by
  obtain ⟨c, ds, hcs, hc⟩ := h
  exact ⟨c, ds ++ b.toList, by rw [String.toList_append, hcs, List.cons_append], hc⟩

theorem Spells.append (h : Spells a us) (h' : Spells b vs) (hb : StartsBreak b) :
    Spells (a ++ b) (us ++ vs) := by
  intro rest hrest
  obtain ⟨c, ds, hcs, hc⟩ := hb
  rw [String.toList_append]
  refine Reads.append (h _ ?_) (h' rest hrest)
  rw [hcs]
  exact breaks_cons hc _

/-- The text is not empty and does not start with an equals sign, so that it can follow an operator
in front of it. -/
def Opens (cs : List Char) : Prop := ∃ c ds, cs = c :: ds ∧ c ≠ '='

theorem Opens.append {ds : List Char} (h : Opens cs) : Opens (cs ++ ds) := by
  obtain ⟨c, es, rfl, hc⟩ := h
  exact ⟨c, es ++ ds, rfl, hc⟩

theorem opens_name {name : String} (h : IsName name) : Opens name.toList := by
  obtain ⟨c, cs, hcs, hword, -⟩ := isName_iff.mp h
  refine ⟨c, cs, hcs, ?_⟩
  rintro rfl
  exact absurd hword.starts (by decide)

theorem opens_toString (n : Nat) : Opens (toString n).toList := by
  rw [Nat.toString_eq_ofList_toDigits, String.toList_ofList]
  obtain ⟨c, cs, hcs⟩ := List.exists_cons_of_ne_nil (Nat.toDigits_ne_nil (n := n) (b := 10))
  have hdigit : c.isDigit = true :=
    Nat.isDigit_of_mem_toDigits (b := 10) (n := n) (by omega) (by omega) (by simp [hcs])
  refine ⟨c, cs, hcs, ?_⟩
  rintro rfl
  exact absurd hdigit (by decide)

theorem spells_prefixed (op : UnaryOp) (h : Spells a us) (ha : Opens a.toList) :
    Spells (op.symbol ++ a) (symbolWord op.symbol :: us) := by
  intro rest hrest
  obtain ⟨c, ds, hcs, hc⟩ := ha
  have hread := h rest hrest
  rw [String.toList_append]
  rw [hcs] at hread ⊢
  exact (reads_unary op hc (ds ++ rest)).append hread

theorem toList_parenthesized (text : String) :
    (parenthesized text).toList = '(' :: (text.toList ++ [')']) := by
  simp [parenthesized]

theorem opens_parenthesized (text : String) : Opens (parenthesized text).toList := by
  rw [toList_parenthesized]
  exact ⟨'(', _, rfl, by decide⟩

theorem spells_parenthesized (h : Spells a us) : Spells (parenthesized a) (inParens us) := by
  intro rest hrest
  have hopen : Reads ['('] [(.lparen, "(")] ((a.toList ++ [')']) ++ rest) :=
    reads_delimiter (by decide : ("(", TokenKind.lparen) ∈ delimiters) _
  have hclose : Reads [')'] [(.rparen, ")")] rest :=
    reads_delimiter (by decide : (")", TokenKind.rparen) ∈ delimiters) _
  rw [toList_parenthesized]
  exact hopen.append ((h _ (breaks_cons rfl rest)).append hclose)

theorem spells_name {name : String} (h : IsName name) : Spells name [(.ident, name)] :=
  fun _ => reads_name h

end Lexer

namespace Expr

theorem toString_negSucc (n : Nat) : toString (Int.negSucc n) = "-" ++ toString (n + 1) := rfl

theorem spells_numeral (value : Int) : Spells (toString value) (numeralWords value) := by
  cases value with
  | ofNat n => exact fun _ => reads_number n
  | negSucc n =>
    have hwords : numeralWords (.negSucc n) =
        symbolWord UnaryOp.neg.symbol :: [(.number, toString (n + 1))] := by
      rw [numeralWords, if_pos (Int.negSucc_lt_zero n), Int.natAbs_negSucc]
      rfl
    rw [toString_negSucc, hwords]
    exact spells_prefixed .neg (fun _ => reads_number (n + 1)) (opens_toString (n + 1))

theorem opens_numeral (value : Int) : Opens (toString value).toList := by
  cases value with
  | ofNat n => exact opens_toString n
  | negSucc n =>
    rw [toString_negSucc, String.toList_append]
    exact ⟨'-', _, rfl, by decide⟩

theorem exists_binaryOp {op : String} (h : binaryPrecedence op ≠ 0) :
    ∃ b : BinaryOp, b.symbol = op := by
  have hsome : (BinaryOp.ofSymbol? op).isSome = true := by
    unfold binaryPrecedence at h
    split at h
    case h_19 => exact absurd rfl h
    all_goals rfl
  obtain ⟨b, hb⟩ := Option.isSome_iff_exists.mp hsome
  exact ⟨b, BinaryOp.symbol_of_ofSymbol? hb⟩

theorem mem_symbols_binaryOp (b : BinaryOp) :
    (b.symbol, kindIn TokenKind.symbols b.symbol) ∈ TokenKind.symbols := by
  cases b <;> decide

theorem exists_unaryOp {op : String} (h : (UnaryOp.ofSymbol? op).isSome = true) :
    ∃ u : UnaryOp, u.symbol = op := by
  obtain ⟨u, hu⟩ := Option.isSome_iff_exists.mp h
  exact ⟨u, UnaryOp.symbol_of_ofSymbol? hu⟩

theorem textIn_unary (prec : Nat) (right : Bool) (l : Option Location) (op : String) (e : Expr) :
    textIn prec right (.unary l op e) = op ++
      (if op = "-" && e.isNumeral then parenthesized (textIn 0 false e)
        else textIn unaryPrecedence false e) := by
  cases e with
  | int l value =>
    have hself : textIn 0 false (.int l value) = toString value := by
      simp [textIn, unaryPrecedence]
    by_cases hop : op = "-"
    · simp [textIn, isNumeral, hop, unaryPrecedence]
    · simp [textIn, isNumeral, hop, unaryPrecedence]
  | _ => simp [textIn, isNumeral]

theorem opens_textIn : ∀ (e : Expr) (prec : Nat) (right : Bool), e.Writable →
    Opens (e.textIn prec right).toList
  | .int _ value, prec, right, _ => by
    rw [textIn]
    split
    · exact opens_parenthesized _
    · exact opens_numeral value
  | .bool _ true, _, _, _ => by
    rw [textIn]
    exact ⟨'t', _, rfl, by decide⟩
  | .bool _ false, _, _, _ => by
    rw [textIn]
    exact ⟨'f', _, rfl, by decide⟩
  | .var _ name, _, _, h => by
    rw [Writable] at h
    rw [textIn]
    exact opens_name h
  | .elem _ name index, _, _, h => by
    rw [Writable] at h
    rw [textIn, String.append_assoc, String.append_assoc, String.toList_append]
    exact (opens_name h.1).append
  | .binary _ op left right_, prec, right, h => by
    rw [Writable] at h
    rw [textIn]
    split
    · exact opens_parenthesized _
    · simp only [String.append_assoc, String.toList_append]
      exact (opens_textIn left _ _ h.2.1).append
  | .unary _ op operand, prec, right, h => by
    rw [Writable] at h
    obtain ⟨u, rfl⟩ := exists_unaryOp h.1
    rw [textIn_unary, String.toList_append]
    refine Opens.append ?_
    cases u <;> exact ⟨_, _, rfl, by decide⟩
  | .call _ name args, _, _, h => by
    rw [Writable] at h
    rw [textIn, String.toList_append]
    exact (opens_name h.1).append
  | .update _ op target value, _, _, _ => by
    rw [textIn]
    exact opens_parenthesized _
  | .hole _, _, _, h => by
    rw [Writable] at h
    exact h.elim

mutual

/-- The words of a printed expression. -/
theorem spells_textIn : ∀ (e : Expr) (prec : Nat) (right : Bool), e.Writable →
    Spells (e.textIn prec right) (e.wordsIn prec right)
  | .int _ value, prec, right, _ => by
    rw [textIn, wordsIn]
    split
    · exact spells_parenthesized (spells_numeral value)
    · exact spells_numeral value
  | .bool _ true, _, _, _ => by
    rw [textIn, wordsIn]
    exact fun rest => reads_keyword (by decide : ("true", TokenKind.kwTrue) ∈ TokenKind.keywords)
  | .bool _ false, _, _, _ => by
    rw [textIn, wordsIn]
    exact fun rest => reads_keyword (by decide : ("false", TokenKind.kwFalse) ∈ TokenKind.keywords)
  | .var _ name, _, _, h => by
    rw [Writable] at h
    rw [textIn, wordsIn]
    exact spells_name h
  | .elem _ name index, _, _, h => by
    rw [Writable] at h
    have hopen : Closes "[" [(.lbracket, "[")] :=
      reads_delimiter (by decide : ("[", TokenKind.lbracket) ∈ delimiters)
    have hclose : Closes "]" [(.rbracket, "]")] :=
      reads_delimiter (by decide : ("]", TokenKind.rbracket) ∈ delimiters)
    have hindex := spells_textIn index 0 false h.2
    rw [textIn, wordsIn, String.append_assoc, String.append_assoc]
    exact (spells_name h.1).append
      (hopen.append (hindex.append hclose.spells ⟨']', [], rfl, rfl⟩))
      (StartsBreak.append ⟨'[', [], rfl, rfl⟩)
  | .binary _ op left right_, prec, right, h => by
    rw [Writable] at h
    obtain ⟨b, rfl⟩ := exists_binaryOp h.1
    have hwords := spells_between (mem_symbols_binaryOp b)
      (spells_textIn left (binaryPrecedence b.symbol) false h.2.1)
      (spells_textIn right_ (binaryPrecedence b.symbol) true h.2.2)
    rw [textIn, wordsIn]
    split
    · exact spells_parenthesized hwords
    · exact hwords
  | .unary _ op operand, prec, right, h => by
    rw [Writable] at h
    obtain ⟨u, rfl⟩ := exists_unaryOp h.1
    rw [textIn_unary, wordsIn]
    split
    · exact spells_prefixed u (spells_parenthesized (spells_textIn operand 0 false h.2))
        (opens_parenthesized _)
    · exact spells_prefixed u (spells_textIn operand unaryPrecedence false h.2)
        (opens_textIn operand unaryPrecedence false h.2)
  | .call _ name args, _, _, h => by
    rw [Writable] at h
    rw [textIn, wordsIn]
    exact (spells_name h.1).append
      (spells_parenthesized (spells_separated (spells_textsOf args h.2)))
      ⟨'(', _, toList_parenthesized _, rfl⟩
  | .update _ op target value, _, _, h => by
    rw [Writable] at h
    obtain ⟨kind, hop, -⟩ := h.1
    rw [textIn, wordsIn]
    exact spells_parenthesized (spells_between hop (spells_textIn target 0 false h.2.1)
      (spells_textIn value 0 false h.2.2))
  | .hole _, _, _, h => by
    rw [Writable] at h
    exact h.elim

theorem spells_textsOf : ∀ es : List Expr, AllWritable es →
    List.Forall₂ Spells (textsOf es) (wordsOf es)
  | [], _ => by
    rw [textsOf, wordsOf]
    exact .nil
  | e :: es, h => by
    rw [AllWritable] at h
    rw [textsOf, wordsOf]
    exact .cons (spells_textIn e 0 false h.1) (spells_textsOf es h.2)

end

theorem spells_text {e : Expr} (h : e.Writable) : Spells e.text e.words := spells_textIn e 0 false h

end Expr

/-! ## Statements -/

namespace Stmt

mutual

/-- All expressions and names can be written, updates and calls are of references, and nothing is
missing. -/
def Writable : Stmt → Prop
  | .assign _ target op value =>
    target.isRef = true ∧ target.Writable ∧ IsUpdate op ∧ value.Writable
  | .branch _ guard thenBody elseBody assertion =>
    guard.Writable ∧ AllWritable thenBody ∧ AllWritable elseBody ∧ assertion.Writable
  | .call _ callee args _ => IsName callee ∧ ∀ e ∈ args, e.isRef = true ∧ e.Writable
  | .declare _ name value | .discard _ name value => IsName name ∧ value.Writable
  | .loop _ entry doBody loopBody exit =>
    entry.Writable ∧ AllWritable doBody ∧ AllWritable loopBody ∧ exit.Writable
  | .swap _ left right =>
    (left.isRef = true ∧ left.Writable) ∧ right.isRef = true ∧ right.Writable
  | .block _ body => AllWritable body
  | .hole _ => False

/-- `Writable`, for several statements. -/
def AllWritable : List Stmt → Prop
  | [] => True
  | s :: ss => Writable s ∧ AllWritable ss

end

/-- The words of a part that is left out if it is empty. -/
def partWords (keyword : TokenKind × String) (empty : Bool) (ws : List (TokenKind × String)) :
    List (TokenKind × String) := if empty then [] else keyword :: inBraces ws

mutual

/-- The words of a statement. -/
def words : Stmt → List (TokenKind × String)
  | .assign _ target op value => target.words ++ symbolWord op :: value.words
  | .branch _ guard thenBody elseBody assertion =>
    (.kwIf, "if") :: (guard.words ++ (inBraces (wordsOf thenBody) ++
      (partWords (.kwElse, "else") elseBody.isEmpty (wordsOf elseBody) ++
        (.kwAssert, "assert") :: assertion.words)))
  | .call _ callee args uncall =>
    (if uncall then (.kwUncall, "uncall") else (.kwCall, "call")) :: (.ident, callee) ::
      inParens (separated (Expr.wordsOf args))
  | .declare _ name value => (.kwLocal, "local") :: (.ident, name) :: (.assign, "=") :: value.words
  | .discard _ name value =>
    (.kwDelocal, "delocal") :: (.ident, name) :: (.assign, "=") :: value.words
  | .loop _ entry doBody loopBody exit =>
    (.kwFrom, "from") :: (entry.words ++
      (partWords (.kwDo, "do") doBody.isEmpty (wordsOf doBody) ++
        (partWords (.kwLoop, "loop") loopBody.isEmpty (wordsOf loopBody) ++
          (.kwUntil, "until") :: exit.words)))
  | .swap _ left right => left.words ++ (.swap, "<=>") :: right.words
  | .block _ body => inBraces (wordsOf body)
  | .hole _ => []

/-- The words of several statements. -/
def wordsOf : List Stmt → List (TokenKind × String)
  | [] => []
  | s :: ss => words s ++ wordsOf ss

end

/-- Lines as characters, each with its end. -/
def joined (lines : List String) : List Char := lines.flatMap fun line => line.toList ++ ['\n']

/-- The lines are read as the given words, whatever follows. -/
def Fills (lines : List String) (ws : List (TokenKind × String)) : Prop :=
  ∀ rest, Reads (joined lines) ws rest

variable {line : String} {lines more : List String} {us vs : List (TokenKind × String)}

theorem Fills.nil : Fills [] [] := fun _ => .nil

theorem Fills.append (h : Fills lines us) (h' : Fills more vs) : Fills (lines ++ more) (us ++ vs) := by
  intro rest
  rw [joined, List.flatMap_append]
  exact (h _).append (h' rest)

theorem Fills.single (h : Spells line us) : Fills [line] us := by
  intro rest
  have hread := (h ('\n' :: rest) (breaks_cons rfl rest)).append (Reads.space rfl)
  rw [List.append_nil] at hread
  simpa [joined] using hread

theorem Fills.cons (h : Spells line us) (h' : Fills lines vs) : Fills (line :: lines) (us ++ vs) :=
  (Fills.single h).append h'

theorem closes_indent (depth : Nat) : Closes (indent depth) [] := by
  intro rest
  rw [indent, String.toList_ofList]
  exact Reads.replicate_space (4 * depth)

theorem closes_blank : Closes " " [] := fun _ => .space rfl

theorem closes_keyword {text : String} {kind : TokenKind} (h : (text, kind) ∈ TokenKind.keywords) :
    Closes (text ++ " ") [(kind, text)] := by
  intro rest
  have hblank : Reads " ".toList [] rest := .space rfl
  rw [String.toList_append]
  exact (reads_keyword h (breaks_cons rfl rest)).append hblank

theorem closes_lbrace : Closes "\x7b" [(.lbrace, "\x7b")] :=
  reads_delimiter (by decide : ("\x7b", TokenKind.lbrace) ∈ delimiters)

theorem closes_rbrace : Closes "\x7d" [(.rbrace, "\x7d")] :=
  reads_delimiter (by decide : ("\x7d", TokenKind.rbrace) ∈ delimiters)

theorem spells_closing (depth : Nat) : Spells (indent depth ++ "\x7d") [(.rbrace, "\x7d")] :=
  (closes_indent depth).append closes_rbrace.spells

/-- The lines, and behind them the start `text` of a line, are read as the given words. -/
def Leads (lines : List String) (text : String) (ws : List (TokenKind × String)) : Prop :=
  ∃ us vs, Fills lines us ∧ Spells text vs ∧ us ++ vs = ws

namespace Leads

variable {text : String} {ws : List (TokenKind × String)} {kind : TokenKind} {body : List String}

/-- A body in braces after the start of a line. -/
theorem braced (h : Leads lines text ws) (hbody : Fills body us) (depth : Nat) :
    Leads (lines ++ (text ++ " \x7b") :: body) (indent depth ++ "\x7d") (ws ++ inBraces us) := by
  obtain ⟨hs, ts, hlines, htext, rfl⟩ := h
  have hopen : Spells " \x7b" [(.lbrace, "\x7b")] :=
    (closes_blank.append_closes closes_lbrace).spells
  have hline := htext.append hopen ⟨' ', _, rfl, rfl⟩
  exact ⟨_, _, hlines.append (Fills.cons hline hbody), spells_closing depth, by simp [inBraces]⟩

/-- A keyword after the start of a line. -/
theorem keyword {name : String} (h : Leads lines text ws) (hname : (name, kind) ∈ TokenKind.keywords) :
    Leads lines (text ++ " " ++ name) (ws ++ [(kind, name)]) := by
  obtain ⟨hs, ts, hlines, htext, rfl⟩ := h
  have hkeyword : Spells (" " ++ name) [(kind, name)] :=
    closes_blank.append fun _ => reads_keyword hname
  refine ⟨_, _, hlines, ?_, (List.append_assoc ..).symm⟩
  rw [String.append_assoc]
  exact htext.append hkeyword (StartsBreak.append ⟨' ', _, rfl, rfl⟩)

/-- A part with a keyword and a body in braces, which is left out if it is empty. -/
theorem part {name : String} (h : Leads lines text ws) (hname : (name, kind) ∈ TokenKind.keywords)
    (hbody : Fills body us) (depth : Nat) (empty : Bool) :
    Leads (lines ++ if empty then [] else (text ++ " " ++ name ++ " \x7b") :: body)
      (if empty then text else indent depth ++ "\x7d") (ws ++ partWords (kind, name) empty us) := by
  cases empty with
  | true => simpa [partWords] using h
  | false => simpa [partWords] using (h.keyword hname).braced hbody depth

/-- The last line: a keyword and a text end it. -/
theorem finish {name : String} (h : Leads lines text ws) (hname : (name, kind) ∈ TokenKind.keywords)
    (hlast : Spells line us) :
    Fills (lines ++ [text ++ " " ++ name ++ " " ++ line]) (ws ++ (kind, name) :: us) := by
  obtain ⟨hs, ts, hlines, htext, hws⟩ := h.keyword hname
  have hrest := htext.append (closes_blank.append hlast) (StartsBreak.append ⟨' ', _, rfl, rfl⟩)
  rw [← String.append_assoc] at hrest
  have hfill := hlines.append (Fills.single hrest)
  rwa [List.nil_append, ← List.append_assoc, hws, List.append_assoc] at hfill

end Leads

theorem spells_definition {name : String} {value : Expr} (hname : IsName name)
    (hvalue : value.Writable) :
    Spells (name ++ (" = " ++ value.text)) ((.ident, name) :: (.assign, "=") :: value.words) := by
  have hsplit : " = " = " " ++ "=" ++ " " := rfl
  rw [hsplit, ← String.append_assoc, ← String.append_assoc, ← String.append_assoc]
  exact spells_between (by decide : ("=", TokenKind.assign) ∈ TokenKind.symbols) (spells_name hname)
    (Expr.spells_text hvalue)

/-- The words of a printed simple statement. -/
theorem spells_summary : ∀ s : Stmt, s.bodies = [] → s.Writable → Spells s.summary s.words
  | .assign _ target op value, _, h => by
    rw [Writable] at h
    obtain ⟨kind, hop, -⟩ := h.2.2.1
    rw [summary, words]
    exact spells_between hop (Expr.spells_text h.2.1) (Expr.spells_text h.2.2.2)
  | .call _ callee args uncall, _, h => by
    rw [Writable] at h
    have hargs := spells_parenthesized
      (spells_separated (Expr.spells_textsOf args (Expr.allWritable_iff.mpr fun e he => (h.2 e he).2)))
    have hcallee := (spells_name h.1).append hargs ⟨'(', _, toList_parenthesized _, rfl⟩
    rw [summary, words, String.append_assoc]
    cases uncall with
    | false =>
      exact (closes_keyword (by decide : ("call", .kwCall) ∈ TokenKind.keywords)).append hcallee
    | true =>
      exact (closes_keyword (by decide : ("uncall", .kwUncall) ∈ TokenKind.keywords)).append hcallee
  | .declare _ name value, _, h => by
    rw [Writable] at h
    rw [summary, words, String.append_assoc, String.append_assoc]
    exact (closes_keyword (by decide : ("local", .kwLocal) ∈ TokenKind.keywords)).append
      (spells_definition h.1 h.2)
  | .discard _ name value, _, h => by
    rw [Writable] at h
    rw [summary, words, String.append_assoc, String.append_assoc]
    exact (closes_keyword (by decide : ("delocal", .kwDelocal) ∈ TokenKind.keywords)).append
      (spells_definition h.1 h.2)
  | .swap _ left right, _, h => by
    rw [Writable] at h
    have hsplit : " <=> " = " " ++ "<=>" ++ " " := rfl
    rw [summary, words, hsplit, ← String.append_assoc, ← String.append_assoc]
    exact spells_between (by decide : ("<=>", TokenKind.swap) ∈ TokenKind.symbols)
      (Expr.spells_text h.1.2) (Expr.spells_text h.2.2)
  | .hole _, _, h => by
    rw [Writable] at h
    exact h.elim

theorem lines_of_bodies_eq_nil {s : Stmt} (h : s.bodies = []) (depth : Nat) :
    s.lines depth = [indent depth ++ s.summary] := by
  cases s with
  | branch | loop | block => cases h
  | _ => rw [lines] <;> simp

/-- The first line of a conditional, or of a loop. -/
theorem leads_header (depth : Nat) {keyword : String} {kind : TokenKind}
    (h : (keyword, kind) ∈ TokenKind.keywords) {e : Expr} (he : e.Writable) :
    Leads [] (indent depth ++ (keyword ++ " ") ++ e.text) ((kind, keyword) :: e.words) := by
  have hheader := (closes_indent depth).append ((closes_keyword h).append (Expr.spells_text he))
  rw [← String.append_assoc] at hheader
  exact ⟨[], _, .nil, hheader, rfl⟩

mutual

/-- The words of the lines of a statement. -/
theorem fills_lines : ∀ (s : Stmt) (depth : Nat), s.Writable → Fills (s.lines depth) s.words
  | .branch _ guard thenBody elseBody assertion, depth, h => by
    rw [Writable] at h
    have hif := leads_header depth (by decide : ("if", .kwIf) ∈ TokenKind.keywords) h.1
    have hthen := hif.braced (fills_linesOf thenBody (depth + 1) h.2.1) depth
    have helse := hthen.part (by decide : ("else", .kwElse) ∈ TokenKind.keywords)
      (fills_linesOf elseBody (depth + 1) h.2.2.1) depth elseBody.isEmpty
    have hall := helse.finish (by decide : ("assert", .kwAssert) ∈ TokenKind.keywords)
      (Expr.spells_text h.2.2.2)
    have hkeyword : "if " = "if" ++ " " := rfl
    have hmiddle : "\x7d else \x7b" = "\x7d" ++ " " ++ "else" ++ " \x7b" := rfl
    have hlast : "\x7d assert " = "\x7d" ++ " " ++ "assert" ++ " " := rfl
    rw [lines, words, hkeyword, hmiddle, hlast]
    simpa only [ite_self, List.nil_append, List.cons_append, List.append_assoc,
      ← String.append_assoc] using hall
  | .loop _ entry doBody loopBody exit, depth, h => by
    rw [Writable] at h
    have hfrom := leads_header depth (by decide : ("from", .kwFrom) ∈ TokenKind.keywords) h.1
    have hdo := hfrom.part (by decide : ("do", .kwDo) ∈ TokenKind.keywords)
      (fills_linesOf doBody (depth + 1) h.2.1) depth doBody.isEmpty
    have hloop := hdo.part (by decide : ("loop", .kwLoop) ∈ TokenKind.keywords)
      (fills_linesOf loopBody (depth + 1) h.2.2.1) depth loopBody.isEmpty
    have hall := hloop.finish (by decide : ("until", .kwUntil) ∈ TokenKind.keywords)
      (Expr.spells_text h.2.2.2)
    have hkeyword : "from " = "from" ++ " " := rfl
    have hfirst : " do \x7b" = " " ++ "do" ++ " \x7b" := rfl
    have hsecond : " loop \x7b" = " " ++ "loop" ++ " \x7b" := rfl
    have hlast : " until " = " " ++ "until" ++ " " := rfl
    rw [lines, words, hkeyword, hfirst, hsecond, hlast]
    simpa only [List.nil_append, List.cons_append, List.append_assoc, ← String.append_assoc]
      using hall
  | .block _ body, depth, h => by
    rw [Writable] at h
    have hbody := fills_linesOf body (depth + 1) h
    have hopen : Spells (indent depth ++ "\x7b") [(.lbrace, "\x7b")] :=
      (closes_indent depth).append closes_lbrace.spells
    rw [lines, words]
    exact .cons hopen (hbody.append (.single (spells_closing depth)))
  | .assign l target op value, depth, h => by
    rw [lines_of_bodies_eq_nil rfl]
    exact .single ((closes_indent depth).append (spells_summary _ rfl h))
  | .call l callee args uncall, depth, h => by
    rw [lines_of_bodies_eq_nil rfl]
    exact .single ((closes_indent depth).append (spells_summary _ rfl h))
  | .declare l name value, depth, h => by
    rw [lines_of_bodies_eq_nil rfl]
    exact .single ((closes_indent depth).append (spells_summary _ rfl h))
  | .discard l name value, depth, h => by
    rw [lines_of_bodies_eq_nil rfl]
    exact .single ((closes_indent depth).append (spells_summary _ rfl h))
  | .swap l left right, depth, h => by
    rw [lines_of_bodies_eq_nil rfl]
    exact .single ((closes_indent depth).append (spells_summary _ rfl h))
  | .hole _, _, h => by
    rw [Writable] at h
    exact h.elim

theorem fills_linesOf : ∀ (ss : List Stmt) (depth : Nat), AllWritable ss →
    Fills (linesOf depth ss) (wordsOf ss)
  | [], _, _ => by
    rw [linesOf, wordsOf]
    exact .nil
  | s :: ss, depth, h => by
    rw [AllWritable] at h
    rw [linesOf, wordsOf]
    exact (fills_lines s depth h.1).append (fills_linesOf ss depth h.2)

end

end Stmt

/-! ## Procedures and programs -/

namespace Procedure

/-- The name and the parameters are names in the text, and the body can be written. -/
def Writable (p : Procedure) : Prop :=
  IsName p.name ∧ (∀ name ∈ p.paramNames, IsName name) ∧ Stmt.AllWritable p.body

/-- The words of a procedure. -/
def words (p : Procedure) : List (TokenKind × String) :=
  (.procedure, "procedure") :: (.ident, p.name) ::
    (inParens (separated (p.paramNames.map fun name => [(.ident, name)])) ++
      inBraces (Stmt.wordsOf p.body))

theorem toList_lines {lines : List String} (h : lines ≠ []) :
    ("\n".intercalate lines ++ "\n").toList = Stmt.joined lines := by
  have hend : "\n".toList = ['\n'] := rfl
  induction lines with
  | nil => exact absurd rfl h
  | cons line lines ih =>
    cases lines with
    | nil => simp [Stmt.joined, hend]
    | cons next lines =>
      rw [String.intercalate_cons_cons, String.append_assoc, String.append_assoc,
        String.toList_append, String.toList_append, ih (by simp), hend]
      simp [Stmt.joined]

theorem spells_params {names : List String} (h : ∀ name ∈ names, IsName name) :
    List.Forall₂ Spells names (names.map fun name => [(.ident, name)]) := by
  induction names with
  | nil => exact .nil
  | cons name names ih =>
    rw [List.forall_mem_cons] at h
    exact .cons (spells_name h.1) (ih h.2)

/-- The words of a printed procedure. -/
theorem closes_text {p : Procedure} (h : p.Writable) : Closes p.text p.words := by
  have hparams := spells_parenthesized (spells_separated (spells_params h.2.1))
  have hname := (spells_name h.1).append hparams ⟨'(', _, toList_parenthesized _, rfl⟩
  have hheader := (Stmt.closes_keyword
    (by decide : ("procedure", .procedure) ∈ TokenKind.keywords)).append hname
  have hlines := Stmt.Leads.braced ⟨[], _, .nil, hheader, rfl⟩ (Stmt.fills_linesOf p.body 1 h.2.2) 0
  obtain ⟨us, vs, hfills, hclosing, hwords⟩ := hlines
  have hread := hfills.append (.single hclosing)
  have hkeyword : "procedure " = "procedure" ++ " " := rfl
  have hindent : Stmt.indent 0 ++ "\x7d" = "\x7d" := rfl
  rw [hwords, hindent, ← String.append_assoc] at hread
  intro rest
  rw [text, toList_lines (by simp), hkeyword]
  exact hread rest

end Procedure

/-- All procedures can be written. -/
def Program.Writable (program : Program) : Prop := ∀ p ∈ program.procedures, p.Writable

/-- The words of a program. -/
def Program.words (program : Program) : List (TokenKind × String) :=
  program.procedures.flatMap Procedure.words

theorem Procedure.reads_texts {ps : List Procedure} (h : ∀ p ∈ ps, p.Writable) :
    Reads (Procedure.texts ps).toList (ps.flatMap Procedure.words) [] := by
  rw [Procedure.texts]
  induction ps with
  | nil => exact .nil
  | cons p ps ih =>
    rw [List.forall_mem_cons] at h
    cases ps with
    | nil =>
      rw [List.map_singleton, String.intercalate_singleton, List.flatMap_singleton]
      exact Procedure.closes_text h.1 []
    | cons q ps =>
      have hend : Reads "\n".toList [] ((Procedure.texts (q :: ps)).toList ++ []) := .space rfl
      rw [List.map_cons, List.map_cons, String.intercalate_cons_cons, String.append_assoc,
        String.toList_append, String.toList_append, List.flatMap_cons]
      exact (Procedure.closes_text h.1 _).append (hend.append (ih h.2))

/-- **The tokens of a printed program.** -/
theorem Program.tokenize_text {program : Program} (h : program.Writable) (file : String) :
    ∃ ts stop, tokenize program.text file = .ok ⟨ts, stop⟩ ∧
      ts.map Token.word = program.words :=
  (Procedure.reads_texts h).tokenize file

end Retrace
