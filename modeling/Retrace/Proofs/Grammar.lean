import Mathlib.Data.List.GetD
import Retrace.Source.Parser

/-!
# The grammar

Which programs a sequence of words denotes, said without a parser. A word is a token without its
place, and the trees have no places either. There is one relation for each syntactic category and
one constructor for each way to form it; nothing is said about lookahead or the order of attempts.

Binary operators have nine levels, the loosest first. An operand of a level is an operand of the
next level or two operands with an operator of the level between them, where the left one may have
operators of the same level; so operators of one level group to the left. A minus directly in front
of a number is a negative literal and never an operator.
-/

namespace Retrace

/-- Tokens without their places. -/
abbrev Words := List (TokenKind × String)

namespace Grammar

/-- The operators of level `i`, the loosest at zero. -/
def operators (i : Nat) : List TokenKind := Parser.binaryLevels.getD i []

theorem lt_of_mem_operators {i : Nat} {kind : TokenKind} (h : kind ∈ operators i) : i < 9 := by
  rcases Nat.lt_or_ge i 9 with hlt | hge
  · exact hlt
  · rw [operators, List.getD_eq_default _ _ hge] at h
    cases h

theorem drop_binaryLevels {i : Nat} (hi : i < 9) :
    Parser.binaryLevels.drop i = operators i :: Parser.binaryLevels.drop (i + 1) := by
  have hlength : i < Parser.binaryLevels.length := hi
  rw [List.drop_eq_getElem_cons hlength, operators, List.getD_eq_getElem _ _ hlength]

/-! ## Lists -/

section Lists

variable {α : Type}

/-- One or more items with commas between them. -/
inductive Separated (item : Words → α → Prop) : Words → List α → Prop
  | one {ws : Words} {a : α} : item ws a → Separated item ws [a]
  | more {us vs : Words} {comma : String} {a : α} {as : List α} :
      item us a → Separated item vs as → Separated item (us ++ (.comma, comma) :: vs) (a :: as)

/-- Items in parentheses, possibly none. -/
inductive Arguments (item : Words → α → Prop) : Words → List α → Prop
  | none {l r : String} : Arguments item [(.lparen, l), (.rparen, r)] []
  | some {ws : Words} {l r : String} {as : List α} :
      Separated item ws as → Arguments item ((.lparen, l) :: (ws ++ [(.rparen, r)])) as

variable {item : Words → α → Prop} {us ws : Words} {a : α} {as : List α}

/-- What follows an item: nothing, or a comma and more items. -/
def More (item : Words → α → Prop) (ws : Words) (as : List α) : Prop :=
  (ws = [] ∧ as = []) ∨ ∃ comma vs, ws = (.comma, comma) :: vs ∧ Separated item vs as

theorem More.separated (h : More item ws as) (ha : item us a) :
    Separated item (us ++ ws) (a :: as) := by
  obtain ⟨rfl, rfl⟩ | ⟨comma, vs, rfl, has⟩ := h
  · rw [List.append_nil]
    exact .one ha
  · exact .more ha has

theorem Separated.split (h : Separated item ws as) :
    ∃ us vs b bs, ws = us ++ vs ∧ as = b :: bs ∧ item us b ∧ More item vs bs := by
  cases h with
  | one hb => exact ⟨ws, [], _, [], (List.append_nil ws).symm, rfl, hb, .inl ⟨rfl, rfl⟩⟩
  | more hb hbs => exact ⟨_, _, _, _, rfl, rfl, hb, .inr ⟨_, _, rfl, hbs⟩⟩

end Lists

/-! ## Expressions -/

mutual

/-- An operand of the operators looser than level `i`. At level zero this is any expression. -/
inductive Operand : Nat → Words → Expr → Prop
  | unary {ws : Words} {e : Expr} : Unary ws e → Operand 9 ws e
  | tighter {i : Nat} {ws : Words} {e : Expr} : i < 9 → Operand (i + 1) ws e → Operand i ws e
  | binary {i : Nat} {us vs : Words} {kind : TokenKind} {op : String} {left right : Expr} :
      Operand i us left → kind ∈ operators i → Operand (i + 1) vs right →
        Operand i (us ++ (kind, op) :: vs) (.binary none op left right)

/-- Operators in front of an operand. -/
inductive Unary : Words → Expr → Prop
  | primary {ws : Words} {e : Expr} : Primary ws e → Unary ws e
  | operator {kind : TokenKind} {op : String} {ws : Words} {e : Expr} :
      kind.isUnary = true → (op = "-" → ∀ w ∈ ws.head?, w.1 ≠ .number) → Unary ws e →
        Unary ((kind, op) :: ws) (.unary none op e)
  | negative {kind : TokenKind} {text : String} {n : Nat} :
      kind.isUnary = true → Text.readDigits? text.toList = some n →
        Unary [(kind, "-"), (.number, text)] (.int none (-Int.ofNat n))

/-- A literal, a reference, a function call, or what stands in parentheses: an expression, or an
update of one by another. -/
inductive Primary : Words → Expr → Prop
  | number {text : String} {n : Nat} :
      Text.readDigits? text.toList = some n → Primary [(.number, text)] (.int none (Int.ofNat n))
  | true {text : String} : Primary [(.kwTrue, text)] (.bool none true)
  | false {text : String} : Primary [(.kwFalse, text)] (.bool none false)
  | reference {ws : Words} {e : Expr} : Reference ws e → Primary ws e
  | call {name : String} {ws : Words} {args : List Expr} :
      Arguments (Operand 0) ws args → Primary ((.ident, name) :: ws) (.call none name args)
  | parenthesis {l r : String} {ws : Words} {e : Expr} :
      Operand 0 ws e → Primary ((.lparen, l) :: (ws ++ [(.rparen, r)])) e
  | update {l r op : String} {kind : TokenKind} {us vs : Words} {target value : Expr} :
      Operand 0 us target → kind.isAssign = true → Operand 0 vs value →
        Primary ((.lparen, l) :: (us ++ (kind, op) :: (vs ++ [(.rparen, r)])))
          (.update none op target value)

/-- A variable, or an array with an index. -/
inductive Reference : Words → Expr → Prop
  | var {name : String} : Reference [(.ident, name)] (.var none name)
  | elem {name l r : String} {ws : Words} {index : Expr} :
      Operand 0 ws index →
        Reference ((.ident, name) :: (.lbracket, l) :: (ws ++ [(.rbracket, r)]))
          (.elem none name index)

end

/-! ## Statements -/

/-- Statements in braces, where `body` is what statements may follow each other. -/
inductive Braced (body : Words → List Stmt → Prop) : Words → List Stmt → Prop
  | intro {l r : String} {ws : Words} {ss : List Stmt} :
      body ws ss → Braced body ((.lbrace, l) :: (ws ++ [(.rbrace, r)])) ss

/-- Statements in braces after a keyword, or nothing. -/
inductive Optional (keyword : TokenKind) (body : Words → List Stmt → Prop) :
    Words → List Stmt → Prop
  | absent : Optional keyword body [] []
  | present {text : String} {ws : Words} {ss : List Stmt} :
      Braced body ws ss → Optional keyword body ((keyword, text) :: ws) ss

mutual

/-- A statement. -/
inductive Statement : Words → Stmt → Prop
  | assign {us vs : Words} {kind : TokenKind} {op : String} {target value : Expr} :
      Reference us target → kind.isAssign = true → Operand 0 vs value →
        Statement (us ++ (kind, op) :: vs) (.assign none target op value)
  | swap {us vs : Words} {text : String} {left right : Expr} :
      Reference us left → Reference vs right →
        Statement (us ++ (.swap, text) :: vs) (.swap none left right)
  | branch {gs ts es as : Words} {k a : String} {guard assertion : Expr}
      {thenBody elseBody : List Stmt} :
      Operand 0 gs guard → Braced Body ts thenBody → Optional .kwElse Body es elseBody →
        Operand 0 as assertion →
        Statement ((.kwIf, k) :: (gs ++ (ts ++ (es ++ (.kwAssert, a) :: as))))
          (.branch none guard thenBody elseBody assertion)
  | call {k callee : String} {ws : Words} {args : List Expr} :
      Arguments Reference ws args →
        Statement ((.kwCall, k) :: (.ident, callee) :: ws) (.call none callee args false)
  | uncall {k callee : String} {ws : Words} {args : List Expr} :
      Arguments Reference ws args →
        Statement ((.kwUncall, k) :: (.ident, callee) :: ws) (.call none callee args true)
  | declare {k name eq : String} {ws : Words} {value : Expr} :
      Operand 0 ws value →
        Statement ((.kwLocal, k) :: (.ident, name) :: (.assign, eq) :: ws)
          (.declare none name value)
  | discard {k name eq : String} {ws : Words} {value : Expr} :
      Operand 0 ws value →
        Statement ((.kwDelocal, k) :: (.ident, name) :: (.assign, eq) :: ws)
          (.discard none name value)
  | loop {es ds ls xs : Words} {k u : String} {entry exit : Expr} {doBody loopBody : List Stmt} :
      Operand 0 es entry → Optional .kwDo Body ds doBody → Optional .kwLoop Body ls loopBody →
        Operand 0 xs exit →
        Statement ((.kwFrom, k) :: (es ++ (ds ++ (ls ++ (.kwUntil, u) :: xs))))
          (.loop none entry doBody loopBody exit)
  | block {ws : Words} {ss : List Stmt} : Braced Body ws ss → Statement ws (.block none ss)

/-- Statements one after the other, each followed by any number of semicolons. -/
inductive Body : Words → List Stmt → Prop
  | nil : Body [] []
  | cons {us semicolons vs : Words} {s : Stmt} {ss : List Stmt} :
      Statement us s → (∀ w ∈ semicolons, w.1 = .semicolon) → Body vs ss →
        Body (us ++ (semicolons ++ vs)) (s :: ss)

end

/-! ## Programs -/

/-- A parameter. -/
inductive Parameter : Words → Param → Prop
  | intro {name : String} : Parameter [(.ident, name)] { name }

/-- A procedure. -/
inductive Definition : Words → Procedure → Prop
  | intro {k name : String} {us vs : Words} {params : List Param} {body : List Stmt} :
      Arguments Parameter us params → Braced Body vs body →
        Definition ((.procedure, k) :: (.ident, name) :: (us ++ vs)) { name, params, body }

/-- The procedures of a program, one after the other. -/
inductive Definitions : Words → List Procedure → Prop
  | nil : Definitions [] []
  | cons {us vs : Words} {p : Procedure} {ps : List Procedure} :
      Definition us p → Definitions vs ps → Definitions (us ++ vs) (p :: ps)

/-! ## What words of a category begin with -/

/-- The kinds of tokens that an expression without an operator in front starts with. -/
def startsPrimary (kind : TokenKind) : Bool :=
  kind = .number || kind = .ident || kind = .kwTrue || kind = .kwFalse || kind = .lparen

/-- The kinds of tokens that an expression starts with. -/
def startsExpr (kind : TokenKind) : Bool := kind.isUnary || startsPrimary kind

/-- The kinds of tokens that a statement starts with. -/
def startsStmt (kind : TokenKind) : Bool :=
  kind = .kwIf || kind = .kwCall || kind = .kwUncall || kind = .kwLocal || kind = .kwDelocal ||
    kind = .kwFrom || kind = .lbrace || kind = .ident

/-- The words are not empty, and the first one is of one of the given kinds. -/
def StartsWith (starts : TokenKind → Bool) (ws : Words) : Prop :=
  ∃ w us, ws = w :: us ∧ starts w.1 = true

/-- The kind of the first of the words, or `k` if there are none. -/
def ahead (ws : Words) (k : Option TokenKind) : Option TokenKind := (ws.head?.map Prod.fst).or k

@[simp] theorem ahead_nil (k : Option TokenKind) : ahead [] k = k := rfl

@[simp] theorem ahead_cons (w : TokenKind × String) (ws : Words) (k : Option TokenKind) :
    ahead (w :: ws) k = some w.1 := rfl

@[simp] theorem ahead_append (us vs : Words) (k : Option TokenKind) :
    ahead (us ++ vs) k = ahead us (ahead vs k) := by
  cases us <;> rfl

theorem StartsWith.ahead {starts : TokenKind → Bool} {ws : Words} (h : StartsWith starts ws)
    (k : Option TokenKind) : ∃ kind, starts kind = true ∧ ahead ws k = some kind := by
  obtain ⟨w, us, rfl, hw⟩ := h
  exact ⟨w.1, hw, rfl⟩

theorem StartsWith.length_pos {starts : TokenKind → Bool} {ws : Words}
    (h : StartsWith starts ws) : 0 < ws.length := by
  obtain ⟨w, us, rfl, -⟩ := h
  exact Nat.succ_pos us.length

theorem StartsWith.append {starts : TokenKind → Bool} {us : Words} (h : StartsWith starts us)
    (vs : Words) : StartsWith starts (us ++ vs) := by
  obtain ⟨w, us, rfl, hw⟩ := h
  exact ⟨w, us ++ vs, rfl, hw⟩

theorem startsWith_cons {starts : TokenKind → Bool} {w : TokenKind × String}
    (hw : starts w.1 = true) (ws : Words) : StartsWith starts (w :: ws) := ⟨w, ws, rfl, hw⟩

theorem StartsWith.mono {starts starts' : TokenKind → Bool} {ws : Words}
    (h : StartsWith starts ws) (hstarts : ∀ kind, starts kind = true → starts' kind = true) :
    StartsWith starts' ws := by
  obtain ⟨w, us, rfl, hw⟩ := h
  exact startsWith_cons (hstarts w.1 hw) us

theorem Reference.startsWith {ws : Words} {e : Expr} (h : Reference ws e) :
    StartsWith (fun kind => kind = .ident) ws := by
  cases h <;> exact startsWith_cons rfl _

theorem Primary.startsWith {ws : Words} {e : Expr} (h : Primary ws e) :
    StartsWith startsPrimary ws := by
  cases h with
  | reference h => exact h.startsWith.mono fun kind hkind => by simp_all [startsPrimary]
  | number | true | false | call | parenthesis | update => exact startsWith_cons rfl _

theorem Unary.startsWith {ws : Words} {e : Expr} (h : Unary ws e) :
    StartsWith startsExpr ws := by
  cases h with
  | primary h => exact h.startsWith.mono fun kind hkind => by simp [startsExpr, hkind]
  | operator hkind | negative hkind => exact startsWith_cons (by simp [startsExpr, hkind]) _

theorem Operand.startsWith : ∀ {i : Nat} {ws : Words} {e : Expr}, Operand i ws e →
    StartsWith startsExpr ws
  | _, _, _, .unary h => h.startsWith
  | _, _, _, .tighter _ h => h.startsWith
  | _, _, _, .binary h _ _ => h.startsWith.append _

theorem Statement.startsWith {ws : Words} {s : Stmt} (h : Statement ws s) :
    StartsWith startsStmt ws := by
  cases h with
  | assign h | swap h =>
    exact (h.startsWith.mono fun kind hkind => by simp_all [startsStmt]).append _
  | block h =>
    cases h
    exact startsWith_cons rfl _
  | branch | call | uncall | declare | discard | loop => exact startsWith_cons rfl _

theorem Operand.unary_of_nine {ws : Words} {e : Expr} (h : Operand 9 ws e) : Unary ws e := by
  cases h with
  | unary h => exact h
  | tighter hi => exact absurd hi (Nat.lt_irrefl 9)
  | binary _ hkind => exact absurd (lt_of_mem_operators hkind) (Nat.lt_irrefl 9)

/-- An operand of a level is one of every looser level. -/
theorem Operand.loosen {i j : Nat} {ws : Words} {e : Expr} (h : Operand i ws e) (hi : i ≤ 9)
    (hj : j ≤ i) : Operand j ws e := by
  induction i with
  | zero => exact Nat.le_zero.mp hj ▸ h
  | succ i ih =>
    rcases Nat.lt_or_ge i j with hlt | hle
    · have hij : j = i + 1 := by omega
      exact hij ▸ h
    · exact ih (.tighter (by omega) h) (by omega) hle

end Grammar

end Retrace
