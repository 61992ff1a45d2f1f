import Mathlib.Data.List.TakeWhile
import Retrace.Proofs.Grammar
import Retrace.Proofs.Lexing

/-!
# The parser reads nothing but the grammar

Whatever a parser reads off the front of a list of tokens is derived by its rule of the grammar
(`Recognizes p G`). The predicate is closed under bind, where the words read by the two parts are
put together, so there is one lemma for each function of the parser, in the order of its module.
`Parser.definitions_of_procedures` is the result for whole programs: nothing is left over.
-/

namespace Retrace

theorem Expr.bareList_eq_map (es : List Expr) : Expr.bareList es = es.map Expr.bare := by
  induction es with
  | nil => rfl
  | cons e es ih => rw [Expr.bareList, List.map_cons, ih]

namespace Parser

open Grammar

variable {α β : Type} {stop : Location} {t : Token} {ts rest : List Token}

theorem bind_ok {p : Parser α} {f : α → Parser β} {a : α} (h : p stop ts = .ok (a, rest)) :
    (p >>= f) stop ts = f a stop rest := by
  simp only [bind, h]

theorem bind_eq_ok {p : Parser α} {f : α → Parser β} {b : β}
    (h : (p >>= f) stop ts = .ok (b, rest)) :
    ∃ a rest', p stop ts = .ok (a, rest') ∧ f a stop rest' = .ok (b, rest) := by
  cases hp : p stop ts with
  | error fault =>
    simp only [bind, hp] at h
    cases h
  | ok r => exact ⟨r.1, r.2, rfl, by rwa [bind_ok hp] at h⟩

/-- What is read are the tokens in front, and `G` relates their words to the result. -/
def Recognizes (p : Parser α) (G : Words → α → Prop) : Prop :=
  ∀ stop ts a rest, p stop ts = .ok (a, rest) →
    ∃ us, ts = us ++ rest ∧ G (us.map Token.word) a

namespace Recognizes

variable {p : Parser α} {G G' : Words → α → Prop} {H : Words → β → Prop}

theorem pure {a : α} (h : G [] a) : Recognizes (pure a) G := by
  intro stop ts b rest heq
  cases heq
  exact ⟨[], rfl, h⟩

theorem pure_bind {f : α → Parser β} {a : α} (h : Recognizes (f a) H) :
    Recognizes (Pure.pure a >>= f) H := h

theorem bind {f : α → Parser β} (h : Recognizes p G)
    (h' : ∀ us a, G us a → Recognizes (f a) fun vs b => H (us ++ vs) b) :
    Recognizes (p >>= f) H := by
  intro stop ts b rest heq
  obtain ⟨a, rest', hp, hf⟩ := bind_eq_ok heq
  obtain ⟨us, rfl, hus⟩ := h stop ts a rest' hp
  obtain ⟨vs, rfl, hvs⟩ := h' _ a hus stop rest' b rest hf
  exact ⟨us ++ vs, (List.append_assoc ..).symm, by rwa [List.map_append]⟩

theorem mono (h : Recognizes p G) (hG : ∀ ws a, G ws a → G' ws a) : Recognizes p G' := by
  intro stop ts a rest heq
  obtain ⟨us, hts, hus⟩ := h stop ts a rest heq
  exact ⟨us, hts, hG _ a hus⟩

theorem ite {q : Parser α} {c : Prop} [Decidable c] (hp : c → Recognizes p G)
    (hq : ¬c → Recognizes q G) : Recognizes (if c then p else q) G := by
  split
  · rename_i hc
    exact hp hc
  · rename_i hc
    exact hq hc

/-- One token is taken by hand, the rest by `p`. -/
theorem cons {a : α} (h : Recognizes p fun ws a => G (t.word :: ws) a)
    (heq : p stop ts = .ok (a, rest)) : ∃ us, t :: ts = us ++ rest ∧ G (us.map Token.word) a := by
  obtain ⟨us, rfl, hus⟩ := h stop ts a rest heq
  exact ⟨t :: us, rfl, hus⟩

end Recognizes

/-! ## Tokens -/

theorem recognizes_fail {G : Words → α → Prop} (message : String) :
    Recognizes (fail message) G := by
  intro stop ts a rest heq
  cases heq

theorem recognizes_here : Recognizes here fun ws _ => ws = [] := by
  intro stop ts a rest heq
  cases heq
  exact ⟨[], rfl, rfl⟩

theorem recognizes_peek : Recognizes peek fun ws _ => ws = [] := by
  intro stop ts a rest heq
  cases heq
  exact ⟨[], rfl, rfl⟩

theorem recognizes_peekText : Recognizes peekText fun ws _ => ws = [] := by
  intro stop ts a rest heq
  cases heq
  exact ⟨[], rfl, rfl⟩

theorem recognizes_numeral (text : String) : Recognizes (numeral text) fun ws n =>
    ws = [] ∧ ∃ m, Text.readDigits? text.toList = some m ∧ n = Int.ofNat m := by
  intro stop ts a rest heq
  unfold numeral at heq
  split at heq
  · rename_i m hm
    cases heq
    exact ⟨[], rfl, rfl, m, hm, rfl⟩
  · cases heq

theorem recognizes_expect (kind : TokenKind) :
    Recognizes (expect kind) fun ws t => ws = [(kind, t.text)] := by
  intro stop ts a rest heq
  cases ts with
  | nil => cases heq
  | cons t ts =>
    simp only [expect] at heq
    split at heq
    · rename_i hkind
      cases heq
      exact ⟨[a], rfl, by rw [List.map_singleton, Token.word, hkind]⟩
    · cases heq

theorem recognizes_accept (kind : TokenKind) : Recognizes (accept kind) fun ws b =>
    (b = true ∧ ∃ text, ws = [(kind, text)]) ∨ (b = false ∧ ws = []) := by
  intro stop ts a rest heq
  cases ts with
  | nil =>
    cases heq
    exact ⟨[], rfl, .inr ⟨rfl, rfl⟩⟩
  | cons t ts =>
    rw [accept] at heq
    split at heq <;> cases heq
    · rename_i hkind
      exact ⟨[t], rfl, .inl ⟨rfl, t.text, by rw [List.map_singleton, Token.word, hkind]⟩⟩
    · exact ⟨[], rfl, .inr ⟨rfl, rfl⟩⟩

theorem recognizes_acceptIf (wanted : TokenKind → Bool) : Recognizes (acceptIf wanted) fun ws o =>
    (∃ t, o = some t ∧ wanted t.kind = true ∧ ws = [(t.kind, t.text)]) ∨ (o = none ∧ ws = []) := by
  intro stop ts a rest heq
  cases ts with
  | nil =>
    cases heq
    exact ⟨[], rfl, .inr ⟨rfl, rfl⟩⟩
  | cons t ts =>
    rw [acceptIf] at heq
    split at heq <;> cases heq
    · rename_i hwanted
      exact ⟨[t], rfl, .inl ⟨t, rfl, hwanted, rfl⟩⟩
    · exact ⟨[], rfl, .inr ⟨rfl, rfl⟩⟩

/-! ## Lists -/

section Lists

variable {item : Parser α} {strip : α → β} {G : Words → β → Prop}

theorem recognizes_moreItems (h : Recognizes item fun ws a => G ws (strip a)) (fuel : Nat) :
    Recognizes (moreItems item fuel) fun ws as => More G ws (as.map strip) := by
  induction fuel with
  | zero => exact .pure (.inl ⟨rfl, rfl⟩)
  | succ fuel ih =>
    refine (recognizes_accept _).bind ?_
    rintro _ b (⟨rfl, comma, rfl⟩ | ⟨rfl, rfl⟩)
    · exact h.bind fun us a ha => ih.bind fun vs as has =>
        .pure (.inr ⟨comma, us ++ vs, by simp, has.separated ha⟩)
    · exact .pure (.inl ⟨rfl, rfl⟩)

theorem recognizes_items (h : Recognizes item fun ws a => G ws (strip a)) :
    Recognizes (items item) fun ws as => Separated G ws (as.map strip) := by
  intro stop ts
  have hitems : Recognizes
      (item >>= fun a => moreItems item ts.length >>= fun as => pure (a :: as))
      fun ws as => Separated G ws (as.map strip) := by
    refine h.bind fun us a ha => (recognizes_moreItems h _).bind fun vs as has => .pure ?_
    rw [List.append_nil]
    exact has.separated ha
  exact hitems stop ts

theorem recognizes_arguments (h : Recognizes item fun ws a => G ws (strip a)) :
    Recognizes (arguments item) fun ws as => Arguments G ws (as.map strip) := by
  refine (recognizes_expect _).bind ?_
  rintro _ l rfl
  refine recognizes_peek.bind ?_
  rintro _ kind rfl
  refine .ite (fun _ => ?_) fun _ => ?_
  · refine .pure_bind ((recognizes_expect _).bind ?_)
    rintro _ r rfl
    exact .pure .none
  · refine (recognizes_items h).bind fun ws as has => (recognizes_expect _).bind ?_
    rintro _ r rfl
    exact .pure (.some has)

end Lists

/-! ## Operands -/

/-- What an expression is read by: the tree without places is derived. -/
def RecognizesExpr (x : Parser Expr) (i : Nat) : Prop :=
  Recognizes x fun ws e => Operand i ws e.bare

theorem recognizes_reference {x : Parser Expr} (hx : RecognizesExpr x 0) :
    Recognizes (reference x) fun ws e => Reference ws e.bare := by
  refine (recognizes_expect _).bind ?_
  rintro _ name rfl
  refine (recognizes_accept _).bind ?_
  rintro _ b (⟨rfl, l, rfl⟩ | ⟨rfl, rfl⟩)
  · refine hx.bind fun ws index hindex => (recognizes_expect _).bind ?_
    rintro _ r rfl
    exact .pure (.elem hindex)
  · exact .pure .var

theorem recognizes_parenthesisRest {x : Parser Expr} (hx : RecognizesExpr x 0) (loc : Location)
    {first : Expr} {us : Words} (hfirst : Operand 0 us first.bare) (l : String) :
    Recognizes (parenthesisRest x loc first) fun ws e =>
      Primary ((.lparen, l) :: (us ++ ws)) e.bare := by
  refine (recognizes_acceptIf _).bind ?_
  rintro _ o (⟨op, rfl, hop, rfl⟩ | ⟨rfl, rfl⟩)
  · refine hx.bind fun vs value hvalue => .pure_bind ((recognizes_expect _).bind ?_)
    rintro _ r rfl
    exact .pure (.update hfirst hop hvalue)
  · refine .pure_bind ((recognizes_expect _).bind ?_)
    rintro _ r rfl
    exact .pure (.parenthesis hfirst)

theorem recognizes_primary {x : Parser Expr} (hx : RecognizesExpr x 0) :
    Recognizes (primary x) fun ws e => Primary ws e.bare := by
  intro stop ts e rest heq
  cases ts with
  | nil => cases heq
  | cons t ts =>
    unfold primary at heq
    simp only at heq
    split at heq
    case h_1 hkind =>
      have hread : Recognizes (numeral t.text >>= fun n => pure (Expr.int (some t.loc) n))
          fun ws e => Primary (t.word :: ws) e.bare := by
        refine (recognizes_numeral _).bind ?_
        rintro _ _ ⟨rfl, n, hn, rfl⟩
        refine .pure ?_
        rw [Token.word, hkind]
        exact .number hn
      exact Recognizes.cons (G := fun ws e => Primary ws e.bare) hread heq
    case h_2 hkind =>
      cases heq
      refine ⟨[t], rfl, ?_⟩
      rw [List.map_singleton, Token.word, hkind]
      exact .true
    case h_3 hkind =>
      cases heq
      refine ⟨[t], rfl, ?_⟩
      rw [List.map_singleton, Token.word, hkind]
      exact .false
    case h_4 hkind =>
      split at heq
      · have hread : Recognizes
            (arguments x >>= fun args => pure (Expr.call (some t.loc) t.text args))
            fun ws e => Primary (t.word :: ws) e.bare := by
          refine (recognizes_arguments hx).bind fun ws args hargs => .pure ?_
          rw [List.append_nil, Token.word, hkind, Expr.bare, Expr.bareList_eq_map]
          exact .call hargs
        exact Recognizes.cons (G := fun ws e => Primary ws e.bare) hread heq
      · obtain ⟨us, hus, he⟩ := recognizes_reference hx stop (t :: ts) e rest heq
        exact ⟨us, hus, .reference he⟩
    case h_5 hkind =>
      have hread : Recognizes (x >>= fun e => parenthesisRest x t.loc e)
          fun ws e => Primary (t.word :: ws) e.bare := by
        rw [Token.word, hkind]
        exact hx.bind fun us first hfirst =>
          recognizes_parenthesisRest hx t.loc hfirst t.text
      exact Recognizes.cons (G := fun ws e => Primary ws e.bare) hread heq
    case h_6 => cases heq

/-- An operator whose operand is read next. -/
theorem recognizes_operator {operand : Parser Expr} {e : Expr} (hkind : t.kind.isUnary = true)
    (hminus : t.text = "-" → ∀ n ∈ ts.head?, n.kind ≠ .number)
    (h : ∀ e rest, unary operand stop ts = .ok (e, rest) →
      ∃ us, ts = us ++ rest ∧ Unary (us.map Token.word) e.bare)
    (heq : (do
      let (e, left) ← unary operand stop ts
      pure (Expr.unary (some t.loc) t.text e, left)) = Except.ok (e, rest)) :
    ∃ us, t :: ts = us ++ rest ∧ Unary (us.map Token.word) e.bare := by
  obtain ⟨⟨e', left⟩, hread, heq⟩ := Actions.except_bind_eq_ok.mp heq
  cases heq
  obtain ⟨us, rfl, hus⟩ := h e' rest hread
  refine ⟨t :: us, rfl, .operator hkind (fun htext w hw => ?_) hus⟩
  cases us with
  | nil => cases hw
  | cons n us =>
    cases hw
    exact hminus htext n rfl

theorem recognizes_unary {operand : Parser Expr}
    (h : Recognizes operand fun ws e => Primary ws e.bare) :
    Recognizes (unary operand) fun ws e => Unary ws e.bare := by
  have hoperand : Recognizes operand fun ws e => Unary ws e.bare := h.mono fun _ _ => .primary
  intro stop ts
  induction ts with
  | nil => exact hoperand stop []
  | cons t ts ih =>
    intro e rest heq
    rw [unary.eq_def] at heq
    simp only at heq
    split at heq
    · rename_i hunary
      split at heq
      · rename_i n ts
        split at heq
        · rename_i hnegative
          rw [Bool.and_eq_true, decide_eq_true_eq, decide_eq_true_eq] at hnegative
          have hread : Recognizes (numeral n.text >>= fun v => pure (Expr.int (some t.loc) (-v)))
              fun ws e => Unary (t.word :: n.word :: ws) e.bare := by
            refine (recognizes_numeral _).bind ?_
            rintro _ _ ⟨rfl, v, hv, rfl⟩
            refine .pure ?_
            rw [Token.word, Token.word, hnegative.1, hnegative.2]
            exact .negative hunary hv
          obtain ⟨us, rfl, hus⟩ := hread stop ts e rest heq
          exact ⟨t :: n :: us, rfl, hus⟩
        · rename_i hother
          refine recognizes_operator hunary (fun htext m hm => ?_) ih heq
          cases hm
          simpa [htext] using hother
      · exact recognizes_operator hunary (by simp) ih heq
    · exact hoperand stop (t :: ts) e rest heq

/-! ## Levels of operators -/

/-- An operand of the operators looser than level `i`, with at most `depth` levels of nesting in
it. -/
def level (depth i : Nat) : Parser Expr :=
  (binaryLevels.drop i).foldr chain (unary (primary (exprAt depth)))

theorem level_of_lt (depth : Nat) {i : Nat} (hi : i < 9) :
    level depth i = chain (operators i) (level depth (i + 1)) := by
  unfold level
  rw [drop_binaryLevels hi]
  rfl

theorem level_nine (depth : Nat) : level depth 9 = unary (primary (exprAt depth)) := rfl

theorem recognizes_chainRest {i : Nat} {operand : Parser Expr}
    (h : RecognizesExpr operand (i + 1)) (rounds : Nat) {us : Words} {left : Expr}
    (hleft : Operand i us left.bare) :
    Recognizes (chainRest (operators i) operand rounds left)
      fun ws e => Operand i (us ++ ws) e.bare := by
  induction rounds generalizing us left with
  | zero => exact .pure (by simpa using hleft)
  | succ rounds ih =>
    refine (recognizes_acceptIf _).bind ?_
    rintro _ o (⟨op, rfl, hop, rfl⟩ | ⟨rfl, rfl⟩)
    · refine h.bind fun vs right hright => ?_
      have hjoin : Operand i (us ++ (op.kind, op.text) :: vs)
          (Expr.binary (some op.loc) op.text left right).bare :=
        .binary hleft (by simpa using hop) hright
      exact (ih hjoin).mono fun ws e he => by simpa using he
    · exact .pure (by simpa using hleft)

/-- By recursion from the tightest level to the loosest. -/
theorem recognizes_level {depth : Nat} (h : RecognizesExpr (exprAt depth) 0) {i : Nat}
    (hi : i ≤ 9) : RecognizesExpr (level depth i) i := by
  induction hi using Nat.decreasingInduction with
  | self =>
    rw [level_nine]
    exact (recognizes_unary (recognizes_primary h)).mono fun _ _ => .unary
  | of_succ i hi ih =>
    rw [level_of_lt depth hi]
    intro stop ts
    have hchain : RecognizesExpr
        (level depth (i + 1) >>= chainRest (operators i) (level depth (i + 1)) ts.length) i :=
      ih.bind fun us left hleft => recognizes_chainRest ih _ (.tighter hi hleft)
    exact hchain stop ts

theorem recognizes_exprAt (depth : Nat) : RecognizesExpr (exprAt depth) 0 := by
  induction depth with
  | zero => exact recognizes_fail _
  | succ depth ih => exact recognizes_level ih (Nat.zero_le 9)

theorem recognizes_expression : RecognizesExpr expression 0 := fun stop ts =>
  recognizes_exprAt (ts.length + 1) stop ts

/-! ## Statements -/

/-- What statements are read by. -/
def RecognizesStmt (p : Parser Stmt) : Prop := Recognizes p fun ws s => Statement ws s.bare

theorem recognizes_body {stmt : Parser Stmt} (h : RecognizesStmt stmt) (fuel : Nat) :
    Recognizes (body stmt fuel) fun ws ss => Body ws (Stmt.bareList ss) := by
  induction fuel with
  | zero => exact .pure .nil
  | succ fuel ih =>
    intro stop ts ss rest heq
    cases ts with
    | nil =>
      cases heq
      exact ⟨[], rfl, .nil⟩
    | cons t ts =>
      rw [body] at heq
      simp only at heq
      split at heq
      · cases heq
        exact ⟨[], rfl, .nil⟩
      · split at heq
        · cases heq
        · rename_i s rest' hread
          obtain ⟨us, hus, hs⟩ := h stop (t :: ts) s rest' hread
          have hmore : Recognizes (body stmt fuel >>= fun ss => pure (s :: ss)) fun ws ss' =>
              ∃ ss, ss' = s :: ss ∧ Body ws (Stmt.bareList ss) :=
            ih.bind fun vs ss hss => .pure ⟨ss, rfl, by rwa [List.append_nil]⟩
          obtain ⟨vs, hvs, ss, rfl, hss⟩ := hmore _ _ _ _ heq
          -- what was dropped in between are semicolons
          refine ⟨us ++ (rest'.takeWhile (fun t => t.kind = .semicolon) ++ vs), ?_, ?_⟩
          · rw [hus, List.append_assoc, List.append_assoc, ← hvs, List.takeWhile_append_dropWhile]
          · simp only [List.map_append, Stmt.bareList]
            refine .cons hs (fun w hw => ?_) hss
            obtain ⟨u, hu, rfl⟩ := List.mem_map.mp hw
            simpa [Token.word] using List.mem_takeWhile_imp hu

theorem recognizes_braced {stmt : Parser Stmt} (h : RecognizesStmt stmt) :
    Recognizes (braced stmt) fun ws ss => Braced Body ws (Stmt.bareList ss) := by
  refine (recognizes_expect _).bind ?_
  rintro _ l rfl
  have hbody : Recognizes (fun stop ts => body stmt (ts.length + 1) stop ts)
      fun ws ss => Body ws (Stmt.bareList ss) :=
    fun stop ts => recognizes_body h (ts.length + 1) stop ts
  refine hbody.bind fun ws ss hss => (recognizes_expect _).bind ?_
  rintro _ r rfl
  exact .pure (.intro hss)

theorem recognizes_optionalBody {stmt : Parser Stmt} (h : RecognizesStmt stmt)
    (keyword : TokenKind) : Recognizes (optionalBody keyword stmt)
      fun ws ss => Optional keyword Body ws (Stmt.bareList ss) := by
  refine (recognizes_accept _).bind ?_
  rintro _ b (⟨rfl, text, rfl⟩ | ⟨rfl, rfl⟩)
  · exact (recognizes_braced h).mono fun _ _ => .present
  · exact .pure .absent

theorem recognizes_updateStmt : RecognizesStmt updateStmt := by
  refine recognizes_here.bind ?_
  rintro _ loc rfl
  refine (recognizes_reference recognizes_expression).bind fun us target htarget =>
    (recognizes_accept _).bind ?_
  rintro _ b (⟨rfl, text, rfl⟩ | ⟨rfl, rfl⟩)
  · refine (recognizes_reference recognizes_expression).bind fun vs other hother => .pure ?_
    rw [List.append_nil]
    exact .swap htarget hother
  · refine (recognizes_acceptIf _).bind ?_
    rintro _ o (⟨op, rfl, hop, rfl⟩ | ⟨rfl, rfl⟩)
    · refine recognizes_expression.bind fun vs value hvalue => .pure ?_
      rw [List.append_nil]
      exact .assign htarget hop hvalue
    · exact recognizes_peekText.bind fun _ _ _ => recognizes_fail _

theorem recognizes_definition : Recognizes definition fun ws d =>
    ∃ eq vs, ws = (.ident, d.1) :: (.assign, eq) :: vs ∧ Operand 0 vs d.2.bare := by
  refine (recognizes_expect _).bind ?_
  rintro _ name rfl
  refine (recognizes_expect _).bind ?_
  rintro _ eq rfl
  exact recognizes_expression.bind fun vs value hvalue =>
    .pure ⟨eq.text, vs, by simp, hvalue⟩

theorem recognizes_callRest (loc : Location) (uncall : Bool) :
    Recognizes (callRest loc uncall) fun ws s => ∃ callee vs args,
      ws = (.ident, callee) :: vs ∧ s.bare = .call none callee args uncall ∧
        Arguments Reference vs args := by
  refine (recognizes_expect _).bind ?_
  rintro _ callee rfl
  refine (recognizes_arguments (recognizes_reference recognizes_expression)).bind
    fun vs args hargs => .pure ⟨callee.text, vs, args.map Expr.bare, by simp, ?_, hargs⟩
  rw [Stmt.bare, Expr.bareList_eq_map]

theorem recognizes_stmtAt (depth : Nat) : RecognizesStmt (stmtAt depth) := by
  induction depth with
  | zero => exact recognizes_fail _
  | succ depth ih =>
    refine recognizes_here.bind ?_
    rintro _ loc rfl
    refine recognizes_peek.bind ?_
    rintro _ kind rfl
    split
    · refine (recognizes_expect _).bind ?_
      rintro _ k rfl
      refine recognizes_expression.bind fun gs guard hguard =>
        (recognizes_braced ih).bind fun ts thenBody hthen =>
          (recognizes_optionalBody ih _).bind fun es elseBody helse =>
            (recognizes_expect _).bind ?_
      rintro _ a rfl
      refine recognizes_expression.bind fun as assertion hassertion => .pure ?_
      rw [List.append_nil]
      exact .branch hguard hthen helse hassertion
    · refine (recognizes_expect _).bind ?_
      rintro _ k rfl
      refine (recognizes_callRest loc false).mono ?_
      rintro _ s ⟨callee, vs, args, rfl, hs, hargs⟩
      rw [hs]
      exact .call hargs
    · refine (recognizes_expect _).bind ?_
      rintro _ k rfl
      refine (recognizes_callRest loc true).mono ?_
      rintro _ s ⟨callee, vs, args, rfl, hs, hargs⟩
      rw [hs]
      exact .uncall hargs
    · refine (recognizes_expect _).bind ?_
      rintro _ k rfl
      refine recognizes_definition.bind ?_
      rintro _ d ⟨eq, vs, rfl, hvalue⟩
      refine .pure ?_
      rw [List.append_nil]
      exact .declare hvalue
    · refine (recognizes_expect _).bind ?_
      rintro _ k rfl
      refine recognizes_definition.bind ?_
      rintro _ d ⟨eq, vs, rfl, hvalue⟩
      refine .pure ?_
      rw [List.append_nil]
      exact .discard hvalue
    · refine (recognizes_expect _).bind ?_
      rintro _ k rfl
      refine recognizes_expression.bind fun es entry hentry =>
        (recognizes_optionalBody ih _).bind fun ds doBody hdo =>
          (recognizes_optionalBody ih _).bind fun ls loopBody hloop =>
            (recognizes_expect _).bind ?_
      rintro _ u rfl
      refine recognizes_expression.bind fun xs exit hexit => .pure ?_
      rw [List.append_nil]
      exact .loop hentry hdo hloop hexit
    · refine (recognizes_braced ih).bind fun ws body hbody => .pure ?_
      rw [List.append_nil]
      exact .block hbody
    · exact recognizes_updateStmt
    · exact recognizes_peekText.bind fun _ _ _ => recognizes_fail _

theorem recognizes_statement : RecognizesStmt statement := fun stop ts =>
  recognizes_stmtAt (ts.length + 1) stop ts

/-! ## Procedures and programs -/

theorem recognizes_param :
    Recognizes param fun ws (p : Param) => Parameter ws { name := p.name } := by
  refine (recognizes_expect _).bind ?_
  rintro _ name rfl
  exact .pure .intro

theorem recognizes_procedure : Recognizes procedure fun ws p => Definition ws p.bare := by
  refine recognizes_here.bind ?_
  rintro _ loc rfl
  refine recognizes_peek.bind ?_
  rintro _ kind rfl
  refine .ite (fun _ => ?_) fun _ => ?_
  · exact recognizes_peekText.bind fun _ _ _ => recognizes_fail _
  · refine (recognizes_expect _).bind ?_
    rintro _ k rfl
    refine (recognizes_expect _).bind ?_
    rintro _ name rfl
    refine (recognizes_arguments recognizes_param).bind fun us params hparams =>
      (recognizes_braced recognizes_statement).bind fun vs body hbody => .pure ?_
    simp only [List.nil_append, List.cons_append, List.append_nil]
    exact .intro hparams hbody

/-- With more rounds than tokens, procedures are read up to the end. -/
theorem definitions_of_procedures {fuel : Nat} {ps : List Procedure} (hfuel : ts.length < fuel)
    (h : procedures fuel stop ts = .ok (ps, rest)) :
    Definitions (ts.map Token.word) (ps.map Procedure.bare) := by
  induction fuel generalizing ts ps with
  | zero => omega
  | succ fuel ih =>
    rw [procedures] at h
    obtain ⟨kind, ts', hpeek, h⟩ := bind_eq_ok h
    cases hpeek
    split at h
    · rename_i hnone
      obtain rfl : ts = [] := by simpa using hnone
      cases h
      exact .nil
    · obtain ⟨p, ts', hp, h⟩ := bind_eq_ok h
      obtain ⟨ps', rest', hps, h⟩ := bind_eq_ok h
      cases h
      obtain ⟨us, rfl, hus⟩ := recognizes_procedure stop ts p ts' hp
      have hlength : us.length ≠ 0 := by
        intro hzero
        rw [List.eq_nil_of_length_eq_zero hzero] at hus
        cases hus
      rw [List.length_append] at hfuel
      rw [List.map_append, List.map_cons]
      exact .cons hus (ih (by omega) hps)

end Parser

end Retrace
