import Retrace.Proofs.Parsing
import Retrace.Proofs.Printing

/-!
# Printing and reading again

Two facts about the grammar connect printed programs with those that are read. The words of a
program that can be written derive it (`Grammar.definitions_words`), and what is derived from the
words of a text can be written (`Grammar.Definitions.writable`). With the parser between them they
are the round trip from a program to a text and back, and from a text to a program, back to a text
and to the program again (`Program.parse_text`).
-/

namespace Retrace

open Lexer

namespace Grammar

variable {i : Nat} {ws : Words} {e : Expr}

/-! ## Printed words are derived -/

theorem arguments_inParens {α : Type} {G : Words → α → Prop} {wss : List Words} {as : List α}
    (h : List.Forall₂ G wss as) : Arguments G (inParens (separated wss)) as := by
  cases h with
  | nil => exact .none
  | @cons ws a wss as hws hwss =>
    refine .some ?_
    induction hwss generalizing ws a with
    | nil =>
      rw [separated, List.intercalate_singleton]
      exact .one hws
    | cons hnext _ ih =>
      rw [separated, List.intercalate_cons_cons, List.append_assoc]
      exact .more hws (ih hnext)

theorem Primary.operand (h : Primary ws e) (hi : i ≤ 9) : Operand i ws e :=
  (Operand.unary (.primary h)).loosen (Nat.le_refl 9) hi

theorem Operand.inParens (h : Operand 0 ws e) (hi : i ≤ 9) : Operand i (inParens ws) e :=
  (Primary.parenthesis h).operand hi

theorem readDigits_toString (n : Nat) : Text.readDigits? (toString n).toList = some n := by
  have hdigits : ∀ c ∈ Nat.toDigits 10 n, c.isDigit = true := fun c hc =>
    Nat.isDigit_of_mem_toDigits (by omega) (by omega) hc
  rw [Nat.toString_eq_ofList_toDigits, String.toList_ofList,
    Parser.readDigits_digits Nat.toDigits_ne_nil hdigits, Nat.ofDigitChars_ten_toDigits]

theorem unary_numeral (value : Int) : Unary (Expr.numeralWords value) (.int none value) := by
  rw [Expr.numeralWords]
  by_cases hneg : value < 0
  · have hvalue : value = -Int.ofNat value.natAbs := by
      rw [Int.ofNat_eq_natCast]
      omega
    rw [if_pos hneg]
    nth_rewrite 2 [hvalue]
    exact .negative rfl (readDigits_toString value.natAbs)
  · have hvalue : value = Int.ofNat value.natAbs := by
      rw [Int.ofNat_eq_natCast]
      omega
    rw [if_neg hneg]
    nth_rewrite 2 [hvalue]
    exact .primary (.number (readDigits_toString value.natAbs))

/-- Only a literal starts with a number, under an operator in front of it. -/
theorem Unary.isNumeral (h : Unary ws e) (hws : ∃ w ∈ ws.head?, w.1 = .number) :
    e.isNumeral = true := by
  obtain ⟨w, hw, hkind⟩ := hws
  cases h with
  | operator hunary | negative hunary =>
    cases hw
    cases hkind
    cases hunary
  | primary h =>
    cases h with
    | number => rfl
    | true | false | call | parenthesis | update =>
      cases hw
      cases hkind
    | reference h =>
      cases h with
      | var | elem =>
        cases hw
        cases hkind

theorem isNumeral_bare (e : Expr) : e.bare.isNumeral = e.isNumeral := by
  cases e <;> rfl

/-- How tightly an operand has to bind so that it is written without parentheses. -/
def demand (prec : Nat) (right : Bool) : Nat := max 1 (prec + right.toNat)

theorem binaryPrecedence_le (op : String) : binaryPrecedence op ≤ 9 := by
  unfold binaryPrecedence
  split <;> omega

theorem operators_binaryOp (b : BinaryOp) :
    kindIn TokenKind.symbols b.symbol ∈ operators (binaryPrecedence b.symbol - 1) ∧
      0 < binaryPrecedence b.symbol := by
  cases b <;> decide

/-- Two operands and an operator between them, without parentheses. -/
theorem operand_binary {us vs : Words} {left right : Expr} (b : BinaryOp)
    (hleft : ∀ i ≤ 9, i < demand (binaryPrecedence b.symbol) false → Operand i us left)
    (hright : ∀ i ≤ 9, i < demand (binaryPrecedence b.symbol) true → Operand i vs right) :
    Operand (binaryPrecedence b.symbol - 1) (us ++ symbolWord b.symbol :: vs)
      (.binary none b.symbol left right) := by
  obtain ⟨hkind, hpos⟩ := operators_binaryOp b
  have hle := binaryPrecedence_le b.symbol
  obtain ⟨n, hn⟩ : ∃ n, binaryPrecedence b.symbol = n + 1 := ⟨_, (Nat.sub_add_cancel hpos).symm⟩
  rw [hn] at hkind hle hleft hright ⊢
  refine .binary (hleft n (by omega) ?_) hkind (hright (n + 1) hle ?_)
  · simp [demand]
  · simp [demand]

mutual

/-- **The words of a printed expression derive it**, at every level that is not tighter than its
context demands. -/
theorem operand_wordsIn : ∀ (e : Expr) (prec : Nat) (right : Bool), e.Writable → ∀ i ≤ 9,
    i < demand prec right → Operand i (e.wordsIn prec right) e.bare
  | .int l value, prec, right, _, i, hi, _ => by
    have hnumeral (j : Nat) (hj : j ≤ 9) : Operand j (Expr.numeralWords value) (.int none value) :=
      (Operand.unary (unary_numeral value)).loosen (Nat.le_refl 9) hj
    rw [Expr.wordsIn]
    split
    · exact (hnumeral 0 (Nat.zero_le 9)).inParens hi
    · exact hnumeral i hi
  | .bool l true, _, _, _, i, hi, _ => Primary.true.operand hi
  | .bool l false, _, _, _, i, hi, _ => Primary.false.operand hi
  | .var l name, _, _, _, i, hi, _ => (Primary.reference .var).operand hi
  | .elem l name index, _, _, h, i, hi, _ => by
    rw [Expr.Writable] at h
    have hindex := operand_wordsIn index 0 false h.2 0 (Nat.zero_le 9) (by simp [demand])
    exact (Primary.reference (.elem hindex)).operand hi
  | .binary l op left right_, prec, right, h, i, hi, hdemand => by
    rw [Expr.Writable] at h
    obtain ⟨b, rfl⟩ := Expr.exists_binaryOp h.1
    have hpos := (operators_binaryOp b).2
    have hle := binaryPrecedence_le b.symbol
    have hjoin := operand_binary b (operand_wordsIn left (binaryPrecedence b.symbol) false h.2.1)
      (operand_wordsIn right_ (binaryPrecedence b.symbol) true h.2.2)
    rw [Expr.wordsIn]
    split
    · exact (hjoin.loosen (by omega) (Nat.zero_le _)).inParens hi
    · rename_i hplain
      refine hjoin.loosen (by omega) ?_
      simp only [Bool.or_eq_true, Bool.and_eq_true, decide_eq_true_eq, not_or] at hplain
      cases right <;> simp [demand] at hplain hdemand <;> omega
  | .unary l op operand, prec, right, h, i, hi, _ => by
    rw [Expr.Writable] at h
    obtain ⟨u, rfl⟩ := Expr.exists_unaryOp h.1
    have hkind : (symbolWord u.symbol).1.isUnary = true := by cases u <;> rfl
    refine Operand.loosen (.unary ?_) (Nat.le_refl 9) hi
    rw [Expr.wordsIn, Expr.bare]
    split
    · have hoperand := operand_wordsIn operand 0 false h.2 0 (Nat.zero_le 9) (by simp [demand])
      refine .operator hkind (fun _ w hw => ?_) (hoperand.inParens (Nat.le_refl 9)).unary_of_nine
      cases hw
      simp
    · rename_i hother
      have hoperand := (operand_wordsIn operand unaryPrecedence false h.2 9 (Nat.le_refl 9)
        (by decide)).unary_of_nine
      refine .operator hkind (fun hminus w hw hnumber => hother ?_) hoperand
      have hnumeral := hoperand.isNumeral ⟨w, hw, hnumber⟩
      rw [isNumeral_bare] at hnumeral
      simp [hminus, hnumeral]
  | .call l name args, _, _, h, i, hi, _ => by
    rw [Expr.Writable] at h
    exact (Primary.call (arguments_inParens (operands_wordsOf args h.2))).operand hi
  | .update l op target value, _, _, h, i, hi, _ => by
    rw [Expr.Writable] at h
    obtain ⟨kind, hop, hassign⟩ := h.1
    have htarget := operand_wordsIn target 0 false h.2.1 0 (Nat.zero_le 9) (by simp [demand])
    have hvalue := operand_wordsIn value 0 false h.2.2 0 (Nat.zero_le 9) (by simp [demand])
    rw [Expr.wordsIn, symbolWord_of_mem hop, inParens, List.append_assoc, List.cons_append]
    exact (Primary.update htarget hassign hvalue).operand hi
  | .hole _, _, _, h, _, _, _ => by
    rw [Expr.Writable] at h
    exact h.elim

theorem operands_wordsOf : ∀ es : List Expr, Expr.AllWritable es →
    List.Forall₂ (Operand 0) (Expr.wordsOf es) (Expr.bareList es)
  | [], _ => .nil
  | e :: es, h => by
    rw [Expr.AllWritable] at h
    exact .cons (operand_wordsIn e 0 false h.1 0 (Nat.zero_le 9) (by simp [demand]))
      (operands_wordsOf es h.2)

end

theorem operand_words (h : e.Writable) : Operand 0 e.words e.bare :=
  operand_wordsIn e 0 false h 0 (Nat.zero_le 9) (by simp [demand])

theorem reference_words (h : e.isRef = true ∧ e.Writable) : Reference e.words e.bare := by
  cases e with
  | var l name => exact .var
  | elem l name index =>
    have hindex := h.2
    rw [Expr.Writable] at hindex
    exact .elem (operand_words hindex.2)
  | _ => cases h.1

theorem references_wordsOf {es : List Expr} (h : ∀ e ∈ es, e.isRef = true ∧ e.Writable) :
    List.Forall₂ Reference (Expr.wordsOf es) (Expr.bareList es) := by
  induction es with
  | nil => exact .nil
  | cons e es ih =>
    rw [List.forall_mem_cons] at h
    exact .cons (reference_words h.1) (ih h.2)

theorem optional_partWords {keyword : TokenKind} {text : String} {ss : List Stmt}
    (h : Body (Stmt.wordsOf ss) (Stmt.bareList ss)) :
    Optional keyword Body (Stmt.partWords (keyword, text) ss.isEmpty (Stmt.wordsOf ss))
      (Stmt.bareList ss) := by
  cases ss with
  | nil => exact .absent
  | cons s ss => exact .present (.intro h)

mutual

/-- The words of a printed statement derive it. -/
theorem statement_words : ∀ s : Stmt, s.Writable → Statement s.words s.bare
  | .assign l target op value, h => by
    rw [Stmt.Writable] at h
    obtain ⟨kind, hop, hassign⟩ := h.2.2.1
    rw [Stmt.words, symbolWord_of_mem hop]
    exact .assign (reference_words ⟨h.1, h.2.1⟩) hassign (operand_words h.2.2.2)
  | .branch l guard thenBody elseBody assertion, h => by
    rw [Stmt.Writable] at h
    exact .branch (operand_words h.1) (.intro (body_wordsOf thenBody h.2.1))
      (optional_partWords (body_wordsOf elseBody h.2.2.1)) (operand_words h.2.2.2)
  | .call l callee args true, h => by
    rw [Stmt.Writable] at h
    exact .uncall (arguments_inParens (references_wordsOf h.2))
  | .call l callee args false, h => by
    rw [Stmt.Writable] at h
    exact .call (arguments_inParens (references_wordsOf h.2))
  | .declare l name value, h => by
    rw [Stmt.Writable] at h
    exact .declare (operand_words h.2)
  | .discard l name value, h => by
    rw [Stmt.Writable] at h
    exact .discard (operand_words h.2)
  | .loop l entry doBody loopBody exit, h => by
    rw [Stmt.Writable] at h
    exact .loop (operand_words h.1) (optional_partWords (body_wordsOf doBody h.2.1))
      (optional_partWords (body_wordsOf loopBody h.2.2.1)) (operand_words h.2.2.2)
  | .swap l left right, h => by
    rw [Stmt.Writable] at h
    exact .swap (reference_words h.1) (reference_words h.2)
  | .block l body, h => by
    rw [Stmt.Writable] at h
    exact .block (.intro (body_wordsOf body h))
  | .hole _, h => by
    rw [Stmt.Writable] at h
    exact h.elim

theorem body_wordsOf : ∀ ss : List Stmt, Stmt.AllWritable ss →
    Body (Stmt.wordsOf ss) (Stmt.bareList ss)
  | [], _ => .nil
  | s :: ss, h => by
    rw [Stmt.AllWritable] at h
    have hsemicolons : ∀ w ∈ ([] : Words), w.1 = .semicolon := by simp
    exact .cons (statement_words s h.1) hsemicolons (body_wordsOf ss h.2)

end

theorem parameters_words (params : List Param) :
    List.Forall₂ Parameter ((params.map Param.name).map fun name => [(.ident, name)])
      (params.map fun param => { name := param.name }) := by
  induction params with
  | nil => exact .nil
  | cons param params ih => exact .cons .intro ih

theorem definitions_words {ps : List Procedure} (h : ∀ p ∈ ps, p.Writable) :
    Definitions (ps.flatMap Procedure.words) (ps.map Procedure.bare) := by
  induction ps with
  | nil => exact .nil
  | cons p ps ih =>
    rw [List.forall_mem_cons] at h
    exact .cons (.intro (arguments_inParens (parameters_words p.params))
      (.intro (body_wordsOf p.body h.1.2.2))) (ih h.2)

/-! ## What is derived from a text can be written -/

/-- A word that stands in a text. -/
def SoundWord (w : TokenKind × String) : Prop := ∃ loc, Sound ⟨w.1, w.2, loc⟩

theorem isName_of_sound {name : String} (h : SoundWord (.ident, name)) : IsName name := by
  obtain ⟨loc, hnumber | ⟨-, hname⟩ | hkeyword | hsymbol⟩ := h
  · cases hnumber
  · exact hname
  · exact absurd rfl ((by decide : ∀ e ∈ TokenKind.keywords, e.2 ≠ .ident) _ hkeyword)
  · exact absurd rfl ((by decide : ∀ e ∈ TokenKind.symbols, e.2 ≠ .ident) _ hsymbol)

/-- A word of a kind that no name, number or keyword has is a symbol. -/
theorem mem_symbols_of_sound {w : TokenKind × String} (h : SoundWord w) (wanted : TokenKind → Bool)
    (hwanted : ∀ kind ∈ .ident :: .number :: TokenKind.keywords.map Prod.snd, wanted kind = false)
    (hkind : wanted w.1 = true) : (w.2, w.1) ∈ TokenKind.symbols := by
  have hother : w.1 ∉ .ident :: .number :: TokenKind.keywords.map Prod.snd := by
    intro hmem
    rw [hwanted _ hmem] at hkind
    cases hkind
  obtain ⟨loc, h | ⟨h, -⟩ | h | h⟩ := h
  · simp only at h
    simp [h] at hother
  · simp only at h
    simp [h] at hother
  · exact absurd (List.mem_cons_of_mem _ (List.mem_cons_of_mem _ (List.mem_map.mpr ⟨_, h, rfl⟩)))
      hother
  · exact h

theorem isUpdate_of_sound {kind : TokenKind} {op : String} (h : SoundWord (kind, op))
    (hkind : kind.isAssign = true) : IsUpdate op :=
  ⟨kind, mem_symbols_of_sound h TokenKind.isAssign (by decide) hkind, hkind⟩

theorem unaryOp_of_sound {kind : TokenKind} {op : String} (h : SoundWord (kind, op))
    (hkind : kind.isUnary = true) : (UnaryOp.ofSymbol? op).isSome = true := by
  have hall : ∀ e ∈ TokenKind.symbols, e.2.isUnary = true →
      (UnaryOp.ofSymbol? e.1).isSome = true := by decide
  exact hall _ (mem_symbols_of_sound h TokenKind.isUnary (by decide) hkind) hkind

theorem binaryPrecedence_of_sound {kind : TokenKind} {op : String} (h : SoundWord (kind, op))
    (hkind : kind ∈ operators i) : binaryPrecedence op ≠ 0 := by
  have hall : ∀ e ∈ TokenKind.symbols, Parser.binaryLevels.flatten.contains e.2 = true →
      binaryPrecedence e.1 ≠ 0 := by decide
  have hlevel : Parser.binaryLevels.flatten.contains kind = true := by
    have hdrop : operators i ∈ Parser.binaryLevels.drop i := by
      rw [drop_binaryLevels (lt_of_mem_operators hkind)]
      exact List.mem_cons_self
    rw [List.contains_iff_mem]
    exact List.mem_flatten_of_mem (List.mem_of_mem_drop hdrop) hkind
  have hsymbol := mem_symbols_of_sound h Parser.binaryLevels.flatten.contains (by decide) hlevel
  exact hall _ hsymbol hlevel

variable {us vs : Words} {w : TokenKind × String}

/-- Words of a text, one after the other. -/
def Sounds (ws : Words) : Prop := ∀ w ∈ ws, SoundWord w

theorem sounds_cons : Sounds (w :: ws) ↔ SoundWord w ∧ Sounds ws := List.forall_mem_cons

theorem sounds_append : Sounds (us ++ vs) ↔ Sounds us ∧ Sounds vs := List.forall_mem_append

mutual

theorem Operand.writable : ∀ {i ws e}, Operand i ws e → Sounds ws → e.Writable
  | _, _, _, .unary h, hws => h.writable hws
  | _, _, _, .tighter _ h, hws => h.writable hws
  | _, _, _, .binary hleft hkind hright, hws => by
    simp only [sounds_append, sounds_cons] at hws
    rw [Expr.Writable]
    exact ⟨binaryPrecedence_of_sound hws.2.1 hkind, hleft.writable hws.1, hright.writable hws.2.2⟩

theorem Unary.writable : ∀ {ws e}, Unary ws e → Sounds ws → e.Writable
  | _, _, .primary h, hws => h.writable hws
  | _, _, .operator hkind _ h, hws => by
    rw [sounds_cons] at hws
    rw [Expr.Writable]
    exact ⟨unaryOp_of_sound hws.1 hkind, h.writable hws.2⟩
  | _, _, .negative _ _, _ => trivial

theorem Primary.writable : ∀ {ws e}, Primary ws e → Sounds ws → e.Writable
  | _, _, .number _, _ => trivial
  | _, _, .true, _ => trivial
  | _, _, .false, _ => trivial
  | _, _, .reference h, hws => (h.writable hws).2
  | _, _, .call h, hws => by
    rw [sounds_cons] at hws
    rw [Expr.Writable]
    exact ⟨isName_of_sound hws.1, Expr.allWritable_iff.mpr (arguments_writable h hws.2)⟩
  | _, _, .parenthesis h, hws => by
    simp only [sounds_append, sounds_cons] at hws
    exact h.writable hws.2.1
  | _, _, .update htarget hop hvalue, hws => by
    simp only [sounds_append, sounds_cons] at hws
    rw [Expr.Writable]
    exact ⟨isUpdate_of_sound hws.2.2.1 hop, htarget.writable hws.2.1, hvalue.writable hws.2.2.2.1⟩

theorem Reference.writable : ∀ {ws e}, Reference ws e → Sounds ws → e.isRef = true ∧ e.Writable
  | _, _, .var, hws => by
    rw [sounds_cons] at hws
    exact ⟨rfl, by rw [Expr.Writable]; exact isName_of_sound hws.1⟩
  | _, _, .elem h, hws => by
    simp only [sounds_append, sounds_cons] at hws
    exact ⟨rfl, by rw [Expr.Writable]; exact ⟨isName_of_sound hws.1, h.writable hws.2.2.1⟩⟩

theorem arguments_writable : ∀ {ws es}, Arguments (Operand 0) ws es → Sounds ws →
    ∀ e ∈ es, e.Writable
  | _, _, .none, _ => by simp
  | _, _, .some h, hws => by
    simp only [sounds_append, sounds_cons] at hws
    exact separated_writable h hws.2.1

theorem separated_writable : ∀ {ws es}, Separated (Operand 0) ws es → Sounds ws →
    ∀ e ∈ es, e.Writable
  | _, _, .one h, hws => by
    rw [List.forall_mem_singleton]
    exact h.writable hws
  | _, _, .more h hs, hws => by
    simp only [sounds_append, sounds_cons] at hws
    exact List.forall_mem_cons.mpr ⟨h.writable hws.1, separated_writable hs hws.2.2⟩

end

/-- What every item has, all of them have. -/
theorem Arguments.forall {α : Type} {G : Words → α → Prop} {P : α → Prop} {as : List α}
    (h : Arguments G ws as) (hG : ∀ {us a}, G us a → Sounds us → P a) (hws : Sounds ws) :
    ∀ a ∈ as, P a := by
  cases h with
  | none => simp
  | some h =>
    simp only [sounds_append, sounds_cons] at hws
    replace hws := hws.2.1
    induction h with
    | one h =>
      rw [List.forall_mem_singleton]
      exact hG h hws
    | more h _ ih =>
      simp only [sounds_append, sounds_cons] at hws
      exact List.forall_mem_cons.mpr ⟨hG h hws.1, ih hws.2.2⟩

mutual

theorem Statement.writable : ∀ {ws s}, Statement ws s → Sounds ws → s.Writable
  | _, _, .assign htarget hop hvalue, hws => by
    simp only [sounds_append, sounds_cons] at hws
    obtain ⟨href, htarget⟩ := htarget.writable hws.1
    rw [Stmt.Writable]
    exact ⟨href, htarget, isUpdate_of_sound hws.2.1 hop, hvalue.writable hws.2.2⟩
  | _, _, .swap hleft hright, hws => by
    simp only [sounds_append, sounds_cons] at hws
    rw [Stmt.Writable]
    exact ⟨hleft.writable hws.1, hright.writable hws.2.2⟩
  | _, _, .branch hguard hthen helse hassertion, hws => by
    simp only [sounds_append, sounds_cons] at hws
    rw [Stmt.Writable]
    exact ⟨hguard.writable hws.2.1, braced_writable hthen hws.2.2.1,
      optional_writable helse hws.2.2.2.1, hassertion.writable hws.2.2.2.2.2⟩
  | _, _, .call hargs, hws => by
    simp only [sounds_cons] at hws
    rw [Stmt.Writable]
    exact ⟨isName_of_sound hws.2.1, hargs.forall Reference.writable hws.2.2⟩
  | _, _, .uncall hargs, hws => by
    simp only [sounds_cons] at hws
    rw [Stmt.Writable]
    exact ⟨isName_of_sound hws.2.1, hargs.forall Reference.writable hws.2.2⟩
  | _, _, .declare hvalue, hws => by
    simp only [sounds_cons] at hws
    rw [Stmt.Writable]
    exact ⟨isName_of_sound hws.2.1, hvalue.writable hws.2.2.2⟩
  | _, _, .discard hvalue, hws => by
    simp only [sounds_cons] at hws
    rw [Stmt.Writable]
    exact ⟨isName_of_sound hws.2.1, hvalue.writable hws.2.2.2⟩
  | _, _, .loop hentry hdo hloop hexit, hws => by
    simp only [sounds_append, sounds_cons] at hws
    rw [Stmt.Writable]
    exact ⟨hentry.writable hws.2.1, optional_writable hdo hws.2.2.1,
      optional_writable hloop hws.2.2.2.1, hexit.writable hws.2.2.2.2.2⟩
  | _, _, .block h, hws => by
    rw [Stmt.Writable]
    exact braced_writable h hws

theorem Body.writable : ∀ {ws ss}, Body ws ss → Sounds ws → Stmt.AllWritable ss
  | _, _, .nil, _ => trivial
  | _, _, .cons hs _ hbody, hws => by
    simp only [sounds_append] at hws
    rw [Stmt.AllWritable]
    exact ⟨hs.writable hws.1, hbody.writable hws.2.2⟩

theorem braced_writable : ∀ {ws ss}, Braced Body ws ss → Sounds ws → Stmt.AllWritable ss
  | _, _, .intro h, hws => by
    simp only [sounds_append, sounds_cons] at hws
    exact h.writable hws.2.1

theorem optional_writable : ∀ {keyword ws ss}, Optional keyword Body ws ss → Sounds ws →
    Stmt.AllWritable ss
  | _, _, _, .absent, _ => trivial
  | _, _, _, .present h, hws => by
    rw [sounds_cons] at hws
    exact braced_writable h hws.2

end

theorem Definitions.writable {ps : List Procedure} (h : Definitions ws ps) (hws : Sounds ws) :
    ∀ p ∈ ps, p.Writable := by
  induction h with
  | nil => simp
  | cons hp _ ih =>
    rw [sounds_append] at hws
    refine List.forall_mem_cons.mpr ⟨?_, ih hws.2⟩
    cases hp with
    | intro hparams hbody =>
      simp only [sounds_append, sounds_cons] at hws
      refine ⟨isName_of_sound hws.1.2.1, ?_, braced_writable hbody hws.1.2.2.2⟩
      refine List.forall_mem_map.mpr (hparams.forall (fun h hus => ?_) hws.1.2.2.1)
      cases h
      exact isName_of_sound (sounds_cons.mp hus).1

end Grammar

/-! ## Places do not matter -/

namespace Expr

theorem isRef_bare (e : Expr) : e.bare.isRef = e.isRef := by
  cases e <;> rfl

mutual

theorem writable_bare : ∀ e : Expr, e.bare.Writable ↔ e.Writable
  | .int .. | .bool .. | .var .. | .hole _ => Iff.rfl
  | .elem _ _ index => by
    simp only [bare, Writable, writable_bare index]
  | .binary _ _ left right => by
    simp only [bare, Writable, writable_bare left, writable_bare right]
  | .unary _ _ operand => by
    simp only [bare, Writable, writable_bare operand]
  | .call _ _ args => by
    simp only [bare, Writable, allWritable_bareList args]
  | .update _ _ target value => by
    simp only [bare, Writable, writable_bare target, writable_bare value]

theorem allWritable_bareList : ∀ es : List Expr, AllWritable (bareList es) ↔ AllWritable es
  | [] => Iff.rfl
  | e :: es => by
    simp only [bareList, AllWritable, writable_bare e, allWritable_bareList es]

end

end Expr

namespace Stmt

mutual

theorem writable_bare : ∀ s : Stmt, s.bare.Writable ↔ s.Writable
  | .assign _ target _ value => by
    simp only [bare, Writable, Expr.isRef_bare, Expr.writable_bare]
  | .branch _ _ thenBody elseBody _ => by
    simp only [bare, Writable, Expr.writable_bare, allWritable_bareList thenBody,
      allWritable_bareList elseBody]
  | .call _ _ args _ => by
    simp only [bare, Writable, Expr.bareList_eq_map, List.forall_mem_map, Expr.isRef_bare,
      Expr.writable_bare]
  | .declare .. | .discard .. => by
    simp only [bare, Writable, Expr.writable_bare]
  | .loop _ _ doBody loopBody _ => by
    simp only [bare, Writable, Expr.writable_bare, allWritable_bareList doBody,
      allWritable_bareList loopBody]
  | .swap .. => by
    simp only [bare, Writable, Expr.isRef_bare, Expr.writable_bare]
  | .block _ body => by
    simp only [bare, Writable, allWritable_bareList body]
  | .hole _ => Iff.rfl

theorem allWritable_bareList : ∀ ss : List Stmt, AllWritable (bareList ss) ↔ AllWritable ss
  | [] => Iff.rfl
  | s :: ss => by
    simp only [bareList, AllWritable, writable_bare s, allWritable_bareList ss]

end

end Stmt

theorem Procedure.writable_bare (p : Procedure) : p.bare.Writable ↔ p.Writable := by
  have hnames : p.bare.paramNames = p.paramNames := by
    simp [Procedure.bare, Procedure.paramNames, Function.comp_def]
  rw [Procedure.Writable, Procedure.Writable, hnames]
  simp only [Procedure.bare, Stmt.allWritable_bareList]

/-! ## The round trip -/

theorem Program.parse_eq_ok {source file : String} {program : Program} :
    Program.parse source file = .ok program ↔ ∃ input, tokenize source file = .ok input ∧
      input.procedures = .ok program.procedures ∧ program.file = file := by
  constructor
  · intro h
    obtain ⟨input, hinput, h⟩ := Actions.except_bind_eq_ok.mp h
    obtain ⟨ps, hps, h⟩ := Actions.except_bind_eq_ok.mp h
    cases h
    exact ⟨input, hinput, hps, rfl⟩
  · rintro ⟨input, hinput, hps, rfl⟩
    exact Actions.except_bind_eq_ok.mpr ⟨input, hinput, Actions.except_bind_eq_ok.mpr
      ⟨program.procedures, hps, rfl⟩⟩

/-- **Parsing undoes printing**, places aside. -/
theorem Program.parse_of_writable {program : Program} (h : program.Writable) (file : String) :
    ∃ q, Program.parse program.text file = .ok q ∧
      q.procedures.map Procedure.bare = program.procedures.map Procedure.bare := by
  obtain ⟨ts, stop, htokens, hwords⟩ := Program.tokenize_text h file
  have hderived : Grammar.Definitions (ts.map Token.word) (program.procedures.map Procedure.bare) :=
    hwords ▸ Grammar.definitions_words h
  obtain ⟨ps, hread, hps⟩ : ∃ ps, TokenList.procedures ⟨ts, stop⟩ = .ok ps ∧
      ps.map Procedure.bare = program.procedures.map Procedure.bare :=
    TokenList.exists_procedures_iff.mpr hderived
  exact ⟨{ procedures := ps, file }, Program.parse_eq_ok.mpr ⟨_, htokens, hread, rfl⟩, hps⟩

/-- Every program that is read from a text can be written. -/
theorem Program.writable_of_parse {source file : String} {program : Program}
    (h : Program.parse source file = .ok program) : program.Writable := by
  obtain ⟨input, hinput, hread, -⟩ := Program.parse_eq_ok.mp h
  have hsounds : Grammar.Sounds (input.tokens.map Token.word) :=
    List.forall_mem_map.mpr fun t ht => ⟨t.loc, Lexer.sound_tokenize hinput t ht⟩
  have hderived := TokenList.exists_procedures_iff.mp ⟨program.procedures, hread, rfl⟩
  intro p hp
  exact (Procedure.writable_bare p).mp (hderived.writable hsounds _ (List.mem_map_of_mem hp))

/-- **Parsing undoes printing on the whole language.** A program whose names are names in the text,
whose operators are operators of the grammar, whose updates and calls are of references and in which
nothing is missing is printed as a text that is read as the same program, places aside. Every
program that is read from a text is of this kind, so printing it and reading it again gives the
same procedures. -/
theorem Program.parse_text :
    (∀ (program : Program) (file : String), program.Writable →
      ∃ q, Program.parse program.text file = .ok q ∧
        q.procedures.map Procedure.bare = program.procedures.map Procedure.bare) ∧
    ∀ (source file : String) (program : Program), Program.parse source file = .ok program →
      program.Writable ∧ ∀ file', ∃ q, Program.parse program.text file' = .ok q ∧
        q.procedures.map Procedure.bare = program.procedures.map Procedure.bare := by
  refine ⟨fun program file h => Program.parse_of_writable h file, fun source file program h => ?_⟩
  have hwritable := Program.writable_of_parse h
  exact ⟨hwritable, fun file' => Program.parse_of_writable hwritable file'⟩

namespace Sample

/-- `x -= (1 - (2 - -3)) * -(4)`, inside a loop without a first part: parentheses stand where the
tree asks for them, around a literal that is negated, and not around a negative one. -/
def nested : Program :=
  { procedures :=
      [{ name := "nested"
         params := [⟨"x", none⟩]
         body :=
          [.loop none (.binary none "==" (.var none "x") (.int none 0)) []
            [.assign none (.var none "x") "-="
              (.binary none "*"
                (.binary none "-" (.int none 1) (.binary none "-" (.int none 2) (.int none (-3))))
                (.unary none "-" (.int none 4)))]
            (.unary none "!" (.binary none "<" (.var none "x") (.int none 9)))] }] }

theorem isName_nested : Lexer.IsName "nested" ∧ Lexer.IsName "x" :=
  ⟨⟨"", ⟨1, 1, ""⟩, ⟨1, 7, ""⟩, rfl⟩, ⟨"", ⟨1, 1, ""⟩, ⟨1, 2, ""⟩, rfl⟩⟩

end Sample

/-- A loop with a part left out and operators on both sides of each other, printed and read. -/
theorem nested_parse_text : Sample.nested.Writable ∧
    ∃ q, Program.parse Sample.nested.text "<stdin>" = .ok q ∧
      q.procedures.map Procedure.bare = Sample.nested.procedures.map Procedure.bare := by
  have hwritable : Sample.nested.Writable := by
    obtain ⟨hnested, hx⟩ := Sample.isName_nested
    have hupdate : IsUpdate "-=" := ⟨.minusAssign, by decide, rfl⟩
    have hbinary : binaryPrecedence "==" ≠ 0 ∧ binaryPrecedence "*" ≠ 0 ∧
        binaryPrecedence "-" ≠ 0 ∧ binaryPrecedence "<" ≠ 0 := by decide
    have hunary : (UnaryOp.ofSymbol? "-").isSome = true ∧ (UnaryOp.ofSymbol? "!").isSome = true :=
      ⟨rfl, rfl⟩
    simp [Sample.nested, Program.Writable, Procedure.Writable, Procedure.paramNames,
      Stmt.AllWritable, Stmt.Writable, Expr.Writable, Expr.isRef, hnested, hx, hupdate, hbinary,
      hunary]
  exact ⟨hwritable, Program.parse_text.1 Sample.nested "<stdin>" hwritable⟩

end Retrace
