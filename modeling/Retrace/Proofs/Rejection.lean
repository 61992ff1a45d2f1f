import Retrace.Proofs.Descent

/-!
# How a text is refused

A text that denotes no program is refused with one error, and the error says where
(`Program.parse_cases`). The lexer refuses a comment that is never closed, a character that starts
nothing and a name that is stuck to a number; the parser refuses a token that does not fit, or the
end of the text.

There is one exception. A number may hold any digit, and not every digit has a decimal value:
superscripts have none. A number with such a digit is not a mistake of the text but one that stops
the reading (`parse_superscript`).
-/

namespace Retrace

/-- A place in a text, its end included. -/
def Location.InText (loc : Location) (file : String) (cs : List Char) : Prop :=
  loc.file = file ∧ ∃ offset, loc.Denotes cs offset

/-- One error of the grammar, at a place. -/
def Fault.Refuses (f : Fault) (loc : Location) : Prop :=
  ∃ record, f = .failure ⟨.reading, [record]⟩ ∧ record.phase = .reading ∧ record.rule = .grammar ∧
    record.location = some loc

theorem Fault.refuses_reading (message : String) (loc : Location) :
    (Fault.failure (.reading message loc)).Refuses loc := ⟨_, rfl, rfl, rfl, rfl⟩

namespace Lexer

variable {file : String} {cs : List Char} {f : Fault}

/-- The place of a comment that is never closed is the one where it was opened. -/
theorem refuses_of_skipGap {gap : Gap} {cursor : Cursor}
    (h : skipGap file gap cursor cs = .error f) : ∃ opened, f.Refuses opened ∧
      (gap = .block opened ∨ ∃ passed rest, cs = passed ++ rest ∧
        opened = (cursor.after passed).loc file) := by
  fun_induction skipGap file gap cursor cs with
  | case1 | case5 | case6 => cases h
  | case2 cursor cs ih =>
    obtain ⟨opened, hf, hgap | ⟨passed, rest, rfl, rfl⟩⟩ := ih h
    · cases hgap
    · exact ⟨_, hf, .inr ⟨'/' :: '/' :: passed, rest, rfl, rfl⟩⟩
  | case3 cursor cs ih =>
    obtain ⟨opened, hf, hgap | ⟨passed, rest, rfl, rfl⟩⟩ := ih h
    · cases hgap
      exact ⟨_, hf, .inr ⟨[], '/' :: '*' :: cs, rfl, rfl⟩⟩
    · exact ⟨_, hf, .inr ⟨'/' :: '*' :: passed, rest, rfl, rfl⟩⟩
  | case4 cursor c cs _ _ _ ih =>
    obtain ⟨opened, hf, hgap | ⟨passed, rest, rfl, rfl⟩⟩ := ih h
    · cases hgap
    · exact ⟨_, hf, .inr ⟨c :: passed, rest, rfl, rfl⟩⟩
  | case7 cursor c cs ih =>
    obtain ⟨opened, hf, hgap | ⟨passed, rest, rfl, rfl⟩⟩ := ih h
    · split at hgap <;> cases hgap
    · exact ⟨_, hf, .inr ⟨c :: passed, rest, rfl, rfl⟩⟩
  | case8 opened =>
    cases h
    exact ⟨opened, Fault.refuses_reading _ _, .inl rfl⟩
  | case9 opened cursor cs ih =>
    obtain ⟨opened, hf, hgap | ⟨passed, rest, rfl, rfl⟩⟩ := ih h
    · cases hgap
    · exact ⟨_, hf, .inr ⟨'*' :: '/' :: passed, rest, rfl, rfl⟩⟩
  | case10 opened cursor c cs _ ih =>
    obtain ⟨opened, hf, hgap | ⟨passed, rest, rfl, rfl⟩⟩ := ih h
    · exact ⟨_, hf, .inl hgap⟩
    · exact ⟨_, hf, .inr ⟨c :: passed, rest, rfl, rfl⟩⟩

theorem refuses_of_lexeme {loc : Location} {c : Char} (h : lexeme loc c cs = .error f) :
    f.Refuses loc := by
  unfold lexeme at h
  by_cases hdigit : Text.isDigit c = true
  · simp only [hdigit, if_true] at h
    split at h
    · split at h <;> cases h
      exact Fault.refuses_reading _ _
    · cases h
  simp only [hdigit, Bool.false_eq_true, if_false] at h
  by_cases hstart : startsName c = true
  · simp only [hstart, if_true] at h
    split at h <;> cases h
  · simp only [hstart, Bool.false_eq_true, if_false] at h
    split at h <;> cases h
    exact Fault.refuses_reading _ _

theorem inText_after {offset : Nat} {passed rest : List Char} (hoffset : offset ≤ cs.length)
    (hcs : cs.drop offset = passed ++ rest) :
    (((({} : Cursor).after (cs.take offset)).after passed).loc file).InText file cs := by
  obtain ⟨hle, -, hcursor⟩ := advance hoffset hcs
  obtain ⟨hfile, hdenotes⟩ := Location.denotes_iff.mpr ⟨hle, rfl⟩
  rw [hcursor]
  exact ⟨hfile, _, hdenotes⟩

theorem refuses_of_lexFrom {fuel offset : Nat} (hoffset : offset ≤ cs.length)
    (h : lexFrom file fuel (({} : Cursor).after (cs.take offset)) (cs.drop offset) = .error f) :
    ∃ loc, f.Refuses loc ∧ loc.InText file cs := by
  induction fuel generalizing offset with
  | zero => cases h
  | succ fuel ih =>
    rw [lexFrom] at h
    obtain hskip | ⟨⟨cursor, behind⟩, hskip, h⟩ := Actions.except_bind_eq_error.mp h
    · obtain ⟨opened, hf, hgap | ⟨passed, rest, hcs, rfl⟩⟩ := refuses_of_skipGap hskip
      · cases hgap
      · exact ⟨_, hf, inText_after hoffset hcs⟩
    obtain ⟨gap, hgap, -, rfl, hhalts⟩ := filler_of_skipGap hskip
    cases behind with
    | nil => cases h
    | cons c rest =>
      obtain hlexeme | ⟨⟨kind, text⟩, hlexeme, h⟩ := Actions.except_bind_eq_error.mp h
      · exact ⟨_, refuses_of_lexeme hlexeme, inText_after hoffset hgap⟩
      obtain ⟨rest', hrest, -⟩ := lexeme_of_eq_ok hhalts hlexeme
      obtain hmore | ⟨r, -, h⟩ := Actions.except_bind_eq_error.mp h
      · -- the next round starts behind the token
        obtain ⟨hle, hdropGap, hcursorGap⟩ := advance hoffset hgap
        rw [hrest] at hdropGap
        obtain ⟨hle', hdropText, hcursorText⟩ := advance hle hdropGap
        rw [hcursorGap, hcursorText, hrest, List.drop_left, ← hdropText] at hmore
        exact ih hle' hmore
      · cases h

theorem Lexeme.digits {text rest : List Char} (h : Lexeme .number text rest) :
    text ≠ [] ∧ ∀ c ∈ text, Text.isDigit c = true := by
  generalize hkind : TokenKind.number = kind at h
  cases h with
  | number hne hdigits => exact ⟨hne, hdigits⟩
  | @word c cs rest =>
    rcases kindIn_cases TokenKind.keywords (String.ofList (c :: cs)) with hmem | ⟨hident, -⟩
    · exact absurd hkind.symm
        ((by decide : ∀ entry ∈ TokenKind.keywords, entry.2 ≠ .number) _ hmem)
    · rw [hident] at hkind
      cases hkind
  | symbol hentry =>
    exact absurd hkind.symm
      ((by decide : ∀ entry ∈ TokenKind.symbols, entry.2 ≠ .number) _ hentry)

namespace Laid

variable {offset : Nat} {ts : List Token} {t : Token}

theorem inText (h : Laid file cs offset ts) (ht : t ∈ ts) : t.loc.InText file cs := by
  induction h with
  | last => cases ht
  | token _ _ _ _ hfile hdenotes _ ih =>
    rcases List.mem_cons.mp ht with rfl | ht
    · exact ⟨hfile, _, hdenotes⟩
    · exact ih ht

/-- A number of the text is made of digits of the text. -/
theorem digits (h : Laid file cs offset ts) (ht : t ∈ ts) (hkind : t.kind = .number) :
    t.text.toList ≠ [] ∧ ∀ c ∈ t.text.toList, Text.isDigit c = true ∧ c ∈ cs := by
  induction h with
  | last => cases ht
  | @token offset gap text rest t' ts hcs _ htext hlexeme _ _ _ ih =>
    rcases List.mem_cons.mp ht with rfl | ht
    · rw [hkind] at hlexeme
      obtain ⟨hne, hdigits⟩ := hlexeme.digits
      rw [htext, String.toList_ofList]
      refine ⟨hne, fun c hc => ⟨hdigits c hc, List.mem_of_mem_drop (i := offset) ?_⟩⟩
      rw [hcs]
      simp [hc]
    · exact ih ht

end Laid

end Lexer

/-! ## Numbers -/

namespace Text

theorem decimalValue_lt {c : Char} {n : Nat} (h : decimalValue? c = some n) : n < 10 := by
  unfold decimalValue? at h
  split at h
  · split at h
    · rename_i hdigit
      have hrange : 0x30 ≤ c.toNat ∧ c.toNat ≤ 0x39 := by
        simpa [Char.isDigit, UInt32.le_iff_toNat_le] using hdigit
      cases h
      omega
    · cases h
  · obtain ⟨range, -, rfl⟩ := Option.map_eq_some_iff.mp h
    exact Nat.mod_lt _ (by omega)

theorem isSome_digitValue {c : Char} (h : (decimalValue? c).isSome = true) :
    ∃ n, digitValue? 10 c = some n := by
  obtain ⟨n, hn⟩ := Option.isSome_iff_exists.mp h
  exact ⟨n, by simp [digitValue?, hn, decimalValue_lt hn]⟩

theorem isSome_readMoreDigits {cs : List Char} (hdigits : ∀ c ∈ cs, isDigit c = true)
    (h : ∀ c ∈ cs, (decimalValue? c).isSome = true) (acc : Nat) :
    ∃ n, readMoreDigits 10 acc cs = some n := by
  induction cs generalizing acc with
  | nil => exact ⟨acc, rfl⟩
  | cons c cs ih =>
    rw [List.forall_mem_cons] at hdigits h
    obtain ⟨d, hd⟩ := isSome_digitValue h.1
    obtain ⟨n, hn⟩ := ih hdigits.2 h.2 (10 * acc + d)
    refine ⟨n, ?_⟩
    rw [readMoreDigits, hd]
    · exact hn
    · rintro _ _ rfl _
      exact absurd hdigits.1 (by decide)

/-- Digits that have no value together hold one that has none. -/
theorem exists_valueless {cs : List Char} (hne : cs ≠ []) (hdigits : ∀ c ∈ cs, isDigit c = true)
    (h : readDigits? cs = none) : ∃ c ∈ cs, decimalValue? c = none := by
  by_contra hall
  have hvalues : ∀ c ∈ cs, (decimalValue? c).isSome = true := fun c hc =>
    Option.isSome_iff_ne_none.mpr fun hnone => hall ⟨c, hc, hnone⟩
  obtain ⟨c, cs, rfl⟩ := List.exists_cons_of_ne_nil hne
  rw [List.forall_mem_cons] at hdigits hvalues
  obtain ⟨d, hd⟩ := isSome_digitValue hvalues.1
  obtain ⟨n, hn⟩ := isSome_readMoreDigits hdigits.2 hvalues.2 d
  rw [readDigits?, readDigitsIn?, hd] at h
  exact absurd (hn.symm.trans h) (by simp)

end Text

/-! ## Texts -/

namespace Program

/-- **A text is a program or is refused.** Reading ends in a program, or in one error of the
grammar at a place of the text, or at a number of the text that holds a digit without a decimal
value. It does end: the lexer goes on with fewer characters, and the parser with fewer tokens. -/
theorem parse_cases (source file : String) :
    ((∃ program, parse source file = .ok program) ∨
      (∃ f loc, parse source file = .error f ∧ f.Refuses loc ∧ loc.InText file source.toList) ∨
      ∃ input t c, tokenize source file = .ok input ∧ t ∈ input.tokens ∧ t.kind = .number ∧
        parse source file = .error (.badInteger t.text) ∧ c ∈ t.text.toList ∧
        c ∈ source.toList ∧ Text.isDigit c = true ∧ Text.decimalValue? c = none) ∧
    Descends (fun i : Cursor × List Char => i.2.length)
      (fun x i => Lexer.lexOver file (fun cursor cs => x (cursor, cs)) i.1 i.2)
      (fun i => Lexer.lexFrom file (i.2.length + 1) i.1 i.2) ∧
    Parser.Descent := by
  refine ⟨?_, Lexer.descends_lexFrom file, Parser.descent⟩
  cases htokens : tokenize source file with
  | error f =>
    refine .inr (.inl ?_)
    have hparse : parse source file = .error f := Actions.except_bind_eq_error.mpr (.inl htokens)
    obtain hlex | ⟨r, -, hr⟩ := Actions.except_bind_eq_error.mp htokens
    · obtain ⟨loc, hf, hloc⟩ := Lexer.refuses_of_lexFrom (Nat.zero_le _) hlex
      exact ⟨f, loc, hparse, hf, hloc⟩
    · cases hr
  | ok input =>
    obtain ⟨hlaid, hstop⟩ := Lexer.laid_of_tokenize htokens
    have hparse : parse source file = (input.procedures >>= fun procedures =>
        pure { procedures, file }) := by
      rw [parse, htokens]
      rfl
    have hanswers : Parser.Answers input.stop input.tokens 0
        ((Parser.procedures (input.tokens.length + 1)).run input) :=
      (Parser.concur_procedures input.tokens (Nat.lt_succ_self _)).2
    rw [hparse, TokenList.procedures]
    generalize (Parser.procedures (input.tokens.length + 1)).run input = answer at hanswers
    cases hanswers with
    | read => exact .inl ⟨_, rfl⟩
    | refused hloc =>
      refine .inr (.inl ⟨_, _, rfl, Fault.refuses_reading _ _, ?_⟩)
      obtain rfl | ⟨t, ht, rfl⟩ := hloc
      · exact ⟨hstop.1, _, hstop.2⟩
      · exact hlaid.inText ht
    | @valueless t ht hkind hnone =>
      obtain ⟨hne, hdigits⟩ := hlaid.digits ht hkind
      obtain ⟨c, hc, hvalue⟩ := Text.exists_valueless hne (fun c hc => (hdigits c hc).1) hnone
      exact .inr (.inr ⟨input, t, c, rfl, ht, hkind, rfl, hc, (hdigits c hc).2,
        (hdigits c hc).1, hvalue⟩)

/-- A superscript is a digit, so it is read as a number, and it has no value: the text is neither a
program nor refused for its grammar. -/
theorem parse_superscript :
    ¬((∃ program, parse "procedure p(x) \x7b x += ² \x7d" "" = .ok program) ∨
      ∃ f loc, parse "procedure p(x) \x7b x += ² \x7d" "" = .error f ∧ f.Refuses loc) := by
  have hclass : ((parse "procedure p(x) \x7b x += ² \x7d" "").map fun _ => ()).mapError
      Fault.class? = .error (some .value) := by
    decide +kernel
  rintro (⟨program, h⟩ | ⟨f, loc, h, record, rfl, -⟩)
  · rw [h] at hclass
    cases hclass
  · rw [h] at hclass
    cases hclass

end Program

end Retrace
