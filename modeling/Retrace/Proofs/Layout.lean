import Mathlib.Data.List.DropRight
import Mathlib.Data.List.Infix
import Retrace.Proofs.Lexing

/-!
# How tokens lie in a text

A text that can be read is laid out as tokens with fillers before, between and behind them. A filler
is made of blanks and comments (`Filler`), a token is a number, a word or a symbol that is as long
as it can be (`Lexeme`), and `Laid` puts the two in turn at the offsets of the text that the places
of the tokens denote. The main statement is `tokenize_eq_ok_iff`: reading a text gives some tokens
exactly if the text is laid out as these tokens.

A place denotes an offset if as many lines end before the offset as lines come before the place, and
its column counts the characters from the last of these line ends on (`Location.Denotes`).
-/

namespace Retrace

/-! ## Places -/

/-- The offset in a text that a place denotes. Lines end at line feeds only. -/
structure Location.Denotes (loc : Location) (cs : List Char) (offset : Nat) : Prop where
  le_length : offset ≤ cs.length
  line : loc.line = (cs.take offset).count '\n' + 1
  column : loc.column = ((cs.take offset).rtakeWhile (· ≠ '\n')).length + 1

namespace Cursor

theorem after_append (cursor : Cursor) (cs ds : List Char) :
    cursor.after (cs ++ ds) = (cursor.after cs).after ds := List.foldl_append

/-- A cursor counts the line ends it has passed, and the characters since the last one. -/
theorem after_eq (cs : List Char) :
    ({} : Cursor).after cs = ⟨cs.count '\n' + 1, (cs.rtakeWhile (· ≠ '\n')).length + 1⟩ := by
  induction cs using List.reverseRecOn with
  | nil => rfl
  | append_singleton cs c ih =>
    rw [after_append, ih]
    by_cases hc : c = '\n'
    · subst hc
      simp [after, next, List.rtakeWhile_concat_neg]
    · rw [List.rtakeWhile_concat_pos _ _ _ (by simpa using hc)]
      simp [after, next, hc]

end Cursor

namespace Location

variable {loc : Location} {cs : List Char} {i j : Nat}

theorem denotes_iff {file : String} : loc.file = file ∧ loc.Denotes cs i ↔
    i ≤ cs.length ∧ loc = (({} : Cursor).after (cs.take i)).loc file := by
  rw [Cursor.after_eq, Cursor.loc]
  constructor
  · rintro ⟨hfile, hle, hline, hcolumn⟩
    cases loc
    simp_all
  · rintro ⟨hle, rfl⟩
    exact ⟨rfl, hle, rfl, rfl⟩

/-- Going on in a line makes the column grow, and ending a line makes the line grow. -/
theorem Denotes.not_lt (hi : loc.Denotes cs i) (hj : loc.Denotes cs j) : ¬i < j := by
  intro hlt
  obtain ⟨seg, hseg⟩ : ∃ seg, cs.take j = cs.take i ++ seg :=
    ⟨_, (List.prefix_iff_eq_append.mp (List.take_prefix_take_left hlt.le)).symm⟩
  have hline := hi.line.symm.trans hj.line
  rw [hseg, List.count_append] at hline
  have hall : ∀ c ∈ seg.reverse, decide (c ≠ '\n') = true := by
    have hcount : seg.count '\n' = 0 := by omega
    intro c hc
    have hne : c ≠ '\n' := fun he => List.count_eq_zero.mp hcount (he ▸ List.mem_reverse.mp hc)
    simpa using hne
  have hcolumn := hi.column.symm.trans hj.column
  rw [hseg, List.rtakeWhile, List.rtakeWhile, List.reverse_append,
    List.takeWhile_append_of_pos hall] at hcolumn
  have hlength := congrArg List.length hseg
  have hle := hj.le_length
  simp only [List.length_append, List.length_reverse, List.length_take] at hcolumn hlength
  omega

/-- A place denotes at most one offset. -/
theorem Denotes.unique (hi : loc.Denotes cs i) (hj : loc.Denotes cs j) : i = j :=
  Nat.le_antisymm (Nat.le_of_not_lt (hj.not_lt hi)) (Nat.le_of_not_lt (hi.not_lt hj))

end Location

namespace Lexer

/-! ## Fillers -/

/-- What may stand in front of `rest` and is no token: blanks, comments up to the end of a line, and
closed comments. A comment up to the end of the text is one that nothing follows. -/
inductive Filler (rest : List Char) : List Char → Prop
  | nil : Filler rest []
  | blank {c : Char} {gap : List Char} : c ∈ [' ', '\t', '\r', '\n'] → Filler rest gap →
      Filler rest (c :: gap)
  | line {body gap : List Char} : '\n' ∉ body → Filler rest gap →
      Filler rest ('/' :: '/' :: body ++ '\n' :: gap)
  | lastLine {body : List Char} : '\n' ∉ body → rest = [] → Filler rest ('/' :: '/' :: body)
  | closed {body gap : List Char} : ¬['*', '/'] <:+: body → Filler rest gap →
      Filler rest ('/' :: '*' :: body ++ '*' :: '/' :: gap)

/-- The text is at its end, or at a character that starts neither a blank nor a comment. -/
structure Halts (rest : List Char) : Prop where
  blank : ∀ c ∈ rest.head?, isSpace c = false
  line : ¬['/', '/'] <+: rest
  closed : ¬['/', '*'] <+: rest

/-- What the state of the lexer between two tokens has seen of a comment. -/
def Gap.opener : Gap → List Char
  | .blank => []
  | .line => ['/', '/']
  | .block _ => ['/', '*']

namespace Filler

variable {rest gap : List Char} {c : Char}

theorem line_cons (hc : c ≠ '\n') (h : Filler rest ('/' :: '/' :: gap)) :
    Filler rest ('/' :: '/' :: c :: gap) := by
  generalize htext : '/' :: '/' :: gap = text at h
  cases h with
  | nil => cases htext
  | blank hspace => cases htext; simp at hspace
  | line hbody hgap =>
    cases htext
    exact @line rest (c :: _) _ (by simp_all [eq_comm]) hgap
  | lastLine hbody hrest =>
    cases htext
    exact .lastLine (by simp_all [eq_comm]) hrest
  | closed => cases htext

theorem closed_cons (hc : ¬['*', '/'] <+: c :: gap) (h : Filler rest ('/' :: '*' :: gap)) :
    Filler rest ('/' :: '*' :: c :: gap) := by
  generalize htext : '/' :: '*' :: gap = text at h
  cases h with
  | nil => cases htext
  | blank hspace => cases htext; simp at hspace
  | line hbody hgap => cases htext
  | lastLine hbody hrest => cases htext
  | @closed body gap' hbody hgap =>
    cases htext
    refine @closed rest (c :: body) _ (fun hinfix => ?_) hgap
    rcases List.infix_cons_iff.mp hinfix with hfirst | hinfix
    · exact hc (hfirst.trans (List.prefix_append (c :: body) _))
    · exact hbody hinfix

end Filler

theorem isSpace_iff {c : Char} : isSpace c = true ↔ c ∈ [' ', '\t', '\r', '\n'] := by
  simp [isSpace, or_assoc]

/-- Skipping passes a filler and stops where none goes on. In a comment, the filler is the one that
started with it. -/
theorem filler_of_skipGap {file : String} {gap : Gap} {cursor cursor' : Cursor}
    {cs rest : List Char} (h : skipGap file gap cursor cs = .ok (cursor', rest)) :
    ∃ passed, cs = passed ++ rest ∧ Filler rest (gap.opener ++ passed) ∧
      cursor' = cursor.after passed ∧ Halts rest := by
  fun_induction skipGap file gap cursor cs with
  | case1 cursor =>
    cases h
    exact ⟨[], rfl, .nil, rfl, by simp, by simp, by simp⟩
  | case2 cursor cs ih =>
    obtain ⟨passed, rfl, hfiller, rfl, hhalts⟩ := ih h
    exact ⟨'/' :: '/' :: passed, rfl, hfiller, rfl, hhalts⟩
  | case3 cursor cs ih =>
    obtain ⟨passed, rfl, hfiller, rfl, hhalts⟩ := ih h
    exact ⟨'/' :: '*' :: passed, rfl, hfiller, rfl, hhalts⟩
  | case4 cursor c cs hline hclosed hspace ih =>
    obtain ⟨passed, rfl, hfiller, rfl, hhalts⟩ := ih h
    exact ⟨c :: passed, rfl, .blank (isSpace_iff.mp hspace) hfiller, rfl, hhalts⟩
  | case5 cursor c cs hline hclosed hspace =>
    cases h
    refine ⟨[], rfl, .nil, rfl, by simpa using hspace, ?_, ?_⟩
    · rintro ⟨behind, hbehind⟩
      cases hbehind
      exact hline behind rfl rfl
    · rintro ⟨behind, hbehind⟩
      cases hbehind
      exact hclosed behind rfl rfl
  | case6 cursor =>
    cases h
    exact ⟨[], rfl, .lastLine (by simp) rfl, rfl, by simp, by simp, by simp⟩
  | case7 cursor c cs ih =>
    obtain ⟨passed, rfl, hfiller, rfl, hhalts⟩ := ih h
    refine ⟨c :: passed, rfl, ?_, rfl, hhalts⟩
    by_cases hc : c = '\n'
    · rw [if_pos hc] at hfiller
      exact hc ▸ @Filler.line rest [] _ (by simp) hfiller
    · rw [if_neg hc] at hfiller
      exact hfiller.line_cons hc
  | case8 => cases h
  | case9 opened cursor cs ih =>
    obtain ⟨passed, rfl, hfiller, rfl, hhalts⟩ := ih h
    exact ⟨'*' :: '/' :: passed, rfl, @Filler.closed rest [] _ (by simp) hfiller, rfl, hhalts⟩
  | case10 opened cursor c cs hclosed ih =>
    obtain ⟨passed, rfl, hfiller, rfl, hhalts⟩ := ih h
    refine ⟨c :: passed, rfl, hfiller.closed_cons ?_, rfl, hhalts⟩
    rintro ⟨behind, hbehind⟩
    cases hbehind
    exact hclosed _ rfl rfl

theorem skipGap_line {body : List Char} (hbody : '\n' ∉ body) (file : String) (cursor : Cursor)
    (rest : List Char) : skipGap file .line cursor (body ++ rest) =
      skipGap file .line (cursor.after body) rest := by
  induction body generalizing cursor with
  | nil => rfl
  | cons c body ih =>
    rw [List.mem_cons, not_or] at hbody
    rw [List.cons_append, skipGap, if_neg (Ne.symm hbody.1), ih hbody.2]
    rfl

theorem skipGap_closed {body : List Char} (hbody : ¬['*', '/'] <:+: body) (file : String)
    (opened : Location) (cursor : Cursor) (rest : List Char) :
    skipGap file (.block opened) cursor (body ++ '*' :: '/' :: rest) =
      skipGap file .blank (cursor.after (body ++ ['*', '/'])) rest := by
  induction body generalizing cursor with
  | nil => rfl
  | cons c body ih =>
    rw [List.infix_cons_iff, not_or] at hbody
    rw [List.cons_append, skipGap, ih hbody.2]
    · rfl
    · rintro behind rfl hbehind
      cases body with
      | nil => cases hbehind
      | cons d body =>
        cases hbehind
        exact hbody.1 ⟨body, rfl⟩

theorem skipGap_of_filler {rest gap : List Char} (h : Filler rest gap) (hrest : Halts rest)
    (file : String) (cursor : Cursor) :
    skipGap file .blank cursor (gap ++ rest) = .ok (cursor.after gap, rest) := by
  induction h generalizing cursor with
  | nil =>
    cases rest with
    | nil => rfl
    | cons c rest =>
      rw [List.nil_append, skipGap, if_neg (by simp [hrest.blank c rfl])]
      · rfl
      · rintro behind rfl rfl
        exact hrest.line ⟨behind, rfl⟩
      · rintro behind rfl rfl
        exact hrest.closed ⟨behind, rfl⟩
  | blank hc _ ih =>
    rw [List.cons_append, skipGap_space (isSpace_iff.mpr hc), ih]
    rfl
  | @line body gap hbody _ ih =>
    have hbodyRun := skipGap_line hbody file ((cursor.next '/').next '/') ('\n' :: gap ++ rest)
    simp only [List.cons_append, List.append_assoc] at hbodyRun ⊢
    rw [skipGap, hbodyRun, skipGap, if_pos rfl, ih]
    simp [Cursor.after]
  | @lastLine body hbody hnil =>
    subst hnil
    rw [List.cons_append, List.cons_append, skipGap, skipGap_line hbody, skipGap]
    rfl
  | @closed body gap hbody _ ih =>
    have hbodyRun := skipGap_closed hbody file (cursor.loc file) ((cursor.next '/').next '*')
      (gap ++ rest)
    simp only [List.cons_append, List.append_assoc] at hbodyRun ⊢
    rw [skipGap, hbodyRun, ih]
    simp [Cursor.after]

/-! ## Lexemes -/

/-- The text of a token of some kind, where `rest` follows. Numbers and words go as far as their
characters go, and a symbol is the longest one that fits. -/
inductive Lexeme : TokenKind → (text rest : List Char) → Prop
  | number {text rest : List Char} : text ≠ [] → (∀ c ∈ text, Text.isDigit c = true) →
      (∀ c ∈ rest.head?, Text.isDigit c = false ∧ startsName c = false) →
      Lexeme .number text rest
  | word {c : Char} {cs rest : List Char} : IsWord c cs →
      (∀ d ∈ rest.head?, continuesName d = false) →
      Lexeme (kindIn TokenKind.keywords (String.ofList (c :: cs))) (c :: cs) rest
  | symbol {entry : String × TokenKind} {rest : List Char} : entry ∈ TokenKind.symbols →
      (∀ other ∈ TokenKind.symbols, other.1.toList <+: entry.1.toList ++ rest →
        other.1.length ≤ entry.1.length) →
      ¬['/', '/'] <+: entry.1.toList ++ rest → ¬['/', '*'] <+: entry.1.toList ++ rest →
      Lexeme entry.2 entry.1.toList rest

theorem halts_of_plain {c : Char} {cs : List Char} (hspace : isSpace c = false) (hslash : c ≠ '/') :
    Halts (c :: cs) :=
  ⟨by simpa using hspace, by simp [Ne.symm hslash], by simp [Ne.symm hslash]⟩

/-- No symbol is empty or starts with a blank, a digit or a letter. -/
theorem plain_symbol {entry : String × TokenKind} (h : entry ∈ TokenKind.symbols) :
    ∃ c cs, entry.1.toList = c :: cs ∧ isSpace c = false ∧ Text.isDigit c = false ∧
      startsName c = false := by
  fin_cases h <;> exact ⟨_, _, rfl, by decide, by decide, by decide⟩

namespace Lexeme

variable {kind : TokenKind} {text rest : List Char}

theorem ne_nil (h : Lexeme kind text rest) : text ≠ [] := by
  cases h with
  | number hne => exact hne
  | word => exact List.cons_ne_nil _ _
  | symbol hentry =>
    obtain ⟨c, cs, hcs, -⟩ := plain_symbol hentry
    exact hcs ▸ List.cons_ne_nil c cs

theorem halts (h : Lexeme kind text rest) : Halts (text ++ rest) := by
  cases h with
  | number hne hdigits =>
    obtain ⟨c, cs, rfl⟩ := List.exists_cons_of_ne_nil hne
    obtain ⟨hspace, hslash⟩ := plain_of_start (.inr (hdigits c List.mem_cons_self))
    exact halts_of_plain hspace hslash
  | word hword =>
    obtain ⟨hspace, hslash⟩ := plain_of_start (.inl hword.starts)
    exact halts_of_plain hspace hslash
  | symbol hentry _ hline hclosed =>
    obtain ⟨c, cs, hcs, hspace, -⟩ := plain_symbol hentry
    refine ⟨?_, hline, hclosed⟩
    simpa [hcs] using hspace

end Lexeme

theorem pairwise_symbols :
    TokenKind.symbols.Pairwise fun entry other => other.1.length ≤ entry.1.length := by decide

/-- The first symbol that fits is the longest one that does, since longer ones come first. -/
theorem le_of_find_symbol {cs : List Char} {entry : String × TokenKind}
    (h : TokenKind.symbols.find? (fun entry => entry.1.toList.isPrefixOf cs) = some entry) :
    ∀ other ∈ TokenKind.symbols, other.1.toList <+: cs → other.1.length ≤ entry.1.length := by
  intro other hother hfits
  obtain ⟨-, before, behind, htable, hbefore⟩ := List.find?_eq_some_iff_append.mp h
  have hpairs := pairwise_symbols
  rw [htable, List.pairwise_append, List.pairwise_cons] at hpairs
  rw [htable, List.mem_append, List.mem_cons] at hother
  rcases hother with hother | rfl | hother
  · have hmiss := hbefore other hother
    rw [List.isPrefixOf_iff_prefix.mpr hfits] at hmiss
    cases hmiss
  · exact Nat.le_refl _
  · exact hpairs.2.1.1 other hother

theorem find_symbol_iff {cs : List Char} {entry : String × TokenKind} :
    TokenKind.symbols.find? (fun entry => entry.1.toList.isPrefixOf cs) = some entry ↔
      entry ∈ TokenKind.symbols ∧ entry.1.toList <+: cs ∧
        ∀ other ∈ TokenKind.symbols, other.1.toList <+: cs → other.1.length ≤ entry.1.length := by
  constructor
  · intro h
    exact ⟨List.mem_of_find?_eq_some h, by simpa using List.find?_some h,
      le_of_find_symbol h⟩
  · rintro ⟨hentry, hfits, hlongest⟩
    cases hfind : TokenKind.symbols.find? (fun entry => entry.1.toList.isPrefixOf cs) with
    | none =>
      have hmiss := List.find?_eq_none.mp hfind entry hentry
      exact absurd (List.isPrefixOf_iff_prefix.mpr hfits) hmiss
    | some found =>
      -- both fit at the same place and neither is longer, so they are one text
      have hfound := List.mem_of_find?_eq_some hfind
      have hfits' : found.1.toList <+: cs := by simpa using List.find?_some hfind
      have hle := le_of_find_symbol hfind entry hentry hfits
      have hle' := hlongest found hfound hfits'
      have htext : found.1 = entry.1 := by
        have hsub := List.prefix_of_prefix_length_le hfits' hfits hle'
        exact String.toList_injective (hsub.eq_of_length (Nat.le_antisymm hle' hle))
      rw [List.inj_on_of_nodup_map nodup_symbols hfound hentry htext]

theorem stop_dropWhile (p : Char → Bool) (cs : List Char) :
    ∀ d ∈ (cs.dropWhile p).head?, p d = false := by
  intro d hd
  have hstop := List.head?_dropWhile_not p cs
  rwa [Option.mem_def.mp hd] at hstop

theorem lexeme_of_eq_ok {loc : Location} {c : Char} {cs text : List Char} {kind : TokenKind}
    (hhalts : Halts (c :: cs)) (h : lexeme loc c cs = .ok (kind, text)) :
    ∃ rest, c :: cs = text ++ rest ∧ Lexeme kind text rest := by
  by_cases hdigit : Text.isDigit c = true
  · have hstop := stop_dropWhile Text.isDigit (c :: cs)
    have hsplit := (List.takeWhile_append_dropWhile (p := Text.isDigit) (l := c :: cs)).symm
    have hne : (c :: cs).takeWhile Text.isDigit ≠ [] := by simp [hdigit]
    have hall := List.all_eq_true.mp (List.all_takeWhile (p := Text.isDigit) (l := c :: cs))
    simp only [lexeme, hdigit, if_true] at h
    generalize (c :: cs).dropWhile Text.isDigit = rest at h hstop hsplit
    cases rest with
    | nil =>
      cases h
      exact ⟨[], hsplit, .number hne hall (by simp)⟩
    | cons d rest =>
      dsimp only at h
      split at h
      · cases h
      · rename_i hstart
        cases h
        exact ⟨d :: rest, hsplit, .number hne hall (by simpa [hstop d rfl] using hstart)⟩
  by_cases hstart : startsName c = true
  · have hword : IsWord c (cs.takeWhile continuesName) :=
      ⟨hstart, by simpa using hdigit, List.all_eq_true.mp List.all_takeWhile⟩
    have hstop := stop_dropWhile continuesName cs
    have hlexeme := lexeme_word hword hstop loc
    rw [List.takeWhile_append_dropWhile, h] at hlexeme
    cases hlexeme
    exact ⟨cs.dropWhile continuesName, by simp, .word hword hstop⟩
  · simp only [lexeme, hdigit, hstart, Bool.false_eq_true, if_false] at h
    split at h
    · rename_i entry hfind
      cases h
      obtain ⟨hentry, ⟨rest, hrest⟩, hlongest⟩ := find_symbol_iff.mp hfind
      rw [← hrest] at hlongest hhalts
      exact ⟨rest, hrest.symm, .symbol hentry hlongest hhalts.line hhalts.closed⟩
    · cases h

theorem Lexeme.eq_ok {c : Char} {cs text rest : List Char} {kind : TokenKind}
    (h : Lexeme kind text rest) (hcs : c :: cs = text ++ rest) (loc : Location) :
    lexeme loc c cs = .ok (kind, text) := by
  cases h with
  | number hne hdigits hrest =>
    obtain ⟨d, ds, rfl⟩ := List.exists_cons_of_ne_nil hne
    cases hcs
    exact lexeme_number hdigits hrest loc
  | word hword hrest =>
    cases hcs
    exact lexeme_word hword hrest loc
  | @symbol entry _ hentry hlongest =>
    obtain ⟨d, ds, hds, -, hdigit, hstart⟩ := plain_symbol hentry
    have hfind := find_symbol_iff.mpr ⟨hentry, List.prefix_append _ rest, hlongest⟩
    rw [← hcs] at hfind
    have hc : c = d := by
      rw [hds] at hcs
      exact (List.cons.inj hcs).1
    subst hc
    simp only [lexeme, hdigit, hstart, Bool.false_eq_true, if_false, hfind]

/-! ## Layouts -/

/-- From an offset on, the text is laid out as the given tokens, with fillers around them. -/
inductive Laid (file : String) (cs : List Char) : Nat → List Token → Prop
  | last {offset : Nat} : Filler [] (cs.drop offset) → Laid file cs offset []
  | token {offset : Nat} {gap text rest : List Char} {t : Token} {ts : List Token} :
      cs.drop offset = gap ++ (text ++ rest) → Filler (text ++ rest) gap →
      t.text = String.ofList text → Lexeme t.kind text rest →
      t.loc.file = file → t.loc.Denotes cs (offset + gap.length) →
      Laid file cs (offset + gap.length + text.length) ts → Laid file cs offset (t :: ts)

/-- One round of reading: a filler up to the end, or a filler and a token. -/
theorem lexFrom_succ_iff {file : String} {fuel : Nat} {cursor stop : Cursor} {cs : List Char}
    {ts : List Token} :
    lexFrom file (fuel + 1) cursor cs = .ok (ts, stop) ↔
      (Filler [] cs ∧ ts = [] ∧ stop = cursor.after cs) ∨
      ∃ gap text rest kind us, cs = gap ++ (text ++ rest) ∧ Filler (text ++ rest) gap ∧
        Lexeme kind text rest ∧ ts = ⟨kind, String.ofList text, (cursor.after gap).loc file⟩ :: us ∧
        lexFrom file fuel ((cursor.after gap).after text) rest = .ok (us, stop) := by
  constructor
  · intro h
    rw [lexFrom] at h
    obtain ⟨⟨cursor', behind⟩, hskip, h⟩ := Actions.except_bind_eq_ok.mp h
    obtain ⟨gap, rfl, hfiller, rfl, hhalts⟩ := filler_of_skipGap hskip
    cases behind with
    | nil =>
      cases h
      rw [List.append_nil]
      exact .inl ⟨hfiller, rfl, rfl⟩
    | cons c behind =>
      obtain ⟨⟨kind, text⟩, hlexeme, h⟩ := Actions.except_bind_eq_ok.mp h
      obtain ⟨⟨us, stop'⟩, hrest, h⟩ := Actions.except_bind_eq_ok.mp h
      cases h
      obtain ⟨rest, hcs, hlexeme⟩ := lexeme_of_eq_ok hhalts hlexeme
      rw [hcs] at hfiller hrest ⊢
      rw [List.drop_left] at hrest
      exact .inr ⟨gap, text, rest, kind, us, rfl, hfiller, hlexeme, rfl, hrest⟩
  · rintro (⟨hfiller, rfl, rfl⟩ | ⟨gap, text, rest, kind, us, rfl, hfiller, hlexeme, rfl, hrest⟩)
    · have hskip := skipGap_of_filler hfiller ⟨by simp, by simp, by simp⟩ file cursor
      rw [List.append_nil] at hskip
      simp only [lexFrom, hskip, bind, Except.bind]
      rfl
    · have hskip := skipGap_of_filler hfiller hlexeme.halts file cursor
      obtain ⟨c, cs, hcs⟩ := List.exists_cons_of_ne_nil (List.append_ne_nil_of_left_ne_nil
        hlexeme.ne_nil rest)
      have hread := hlexeme.eq_ok hcs.symm ((cursor.after gap).loc file)
      have hdrop : (c :: cs).drop text.length = rest := by rw [← hcs, List.drop_left]
      rw [hcs] at hskip ⊢
      simp only [lexFrom, hskip, hread, hrest, hdrop, bind, Except.bind]
      rfl

/-- Passing some characters moves the cursor and the offset alike. -/
theorem advance {cs passed rest : List Char} {offset : Nat} (hoffset : offset ≤ cs.length)
    (h : cs.drop offset = passed ++ rest) :
    offset + passed.length ≤ cs.length ∧ cs.drop (offset + passed.length) = rest ∧
      (({} : Cursor).after (cs.take offset)).after passed =
        ({} : Cursor).after (cs.take (offset + passed.length)) := by
  have hlength := congrArg List.length h
  rw [List.length_drop, List.length_append] at hlength
  refine ⟨by omega, ?_, ?_⟩
  · rw [← List.drop_drop, h, List.drop_left]
  · rw [List.take_add, h, List.take_left, Cursor.after_append]

/-- Reading from an offset on, with the cursor that has passed what comes before it. -/
theorem lexFrom_eq_ok_iff {file : String} {cs : List Char} {fuel offset : Nat} {ts : List Token}
    {stop : Cursor} (hoffset : offset ≤ cs.length) (hfuel : cs.length < fuel + offset) :
    lexFrom file fuel (({} : Cursor).after (cs.take offset)) (cs.drop offset) = .ok (ts, stop) ↔
      Laid file cs offset ts ∧ stop = ({} : Cursor).after cs := by
  induction fuel generalizing offset ts with
  | zero => omega
  | succ fuel ih =>
    rw [lexFrom_succ_iff, ← Cursor.after_append, List.take_append_drop]
    constructor
    · rintro (⟨hfiller, rfl, rfl⟩ |
        ⟨gap, text, rest, kind, us, hcs, hfiller, hlexeme, rfl, hrest⟩)
      · exact ⟨.last hfiller, rfl⟩
      · obtain ⟨hgap, hdropGap, hcursorGap⟩ := advance hoffset hcs
        obtain ⟨htext, hdropText, hcursorText⟩ := advance hgap hdropGap
        have hpos : 0 < text.length := List.length_pos_iff.mpr hlexeme.ne_nil
        rw [hcursorGap, hcursorText, ← hdropText, ih htext (by omega)] at hrest
        obtain ⟨hfile, hdenotes⟩ := Location.denotes_iff.mpr ⟨hgap, rfl⟩
        rw [hcursorGap]
        exact ⟨.token hcs hfiller rfl hlexeme hfile hdenotes hrest.1, hrest.2⟩
    · rintro ⟨hlaid, rfl⟩
      cases hlaid with
      | last hfiller => exact .inl ⟨hfiller, rfl, rfl⟩
      | @token _ gap text rest t us hcs hfiller htext hlexeme hfile hdenotes hus =>
        obtain ⟨hgap, hdropGap, hcursorGap⟩ := advance hoffset hcs
        obtain ⟨hle, hdropText, hcursorText⟩ := advance hgap hdropGap
        have hpos : 0 < text.length := List.length_pos_iff.mpr hlexeme.ne_nil
        obtain ⟨-, hloc⟩ := Location.denotes_iff.mp ⟨hfile, hdenotes⟩
        refine .inr ⟨gap, text, rest, t.kind, us, hcs, hfiller, hlexeme, ?_, ?_⟩
        · rw [hcursorGap, ← hloc, ← htext]
        · rw [hcursorGap, hcursorText, ← hdropText, ih hle (by omega)]
          exact ⟨hus, rfl⟩

theorem laid_of_tokenize {source file : String} {input : TokenList}
    (h : tokenize source file = .ok input) :
    Laid file source.toList 0 input.tokens ∧ input.stop.file = file ∧
      input.stop.Denotes source.toList source.toList.length := by
  obtain ⟨⟨ts, cursor⟩, hread, h⟩ := Actions.except_bind_eq_ok.mp h
  cases h
  obtain ⟨hlaid, rfl⟩ := (lexFrom_eq_ok_iff (Nat.zero_le _) (Nat.lt_succ_self _)).mp hread
  refine ⟨hlaid, Location.denotes_iff.mpr ⟨Nat.le_refl _, ?_⟩⟩
  rw [List.take_length]

theorem tokenize_of_laid {source file : String} {input : TokenList}
    (hlaid : Laid file source.toList 0 input.tokens) (hfile : input.stop.file = file)
    (hstop : input.stop.Denotes source.toList source.toList.length) :
    tokenize source file = .ok input := by
  obtain ⟨ts, stop⟩ := input
  obtain ⟨-, rfl⟩ := Location.denotes_iff.mp ⟨hfile, hstop⟩
  rw [List.take_length]
  have hread := (lexFrom_eq_ok_iff (Nat.zero_le _) (Nat.lt_succ_self _)).mpr ⟨hlaid, rfl⟩
  exact Actions.except_bind_eq_ok.mpr ⟨_, hread, rfl⟩

end Lexer

open Lexer in
/-- **Reading is lossless and located.** A text is read as some tokens and an end exactly if it is
laid out as these tokens, from its start to its end, and the end is the place that denotes its
length. A place denotes at most one offset of a text, so the tokens are where they say they are. -/
theorem tokenize_eq_ok_iff (source file : String) (input : TokenList) :
    (tokenize source file = .ok input ↔ Laid file source.toList 0 input.tokens ∧
      input.stop.file = file ∧ input.stop.Denotes source.toList source.toList.length) ∧
    ∀ (loc : Location) (i j : Nat), loc.Denotes source.toList i → loc.Denotes source.toList j →
      i = j := by
  refine ⟨⟨laid_of_tokenize, ?_⟩, fun loc i j => Location.Denotes.unique⟩
  rintro ⟨hlaid, hfile, hstop⟩
  exact tokenize_of_laid hlaid hfile hstop

end Retrace
