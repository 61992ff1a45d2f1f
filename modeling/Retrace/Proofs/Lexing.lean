import Mathlib.Tactic.Common
import Mathlib.Tactic.FinCases
import Retrace.Program.Operator
import Retrace.Proofs.Actions
import Retrace.Source.Lexer

/-!
# How text falls into tokens

The kind and the text of a token are its word. `Reads cs ws rest` says that the characters `cs`,
where `rest` follows, are read as tokens with the words `ws`, and that reading goes on with `rest`.
Two such facts compose (`Reads.append`), so the tokens of a text follow from those of its parts;
what a part needs to know of its surroundings is the character right behind it.

In the other direction, `sound_lexFrom` says what is known of each token of any text.
-/

namespace Retrace

/-- The kind and the text of a token. -/
def Token.word (t : Token) : TokenKind × String := (t.kind, t.text)

@[simp] theorem Token.word_mk (kind : TokenKind) (text : String) (loc : Location) :
    (Token.mk kind text loc).word = (kind, text) := rfl

theorem Token.kind_of_word {t : Token} {w : TokenKind × String} (h : t.word = w) : t.kind = w.1 :=
  congrArg Prod.fst h

theorem Token.text_of_word {t : Token} {w : TokenKind × String} (h : t.word = w) : t.text = w.2 :=
  congrArg Prod.snd h

namespace Lexer

/-! ## Blanks -/

theorem skipGap_space {c : Char} (h : isSpace c = true) (file : String) (cursor : Cursor)
    (cs : List Char) :
    skipGap file .blank cursor (c :: cs) = skipGap file .blank (cursor.next c) cs := by
  simp only [isSpace, Bool.or_eq_true, decide_eq_true_eq] at h
  rcases h with ((rfl | rfl) | rfl) | rfl <;> simp [skipGap, isSpace]

theorem skipGap_of_ne {c : Char} (h : isSpace c = false) (hslash : c ≠ '/') (file : String)
    (cursor : Cursor) (cs : List Char) :
    skipGap file .blank cursor (c :: cs) = .ok (cursor, c :: cs) := by
  rw [skipGap, if_neg (by simp [h])] <;> simp_all

theorem lexFrom_space {c : Char} (h : isSpace c = true) (file : String) (fuel : Nat)
    (cursor : Cursor) (cs : List Char) :
    lexFrom file (fuel + 1) cursor (c :: cs) = lexFrom file (fuel + 1) (cursor.next c) cs := by
  simp only [lexFrom, skipGap_space h]

theorem lexFrom_nil (file : String) (fuel : Nat) (cursor : Cursor) :
    lexFrom file fuel cursor [] = .ok ([], cursor) := by
  cases fuel <;> rfl

/-- Puts tokens in front of those of a text that is read. -/
def prepend (ts : List Token) (read : Except Fault (List Token × Cursor)) :
    Except Fault (List Token × Cursor) := read.map fun r => (ts ++ r.1, r.2)

@[simp] theorem prepend_nil (read : Except Fault (List Token × Cursor)) :
    prepend [] read = read := by
  cases read <;> rfl

@[simp] theorem prepend_ok (ts us : List Token) (stop : Cursor) :
    prepend ts (.ok (us, stop)) = .ok (ts ++ us, stop) := rfl

theorem prepend_append (ts us : List Token) (read : Except Fault (List Token × Cursor)) :
    prepend (ts ++ us) read = prepend ts (prepend us read) := by
  cases read with
  | error e => rfl
  | ok r => simp [prepend, Except.map]

/-- The token at the start of a text, and the tokens behind it. -/
theorem lexFrom_token {c : Char} {cs text rest : List Char} {kind : TokenKind}
    (hcs : c :: cs = text ++ rest)
    (hgap : ∀ file cursor, skipGap file .blank cursor (c :: cs) = .ok (cursor, c :: cs))
    (hlexeme : ∀ loc, lexeme loc c cs = .ok (kind, text)) (file : String) (fuel : Nat)
    (cursor : Cursor) :
    lexFrom file (fuel + 1) cursor (c :: cs) =
      prepend [⟨kind, String.ofList text, cursor.loc file⟩]
        (lexFrom file fuel (cursor.after text) rest) := by
  have hdrop : (c :: cs).drop text.length = rest := by rw [hcs, List.drop_left]
  simp only [lexFrom, hgap, hlexeme, bind, Except.bind, hdrop]
  cases lexFrom file fuel (cursor.after text) rest <;> rfl

/-! ## Texts with known words -/

/-- In front of `rest`, the characters `cs` are read as tokens with the words `ws`; every one of
these takes at least one character. -/
def Reads (cs : List Char) (ws : List (TokenKind × String)) (rest : List Char) : Prop :=
  ws.length ≤ cs.length ∧
    ∀ file fuel cursor, ∃ ts cursor', ts.map Token.word = ws ∧
      lexFrom file (fuel + ws.length + 1) cursor (cs ++ rest) =
        prepend ts (lexFrom file (fuel + 1) cursor' rest)

namespace Reads

variable {cs ds rest : List Char} {ws vs : List (TokenKind × String)}

theorem nil : Reads [] [] rest := by
  refine ⟨Nat.le_refl _, fun file fuel cursor => ⟨[], cursor, rfl, ?_⟩⟩
  rw [prepend_nil]
  rfl

theorem append (h : Reads cs ws (ds ++ rest)) (h' : Reads ds vs rest) :
    Reads (cs ++ ds) (ws ++ vs) rest := by
  refine ⟨?_, fun file fuel cursor => ?_⟩
  · simp only [List.length_append]
    exact Nat.add_le_add h.1 h'.1
  · obtain ⟨ts, cursor₁, hts, hread⟩ := h.2 file (fuel + vs.length) cursor
    obtain ⟨us, cursor₂, hus, hread'⟩ := h'.2 file fuel cursor₁
    refine ⟨ts ++ us, cursor₂, by rw [List.map_append, hts, hus], ?_⟩
    have hfuel : fuel + (ws ++ vs).length + 1 = fuel + vs.length + ws.length + 1 := by
      rw [List.length_append]
      omega
    rw [hfuel, List.append_assoc, hread, hread', prepend_append]

theorem space {c : Char} (h : isSpace c = true) : Reads [c] [] rest :=
  ⟨Nat.zero_le _, fun file fuel cursor => ⟨[], cursor.next c, rfl, by
    rw [prepend_nil]
    exact lexFrom_space h file fuel cursor rest⟩⟩

theorem cons_space {c : Char} (hc : isSpace c = true) (h : Reads cs ws rest) :
    Reads (c :: cs) ws rest := append (space hc) h

theorem replicate_space (n : Nat) : Reads (List.replicate n ' ') [] rest := by
  induction n with
  | zero => exact nil
  | succ n ih => exact cons_space rfl ih

theorem token {kind : TokenKind} {c : Char} {cs : List Char}
    (hgap : ∀ file cursor, skipGap file .blank cursor (c :: (cs ++ rest)) =
      .ok (cursor, c :: (cs ++ rest)))
    (hlexeme : ∀ loc, lexeme loc c (cs ++ rest) = .ok (kind, c :: cs)) :
    Reads (c :: cs) [(kind, String.ofList (c :: cs))] rest := by
  refine ⟨by simp, fun file fuel cursor =>
    ⟨[⟨kind, String.ofList (c :: cs), cursor.loc file⟩], cursor.after (c :: cs), rfl, ?_⟩⟩
  exact lexFrom_token rfl hgap hlexeme file (fuel + 1) cursor

/-- The tokens of a whole text. -/
theorem tokenize {source : String} (h : Reads source.toList ws []) (file : String) :
    ∃ ts stop, Retrace.tokenize source file = .ok ⟨ts, stop⟩ ∧ ts.map Token.word = ws := by
  obtain ⟨ts, cursor, hts, hread⟩ := h.2 file (source.toList.length - ws.length) {}
  have hfuel : source.toList.length - ws.length + ws.length + 1 = source.toList.length + 1 := by
    have := h.1
    omega
  rw [hfuel, List.append_nil, lexFrom_nil] at hread
  refine ⟨ts, cursor.loc file, ?_, hts⟩
  simp [Retrace.tokenize, hread, bind, Except.bind, pure, Except.pure]

end Reads

/-! ## Names and numbers -/

/-- The characters that end a name or a number in printed text. -/
def isBreak (c : Char) : Bool :=
  c = ' ' || c = '\n' || c = '(' || c = ')' || c = '[' || c = ']' || c = ','

/-- What follows starts with a character that ends a name or a number. -/
def Breaks (rest : List Char) : Prop := ∀ c ∈ rest.head?, isBreak c = true

theorem breaks_nil : Breaks [] := by simp [Breaks]

theorem breaks_cons {c : Char} (h : isBreak c = true) (rest : List Char) : Breaks (c :: rest) := by
  simpa [Breaks] using h

theorem isBreak_cases {c : Char} (h : isBreak c = true) :
    continuesName c = false ∧ startsName c = false ∧ Text.isDigit c = false := by
  simp only [isBreak, Bool.or_eq_true, decide_eq_true_eq] at h
  rcases h with (((((rfl | rfl) | rfl) | rfl) | rfl) | rfl) | rfl <;> decide

theorem takeWhile_append_of_stop {p : Char → Bool} {cs rest : List Char}
    (hcs : ∀ c ∈ cs, p c = true) (hrest : ∀ c ∈ rest.head?, p c = false) :
    (cs ++ rest).takeWhile p = cs := by
  rw [List.takeWhile_append_of_pos hcs]
  cases rest with
  | nil => simp
  | cons c rest => simp [hrest c rfl]

theorem dropWhile_append_of_stop {p : Char → Bool} {cs rest : List Char}
    (hcs : ∀ c ∈ cs, p c = true) (hrest : ∀ c ∈ rest.head?, p c = false) :
    (cs ++ rest).dropWhile p = rest := by
  rw [List.dropWhile_append_of_pos hcs]
  cases rest with
  | nil => rfl
  | cons c rest => simp [hrest c rfl]

/-- No name and no number starts with a blank or with a slash. -/
theorem plain_of_start {c : Char} (h : startsName c = true ∨ Text.isDigit c = true) :
    isSpace c = false ∧ c ≠ '/' := by
  have hother : isSpace c = true ∨ c = '/' → startsName c = false ∧ Text.isDigit c = false := by
    simp only [isSpace, Bool.or_eq_true, decide_eq_true_eq]
    rintro ((((rfl | rfl) | rfl) | rfl) | rfl) <;> decide
  by_cases hc : isSpace c = true ∨ c = '/'
  · simp [hother hc] at h
  · simpa using hc

theorem continuesName_of_startsName {c : Char} (h : startsName c = true) :
    continuesName c = true := by
  simp only [startsName, continuesName, Text.isWordChar, Bool.or_eq_true] at h ⊢
  rcases h with h | h
  · exact .inl (.inl (.inl h))
  · exact .inr h

/-- A word of letters, digits and underscores that starts with no digit. -/
structure IsWord (c : Char) (cs : List Char) : Prop where
  starts : startsName c = true
  notDigit : Text.isDigit c = false
  continues : ∀ d ∈ cs, continuesName d = true

/-- The kind that a table gives to a text; a text that is not in the table is a name. -/
def kindIn (table : List (String × TokenKind)) (text : String) : TokenKind :=
  ((table.find? fun entry => entry.1 = text).map Prod.snd).getD .ident

theorem kindIn_of_mem {table : List (String × TokenKind)} (htable : (table.map Prod.fst).Nodup)
    {text : String} {kind : TokenKind} (h : (text, kind) ∈ table) : kindIn table text = kind := by
  induction table with
  | nil => simp at h
  | cons entry table ih =>
    rw [List.map_cons, List.nodup_cons] at htable
    rcases List.mem_cons.mp h with rfl | h
    · simp [kindIn]
    · have hne : entry.1 ≠ text := by
        rintro rfl
        exact htable.1 (List.mem_map.mpr ⟨_, h, rfl⟩)
      have hkind := ih htable.2 h
      simpa [kindIn, List.find?_cons, hne] using hkind

theorem kindIn_cases (table : List (String × TokenKind)) (text : String) :
    (text, kindIn table text) ∈ table ∨
      kindIn table text = .ident ∧ ∀ entry ∈ table, entry.1 ≠ text := by
  unfold kindIn
  cases hfind : table.find? fun entry => entry.1 = text with
  | none => exact .inr ⟨rfl, by simpa using hfind⟩
  | some entry =>
    have htext : entry.1 = text := by simpa using List.find?_some hfind
    exact .inl (htext ▸ List.mem_of_find?_eq_some hfind)

theorem nodup_keywords : (TokenKind.keywords.map Prod.fst).Nodup := by decide

theorem nodup_symbols : (TokenKind.symbols.map Prod.fst).Nodup := by decide

theorem lexeme_word {c : Char} {cs rest : List Char} (h : IsWord c cs)
    (hrest : ∀ d ∈ rest.head?, continuesName d = false) (loc : Location) :
    lexeme loc c (cs ++ rest) = .ok (kindIn TokenKind.keywords (String.ofList (c :: cs)), c :: cs) := by
  have hword : (c :: (cs ++ rest)).takeWhile continuesName = c :: cs := by
    have hall : ∀ d ∈ c :: cs, continuesName d = true := by
      intro d hd
      rcases List.mem_cons.mp hd with rfl | hd
      · exact continuesName_of_startsName h.starts
      · exact h.continues d hd
    exact takeWhile_append_of_stop hall hrest
  simp only [lexeme, kindIn, h.notDigit, h.starts, hword, Bool.false_eq_true, if_false, if_true]
  split <;> rename_i hfind <;> rw [hfind] <;> rfl

theorem reads_word {c : Char} {cs rest : List Char} (h : IsWord c cs) (hrest : Breaks rest) :
    Reads (c :: cs) [(kindIn TokenKind.keywords (String.ofList (c :: cs)), String.ofList (c :: cs))] rest := by
  obtain ⟨hspace, hslash⟩ := plain_of_start (.inl h.starts)
  refine Reads.token (skipGap_of_ne hspace hslash · · _) fun loc => ?_
  exact lexeme_word h (fun d hd => (isBreak_cases (hrest d hd)).1) loc

theorem isWord_keyword {entry : String × TokenKind} (h : entry ∈ TokenKind.keywords) :
    ∃ c cs, entry.1.toList = c :: cs ∧ IsWord c cs := by
  fin_cases h <;> exact ⟨_, _, rfl, by decide, by decide, List.all_eq_true.mp (by decide)⟩

theorem reads_keyword {entry : String × TokenKind} (h : entry ∈ TokenKind.keywords)
    {rest : List Char} (hrest : Breaks rest) :
    Reads entry.1.toList [(entry.2, entry.1)] rest := by
  obtain ⟨c, cs, hcs, hword⟩ := isWord_keyword h
  have hread := reads_word hword hrest
  rwa [← hcs, String.ofList_toList, kindIn_of_mem nodup_keywords h] at hread

theorem lexeme_number {c : Char} {cs rest : List Char}
    (hdigits : ∀ d ∈ c :: cs, Text.isDigit d = true)
    (hrest : ∀ d ∈ rest.head?, Text.isDigit d = false ∧ startsName d = false) (loc : Location) :
    lexeme loc c (cs ++ rest) = .ok (.number, c :: cs) := by
  have hstop : ∀ d ∈ rest.head?, Text.isDigit d = false := fun d hd => (hrest d hd).1
  have htake := takeWhile_append_of_stop hdigits hstop
  have hdrop := dropWhile_append_of_stop hdigits hstop
  rw [List.cons_append] at htake hdrop
  simp only [lexeme, hdigits c List.mem_cons_self, if_true, htake, hdrop]
  cases rest with
  | nil => rfl
  | cons d rest => simp [(hrest d rfl).2]

/-- A decimal numeral is one token. -/
theorem reads_number (n : Nat) {rest : List Char} (hrest : Breaks rest) :
    Reads (toString n).toList [(.number, toString n)] rest := by
  have hdigits : ∀ c ∈ Nat.toDigits 10 n, Text.isDigit c = true := by
    intro c hc
    have hdigit : c.isDigit = true := Nat.isDigit_of_mem_toDigits (by omega) (by omega) hc
    have hascii : c.toNat < 0x80 := by
      simp only [Char.isDigit, Bool.and_eq_true, decide_eq_true_eq, UInt32.le_iff_toNat_le] at hdigit
      exact Nat.lt_of_le_of_lt hdigit.2 (by decide)
    rw [Text.isDigit, if_pos hascii]
    exact hdigit
  rw [Nat.toString_eq_ofList_toDigits, String.toList_ofList]
  obtain ⟨c, cs, hcs⟩ := List.exists_cons_of_ne_nil (Nat.toDigits_ne_nil (n := n) (b := 10))
  rw [hcs] at hdigits ⊢
  have hplain := plain_of_start (.inr (hdigits c List.mem_cons_self))
  refine Reads.token (skipGap_of_ne hplain.1 hplain.2 · · _) fun loc => ?_
  exact lexeme_number hdigits (fun d hd => (isBreak_cases (hrest d hd)).2.symm) loc

/-! ## Symbols -/

/-- A symbol in front of a blank is one token. -/
theorem reads_symbol {entry : String × TokenKind} (h : entry ∈ TokenKind.symbols)
    (rest : List Char) : Reads entry.1.toList [(entry.2, entry.1)] (' ' :: rest) := by
  fin_cases h <;> exact Reads.token (fun _ _ => rfl) (fun _ => rfl)

/-- The symbols that no other symbol starts with. -/
def delimiters : List (String × TokenKind) :=
  [("\x7b", .lbrace), ("\x7d", .rbrace), ("(", .lparen), (")", .rparen), ("[", .lbracket),
    ("]", .rbracket), (",", .comma)]

/-- A delimiter is one token, whatever follows. -/
theorem reads_delimiter {entry : String × TokenKind} (h : entry ∈ delimiters) (rest : List Char) :
    Reads entry.1.toList [(entry.2, entry.1)] rest := by
  fin_cases h <;> exact Reads.token (fun _ _ => rfl) (fun _ => rfl)

/-- An operator in front of its operand is one token, since no operand starts with an equals
sign. -/
theorem reads_unary (op : UnaryOp) {c : Char} (hc : c ≠ '=') (rest : List Char) :
    Reads op.symbol.toList [(kindIn TokenKind.symbols op.symbol, op.symbol)] (c :: rest) := by
  cases op with
  | neg =>
    have hlexeme (loc : Location) : lexeme loc '-' (c :: rest) = .ok (.minus, ['-']) := by
      have hdigit : Text.isDigit '-' = false := rfl
      have hstart : startsName '-' = false := rfl
      simp only [lexeme, hdigit, hstart, TokenKind.symbols]
      simp [hc.symm]
    exact Reads.token (fun _ _ => rfl) hlexeme
  | not =>
    have hlexeme (loc : Location) : lexeme loc '!' (c :: rest) = .ok (.not, ['!']) := by
      have hdigit : Text.isDigit '!' = false := rfl
      have hstart : startsName '!' = false := rfl
      simp only [lexeme, hdigit, hstart, TokenKind.symbols]
      simp [hc.symm]
    exact Reads.token (fun _ _ => rfl) hlexeme
  | complement => exact Reads.token (fun _ _ => rfl) fun _ => rfl

/-! ## Names -/

/-- A text that is read as one name: its only token is that name. -/
def IsName (name : String) : Prop :=
  ∃ file loc stop, Retrace.tokenize name file = .ok ⟨[⟨.ident, name, loc⟩], stop⟩

/-- What the token at the start of an input can be. -/
theorem lexeme_cases {loc : Location} {c : Char} {cs text : List Char} {kind : TokenKind}
    (h : lexeme loc c cs = .ok (kind, text)) :
    kind = .number ∨
      (∃ word, text = c :: word ∧ IsWord c word ∧
        kind = kindIn TokenKind.keywords (String.ofList text)) ∨
      (String.ofList text, kind) ∈ TokenKind.symbols := by
  unfold lexeme at h
  by_cases hdigit : Text.isDigit c = true
  · simp only [hdigit, if_true] at h
    split at h
    · split at h
      · cases h
      · cases h
        exact .inl rfl
    · cases h
      exact .inl rfl
  simp only [hdigit, Bool.false_eq_true, if_false] at h
  by_cases hstart : startsName c = true
  · have htake : (c :: cs).takeWhile continuesName = c :: cs.takeWhile continuesName := by
      simp [continuesName_of_startsName hstart]
    have hword : IsWord c (cs.takeWhile continuesName) :=
      ⟨hstart, by simpa using hdigit, List.all_eq_true.mp List.all_takeWhile⟩
    simp only [hstart, if_true, htake] at h
    refine .inr (.inl ⟨_, ?_, hword, ?_⟩)
    · split at h <;> cases h <;> rfl
    · split at h <;> rename_i hfind <;> cases h <;> rw [kindIn, hfind] <;> rfl
  · simp only [hstart, Bool.false_eq_true, if_false] at h
    split at h
    · rename_i entry hfind
      cases h
      rw [String.ofList_toList]
      exact .inr (.inr (List.mem_of_find?_eq_some hfind))
    · cases h

/-- The tokens of a non-empty input: the first one, and those of the rest. -/
theorem lexFrom_succ_eq_ok {file : String} {fuel : Nat} {cursor stop : Cursor} {cs : List Char}
    {ts : List Token} (h : lexFrom file (fuel + 1) cursor cs = .ok (ts, stop)) :
    ts = [] ∨ ∃ loc c ds kind text cursor' rest us,
      lexeme loc c ds = .ok (kind, text) ∧ lexFrom file fuel cursor' rest = .ok (us, stop) ∧
        ts = ⟨kind, String.ofList text, loc⟩ :: us := by
  rw [lexFrom] at h
  obtain ⟨⟨cursor₁, cs₁⟩, -, h⟩ := Actions.except_bind_eq_ok.mp h
  cases cs₁ with
  | nil =>
    cases h
    exact .inl rfl
  | cons c ds =>
    obtain ⟨⟨kind, text⟩, hlexeme, h⟩ := Actions.except_bind_eq_ok.mp h
    obtain ⟨⟨us, stop'⟩, hrest, h⟩ := Actions.except_bind_eq_ok.mp h
    cases h
    exact .inr ⟨_, c, ds, kind, text, _, _, us, hlexeme, hrest, rfl⟩

theorem isName_iff {name : String} :
    IsName name ↔ ∃ c cs, name.toList = c :: cs ∧ IsWord c cs ∧
      kindIn TokenKind.keywords name = .ident := by
  constructor
  · rintro ⟨file, loc, stop, h⟩
    obtain ⟨⟨ts, cursor⟩, hlex, h⟩ := Actions.except_bind_eq_ok.mp h
    cases h
    obtain h | ⟨loc', c, ds, kind, text, _, _, us, hlexeme, -, hts⟩ := lexFrom_succ_eq_ok hlex
    · cases h
    obtain ⟨⟨rfl, rfl, rfl⟩, rfl⟩ : (kind = .ident ∧ name = String.ofList text ∧ loc = loc') ∧
        us = [] := by simpa [eq_comm] using hts
    rw [String.toList_ofList]
    obtain hkind | ⟨word, hword, hisWord, hkind⟩ | hsymbol := lexeme_cases hlexeme
    · cases hkind
    · exact ⟨c, word, hword, hisWord, hkind.symm⟩
    · exact absurd rfl ((by decide : ∀ e ∈ TokenKind.symbols, e.2 ≠ .ident) _ hsymbol)
  · rintro ⟨c, cs, hcs, hword, hkind⟩
    have hread := reads_word hword breaks_nil
    rw [← hcs, String.ofList_toList, hkind] at hread
    obtain ⟨ts, stop, htokenize, hts⟩ := hread.tokenize ""
    obtain ⟨⟨kind, text, loc⟩, rfl, ht⟩ := List.map_eq_singleton_iff.mp hts
    cases ht
    exact ⟨"", loc, stop, htokenize⟩

theorem reads_name {name : String} (h : IsName name) {rest : List Char} (hrest : Breaks rest) :
    Reads name.toList [(.ident, name)] rest := by
  obtain ⟨c, cs, hcs, hword, hkind⟩ := isName_iff.mp h
  have hread := reads_word hword hrest
  rwa [← hcs, String.ofList_toList, hkind] at hread

/-! ## What is known of a token -/

/-- The kind and the text of a token agree. -/
def Sound (t : Token) : Prop :=
  t.kind = .number ∨ (t.kind = .ident ∧ IsName t.text) ∨ (t.text, t.kind) ∈ TokenKind.keywords ∨
    (t.text, t.kind) ∈ TokenKind.symbols

theorem sound_lexeme {loc : Location} {c : Char} {cs text : List Char} {kind : TokenKind}
    (h : lexeme loc c cs = .ok (kind, text)) : Sound ⟨kind, String.ofList text, loc⟩ := by
  obtain hkind | ⟨word, rfl, hword, rfl⟩ | hsymbol := lexeme_cases h
  · exact .inl hkind
  · obtain hkeyword | ⟨hident, -⟩ := kindIn_cases TokenKind.keywords (String.ofList (c :: word))
    · exact .inr (.inr (.inl hkeyword))
    · exact .inr (.inl ⟨hident, isName_iff.mpr ⟨c, word, by simp, hword, hident⟩⟩)
  · exact .inr (.inr (.inr hsymbol))

theorem sound_lexFrom {file : String} {fuel : Nat} {cursor stop : Cursor} {cs : List Char}
    {ts : List Token} (h : lexFrom file fuel cursor cs = .ok (ts, stop)) : ∀ t ∈ ts, Sound t := by
  induction fuel generalizing cursor cs ts with
  | zero =>
    cases h
    simp
  | succ fuel ih =>
    obtain rfl | ⟨loc, c, ds, kind, text, _, _, us, hlexeme, hrest, rfl⟩ := lexFrom_succ_eq_ok h
    · simp
    · intro t ht
      rcases List.mem_cons.mp ht with rfl | ht
      · exact sound_lexeme hlexeme
      · exact ih hrest t ht

theorem sound_tokenize {source file : String} {input : TokenList}
    (h : Retrace.tokenize source file = .ok input) : ∀ t ∈ input.tokens, Sound t := by
  obtain ⟨⟨ts, stop⟩, hlex, h⟩ := Actions.except_bind_eq_ok.mp h
  cases h
  exact sound_lexFrom hlex

end Lexer

end Retrace
