import Retrace.Proofs.Recognition

/-!
# The parser reads exactly the grammar

Whatever the grammar derives is read. `Accepts p follow R ws` says that `p` takes tokens with the
words `ws` and no more, in front of any token that `follow` allows; what may follow is the only
thing that the greedy loops of the parser depend on. As in the converse direction there is one lemma
for each function of the parser. Nesting and rounds are bounded by the number of words.

With the converse, a list of tokens is read as a program if and only if the grammar derives the
program from it, and the grammar derives at most one (`TokenList.procedures_iff_derived`).
-/

namespace Retrace

namespace Parser

open Grammar

variable {α β : Type} {stop : Location} {t : Token} {ts rest : List Token} {us vs ws : Words}
  {kind : TokenKind} {text : String}

/-! ## What comes next -/

/-- The kind of the next token. -/
def next (ts : List Token) : Option TokenKind := ts.head?.map Token.kind

theorem next_append (ts rest : List Token) :
    next (ts ++ rest) = ahead (ts.map Token.word) (next rest) := by
  cases ts <;> rfl

/-! ## Parts in sequence -/

/-- In front of a token that `follow` allows, tokens with the words `ws` are read and no more, with
a result that has the property `R`. -/
def Accepts (p : Parser α) (follow : Option TokenKind → Bool) (R : α → Prop) (ws : Words) : Prop :=
  ∀ stop ts rest, ts.map Token.word = ws → follow (next rest) = true →
    ∃ a, p stop (ts ++ rest) = .ok (a, rest) ∧ R a

/-- Any token may follow. -/
def anything : Option TokenKind → Bool := fun _ => true

namespace Accepts

variable {p q : Parser α} {A B : Option TokenKind → Bool} {R : α → Prop} {S : β → Prop}

theorem pure {a : α} (h : R a) : Accepts (pure a) A R [] := by
  intro stop ts rest hts _
  obtain rfl := List.map_eq_nil_iff.mp hts
  exact ⟨a, rfl, h⟩

theorem mono (h : Accepts p A R ws) (hA : ∀ k, B k = true → A k = true) : Accepts p B R ws :=
  fun stop ts rest hts hrest => h stop ts rest hts (hA _ hrest)

variable {f : α → Parser β}

theorem bind (h : Accepts p A R us) (hnext : ∀ k, B k = true → A (ahead vs k) = true)
    (h' : ∀ a, R a → Accepts (f a) B S vs) : Accepts (p >>= f) B S (us ++ vs) := by
  intro stop ts rest hts hrest
  obtain ⟨tu, tv, rfl, hu, hv⟩ := List.map_eq_append_iff.mp hts
  have hnext : A (next (tv ++ rest)) = true := by
    rw [next_append, hv]
    exact hnext _ hrest
  obtain ⟨a, hp, ha⟩ := h stop tu (tv ++ rest) hu hnext
  obtain ⟨b, hf, hb⟩ := h' a ha stop tv rest hv hrest
  exact ⟨b, by rw [List.append_assoc, bind_ok hp, hf], hb⟩

/-- The last part: nothing is read after it. -/
theorem map {g : α → β} (h : Accepts p A R ws) (hR : ∀ a, R a → S (g a)) :
    Accepts (p >>= fun a => Pure.pure (g a)) A S ws := by
  have hbind : Accepts (p >>= fun a => Pure.pure (g a)) A S (ws ++ []) :=
    h.bind (fun _ hk => hk) fun a ha => .pure (hR a ha)
  rwa [List.append_nil] at hbind

theorem pure_bind {a : α} (h : Accepts (f a) B S ws) : Accepts (Pure.pure a >>= f) B S ws := h

theorem ite_pos {c : Prop} [Decidable c] (hc : c) (h : Accepts p A R ws) :
    Accepts (if c then p else q) A R ws := by
  rwa [if_pos hc]

theorem ite_neg {c : Prop} [Decidable c] (hc : ¬c) (h : Accepts q A R ws) :
    Accepts (if c then p else q) A R ws := by
  rwa [if_neg hc]

/-- The first token is taken by hand. -/
theorem cons {q : Token → Parser α}
    (hq : ∀ t stop ts, t.kind = kind → t.text = text → p stop (t :: ts) = q t stop ts)
    (h : ∀ t, t.text = text → Accepts (q t) A R ws) : Accepts p A R ((kind, text) :: ws) := by
  intro stop ts rest hts hrest
  obtain ⟨t, ts, rfl, ht, hts⟩ := List.map_eq_cons_iff.mp hts
  obtain ⟨a, hread, ha⟩ := h t (Token.text_of_word ht) stop ts rest hts hrest
  refine ⟨a, ?_, ha⟩
  rw [List.cons_append, hq t _ _ (Token.kind_of_word ht) (Token.text_of_word ht), hread]

/-- A bound that is taken from the number of tokens. -/
theorem sized {p : Nat → Parser α} (h : ∀ n, ws.length ≤ n → Accepts (p n) A R ws) :
    Accepts (fun stop ts => p ts.length stop ts) A R ws := by
  intro stop ts rest hts hrest
  refine h _ ?_ stop ts rest hts hrest
  rw [← hts, List.length_map, List.length_append]
  exact Nat.le_add_right ..

end Accepts

/-! ## Tokens -/

section Tokens

variable {B : Option TokenKind → Bool} {S : β → Prop}

theorem Accepts.expect {f : Token → Parser β} (h : ∀ t, t.text = text → Accepts (f t) B S ws) :
    Accepts (Parser.expect kind >>= f) B S ((kind, text) :: ws) := by
  refine .cons (fun t stop ts hkind _ => ?_) h
  exact bind_ok (by simp [Parser.expect, hkind])

theorem Accepts.accept {f : Bool → Parser β} (h : Accepts (f true) B S ws) :
    Accepts (Parser.accept kind >>= f) B S ((kind, text) :: ws) := by
  refine .cons (q := fun _ => f true) (fun t stop ts hkind _ => ?_) fun _ _ => h
  exact bind_ok (by simp [Parser.accept, hkind])

theorem Accepts.acceptIf {wanted : TokenKind → Bool} (hkind : wanted kind = true)
    {f : Option Token → Parser β} (h : ∀ t, t.text = text → Accepts (f (some t)) B S ws) :
    Accepts (Parser.acceptIf wanted >>= f) B S ((kind, text) :: ws) := by
  refine .cons (q := fun t => f (some t)) (fun t stop ts ht _ => ?_) h
  exact bind_ok (by simp [Parser.acceptIf, ht, hkind])

theorem Accepts.peek {f : Option TokenKind → Parser β} {w : TokenKind × String}
    (h : Accepts (f (some w.1)) B S (w :: ws)) : Accepts (Parser.peek >>= f) B S (w :: ws) := by
  intro stop ts rest hts hrest
  obtain ⟨b, hread, hb⟩ := h stop ts rest hts hrest
  obtain ⟨t, ts, rfl, ht, -⟩ := List.map_eq_cons_iff.mp hts
  refine ⟨b, ?_, hb⟩
  rw [← hread, ← Token.kind_of_word ht]
  rfl

theorem Accepts.here {f : Location → Parser β} (h : ∀ loc, Accepts (f loc) B S ws) :
    Accepts (Parser.here >>= f) B S ws := fun stop ts rest hts hrest =>
  h _ stop ts rest hts hrest

/-- A test of the next token that takes nothing. -/
theorem Accepts.skip {p : Parser α} {f : α → Parser β} {a : α} {N : Option TokenKind → Prop}
    (hp : ∀ stop ts, N (next ts) → p stop ts = .ok (a, ts))
    (hnext : ∀ k, B k = true → N (ahead ws k)) (h : Accepts (f a) B S ws) :
    Accepts (p >>= f) B S ws := by
  intro stop ts rest hts hrest
  obtain ⟨b, hread, hb⟩ := h stop ts rest hts hrest
  have hnext : N (next (ts ++ rest)) := by
    rw [next_append, hts]
    exact hnext _ hrest
  exact ⟨b, by rw [bind_ok (hp stop _ hnext), hread], hb⟩

/-- A token of the given kind does not come next. -/
theorem Accepts.refuse {f : Bool → Parser β} (hnext : ∀ k, B k = true → ahead ws k ≠ some kind)
    (h : Accepts (f false) B S ws) : Accepts (Parser.accept kind >>= f) B S ws := by
  refine .skip (N := fun k => k ≠ some kind) (fun stop ts hts => ?_) hnext h
  cases ts with
  | nil => rfl
  | cons t ts => simpa [Parser.accept, next] using hts

/-- No token of the wanted kinds comes next. -/
theorem Accepts.refuseIf {wanted : TokenKind → Bool} {f : Option Token → Parser β}
    (hnext : ∀ k, B k = true → (ahead ws k).any wanted = false)
    (h : Accepts (f none) B S ws) : Accepts (Parser.acceptIf wanted >>= f) B S ws := by
  refine .skip (N := fun k => k.any wanted = false) (fun stop ts hts => ?_) hnext h
  cases ts with
  | nil => rfl
  | cons t ts => simpa [Parser.acceptIf, next] using hts

theorem accepts_numeral {n : Nat} (h : Text.readDigits? text.toList = some n) :
    Accepts (numeral text) B (fun v => v = Int.ofNat n) [] := by
  intro stop ts rest hts _
  obtain rfl := List.map_eq_nil_iff.mp hts
  exact ⟨Int.ofNat n, by rw [numeral, h]; rfl, rfl⟩

end Tokens

/-! ## Lists -/

section Lists

variable {item : Parser α} {strip : α → β} {G : Words → β → Prop} {bs : List β} {n : Nat}

/-- What follows an item. -/
def endsItem (k : Option TokenKind) : Bool := k = some .comma || k = some .rparen

/-- What follows the last item. -/
def endsItems (k : Option TokenKind) : Bool := k = some .rparen

/-- Every item of at most `n` words is read, and none starts with a closing parenthesis. -/
structure AcceptsItem (item : Parser α) (strip : α → β) (G : Words → β → Prop) (n : Nat) :
    Prop where
  starts : ∀ {ws b}, G ws b → StartsWith (fun kind => kind ≠ .rparen) ws
  reads : ∀ {ws b}, G ws b → ws.length ≤ n → Accepts item endsItem (fun a => strip a = b) ws

theorem endsItem_more (h : More G ws bs) {k : Option TokenKind} (hk : endsItems k = true) :
    endsItem (ahead ws k) = true := by
  obtain ⟨rfl, -⟩ | ⟨comma, vs, rfl, -⟩ := h
  · simp_all [endsItems, endsItem]
  · rfl

theorem accepts_moreItems (hitem : AcceptsItem item strip G n) (fuel : Nat) (h : More G ws bs)
    (hn : ws.length ≤ n) (hfuel : ws.length ≤ fuel) :
    Accepts (moreItems item fuel) endsItems (fun as => as.map strip = bs) ws := by
  induction fuel generalizing ws bs with
  | zero =>
    obtain ⟨rfl, rfl⟩ | ⟨comma, vs, rfl, -⟩ := h
    · exact .pure rfl
    · cases hfuel
  | succ fuel ih =>
    obtain ⟨rfl, rfl⟩ | ⟨comma, vs, rfl, hbs⟩ := h
    · refine .refuse (fun k hk => ?_) (.ite_neg Bool.false_ne_true (.pure rfl))
      simp_all [endsItems]
    · obtain ⟨us, vs, b, bs, rfl, rfl, hb, hbs⟩ := hbs.split
      simp only [List.length_cons, List.length_append] at hn hfuel
      refine .accept (.ite_pos rfl ?_)
      refine (hitem.reads hb (by omega)).bind (fun k hk => endsItem_more hbs hk) fun a ha => ?_
      refine (ih hbs (by omega) (by omega)).map fun as has => ?_
      rw [List.map_cons, ha, has]

theorem accepts_items (hitem : AcceptsItem item strip G n) (h : Separated G ws bs)
    (hn : ws.length ≤ n) :
    Accepts (items item) endsItems (fun as => as.map strip = bs) ws := by
  obtain ⟨us, vs, b, bs, rfl, rfl, hb, hbs⟩ := h.split
  rw [List.length_append] at hn
  refine .sized (p := fun n => item >>= fun a => moreItems item n >>= fun as => pure (a :: as))
    fun fuel hfuel => ?_
  rw [List.length_append] at hfuel
  refine (hitem.reads hb (by omega)).bind (fun k hk => endsItem_more hbs hk) fun a ha => ?_
  refine (accepts_moreItems hitem fuel hbs (by omega) (by omega)).map fun as has => ?_
  rw [List.map_cons, ha, has]

theorem accepts_arguments (hitem : AcceptsItem item strip G n) (h : Arguments G ws bs)
    (hn : ws.length ≤ n + 2) :
    Accepts (arguments item) anything (fun as => as.map strip = bs) ws := by
  cases h with
  | none =>
    exact .expect fun _ _ => .peek (.ite_pos rfl (.pure_bind (.expect fun _ _ => .pure rfl)))
  | @some ws l r bs h =>
    simp only [List.length_cons, List.length_append, List.length_nil] at hn
    obtain ⟨w, us, hw, hstarts⟩ : StartsWith (fun kind => kind ≠ .rparen) ws := by
      obtain ⟨us, vs, b, cs, rfl, -, hb, -⟩ := h.split
      exact (hitem.starts hb).append vs
    have hitems : Accepts (items item >>= fun args => expect .rparen >>= fun _ => pure args)
        anything (fun as => as.map strip = bs) (ws ++ [(.rparen, r)]) :=
      (accepts_items hitem h (by omega)).bind (fun _ _ => rfl) fun as has =>
        .expect fun _ _ => .pure has
    subst hw
    refine .expect fun _ _ => .peek (.ite_neg ?_ hitems)
    simpa using hstarts

end Lists

/-! ## Operands -/

section Operands

variable {x : Parser Expr} {e : Expr} {n : Nat}

/-- What follows an operand of level `i` and does not continue it. -/
def ends (i : Nat) : Option TokenKind → Bool
  | none => true
  | some kind => kind != .lparen && kind != .lbracket &&
      (binaryLevels.drop i).all fun ops => !ops.contains kind

theorem ends_mono {i j : Nat} (hij : i ≤ j) {k : Option TokenKind} (h : ends i k = true) :
    ends j k = true := by
  cases k with
  | none => rfl
  | some kind =>
    simp only [ends, Bool.and_eq_true, List.all_eq_true] at h ⊢
    refine ⟨h.1, fun ops hops => h.2 ops ?_⟩
    exact (List.drop_sublist_drop_left binaryLevels hij).subset hops

theorem ends_ne {i : Nat} {k : Option TokenKind} (h : ends i k = true) :
    k ≠ some .lparen ∧ k ≠ some .lbracket := by
  constructor <;> rintro rfl <;> cases h

/-- In front of an operator, an operand of a tighter level ends. -/
theorem ends_operator {i : Nat} (h : kind ∈ operators i) : ends (i + 1) (some kind) = true := by
  have hlevels : ∀ i ∈ List.range 9, ∀ kind ∈ operators i, ends (i + 1) (some kind) = true := by
    decide
  exact hlevels i (List.mem_range.mpr (lt_of_mem_operators h)) kind h

/-- What ends an operand of a level is no operator of the level. -/
theorem any_operators {i : Nat} (hi : i < 9) {k : Option TokenKind} (h : ends i k = true) :
    k.any (operators i).contains = false := by
  cases k with
  | none => rfl
  | some kind =>
    rw [ends, drop_binaryLevels hi, List.all_cons] at h
    simp_all

theorem ends_of_endsItem {k : Option TokenKind} (h : endsItem k = true) : ends 0 k = true := by
  simp only [endsItem, Bool.or_eq_true, decide_eq_true_eq] at h
  rcases h with rfl | rfl <;> rfl

theorem ends_isAssign (h : kind.isAssign = true) : ends 0 (some kind) = true := by
  cases kind <;> first | rfl | cases h

/-- Every expression of at most `n` words is read. -/
def AcceptsExpr (x : Parser Expr) (n : Nat) : Prop :=
  ∀ {ws e}, Operand 0 ws e → ws.length ≤ n → Accepts x (ends 0) (fun a => a.bare = e) ws

theorem accepts_reference (hx : AcceptsExpr x n) (h : Reference ws e) (hn : ws.length ≤ n + 1) :
    Accepts (reference x) (ends 9) (fun a => a.bare = e) ws := by
  cases h with
  | var =>
    refine .expect fun t ht => .refuse (fun k hk => (ends_ne hk).2) (.ite_neg Bool.false_ne_true ?_)
    exact .pure (by rw [Expr.bare, ht])
  | elem hindex =>
    simp only [List.length_cons, List.length_append] at hn
    refine .expect fun t ht => .accept (.ite_pos rfl ?_)
    refine (hx hindex (by omega)).bind (fun _ _ => rfl) fun a ha => .expect fun _ _ => .pure ?_
    rw [Expr.bare, ha, ht]

theorem AcceptsExpr.item (hx : AcceptsExpr x n) : AcceptsItem x Expr.bare (Operand 0) n where
  starts h := h.startsWith.mono fun kind hkind => by
    rw [decide_eq_true_eq]
    rintro rfl
    cases hkind
  reads h hn := (hx h hn).mono fun _ => ends_of_endsItem

/-- A reference is read where no opening parenthesis follows its name. -/
theorem accepts_primary_reference (hx : AcceptsExpr x n) (h : Reference ws e)
    (hn : ws.length ≤ n + 1) : Accepts (primary x) (ends 9) (fun a => a.bare = e) ws := by
  intro stop ts rest hts hrest
  obtain ⟨a, hread, ha⟩ := accepts_reference hx h hn stop ts rest hts hrest
  obtain ⟨name, vs, rfl, hahead⟩ : ∃ name vs, ws = (.ident, name) :: vs ∧
      ahead vs (next rest) ≠ some .lparen := by
    cases h with
    | var => exact ⟨_, _, rfl, (ends_ne hrest).1⟩
    | elem => exact ⟨_, _, rfl, by simp⟩
  obtain ⟨t, ts, rfl, ht, hts⟩ := List.map_eq_cons_iff.mp hts
  have hnext : next (ts ++ rest) ≠ some .lparen := by
    rw [next_append, hts]
    exact hahead
  refine ⟨a, ?_, ha⟩
  rw [← hread]
  simp only [List.cons_append, primary, Token.kind_of_word ht]
  exact if_neg hnext

theorem accepts_primary_call {name : String} {args : List Expr} (hx : AcceptsExpr x n)
    (h : Arguments (Operand 0) ws args) (hn : ws.length ≤ n) :
    Accepts (primary x) (ends 9) (fun a => a.bare = .call none name args)
      ((.ident, name) :: ws) := by
  intro stop ts rest hts hrest
  obtain ⟨t, ts, rfl, ht, hts⟩ := List.map_eq_cons_iff.mp hts
  obtain ⟨as, hread, has⟩ :=
    accepts_arguments hx.item h (Nat.le_add_right_of_le hn) stop ts rest hts rfl
  have hnext : next (ts ++ rest) = some .lparen := by
    rw [next_append, hts]
    cases h <;> rfl
  refine ⟨.call (some t.loc) t.text as, ?_, ?_⟩
  · simp only [List.cons_append, primary, Token.kind_of_word ht]
    exact (if_pos hnext).trans (bind_ok hread)
  · simp only [Expr.bare, Expr.bareList_eq_map, has, Token.text_of_word ht]

theorem Accepts.primary_lparen {A : Option TokenKind → Bool} {R : Expr → Prop} {l : String}
    (h : ∀ loc, Accepts (x >>= parenthesisRest x loc) A R ws) :
    Accepts (primary x) A R ((.lparen, l) :: ws) :=
  .cons (q := fun t => x >>= parenthesisRest x t.loc)
    (fun _ _ _ hkind _ => by simp only [primary, hkind]) fun t _ => h t.loc

theorem accepts_primary (hx : AcceptsExpr x n) (h : Primary ws e) (hn : ws.length ≤ n + 1) :
    Accepts (primary x) (ends 9) (fun a => a.bare = e) ws := by
  cases h with
  | @number text m hm =>
    refine .cons (q := fun t => numeral text >>= fun v => pure (.int (some t.loc) v))
      (fun t stop ts hkind htext => by simp only [primary, hkind, htext]) fun t _ => ?_
    refine (accepts_numeral hm).map fun v hv => ?_
    rw [Expr.bare, hv]
  | true =>
    exact .cons (q := fun t => pure (.bool (some t.loc) true))
      (fun t stop ts hkind _ => by simp only [primary, hkind]; rfl) fun t _ => .pure rfl
  | false =>
    exact .cons (q := fun t => pure (.bool (some t.loc) false))
      (fun t stop ts hkind _ => by simp only [primary, hkind]; rfl) fun t _ => .pure rfl
  | reference h => exact accepts_primary_reference hx h hn
  | call h => exact accepts_primary_call hx h (Nat.le_of_succ_le_succ hn)
  | parenthesis h =>
    simp only [List.length_cons, List.length_append] at hn
    refine .primary_lparen fun loc => ?_
    refine (hx h (by omega)).bind (fun _ _ => rfl) fun first hfirst => ?_
    refine .refuseIf (fun _ _ => rfl) ?_
    exact .pure_bind (.expect fun _ _ => .pure hfirst)
  | update htarget hop hvalue =>
    simp only [List.length_cons, List.length_append] at hn
    refine .primary_lparen fun loc => ?_
    refine (hx htarget (by omega)).bind (fun _ _ => ends_isAssign hop) fun first hfirst => ?_
    refine .acceptIf hop fun o ho => ?_
    refine (hx hvalue (by omega)).bind (fun _ _ => rfl) fun v hv =>
      .pure_bind (.expect fun _ _ => .pure ?_)
    rw [Expr.bare, hfirst, hv, ho]

theorem unary_of_not {operand : Parser Expr} (h : t.kind.isUnary = false) :
    unary operand stop (t :: ts) = operand stop (t :: ts) := by
  rw [unary.eq_def]
  simp [h]

/-- An operator that is not the sign of a number. -/
theorem unary_cons {operand : Parser Expr} (hkind : t.kind.isUnary = true)
    (hminus : t.text = "-" → next ts ≠ some .number) :
    unary operand stop (t :: ts) = (do
      let (e, left) ← unary operand stop ts
      pure (Expr.unary (some t.loc) t.text e, left)) := by
  rw [unary.eq_def]
  simp only [hkind, if_true]
  cases ts with
  | nil => rfl
  | cons n ts =>
    have hnot : ¬(decide (t.text = "-") && decide (n.kind = .number)) = true := by
      simpa [next] using hminus
    simp only [if_neg hnot]

section Unary

variable {operand : Parser Expr}

theorem Accepts.unary_of_primary {R : Expr → Prop} (h : Accepts operand (ends 9) R ws)
    (hstarts : StartsWith startsPrimary ws) : Accepts (unary operand) (ends 9) R ws := by
  intro stop ts rest hts hrest
  obtain ⟨a, hread, ha⟩ := h stop ts rest hts hrest
  obtain ⟨w, us, rfl, hw⟩ := hstarts
  obtain ⟨t, ts, rfl, ht, -⟩ := List.map_eq_cons_iff.mp hts
  have hkind : t.kind.isUnary = false := by
    rw [Token.kind_of_word ht]
    generalize w.1 = kind at hw
    cases kind <;> first | rfl | cases hw
  exact ⟨a, (unary_of_not hkind).trans hread, ha⟩

theorem Accepts.unary_operator {op : String}
    (h : Accepts (unary operand) (ends 9) (fun a => a.bare = e) ws) (hkind : kind.isUnary = true)
    (hstarts : StartsWith startsExpr ws) (hminus : op = "-" → ∀ w ∈ ws.head?, w.1 ≠ .number) :
    Accepts (unary operand) (ends 9) (fun a => a.bare = .unary none op e) ((kind, op) :: ws) := by
  intro stop ts rest hts hrest
  obtain ⟨t, ts, rfl, ht, hts⟩ := List.map_eq_cons_iff.mp hts
  obtain ⟨a, hread, ha⟩ := h stop ts rest hts hrest
  have hnumber : t.text = "-" → next (ts ++ rest) ≠ some .number := by
    intro htext
    obtain ⟨w, us, rfl, -⟩ := hstarts
    have hw := hminus ((Token.text_of_word ht).symm.trans htext) w rfl
    rw [next_append, hts, ahead_cons]
    simpa using hw
  refine ⟨.unary (some t.loc) t.text a, ?_, ?_⟩
  · rw [List.cons_append, unary_cons (by rw [Token.kind_of_word ht]; exact hkind) hnumber, hread]
    rfl
  · simp only [Expr.bare, ha, Token.text_of_word ht]

theorem accepts_negative {m : Nat} (hkind : kind.isUnary = true)
    (hm : Text.readDigits? text.toList = some m) :
    Accepts (unary operand) (ends 9) (fun a => a.bare = .int none (-Int.ofNat m))
      [(kind, "-"), (.number, text)] := by
  intro stop ts rest hts hrest
  obtain ⟨t, ts, rfl, ht, hts⟩ := List.map_eq_cons_iff.mp hts
  obtain ⟨d, rfl, hd⟩ := List.map_eq_singleton_iff.mp hts
  have hunary : t.kind.isUnary = true := by
    rw [Token.kind_of_word ht]
    exact hkind
  have hminus : (decide (t.text = "-") && decide (d.kind = .number)) = true := by
    rw [Token.text_of_word ht, Token.kind_of_word hd]
    rfl
  refine ⟨.int (some t.loc) (-Int.ofNat m), ?_, rfl⟩
  rw [List.cons_append, List.singleton_append, unary, if_pos hunary, if_pos hminus]
  exact bind_ok (by rw [numeral, Token.text_of_word hd, hm])

theorem accepts_unary (hoperand : ∀ {ws e}, Primary ws e → ws.length ≤ n →
      Accepts operand (ends 9) (fun a => a.bare = e) ws) :
    ∀ {ws e}, Unary ws e → ws.length ≤ n →
      Accepts (unary operand) (ends 9) (fun a => a.bare = e) ws
  | _, _, .primary h, hn => (hoperand h hn).unary_of_primary h.startsWith
  | _, _, .operator hkind hminus h, hn =>
    (accepts_unary hoperand h (Nat.le_of_succ_le hn)).unary_operator hkind h.startsWith hminus
  | _, _, .negative hkind hm, _ => accepts_negative hkind hm

end Unary

/-! ## Levels of operators -/

/-- Level `i` reads the words as an expression equal to `e` but for places. -/
def Parses (depth i : Nat) (e : Expr) (ws : Words) : Prop :=
  Accepts (level depth i) (ends i) (fun a => a.bare = e) ws

/-- `Parses`, where more operators of level `i` may follow: what they join is read next. The number
of rounds that are left goes down at most by the number of words. -/
def Chains (depth i : Nat) (e : Expr) (ws : Words) : Prop :=
  ∀ stop ts rest rounds, ts.map Token.word = ws → ends (i + 1) (next rest) = true →
    ws.length ≤ rounds → ∃ a left, a.bare = e ∧ rounds ≤ left + ws.length ∧
      (level depth (i + 1) >>= chainRest (operators i) (level depth (i + 1)) rounds) stop
          (ts ++ rest) =
        chainRest (operators i) (level depth (i + 1)) left a stop rest

variable {depth i : Nat}

theorem Parses.chains (h : Parses depth (i + 1) e ws) : Chains depth i e ws := by
  intro stop ts rest rounds hts hrest hrounds
  obtain ⟨a, hread, ha⟩ := h stop ts rest hts hrest
  exact ⟨a, rounds, ha, Nat.le_add_right .., bind_ok hread⟩

theorem Chains.parses (hi : i < 9) (h : Chains depth i e ws) : Parses depth i e ws := by
  rw [Parses, level_of_lt depth hi]
  intro stop ts rest hts hrest
  have hrounds : ws.length ≤ (ts ++ rest).length := by
    rw [← hts, List.length_map, List.length_append]
    omega
  obtain ⟨a, left, ha, -, hchain⟩ :=
    h stop ts rest (ts ++ rest).length hts (ends_mono (Nat.le_succ i) hrest) hrounds
  have hstop : Accepts (chainRest (operators i) (level depth (i + 1)) left a) (ends i)
      (fun b => b = a) [] := by
    cases left with
    | zero => exact .pure rfl
    | succ left => exact .refuseIf (fun k hk => any_operators hi hk) (.pure rfl)
  obtain ⟨_, hend, rfl⟩ := hstop stop [] rest rfl hrest
  exact ⟨_, hchain.trans hend, ha⟩

/-- An operator of level `i` between two operands. -/
theorem Chains.binary {left right : Expr} {op : String} (hkind : kind ∈ operators i)
    (hleft : Chains depth i left us) (hright : Parses depth (i + 1) right vs) :
    Chains depth i (.binary none op left right) (us ++ (kind, op) :: vs) := by
  intro stop ts rest rounds hts hrest hrounds
  obtain ⟨tl, ts, rfl, htl, hts⟩ := List.map_eq_append_iff.mp hts
  obtain ⟨t, tr, rfl, ht, htr⟩ := List.map_eq_cons_iff.mp hts
  have hop : t.kind ∈ operators i := Token.kind_of_word ht ▸ hkind
  simp only [List.length_append, List.length_cons] at hrounds ⊢
  obtain ⟨a, rounds₁, ha, hrounds₁, hchain⟩ :=
    hleft stop tl (t :: (tr ++ rest)) rounds htl (ends_operator hop) (by omega)
  obtain ⟨b, hread, hb⟩ := hright stop tr rest htr hrest
  obtain ⟨rounds₂, rfl⟩ : ∃ m, rounds₁ = m + 1 := ⟨rounds₁ - 1, by omega⟩
  have haccept : acceptIf (operators i).contains stop (t :: (tr ++ rest)) =
      .ok (some t, tr ++ rest) := by
    simp [acceptIf, hop]
  refine ⟨.binary (some t.loc) t.text a b, rounds₂, ?_, by omega, ?_⟩
  · rw [Expr.bare, ha, hb, Token.text_of_word ht]
  · rw [List.append_assoc, List.cons_append, hchain, chainRest, bind_ok haccept]
    exact bind_ok hread

/-- An operand of a level below the tightest may stand in front of more operators of the level. -/
def Ready (depth i : Nat) (e : Expr) (ws : Words) : Prop :=
  (i < 9 ∧ Chains depth i e ws) ∨ (i = 9 ∧ Parses depth i e ws)

theorem Ready.parses (h : Ready depth i e ws) : Parses depth i e ws := by
  obtain ⟨hlt, hchains⟩ | ⟨-, hparses⟩ := h
  · exact hchains.parses hlt
  · exact hparses

theorem Ready.chains (h : Ready depth i e ws) (hi : i < 9) : Chains depth i e ws := by
  obtain ⟨-, hchains⟩ | ⟨rfl, -⟩ := h
  · exact hchains
  · exact absurd hi (Nat.lt_irrefl 9)

/-- By recursion over the derivation. -/
theorem ready_of_operand (hx : AcceptsExpr (exprAt depth) depth) :
    ∀ {i ws e}, Operand i ws e → ws.length ≤ depth + 1 → Ready depth i e ws
  | _, _, _, .unary h, hn =>
    .inr ⟨rfl, accepts_unary (fun h hn => accepts_primary hx h hn) h hn⟩
  | _, _, _, .tighter hi h, hn => .inl ⟨hi, (ready_of_operand hx h hn).parses.chains⟩
  | i, _, _, .binary hleft hkind hright, hn => by
    have hi : i < 9 := lt_of_mem_operators hkind
    simp only [List.length_append, List.length_cons] at hn
    exact .inl ⟨hi, .binary hkind ((ready_of_operand hx hleft (by omega)).chains hi)
      (ready_of_operand hx hright (by omega)).parses⟩

theorem accepts_exprAt (depth : Nat) : AcceptsExpr (exprAt depth) depth := by
  induction depth with
  | zero =>
    intro ws e h hn
    obtain ⟨w, us, rfl, -⟩ := h.startsWith
    cases hn
  | succ depth ih => exact fun h hn => (ready_of_operand ih h hn).parses

theorem accepts_expression (h : Operand 0 ws e) :
    Accepts expression (ends 0) (fun a => a.bare = e) ws :=
  .sized (p := fun n => exprAt (n + 1)) fun n hn => accepts_exprAt (n + 1) h (by omega)

theorem accepts_ref (h : Reference ws e) :
    Accepts (reference expression) (ends 9) (fun a => a.bare = e) ws :=
  accepts_reference (n := ws.length) (fun h _ => accepts_expression h) h (Nat.le_succ _)

end Operands

/-! ## Statements -/

section Statements

variable {stmt : Parser Stmt} {s : Stmt} {ss : List Stmt} {n : Nat}

/-- What follows a statement. -/
def endsStmt : Option TokenKind → Bool
  | none => false
  | some kind => kind = .semicolon || kind = .rbrace || startsStmt kind

/-- What follows the last statement. -/
def endsBody (k : Option TokenKind) : Bool := k = some .rbrace

theorem ends_of_endsStmt {k : Option TokenKind} (h : endsStmt k = true) : ends 0 k = true := by
  cases k with
  | none => rfl
  | some kind => cases kind <;> first | rfl | cases h

/-- Every statement of at most `n` words is read. -/
def AcceptsStmt (stmt : Parser Stmt) (n : Nat) : Prop :=
  ∀ {ws s}, Statement ws s → ws.length ≤ n → Accepts stmt endsStmt (fun a => a.bare = s) ws

/-- In front of a statement or after the last one there is no semicolon. -/
theorem ahead_body (h : Body ws ss) {k : Option TokenKind} (hk : endsBody k = true) :
    ∃ kind, ahead ws k = some kind ∧ kind ≠ .semicolon ∧ endsStmt (some kind) = true := by
  cases h with
  | nil => exact ⟨.rbrace, of_decide_eq_true hk, by decide, rfl⟩
  | cons hs =>
    obtain ⟨kind, hstarts, hahead⟩ := (hs.startsWith.append _).ahead k
    refine ⟨kind, hahead, ?_, by simp [endsStmt, hstarts]⟩
    rintro rfl
    cases hstarts

theorem dropWhile_semicolons {semicolons : List Token} (h : ∀ t ∈ semicolons, t.kind = .semicolon)
    (hnext : next ts ≠ some .semicolon) :
    (semicolons ++ ts).dropWhile (fun t => t.kind = .semicolon) = ts := by
  rw [List.dropWhile_append_of_pos fun t ht => decide_eq_true (h t ht)]
  cases ts with
  | nil => rfl
  | cons t ts => simpa [next] using hnext

theorem body_of_ne_rbrace {fuel : Nat} {s : Stmt} (hnext : next ts = some kind)
    (hkind : kind ≠ .rbrace) (hread : stmt stop ts = .ok (s, rest)) :
    body stmt (fuel + 1) stop ts = (body stmt fuel >>= fun ss => pure (s :: ss)) stop
      (rest.dropWhile fun t => t.kind = .semicolon) := by
  cases ts with
  | nil => cases hnext
  | cons t ts =>
    have hbrace : t.kind ≠ .rbrace := Option.some.inj hnext ▸ hkind
    rw [body]
    simp only [hbrace, if_false, hread]

theorem accepts_body_nil (fuel : Nat) :
    Accepts (body stmt fuel) endsBody (fun as => Stmt.bareList as = []) [] := by
  intro stop ts rest hts hrest
  obtain rfl := List.map_eq_nil_iff.mp hts
  refine ⟨[], ?_, rfl⟩
  cases fuel with
  | zero => rfl
  | succ fuel =>
    cases rest with
    | nil => rfl
    | cons t rest =>
      have hkind : t.kind = .rbrace := by simpa [endsBody, next] using hrest
      simp [body, hkind]

/-- One round of the loop: a statement, the semicolons behind it, and the statements that follow. -/
theorem Accepts.body_cons {fuel : Nat} (h : Accepts (body stmt fuel) endsBody
      (fun as => Stmt.bareList as = ss) vs) (hbody : Body vs ss)
    (hstmt : Accepts stmt endsStmt (fun a => a.bare = s) us) (hstarts : StartsWith startsStmt us)
    (hws : ∀ w ∈ ws, w.1 = .semicolon) :
    Accepts (body stmt (fuel + 1)) endsBody (fun as => Stmt.bareList as = s :: ss)
      (us ++ (ws ++ vs)) := by
  intro stop ts rest hts hrest
  obtain ⟨tf, tm, rfl, htf, htm⟩ := List.map_eq_append_iff.mp hts
  obtain ⟨tc, tb, rfl, htc, htb⟩ := List.map_eq_append_iff.mp htm
  have hsemicolon : ∀ t ∈ tc, t.kind = .semicolon := fun t ht =>
    hws t.word (htc ▸ List.mem_map_of_mem ht)
  -- the statement ends at a semicolon or where the next one starts
  have hnext : next (tb ++ rest) ≠ some .semicolon ∧ endsStmt (next (tb ++ rest)) = true := by
    obtain ⟨kind, hahead, hkind, hends⟩ := ahead_body hbody hrest
    rw [next_append, htb, hahead]
    exact ⟨by simpa using hkind, hends⟩
  have hfollow : endsStmt (next (tc ++ (tb ++ rest))) = true := by
    cases tc with
    | nil => exact hnext.2
    | cons t tc => simp [next, endsStmt, hsemicolon t List.mem_cons_self]
  obtain ⟨a, hread, ha⟩ := hstmt stop tf (tc ++ (tb ++ rest)) htf hfollow
  obtain ⟨as, hmore, has⟩ := h stop tb rest htb hrest
  obtain ⟨kind, hkind, hfirst⟩ := hstarts.ahead (next (tc ++ (tb ++ rest)))
  rw [← htf, ← next_append] at hfirst
  have hbrace : kind ≠ .rbrace := by
    rintro rfl
    cases hkind
  refine ⟨a :: as, ?_, by simp only [Stmt.bareList, ha, has]⟩
  rw [List.append_assoc, List.append_assoc, body_of_ne_rbrace hfirst hbrace hread,
    dropWhile_semicolons hsemicolon hnext.1]
  exact bind_ok hmore

theorem accepts_body (hstmt : AcceptsStmt stmt n) : ∀ {ws ss}, Body ws ss → ws.length ≤ n →
    ∀ fuel, ws.length ≤ fuel →
      Accepts (body stmt fuel) endsBody (fun as => Stmt.bareList as = ss) ws
  | _, _, .nil, _, fuel, _ => accepts_body_nil fuel
  | _, _, .cons hs hsemicolons hbody, hn, fuel, hfuel => by
    have hpos := hs.startsWith.length_pos
    simp only [List.length_append] at hn hfuel
    obtain ⟨fuel, rfl⟩ : ∃ m, fuel = m + 1 := ⟨fuel - 1, by omega⟩
    exact (accepts_body hstmt hbody (by omega) fuel (by omega)).body_cons hbody
      (hstmt hs (by omega)) hs.startsWith hsemicolons

theorem accepts_braced (hstmt : AcceptsStmt stmt n) (h : Braced Body ws ss)
    (hn : ws.length ≤ n + 2) :
    Accepts (braced stmt) anything (fun as => Stmt.bareList as = ss) ws := by
  cases h with
  | intro h =>
    simp only [List.length_cons, List.length_append, List.length_nil] at hn
    refine .expect fun _ _ => ?_
    refine Accepts.bind (.sized (p := fun m => body stmt (m + 1)) fun m hm =>
      accepts_body hstmt h (by omega) (m + 1) (by omega)) (fun _ _ => rfl) fun as has => ?_
    exact .expect fun _ _ => .pure has

theorem accepts_optionalBody {keyword : TokenKind} (hstmt : AcceptsStmt stmt n)
    (h : Optional keyword Body ws ss) (hn : ws.length ≤ n + 3) :
    Accepts (optionalBody keyword stmt) (fun k => k != some keyword)
      (fun as => Stmt.bareList as = ss) ws := by
  cases h with
  | absent =>
    exact .refuse (fun k hk => by simpa using hk) (.ite_neg Bool.false_ne_true (.pure rfl))
  | present h =>
    refine .accept (.ite_pos rfl ?_)
    exact (accepts_braced hstmt h (Nat.le_of_succ_le_succ hn)).mono fun _ _ => rfl

/-- A part that may be absent is followed by what may stand in its place. -/
theorem ahead_optional {keyword : TokenKind} (h : Optional keyword Body ws ss)
    {A : Option TokenKind → Bool} {k : Option TokenKind} (hkeyword : A (some keyword) = true)
    (hk : A k = true) : A (ahead ws k) = true := by
  cases h with
  | absent => exact hk
  | present => exact hkeyword

theorem accepts_references {args : List Expr} (h : Arguments Reference ws args) :
    Accepts (arguments (reference expression)) anything (fun as => as.map Expr.bare = args) ws := by
  refine accepts_arguments (n := ws.length) ⟨fun h => ?_, fun h _ => ?_⟩ h (Nat.le_add_right ..)
  · exact h.startsWith.mono fun kind hkind => by simp_all
  · exact (accepts_ref h).mono fun _ hk => ends_mono (Nat.zero_le 9) (ends_of_endsItem hk)

theorem accepts_callRest {callee : String} {args : List Expr} (loc : Location) (uncall : Bool)
    (h : Arguments Reference ws args) :
    Accepts (callRest loc uncall) endsStmt (fun a => a.bare = .call none callee args uncall)
      ((.ident, callee) :: ws) := by
  refine .expect fun t ht => ((accepts_references h).mono fun _ _ => rfl).map fun as has => ?_
  rw [Stmt.bare, Expr.bareList_eq_map, has, ht]

theorem accepts_definition {name eq : String} {value : Expr} (h : Operand 0 ws value) :
    Accepts definition endsStmt (fun d => d.1 = name ∧ d.2.bare = value)
      ((.ident, name) :: (.assign, eq) :: ws) :=
  .expect fun _ ht => .expect fun _ _ =>
    ((accepts_expression h).mono fun _ => ends_of_endsStmt).map fun _ ha => ⟨ht, ha⟩

theorem accepts_assign {op : String} {target value : Expr} (htarget : Reference us target)
    (hop : kind.isAssign = true) (hvalue : Operand 0 vs value) :
    Accepts updateStmt endsStmt (fun a => a.bare = .assign none target op value)
      (us ++ (kind, op) :: vs) := by
  have hswap : kind ≠ .swap := by
    rintro rfl
    cases hop
  refine .here fun loc => (accepts_ref htarget).bind
    (fun _ _ => ends_mono (Nat.zero_le 9) (ends_isAssign hop)) fun a ha => ?_
  refine .refuse (fun _ _ => by simpa using hswap) (.ite_neg Bool.false_ne_true ?_)
  refine .acceptIf hop fun o ho => ?_
  refine ((accepts_expression hvalue).mono fun _ => ends_of_endsStmt).map fun b hb => ?_
  rw [Stmt.bare, ha, hb, ho]

theorem accepts_swap {text : String} {left right : Expr} (hleft : Reference us left)
    (hright : Reference vs right) :
    Accepts updateStmt endsStmt (fun a => a.bare = .swap none left right)
      (us ++ (.swap, text) :: vs) := by
  refine .here fun loc => (accepts_ref hleft).bind (fun _ _ => rfl) fun a ha => ?_
  refine .accept (.ite_pos rfl ?_)
  refine ((accepts_ref hright).mono fun _ hk =>
    ends_mono (Nat.zero_le 9) (ends_of_endsStmt hk)).map fun b hb => ?_
  rw [Stmt.bare, ha, hb]

/-- A statement that starts with a name is an update. -/
theorem Accepts.stmtAt_of_updateStmt {depth : Nat} {R : Stmt → Prop}
    (h : Accepts updateStmt endsStmt R ws)
    (hstarts : StartsWith (fun kind => kind = .ident) ws) :
    Accepts (stmtAt (depth + 1)) endsStmt R ws := by
  obtain ⟨⟨kind, name⟩, us, rfl, hkind⟩ := hstarts
  obtain rfl := of_decide_eq_true hkind
  exact .here fun loc => .peek h

theorem accepts_stmtAt (depth : Nat) : AcceptsStmt (stmtAt depth) depth := by
  induction depth with
  | zero =>
    intro ws s h hn
    obtain ⟨w, us, rfl, -⟩ := h.startsWith
    cases hn
  | succ depth ih =>
    intro ws s h hn
    cases h with
    | assign htarget hop hvalue =>
      exact (accepts_assign htarget hop hvalue).stmtAt_of_updateStmt (htarget.startsWith.append _)
    | swap hleft hright =>
      exact (accepts_swap hleft hright).stmtAt_of_updateStmt (hleft.startsWith.append _)
    | branch hguard hthen helse hassertion =>
      simp only [List.length_cons, List.length_append] at hn
      refine .here fun loc => .peek (.expect fun _ _ => ?_)
      refine (accepts_expression hguard).bind (fun _ _ => by cases hthen; rfl) fun g hg => ?_
      refine (accepts_braced ih hthen (by omega)).bind (fun _ _ => rfl) fun t ht => ?_
      refine (accepts_optionalBody ih helse (by omega)).bind (fun _ _ => rfl) fun e he => ?_
      refine .expect fun _ _ => ?_
      refine ((accepts_expression hassertion).mono fun _ => ends_of_endsStmt).map fun a ha => ?_
      rw [Stmt.bare, hg, ht, he, ha]
    | call hargs =>
      exact .here fun loc => .peek (.expect fun _ _ => accepts_callRest loc false hargs)
    | uncall hargs =>
      exact .here fun loc => .peek (.expect fun _ _ => accepts_callRest loc true hargs)
    | declare hvalue =>
      refine .here fun loc => .peek (.expect fun _ _ => ?_)
      refine (accepts_definition hvalue).map fun d hd => ?_
      rw [Stmt.bare, hd.1, hd.2]
    | discard hvalue =>
      refine .here fun loc => .peek (.expect fun _ _ => ?_)
      refine (accepts_definition hvalue).map fun d hd => ?_
      rw [Stmt.bare, hd.1, hd.2]
    | loop hentry hdo hloop hexit =>
      simp only [List.length_cons, List.length_append] at hn
      refine .here fun loc => .peek (.expect fun _ _ => ?_)
      -- the entry ends at the first keyword of a part that is there, or at the last one
      refine (accepts_expression hentry).bind (fun _ _ => ?_) fun g hg => ?_
      · rw [ahead_append, ahead_append]
        exact ahead_optional (A := ends 0) hdo rfl (ahead_optional (A := ends 0) hloop rfl rfl)
      refine (accepts_optionalBody ih hdo (by omega)).bind (fun _ _ => ?_) fun d hd => ?_
      · rw [ahead_append]
        exact ahead_optional (A := fun k => k != some .kwDo) hloop rfl rfl
      refine (accepts_optionalBody ih hloop (by omega)).bind (fun _ _ => rfl) fun l hl => ?_
      refine .expect fun _ _ => ?_
      refine ((accepts_expression hexit).mono fun _ => ends_of_endsStmt).map fun a ha => ?_
      rw [Stmt.bare, hg, hd, hl, ha]
    | block hbody =>
      have hread := (accepts_braced ih hbody (by omega)).mono (B := endsStmt) fun _ _ => rfl
      cases hbody
      refine .here fun loc => .peek (hread.map fun a ha => ?_)
      rw [Stmt.bare, ha]

theorem accepts_statement (n : Nat) : AcceptsStmt statement n := fun h _ =>
  .sized (p := fun n => stmtAt (n + 1)) fun n hn => accepts_stmtAt (n + 1) h (by omega)

end Statements

/-! ## Procedures and programs -/

theorem accepts_params {params : List Param} (h : Arguments Parameter ws params) :
    Accepts (arguments param) anything
      (fun as => as.map (fun a : Param => ({ name := a.name } : Param)) = params) ws := by
  refine accepts_arguments (n := ws.length) ⟨fun h => ?_, fun h _ => ?_⟩ h (Nat.le_add_right ..)
  · cases h
    exact startsWith_cons rfl _
  · cases h
    exact .expect fun t ht => .pure (by simp only [ht])

theorem accepts_procedure {p : Procedure} (h : Definition ws p) :
    Accepts procedure anything (fun a => a.bare = p) ws := by
  cases h with
  | intro hparams hbody =>
    refine .here fun loc => .peek (.ite_neg (by simp) ?_)
    refine .expect fun _ _ => .expect fun name hname => ?_
    refine (accepts_params hparams).bind (fun _ _ => rfl) fun ps hps => ?_
    refine (accepts_braced (accepts_statement _) hbody (Nat.le_add_right ..)).map fun ss hss => ?_
    rw [Procedure.bare, hname, hps, hss]

/-- With more rounds than tokens, all procedures are read. -/
theorem procedures_of_definitions {ps : List Procedure} (h : Definitions ws ps) {fuel : Nat}
    (hfuel : ts.length < fuel) (hts : ts.map Token.word = ws) :
    ∃ qs, procedures fuel stop ts = .ok (qs, []) ∧ qs.map Procedure.bare = ps := by
  induction h generalizing fuel ts with
  | nil =>
    obtain rfl := List.map_eq_nil_iff.mp hts
    obtain ⟨fuel, rfl⟩ : ∃ m, fuel = m + 1 := ⟨fuel - 1, by omega⟩
    exact ⟨[], rfl, rfl⟩
  | cons hp _ ih =>
    obtain ⟨tp, tm, rfl, htp, htm⟩ := List.map_eq_append_iff.mp hts
    obtain ⟨q, hread, hq⟩ := accepts_procedure hp stop tp tm htp rfl
    obtain ⟨t, tp, rfl⟩ : ∃ t us, tp = t :: us := by
      cases hp
      obtain ⟨t, us, rfl, -⟩ := List.map_eq_cons_iff.mp htp
      exact ⟨t, us, rfl⟩
    obtain ⟨fuel, rfl⟩ : ∃ m, fuel = m + 1 := ⟨fuel - 1, by omega⟩
    simp only [List.length_append, List.length_cons] at hfuel
    obtain ⟨qs, hmore, hqs⟩ := ih (by omega : tm.length < fuel) htm
    refine ⟨q :: qs, ?_, by rw [List.map_cons, hq, hqs]⟩
    rw [List.cons_append] at hread ⊢
    have hpeek : peek stop (t :: (tp ++ tm)) = .ok (some t.kind, t :: (tp ++ tm)) := rfl
    rw [procedures, bind_ok hpeek, if_neg (by simp), bind_ok hread, bind_ok hmore]
    rfl

/-! ## Numbers -/

theorem digitValue_of_isDigit {c : Char} (h : c.isDigit = true) :
    Text.digitValue? 10 c = some (c.toNat - 0x30) := by
  have hrange : 0x30 ≤ c.toNat ∧ c.toNat ≤ 0x39 := by
    simpa [Char.isDigit, UInt32.le_iff_toNat_le] using h
  have hvalue : Text.decimalValue? c = some (c.toNat - 0x30) := by
    rw [Text.decimalValue?, if_pos (by omega), if_pos h]
  rw [Text.digitValue?, hvalue]
  simp only [Option.filter_some, decide_eq_true_eq, ite_eq_left_iff]
  omega

theorem readMoreDigits_digits {cs : List Char} (h : ∀ c ∈ cs, c.isDigit = true) (acc : Nat) :
    Text.readMoreDigits 10 acc cs = some (Nat.ofDigitChars 10 cs acc) := by
  induction cs generalizing acc with
  | nil => rfl
  | cons c cs ih =>
    rw [List.forall_mem_cons] at h
    have hc : c ≠ '_' := by
      rintro rfl
      exact absurd h.1 (by decide)
    rw [Text.readMoreDigits, digitValue_of_isDigit h.1]
    · exact (ih h.2 _).trans (by rw [Nat.ofDigitChars_cons]; rfl)
    · exact fun _ _ heq _ => hc heq

/-- A number in decimal digits has its decimal value. -/
theorem readDigits_digits {cs : List Char} (hne : cs ≠ []) (h : ∀ c ∈ cs, c.isDigit = true) :
    Text.readDigits? cs = some (Nat.ofDigitChars 10 cs 0) := by
  obtain ⟨c, cs, rfl⟩ := List.exists_cons_of_ne_nil hne
  rw [List.forall_mem_cons] at h
  rw [Text.readDigits?, Text.readDigitsIn?, digitValue_of_isDigit h.1, Nat.ofDigitChars_cons,
    Nat.mul_zero, Nat.zero_add]
  exact readMoreDigits_digits h.2 _

end Parser

theorem TokenList.procedures_eq_ok {input : TokenList} {ps : List Procedure} :
    input.procedures = .ok ps ↔
      ∃ rest, Parser.procedures (input.tokens.length + 1) input.stop input.tokens =
        .ok (ps, rest) := by
  constructor
  · intro h
    obtain ⟨⟨ps', rest⟩, hread, h⟩ := Actions.except_bind_eq_ok.mp h
    cases h
    exact ⟨rest, hread⟩
  · rintro ⟨rest, hread⟩
    exact Actions.except_bind_eq_ok.mpr ⟨(ps, rest), hread, rfl⟩

open Grammar in
/-- What is read from a list of tokens is what the grammar derives from it, places aside. -/
theorem TokenList.exists_procedures_iff {input : TokenList} {qs : List Procedure} :
    (∃ ps, input.procedures = .ok ps ∧ ps.map Procedure.bare = qs) ↔
      Definitions (input.tokens.map Token.word) qs := by
  constructor
  · rintro ⟨ps, hps, rfl⟩
    obtain ⟨rest, hread⟩ := TokenList.procedures_eq_ok.mp hps
    exact Parser.definitions_of_procedures (Nat.lt_succ_self _) hread
  · intro h
    obtain ⟨ps, hread, hps⟩ := Parser.procedures_of_definitions h (Nat.lt_succ_self _) rfl
    exact ⟨ps, TokenList.procedures_eq_ok.mpr ⟨[], hread⟩, hps⟩

/-- The grammar is unambiguous. -/
theorem Grammar.Definitions.unique {ws : Words} {ps qs : List Procedure}
    (hps : Grammar.Definitions ws ps) (hqs : Grammar.Definitions ws qs) : ps = qs := by
  -- both are what the parser reads from tokens with these words
  let input : TokenList := ⟨ws.map fun w => ⟨w.1, w.2, ⟨1, 1, ""⟩⟩, ⟨1, 1, ""⟩⟩
  have hwords : input.tokens.map Token.word = ws := by simp [input, Function.comp_def]
  rw [← hwords] at hps hqs
  obtain ⟨ps', hread, rfl⟩ := TokenList.exists_procedures_iff.mpr hps
  obtain ⟨qs', hread', rfl⟩ := TokenList.exists_procedures_iff.mpr hqs
  obtain rfl : ps' = qs' := by simpa [hread] using hread'
  rfl

/-- **The parser reads exactly the grammar.** A list of tokens is read as a program if and only if
the grammar derives the program from the words of the tokens, places aside; otherwise reading fails.
The grammar derives at most one program from a list of words. The value that it gives to a number in
decimal digits is the decimal value. -/
theorem TokenList.procedures_iff_derived :
    (∀ (input : TokenList) (qs : List Procedure),
      (∃ ps, input.procedures = .ok ps ∧ ps.map Procedure.bare = qs) ↔
        Grammar.Definitions (input.tokens.map Token.word) qs) ∧
    (∀ (ws : Words) (ps qs : List Procedure),
      Grammar.Definitions ws ps → Grammar.Definitions ws qs → ps = qs) ∧
    ∀ digits : List Char, digits ≠ [] → (∀ c ∈ digits, c.isDigit = true) →
      Text.readDigits? digits = some (Nat.ofDigitChars 10 digits 0) :=
  ⟨fun _ _ => TokenList.exists_procedures_iff, fun _ _ _ => Grammar.Definitions.unique,
    fun _ => Parser.readDigits_digits⟩

namespace Sample

/-- The words of `x -= 1 - 2 - -13;; x <=> y`, in a procedure. -/
def differenceWords : Words :=
  [(.procedure, "procedure"), (.ident, "f"), (.lparen, "("), (.ident, "x"), (.comma, ","),
    (.ident, "y"), (.rparen, ")"), (.lbrace, "\x7b"), (.ident, "x"), (.minusAssign, "-="),
    (.number, "1"), (.minus, "-"), (.number, "2"), (.minus, "-"), (.minus, "-"), (.number, "13"),
    (.semicolon, ";"), (.semicolon, ";"), (.ident, "x"), (.swap, "<=>"), (.ident, "y"),
    (.rbrace, "\x7d")]

/-- The differences group to the left, and the last minus belongs to the number. -/
def difference : Procedure :=
  { name := "f"
    params := [⟨"x", none⟩, ⟨"y", none⟩]
    body :=
      [.assign none (.var none "x") "-="
          (.binary none "-" (.binary none "-" (.int none 1) (.int none 2)) (.int none (-13))),
        .swap none (.var none "x") (.var none "y")] }

/-- The words as tokens that all stand in one place. -/
def differenceTokens : TokenList :=
  ⟨differenceWords.map fun w => ⟨w.1, w.2, ⟨1, 1, ""⟩⟩, ⟨1, 1, ""⟩⟩

end Sample

theorem difference_derived : Grammar.Definitions Sample.differenceWords [Sample.difference] ∧
    (∀ qs, Grammar.Definitions Sample.differenceWords qs → [Sample.difference] = qs) ∧
    Text.readDigits? ['1', '3'] = some 13 := by
  have hderived : Grammar.Definitions Sample.differenceWords [Sample.difference] :=
    (TokenList.procedures_iff_derived.1 Sample.differenceTokens [Sample.difference]).mp
      ⟨_, rfl, rfl⟩
  exact ⟨hderived, fun qs hqs => TokenList.procedures_iff_derived.2.1 _ _ qs hderived hqs,
    TokenList.procedures_iff_derived.2.2 ['1', '3'] (by decide) (List.all_eq_true.mp (by decide))⟩

end Retrace
