import Retrace.Proofs.Layout
import Retrace.Proofs.Recognition

/-!
# Reading comes to an end

The loops and the recursions of the parser carry bounds. This module shows that the bounds are never
what ends them: every one of them goes from some tokens to fewer, so it obeys its rule without a
bound, whatever stands at the end of the bound (`Descends`).

The argument is the same all over. Two parsers concur on fewer than `n` tokens if they answer alike
there (`Concur`), and a rule that takes a token before it goes on makes parsers that concur on fewer
than `n` tokens into ones that concur on fewer than `n + 1` (`descends_sized`). Along the way
`Concur` keeps account of the answers: what is left of the tokens when something is read, and the
place or the token that an error is about (`Answers`).
-/

namespace Retrace

/-- The function `f` is what the rule `F` makes of it, and the rule uses it at smaller inputs only.
So going on by the rule comes to an end, and no other function obeys it. -/
def Descends {ι R : Type} (size : ι → Nat) (F : (ι → R) → ι → R) (f : ι → R) : Prop :=
  ∀ i x, (∀ j, size j < size i → x j = f j) → F x i = f i

namespace Parser

/-- An answer to some tokens. What is read takes at least `k` of them from the front; an error is at
the place of one of them or at the end, or it is about a number that has no value. -/
inductive Answers {α : Type} (stop : Location) (ts : List Token) (k : Nat) :
    Except Fault (α × List Token) → Prop
  | read {a : α} {rest : List Token} : rest <:+ ts → rest.length + k ≤ ts.length →
      Answers stop ts k (.ok (a, rest))
  | refused {message : String} {loc : Location} : (loc = stop ∨ ∃ t ∈ ts, loc = t.loc) →
      Answers stop ts k (.error (.failure (.reading message loc)))
  | valueless {t : Token} : t ∈ ts → t.kind = .number → Text.readDigits? t.text.toList = none →
      Answers stop ts k (.error (.badInteger t.text))

/-- On fewer than `n` tokens the two parsers give the same answer, and it takes at least `k` of
them. -/
def Concur {α : Type} (stop : Location) (n k : Nat) (p q : Parser α) : Prop :=
  ∀ ts, ts.length < n → q stop ts = p stop ts ∧ Answers stop ts k (p stop ts)

/-- A parser whose answers are in order, and which takes a token if it reads something. -/
def Proper {α : Type} (p : Parser α) : Prop := ∀ stop ts, Answers stop ts 1 (p stop ts)

variable {α β : Type} {stop : Location} {n k m : Nat}

namespace Answers

variable {ts rest : List Token}

theorem of_error {f : Fault} (h : Answers stop ts k (.error f : Except Fault (α × List Token))) :
    Answers stop ts m (.error f : Except Fault (β × List Token)) := by
  cases h with
  | refused hloc => exact .refused hloc
  | valueless ht hkind hnone => exact .valueless ht hkind hnone

/-- Some tokens are taken first. -/
theorem of_suffix {r : Except Fault (α × List Token)} (hrest : rest <:+ ts)
    (hlength : rest.length + k ≤ ts.length) (h : Answers stop rest (m - k) r) :
    Answers stop ts m r := by
  cases h with
  | read hsub htaken => exact .read (hsub.trans hrest) (by omega)
  | refused hloc =>
    refine .refused (hloc.imp_right ?_)
    rintro ⟨t, ht, rfl⟩
    exact ⟨t, hrest.subset ht, rfl⟩
  | valueless ht hkind hnone => exact .valueless (hrest.subset ht) hkind hnone

theorem mono {k' : Nat} (hk : k' ≤ k) {r : Except Fault (α × List Token)}
    (h : Answers stop ts k r) : Answers stop ts k' r := by
  cases h with
  | read hsub htaken => exact .read hsub (by omega)
  | refused hloc => exact .refused hloc
  | valueless ht hkind hnone => exact .valueless ht hkind hnone

end Answers

namespace Concur

variable {p q : Parser α} {f g : α → Parser β}

theorem mono {n' k' : Nat} (h : Concur stop n k p q) (hn : n' ≤ n) (hk : k' ≤ k) :
    Concur stop n' k' p q := fun ts hts =>
  have ⟨heq, hanswer⟩ := h ts (by omega)
  ⟨heq, hanswer.mono hk⟩

theorem self (h : Concur stop n k p q) : Concur stop n k q q := fun ts hts =>
  have ⟨heq, hanswer⟩ := h ts hts
  ⟨rfl, heq ▸ hanswer⟩

theorem pure (a : α) : Concur stop n 0 (pure a) (pure a) := fun _ _ =>
  ⟨rfl, .read List.suffix_rfl (Nat.le_refl _)⟩

theorem bind (hp : Concur stop n k p q) (hf : ∀ a, Concur stop (n - k) (m - k) (f a) (g a)) :
    Concur stop n m (p >>= f) (q >>= g) := by
  intro ts hts
  obtain ⟨heq, hanswer⟩ := hp ts hts
  simp only [Bind.bind, heq]
  cases hread : p stop ts with
  | error fault =>
    rw [hread] at hanswer
    exact ⟨rfl, hanswer.of_error⟩
  | ok r =>
    obtain ⟨a, rest⟩ := r
    rw [hread] at hanswer
    cases hanswer with
    | read hsub htaken =>
      obtain ⟨heq', hanswer'⟩ := hf a rest (by omega)
      exact ⟨heq', hanswer'.of_suffix hsub htaken⟩

theorem ite {c : Prop} [Decidable c] {p' q' : Parser α} (hp : c → Concur stop n k p q)
    (hq : ¬c → Concur stop n k p' q') :
    Concur stop n k (if c then p else p') (if c then q else q') := by
  split
  · rename_i hc
    exact hp hc
  · rename_i hc
    exact hq hc

end Concur

/-! ## Tokens -/

theorem concur_fail (message : String) :
    Concur stop n k (fail message : Parser α) (fail message) := by
  intro ts _
  refine ⟨rfl, .refused ?_⟩
  cases ts with
  | nil => exact .inl rfl
  | cons t ts => exact .inr ⟨t, List.mem_cons_self, rfl⟩

theorem concur_here : Concur stop n 0 here here := fun _ _ =>
  ⟨rfl, .read List.suffix_rfl (Nat.le_refl _)⟩

theorem concur_peek : Concur stop n 0 peek peek := fun _ _ =>
  ⟨rfl, .read List.suffix_rfl (Nat.le_refl _)⟩

theorem concur_peekText : Concur stop n 0 peekText peekText := fun _ _ =>
  ⟨rfl, .read List.suffix_rfl (Nat.le_refl _)⟩

theorem concur_expect (kind : TokenKind) : Concur stop n 1 (expect kind) (expect kind) := by
  intro ts hts
  refine ⟨rfl, ?_⟩
  have hother : Concur stop n 1
      (peek >>= fun found => peekText >>= fun text => (fail ("Expected " ++ kind.name ++ ", got " ++
        shownKind found ++ " " ++ "(" ++ shownText text ++ ")") : Parser Token))
      (peek >>= fun found => peekText >>= fun text => fail ("Expected " ++ kind.name ++ ", got " ++
        shownKind found ++ " " ++ "(" ++ shownText text ++ ")")) :=
    concur_peek.bind fun _ => concur_peekText.bind fun _ => concur_fail _
  cases ts with
  | nil => exact (hother [] hts).2
  | cons t ts =>
    simp only [expect]
    split
    · exact .read (List.suffix_cons t ts) (Nat.le_refl _)
    · exact (hother (t :: ts) hts).2

/-- What follows a token that may be there: with one token fewer if it was. -/
theorem Concur.acceptIf_bind {wanted : TokenKind → Bool} {f g : Option Token → Parser β}
    (hsome : ∀ t, Concur stop (n - 1) (m - 1) (f (some t)) (g (some t)))
    (hnone : Concur stop n m (f none) (g none)) :
    Concur stop n m (acceptIf wanted >>= f) (acceptIf wanted >>= g) := by
  intro ts hts
  cases ts with
  | nil => exact hnone [] hts
  | cons t ts =>
    simp only [Bind.bind, acceptIf]
    split
    · rename_i rest heq
      split at heq <;> cases heq
      · obtain ⟨heq, hanswer⟩ := hsome t ts (by rw [List.length_cons] at hts; omega)
        exact ⟨heq, hanswer.of_suffix (List.suffix_cons t ts) (Nat.le_refl _)⟩
      · exact hnone (t :: ts) hts
    · rename_i heq
      split at heq <;> cases heq

theorem accept_bind_eq (kind : TokenKind) (f : Bool → Parser β) :
    (accept kind >>= f) = (acceptIf (· = kind) >>= fun t => f t.isSome) := by
  funext stop ts
  cases ts with
  | nil => rfl
  | cons t ts => by_cases hkind : t.kind = kind <;> simp [Bind.bind, accept, acceptIf, hkind]

theorem Concur.accept_bind {kind : TokenKind} {f g : Bool → Parser β}
    (htrue : Concur stop (n - 1) (m - 1) (f true) (g true))
    (hfalse : Concur stop n m (f false) (g false)) :
    Concur stop n m (accept kind >>= f) (accept kind >>= g) := by
  rw [accept_bind_eq, accept_bind_eq]
  exact .acceptIf_bind (fun _ => htrue) hfalse

/-! ## Loops with bounds -/

/-- A loop with a bound above the number of tokens. -/
def sized (p : Nat → Parser α) : Parser α := fun stop ts => p (ts.length + 1) stop ts

theorem Concur.sized {p q : Nat → Parser α} (h : ∀ d, Concur stop n k (p d) (q d)) :
    Concur stop n k (sized p) (sized q) := fun ts hts => h (ts.length + 1) ts hts

section Indexed

variable {F : (β → Parser α) → β → Parser α} {p : Nat → β → Parser α}

/-- If a rule takes a token before it goes on, then all bounds above the number of tokens give the
same answer. -/
theorem concur_iterate
    (hF : ∀ n x y, (∀ b, Concur stop n k (x b) (y b)) → ∀ b, Concur stop (n + 1) k (F x b) (F y b))
    (hp : ∀ d, p (d + 1) = F (p d)) {d e : Nat} (hd : n ≤ d) (he : n ≤ e) (b : β) :
    Concur stop n k (p d b) (p e b) := by
  induction n generalizing d e b with
  | zero => exact fun ts hts => absurd hts (Nat.not_lt_zero _)
  | succ n ih =>
    obtain ⟨d, rfl⟩ : ∃ d', d = d' + 1 := ⟨d - 1, by omega⟩
    obtain ⟨e, rfl⟩ : ∃ e', e = e' + 1 := ⟨e - 1, by omega⟩
    rw [hp, hp]
    exact hF n _ _ (fun b => ih (by omega) (by omega) b) b

theorem concur_sized
    (hF : ∀ n x y, (∀ b, Concur stop n k (x b) (y b)) → ∀ b, Concur stop (n + 1) k (F x b) (F y b))
    (hp : ∀ d, p (d + 1) = F (p d)) {d : Nat} (hd : n ≤ d) (b : β) :
    Concur stop n k (p d b) (sized (p · b)) := fun ts hts =>
  concur_iterate hF hp (Nat.le_trans hts hd) (Nat.le_refl _) b ts (Nat.lt_succ_self _)

/-- Such a loop obeys its rule, and the rule goes on with fewer tokens. -/
theorem descends_sized
    (hF : ∀ n x y, (∀ b, Concur stop n k (x b) (y b)) → ∀ b, Concur stop (n + 1) k (F x b) (F y b))
    (hp : ∀ d, p (d + 1) = F (p d)) :
    Descends (fun i : β × List Token => i.2.length)
      (fun x i => F (fun b _ us => x (b, us)) i.1 stop i.2)
      (fun i => sized (p · i.1) stop i.2) := by
  rintro ⟨b, ts⟩ x hx
  have hagree : ∀ b, Concur stop ts.length k (p ts.length b) (fun _ us => x (b, us)) := by
    intro b us hus
    obtain ⟨heq, hanswer⟩ := concur_sized hF hp (Nat.le_refl ts.length) b us hus
    exact ⟨(hx (b, us) hus).trans heq, hanswer⟩
  have hstep := (hF _ _ _ hagree b ts (Nat.lt_succ_self _)).1
  rw [← hp] at hstep
  exact hstep

end Indexed

section Plain

variable {F : Parser α → Parser α} {p : Nat → Parser α}

theorem concur_loop (hF : ∀ n x y, Concur stop n k x y → Concur stop (n + 1) k (F x) (F y))
    (hp : ∀ d, p (d + 1) = F (p d)) {d : Nat} (hd : n ≤ d) : Concur stop n k (p d) (sized p) :=
  concur_sized (β := Unit) (F := fun x _ => F (x ())) (p := fun d _ => p d)
    (fun n x y h _ => hF n (x ()) (y ()) (h ())) (fun d => by rw [hp]) hd ()

theorem descends_loop (hF : ∀ n x y, Concur stop n k x y → Concur stop (n + 1) k (F x) (F y))
    (hp : ∀ d, p (d + 1) = F (p d)) :
    Descends List.length (fun x => F (fun _ => x) stop) (sized p stop) := fun ts x hx =>
  descends_sized (β := Unit) (F := fun x _ => F (x ())) (p := fun d _ => p d)
    (fun n x y h _ => hF n (x ()) (y ()) (h ())) (fun d => by rw [hp]) ((), ts) (fun i => x i.2)
    fun j hj => hx j.2 hj

end Plain

/-! ## Lists -/

/-- The rule for more items. -/
def moreOver (item : Parser α) (more : Parser (List α)) : Parser (List α) := do
  if ← accept .comma then
    let a ← item
    let rest ← more
    pure (a :: rest)
  else pure []

section Lists

variable {item item' : Parser α}

theorem concur_moreOver (h : Concur stop n 1 item item') {x y : Parser (List α)}
    (hx : Concur stop n 0 x y) : Concur stop (n + 1) 0 (moreOver item x) (moreOver item' y) :=
  .accept_bind
    (h.bind fun _ => (hx.mono (Nat.sub_le n 1) (Nat.le_refl 0)).bind fun _ => .pure _)
    (.pure [])

theorem concur_moreItems (h : Concur stop n 1 item item') (fuel : Nat) :
    Concur stop n 0 (moreItems item fuel) (moreItems item' fuel) := by
  induction fuel with
  | zero => exact .pure []
  | succ fuel ih => exact (concur_moreOver h ih).mono (Nat.le_succ n) (Nat.le_refl 0)

theorem concur_items (h : Concur stop n 1 item item') :
    Concur stop n 1 (items item) (items item') :=
  fun ts hts =>
  have hitems : Concur stop n 1
      (item >>= fun a => moreItems item ts.length >>= fun rest => pure (a :: rest))
      (item' >>= fun a => moreItems item' ts.length >>= fun rest => pure (a :: rest)) :=
    h.bind fun _ => ((concur_moreItems h _).mono (Nat.sub_le n 1) (Nat.le_refl 0)).bind fun _ =>
      .pure _
  hitems ts hts

theorem concur_arguments (h : Concur stop n 1 item item') :
    Concur stop (n + 1) 1 (arguments item) (arguments item') := by
  refine (concur_expect _).bind fun _ => concur_peek.bind fun kind => .ite (fun _ => ?_) fun _ => ?_
  · exact (concur_expect _).bind fun _ => .pure _
  · exact (concur_items h).bind fun _ => (concur_expect _).bind fun _ => .pure _

end Lists

/-! ## Expressions -/

/-- The rule for more operands. -/
def restOver (ops : List TokenKind) (operand : Parser Expr) (more : Expr → Parser Expr)
    (left : Expr) : Parser Expr := do
  match ← acceptIf ops.contains with
  | some op =>
    let right ← operand
    more (.binary (some op.loc) op.text left right)
  | none => pure left

/-- The rule for expressions. -/
def exprOver (expr : Parser Expr) : Parser Expr :=
  binaryLevels.foldr chain (unary (primary expr))

section Expressions

variable {x y : Parser Expr}

theorem concur_reference (h : Concur stop n 1 x y) :
    Concur stop (n + 1) 1 (reference x) (reference y) := by
  refine (concur_expect _).bind fun _ => .accept_bind ?_ (.pure _)
  exact (h.mono (Nat.sub_le n 1) (Nat.le_refl 1)).bind fun _ =>
    ((concur_expect _).mono (Nat.le_refl _) (Nat.zero_le 1)).bind fun _ => .pure _

theorem concur_parenthesisRest (h : Concur stop n 1 x y) (loc : Location) (first : Expr) :
    Concur stop (n + 1) 1 (parenthesisRest x loc first) (parenthesisRest y loc first) := by
  refine .acceptIf_bind (fun op => ?_) ?_
  · exact h.bind fun _ => (concur_expect _).bind fun _ => .pure _
  · exact (concur_expect _).bind fun _ => .pure _

/-- A number is the only token whose text has to have a value. -/
theorem answers_numeral {t : Token} {ts us : List Token} (ht : t ∈ us) (hkind : t.kind = .number)
    (hts : ts <:+ us) (hlength : ts.length + k ≤ us.length) (f : Int → β) :
    Answers stop us k ((numeral t.text >>= fun v => (pure (f v) : Parser β)) stop ts) := by
  simp only [Bind.bind, numeral]
  cases hread : Text.readDigits? t.text.toList with
  | none => exact .valueless ht hkind hread
  | some v => exact .read hts hlength

theorem concur_primary (h : Concur stop n 1 x y) :
    Concur stop (n + 1) 1 (primary x) (primary y) := by
  intro ts hts
  cases ts with
  | nil => exact concur_fail _ [] hts
  | cons t ts =>
    have hlt : ts.length < n := Nat.lt_of_succ_lt_succ hts
    have hrest : ts <:+ t :: ts := List.suffix_cons t ts
    unfold primary
    simp only
    split
    case h_1 hkind =>
      exact ⟨rfl, answers_numeral List.mem_cons_self hkind hrest (Nat.le_refl _) _⟩
    case h_2 => exact ⟨rfl, .read hrest (Nat.le_refl _)⟩
    case h_3 => exact ⟨rfl, .read hrest (Nat.le_refl _)⟩
    case h_4 =>
      split
      · have hcall : Concur stop n 0
            (arguments x >>= fun args => pure (Expr.call (some t.loc) t.text args))
            (arguments y >>= fun args => pure (Expr.call (some t.loc) t.text args)) :=
          ((concur_arguments h).mono (Nat.le_succ n) (Nat.le_refl 1)).bind fun _ => .pure _
        obtain ⟨heq, hanswer⟩ := hcall ts hlt
        exact ⟨heq, hanswer.of_suffix hrest (Nat.le_refl _)⟩
      · exact concur_reference h (t :: ts) hts
    case h_5 =>
      have hparen : Concur stop n 0 (x >>= fun e => parenthesisRest x t.loc e)
          (y >>= fun e => parenthesisRest y t.loc e) :=
        h.bind fun e => (concur_parenthesisRest h t.loc e).mono (by omega) (Nat.zero_le 1)
      obtain ⟨heq, hanswer⟩ := hparen ts hlt
      exact ⟨heq, hanswer.of_suffix hrest (Nat.le_refl _)⟩
    case h_6 => exact concur_fail _ (t :: ts) hts

theorem answers_operator {ts : List Token} {r : Except Fault (Expr × List Token)} (t : Token)
    (h : Answers stop ts 1 r) : Answers stop (t :: ts) 1 (do
      let (e, left) ← r
      pure (Expr.unary (some t.loc) t.text e, left)) := by
  have hrest : ts <:+ t :: ts := List.suffix_cons t ts
  cases r with
  | error fault => exact h.of_error.of_suffix hrest (Nat.le_refl _)
  | ok r =>
    cases h with
    | read hsub htaken => exact .read (hsub.trans hrest) (by rw [List.length_cons]; omega)

theorem concur_unary (h : Concur stop n 1 x y) : Concur stop n 1 (unary x) (unary y) := by
  intro ts hts
  induction ts with
  | nil => exact h [] hts
  | cons t ts ih =>
    obtain ⟨heq, hanswer⟩ := ih (Nat.lt_of_succ_lt hts)
    rw [unary.eq_def y, unary.eq_def x]
    simp only
    split
    · cases ts with
      | nil => exact ⟨by simp only [heq], answers_operator t hanswer⟩
      | cons u us =>
        dsimp only
        split
        · rename_i hnegative
          rw [Bool.and_eq_true, decide_eq_true_eq, decide_eq_true_eq] at hnegative
          refine ⟨rfl, answers_numeral (by simp) hnegative.2 ?_ (Nat.le_succ _) _⟩
          exact (List.suffix_cons u us).trans (List.suffix_cons t _)
        · exact ⟨by simp only [heq], answers_operator t hanswer⟩
    · exact h (t :: ts) hts

theorem concur_restOver {ops : List TokenKind} (h : Concur stop n 1 x y)
    {r s : Expr → Parser Expr} (hr : ∀ left, Concur stop n 0 (r left) (s left)) (left : Expr) :
    Concur stop (n + 1) 0 (restOver ops x r left) (restOver ops y s left) :=
  .acceptIf_bind
    (fun _ => h.bind fun _ => (hr _).mono (Nat.sub_le n 1) (Nat.le_refl 0))
    (.pure left)

theorem concur_chainRest {ops : List TokenKind} (h : Concur stop n 1 x y) (fuel : Nat)
    (left : Expr) : Concur stop n 0 (chainRest ops x fuel left) (chainRest ops y fuel left) := by
  induction fuel generalizing left with
  | zero => exact .pure left
  | succ fuel ih => exact (concur_restOver h ih left).mono (Nat.le_succ n) (Nat.le_refl 0)

theorem concur_chain {ops : List TokenKind} (h : Concur stop n 1 x y) :
    Concur stop n 1 (chain ops x) (chain ops y) := fun ts hts =>
  have hchain : Concur stop n 1 (x >>= chainRest ops x ts.length)
      (y >>= chainRest ops y ts.length) :=
    h.bind fun left => (concur_chainRest h _ left).mono (Nat.sub_le n 1) (Nat.le_refl 0)
  hchain ts hts

theorem concur_levels (h : Concur stop n 1 x y) (levels : List (List TokenKind)) :
    Concur stop n 1 (levels.foldr chain x) (levels.foldr chain y) := by
  induction levels with
  | nil => exact h
  | cons ops levels ih => exact concur_chain ih

theorem concur_exprOver (h : Concur stop n 1 x y) :
    Concur stop (n + 1) 1 (exprOver x) (exprOver y) :=
  concur_levels (concur_unary (concur_primary h)) binaryLevels

end Expressions

theorem concur_expression : Concur stop n 1 expression expression :=
  (concur_loop (p := exprAt) (fun _ _ _ => concur_exprOver) (fun _ => rfl) (Nat.le_refl n)).self

/-! ## Statements -/

/-- The rule for the statements of a block. -/
def bodyOver (stmt : Parser Stmt) (more : Parser (List Stmt)) : Parser (List Stmt) := fun stop ts =>
  match ts with
  | [] => .ok ([], [])
  | t :: _ =>
    if t.kind = .rbrace then .ok ([], ts)
    else
      match stmt stop ts with
      | .error fault => .error fault
      | .ok (s, rest) =>
        (do pure (s :: (← more)) : Parser (List Stmt)) stop
          (rest.dropWhile fun t => t.kind = .semicolon)

section Statements

variable {x y : Parser Stmt}

theorem concur_bodyOver (h : Concur stop (n + 1) 1 x y) {r s : Parser (List Stmt)}
    (hr : Concur stop n 0 r s) : Concur stop (n + 1) 0 (bodyOver x r) (bodyOver y s) := by
  intro ts hts
  cases ts with
  | nil => exact ⟨rfl, .read List.suffix_rfl (Nat.le_refl _)⟩
  | cons t ts =>
    obtain ⟨heq, hanswer⟩ := h (t :: ts) hts
    simp only [bodyOver, heq]
    split
    · exact ⟨rfl, .read List.suffix_rfl (Nat.le_refl _)⟩
    · cases hread : x stop (t :: ts) with
      | error fault =>
        rw [hread] at hanswer
        exact ⟨rfl, hanswer.of_error⟩
      | ok result =>
        rw [hread] at hanswer
        cases hanswer with
        | @read a rest hsub htaken =>
          have hdropped : rest.dropWhile (fun t => t.kind = .semicolon) <:+ rest :=
            List.dropWhile_suffix _
          have hle := hdropped.length_le
          have hmore : Concur stop n 0 (r >>= fun ss => pure (a :: ss))
              (s >>= fun ss => pure (a :: ss)) := hr.bind fun _ => .pure _
          obtain ⟨heq', hanswer'⟩ := hmore (rest.dropWhile fun t => t.kind = .semicolon) (by omega)
          exact ⟨heq', hanswer'.of_suffix (k := 1) (hdropped.trans hsub) (by omega)⟩

theorem concur_body (h : Concur stop n 1 x y) (fuel : Nat) :
    Concur stop n 0 (body x fuel) (body y fuel) := by
  induction fuel with
  | zero => exact .pure []
  | succ fuel ih =>
    cases n with
    | zero => exact fun ts hts => absurd hts (Nat.not_lt_zero _)
    | succ n => exact concur_bodyOver h (ih.mono (Nat.le_succ n) (Nat.le_refl 0))

theorem concur_braced (h : Concur stop n 1 x y) :
    Concur stop (n + 1) 1 (braced x) (braced y) :=
  (concur_expect _).bind fun _ => (Concur.sized (concur_body h)).bind fun _ =>
    (concur_expect _).bind fun _ => .pure _

theorem concur_optionalBody (h : Concur stop n 1 x y) (keyword : TokenKind) :
    Concur stop (n + 1) 0 (optionalBody keyword x) (optionalBody keyword y) :=
  .accept_bind ((concur_braced h).mono (Nat.le_succ n) (Nat.zero_le 1)) (.pure [])

theorem concur_ref : Concur stop n 1 (reference expression) (reference expression) :=
  (concur_reference concur_expression).mono (Nat.le_succ n) (Nat.le_refl 1)

theorem concur_updateStmt : Concur stop n 1 updateStmt updateStmt := by
  refine concur_here.bind fun _ => concur_ref.bind fun target => .accept_bind ?_ ?_
  · exact concur_ref.bind fun _ => .pure _
  · refine .acceptIf_bind (fun op => ?_) ?_
    · exact concur_expression.bind fun _ => .pure _
    · exact concur_peekText.bind fun _ => concur_fail _

theorem concur_definition : Concur stop n 1 definition definition :=
  (concur_expect _).bind fun _ => (concur_expect _).bind fun _ => concur_expression.bind fun _ =>
    .pure _

theorem concur_callRest (loc : Location) (uncall : Bool) :
    Concur stop n 1 (callRest loc uncall) (callRest loc uncall) :=
  (concur_expect _).bind fun _ =>
    ((concur_arguments concur_ref).mono (Nat.le_succ _) (Nat.le_refl 1)).bind fun _ => .pure _

theorem concur_stmtOver (h : Concur stop n 1 x y) :
    Concur stop (n + 1) 1 (stmtOver x) (stmtOver y) := by
  have hbraced {i : Nat} (hi : i ≤ n + 1) := (concur_braced h).mono hi (Nat.le_refl 1)
  have hoptional {i : Nat} (hi : i ≤ n + 1) (keyword : TokenKind) :=
    (concur_optionalBody h keyword).mono hi (Nat.le_refl 0)
  refine concur_here.bind fun loc => concur_peek.bind fun kind => ?_
  have hcall (uncall : Bool) : Concur stop n 0 (callRest loc uncall) (callRest loc uncall) :=
    (concur_callRest loc uncall).mono (Nat.le_refl n) (Nat.zero_le 1)
  split
  · refine (concur_expect _).bind fun _ => concur_expression.bind fun guard => ?_
    refine (hbraced (by omega)).bind fun thenBody =>
      (hoptional (by omega) _).bind fun elseBody => ?_
    exact (concur_expect _).bind fun _ => concur_expression.bind fun _ => .pure _
  · exact (concur_expect _).bind fun _ => hcall false
  · exact (concur_expect _).bind fun _ => hcall true
  · exact (concur_expect _).bind fun _ => concur_definition.bind fun _ => .pure _
  · exact (concur_expect _).bind fun _ => concur_definition.bind fun _ => .pure _
  · refine (concur_expect _).bind fun _ => concur_expression.bind fun entry => ?_
    refine (hoptional (by omega) _).bind fun doBody =>
      (hoptional (by omega) _).bind fun loopBody => ?_
    exact (concur_expect _).bind fun _ => concur_expression.bind fun _ => .pure _
  · exact (concur_braced h).bind fun _ => .pure _
  · exact concur_updateStmt
  · exact concur_peekText.bind fun _ => concur_fail _

end Statements

theorem concur_statement : Concur stop n 1 statement statement :=
  (concur_loop (p := stmtAt) (fun _ _ _ => concur_stmtOver) (fun _ => rfl) (Nat.le_refl n)).self

/-! ## Procedures -/

/-- The rule for the procedures of a program. -/
def proceduresOver (more : Parser (List Procedure)) : Parser (List Procedure) := do
  if (← peek) = none then pure []
  else
    let p ← procedure
    let rest ← more
    pure (p :: rest)

theorem concur_param : Concur stop n 1 param param := (concur_expect _).bind fun _ => .pure _

theorem concur_procedure : Concur stop n 1 procedure procedure := by
  refine concur_here.bind fun loc => concur_peek.bind fun kind => .ite (fun _ => ?_) fun _ => ?_
  · exact concur_peekText.bind fun _ => concur_fail _
  · refine (concur_expect _).bind fun _ => (concur_expect _).bind fun name => ?_
    have hle (i : Nat) : i ≤ i + 1 := Nat.le_succ i
    refine ((concur_arguments concur_param).mono (hle _) (Nat.le_refl 1)).bind fun params => ?_
    exact ((concur_braced concur_statement).mono (hle _) (Nat.le_refl 1)).bind fun _ => .pure _

theorem concur_proceduresOver {r s : Parser (List Procedure)} (h : Concur stop n 0 r s) :
    Concur stop (n + 1) 0 (proceduresOver r) (proceduresOver s) := by
  refine concur_peek.bind fun kind => .ite (fun _ => .pure []) fun _ => ?_
  exact concur_procedure.bind fun _ => h.bind fun _ => .pure _

theorem concur_procedures : Concur stop n 0 (sized procedures) (sized procedures) :=
  (concur_loop (fun _ _ _ => concur_proceduresOver) (fun _ => rfl) (Nat.le_refl n)).self

/-! ## All of them -/

theorem Proper.concur {p : Parser α} (h : Proper p) : Concur stop n 1 p p := fun ts _ =>
  ⟨rfl, h stop ts⟩

theorem proper_of_concur {p : Parser α} (h : ∀ stop n, Concur stop n 1 p p) : Proper p :=
  fun stop ts => (h stop (ts.length + 1) ts (Nat.lt_succ_self _)).2

/-- **The loops and the recursions of the parser go on with fewer tokens.** What they are used with
takes a token whenever it reads something, and then no bound is met: each of them obeys its rule. -/
structure Descent : Prop where
  lists {α : Type} {item : Parser α} : Proper item → ∀ stop,
    items item stop = (item >>= fun a => sized (moreItems item) >>= fun rest =>
      pure (a :: rest) : Parser (List α)) stop ∧
    Descends List.length (fun x => moreOver item (fun _ => x) stop) (sized (moreItems item) stop)
  chains {operand : Parser Expr} : Proper operand → ∀ ops stop,
    chain ops operand stop = (operand >>= fun left => sized (chainRest ops operand · left)) stop ∧
    Descends (fun i : Expr × List Token => i.2.length)
      (fun x i => restOver ops operand (fun left _ us => x (left, us)) i.1 stop i.2)
      (fun i => sized (chainRest ops operand · i.1) stop i.2)
  blocks {stmt : Parser Stmt} : Proper stmt → ∀ stop,
    Descends List.length (fun x => bodyOver stmt (fun _ => x) stop) (sized (body stmt) stop)
  expressions : ∀ stop,
    Descends List.length (fun x => exprOver (fun _ => x) stop) (expression stop)
  statements : ∀ stop,
    Descends List.length (fun x => stmtOver (fun _ => x) stop) (statement stop)
  programs : ∀ stop,
    Descends List.length (fun x => proceduresOver (fun _ => x) stop) (sized procedures stop)
  operand : ∀ levels : List (List TokenKind),
    Proper (levels.foldr chain (unary (primary expression)))
  reference : Proper (reference expression)
  statement : Proper statement
  parameter : Proper param

theorem descent_lists {item : Parser α} (h : Proper item) (stop : Location) :
    items item stop = (item >>= fun a => sized (moreItems item) >>= fun rest =>
      pure (a :: rest) : Parser (List α)) stop ∧
    Descends List.length (fun x => moreOver item (fun _ => x) stop)
      (sized (moreItems item) stop) := by
  have hrule : ∀ n x y, Concur stop n 0 x y →
      Concur stop (n + 1) 0 (moreOver item x) (moreOver item y) :=
    fun _ _ _ => concur_moreOver h.concur
  refine ⟨funext fun ts => ?_, descends_loop hrule fun _ => rfl⟩
  have hmore : Concur stop ts.length 0 (moreItems item ts.length) (sized (moreItems item)) :=
    concur_loop hrule (fun _ => rfl) (Nat.le_refl _)
  have hitems : Concur stop (ts.length + 1) 1
      (item >>= fun a => moreItems item ts.length >>= fun rest => pure (a :: rest))
      (item >>= fun a => sized (moreItems item) >>= fun rest => pure (a :: rest)) :=
    h.concur.bind fun _ => hmore.bind fun _ => .pure _
  exact (hitems ts (Nat.lt_succ_self _)).1.symm

theorem descent_chains {operand : Parser Expr} (h : Proper operand) (ops : List TokenKind)
    (stop : Location) :
    chain ops operand stop = (operand >>= fun left => sized (chainRest ops operand · left)) stop ∧
    Descends (fun i : Expr × List Token => i.2.length)
      (fun x i => restOver ops operand (fun left _ us => x (left, us)) i.1 stop i.2)
      (fun i => sized (chainRest ops operand · i.1) stop i.2) := by
  have hrule : ∀ n x y, (∀ left, Concur stop n 0 (x left) (y left)) → ∀ left,
      Concur stop (n + 1) 0 (restOver ops operand x left) (restOver ops operand y left) :=
    fun _ _ _ => concur_restOver h.concur
  refine ⟨funext fun ts => ?_, descends_sized hrule fun _ => rfl⟩
  have hmore (left : Expr) : Concur stop ts.length 0 (chainRest ops operand ts.length left)
      (sized (chainRest ops operand · left)) :=
    concur_sized hrule (fun _ => rfl) (Nat.le_refl _) left
  have hchain : Concur stop (ts.length + 1) 1 (operand >>= chainRest ops operand ts.length)
      (operand >>= fun left => sized (chainRest ops operand · left)) :=
    h.concur.bind hmore
  exact (hchain ts (Nat.lt_succ_self _)).1.symm

theorem descent : Descent where
  lists := descent_lists
  chains := descent_chains
  blocks h _ := descends_loop (fun _ _ _ => concur_bodyOver h.concur) fun _ => rfl
  expressions _ := descends_loop (fun _ _ _ => concur_exprOver) fun _ => rfl
  statements _ := descends_loop (fun _ _ _ => concur_stmtOver) fun _ => rfl
  programs _ := descends_loop (fun _ _ _ => concur_proceduresOver) fun _ => rfl
  operand levels := proper_of_concur fun _ n => concur_levels
    ((concur_unary (concur_primary concur_expression)).mono (Nat.le_succ n) (Nat.le_refl 1)) levels
  reference := proper_of_concur fun _ _ => concur_ref
  statement := proper_of_concur fun _ _ => concur_statement
  parameter := proper_of_concur fun _ _ => concur_param

end Parser

/-! ## Characters -/

namespace Lexer

/-- The rule for the tokens of a text. -/
def lexOver (file : String) (more : Cursor → List Char → Except Fault (List Token × Cursor))
    (cursor : Cursor) (cs : List Char) : Except Fault (List Token × Cursor) := do
  let (cursor, cs) ← skipGap file .blank cursor cs
  match cs with
  | [] => pure ([], cursor)
  | c :: rest =>
    let loc := cursor.loc file
    let (kind, text) ← lexeme loc c rest
    let (tokens, stop) ← more (cursor.after text) (cs.drop text.length)
    pure (⟨kind, String.ofList text, loc⟩ :: tokens, stop)

theorem lexOver_congr {file : String} {cursor : Cursor} {cs : List Char}
    {x y : Cursor → List Char → Except Fault (List Token × Cursor)}
    (h : ∀ cursor ds, ds.length < cs.length → x cursor ds = y cursor ds) :
    lexOver file x cursor cs = lexOver file y cursor cs := by
  unfold lexOver
  cases hskip : skipGap file .blank cursor cs with
  | error f => rfl
  | ok r =>
    obtain ⟨cursor', behind⟩ := r
    obtain ⟨gap, rfl, -, -, hhalts⟩ := filler_of_skipGap hskip
    cases behind with
    | nil => rfl
    | cons c rest =>
      cases hread : lexeme (cursor'.loc file) c rest with
      | error f => simp only [bind, Except.bind, hread]
      | ok r =>
        obtain ⟨kind, text⟩ := r
        obtain ⟨rest', hrest, hlexeme⟩ := lexeme_of_eq_ok hhalts hread
        have hshort : ((c :: rest).drop text.length).length < (gap ++ c :: rest).length := by
          have hpos := List.length_pos_iff.mpr hlexeme.ne_nil
          rw [List.length_drop, List.length_append, List.length_cons]
          omega
        simp only [bind, Except.bind, hread, h _ _ hshort]

/-- All bounds above the number of characters give the same answer. -/
theorem lexFrom_eq_of_lt {file : String} {d e : Nat} {cursor : Cursor} {cs : List Char}
    (hd : cs.length < d) (he : cs.length < e) :
    lexFrom file d cursor cs = lexFrom file e cursor cs := by
  induction d generalizing e cursor cs with
  | zero => omega
  | succ d ih =>
    obtain ⟨e, rfl⟩ : ∃ e', e = e' + 1 := ⟨e - 1, by omega⟩
    exact lexOver_congr fun cursor ds hds => ih (by omega) (by omega)

/-- **The lexer goes on with fewer characters.** -/
theorem descends_lexFrom (file : String) : Descends (fun i : Cursor × List Char => i.2.length)
    (fun x i => lexOver file (fun cursor cs => x (cursor, cs)) i.1 i.2)
    (fun i => lexFrom file (i.2.length + 1) i.1 i.2) := fun _ _ hx =>
  lexOver_congr fun cursor ds hds =>
    (hx (cursor, ds) hds).trans (lexFrom_eq_of_lt (Nat.lt_succ_self _) hds)

end Lexer

end Retrace
