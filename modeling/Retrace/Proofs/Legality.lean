import Retrace.Proofs.Reprinting
import Retrace.Proofs.Scoping

/-!
# What a legal procedure looks like to a run

The legality check walks a procedure once, in the order of its text, and keeps a stack of names.
`Stmt.ScopedBlock` says the same of a block with two lists: the names that may be bound when the
block starts, and the locals that have begun in it and not ended. A local that begins is in neither
of them; a local that ends is in the second one. Both lists are meaningful in either direction of a
run, since they belong to a place in the text and not to the way that led there.

`Stmt.Permitted` is what the check asks of the expressions of one statement. Where nothing is
missing it gives `Stmt.Proper`: operators and functions are known, and what is written to or passed
on is a reference. Both are relative to a table of what may be called. `Library.Keeps` says that a
library offers what a table promises; registering more procedures does not take anything away.
-/

namespace Retrace

open Legality

/-! ## Expressions -/

namespace Expr

mutual

/-- All operators are known and all functions are in the table; nothing is updated or missing. -/
def Evaluable (t : Table) : Expr → Prop
  | .int .. | .bool .. | .var .. => True
  | .elem _ _ index => Evaluable t index
  | .binary _ op left right =>
    (BinaryOp.ofSymbol? op).isSome = true ∧ Evaluable t left ∧ Evaluable t right
  | .unary _ op operand => (UnaryOp.ofSymbol? op).isSome = true ∧ Evaluable t operand
  | .call _ name args => t.isPure name = true ∧ AllEvaluable t args
  | .update .. | .hole _ => False

/-- `Evaluable`, for several expressions. -/
def AllEvaluable (t : Table) : List Expr → Prop
  | [] => True
  | e :: es => Evaluable t e ∧ AllEvaluable t es

end

/-- The expression refers to a slot, and the slot can be located. -/
def Locatable (t : Table) (e : Expr) : Prop := e.isRef = true ∧ e.Evaluable t

end Expr

namespace Legality

variable {t : Table}

theorem ite_nil_eq_nil {α : Type} {c : Prop} [Decidable c] {l : List α} (hl : l ≠ []) :
    (if c then [] else l) = [] ↔ c := by
  by_cases hc : c <;> simp [hc, hl]

mutual

/-- An expression without breaches can be evaluated, if nothing is missing in it. -/
theorem evaluable_of_exprBreaches : ∀ {e : Expr}, exprBreaches t e = [] → e.Writable →
    e.Evaluable t
  | .int .., _, _ | .bool .., _, _ | .var .., _, _ => trivial
  | .elem _ _ index, h, hw => by
    rw [exprBreaches] at h
    rw [Expr.Writable] at hw
    rw [Expr.Evaluable]
    exact evaluable_of_exprBreaches h hw.2
  | .binary _ op left right, h, hw => by
    simp only [exprBreaches, List.append_eq_nil_iff, ite_nil_eq_nil (List.cons_ne_nil _ _)] at h
    rw [Expr.Writable] at hw
    rw [Expr.Evaluable]
    exact ⟨h.1.1, evaluable_of_exprBreaches h.1.2 hw.2.1, evaluable_of_exprBreaches h.2 hw.2.2⟩
  | .unary _ op operand, h, hw => by
    simp only [exprBreaches, List.append_eq_nil_iff, ite_nil_eq_nil (List.cons_ne_nil _ _)] at h
    rw [Expr.Writable] at hw
    rw [Expr.Evaluable]
    exact ⟨h.1, evaluable_of_exprBreaches h.2 hw.2⟩
  | .call _ name args, h, hw => by
    simp only [exprBreaches, List.append_eq_nil_iff, ite_nil_eq_nil (List.cons_ne_nil _ _)] at h
    rw [Expr.Writable] at hw
    rw [Expr.Evaluable]
    exact ⟨h.1, evaluable_of_argBreaches h.2 hw.2⟩
  | .update _ op target value, h, _ => by simp [exprBreaches] at h
  | .hole _, _, hw => by simp [Expr.Writable] at hw

theorem evaluable_of_argBreaches : ∀ {es : List Expr}, argBreaches t es = [] →
    Expr.AllWritable es → Expr.AllEvaluable t es
  | [], _, _ => trivial
  | e :: es, h, hw => by
    rw [argBreaches, List.append_eq_nil_iff] at h
    rw [Expr.AllWritable] at hw
    rw [Expr.AllEvaluable]
    exact ⟨evaluable_of_exprBreaches h.1 hw.1, evaluable_of_argBreaches h.2 hw.2⟩

end

end Legality

/-! ## Names -/

namespace Stmt

mutual

/-- The scopes in a statement that neither begins nor ends a local, at a place where `bound` are the
names that may be bound. -/
def Scoped (bound : List String) : Stmt → Prop
  | .branch _ _ thenBody elseBody _ => ScopedBlock bound [] thenBody ∧ ScopedBlock bound [] elseBody
  | .loop _ _ doBody loopBody _ => ScopedBlock bound [] doBody ∧ ScopedBlock bound [] loopBody
  | .block _ body => ScopedBlock bound [] body
  | .declare .. | .discard .. => False
  | .assign .. | .call .. | .swap .. | .hole _ => True

/-- The scopes in the rest of a block: `bound` are the names that may be bound when the block
starts, and `pending` the locals that have begun in it and not ended. -/
def ScopedBlock (bound pending : List String) : List Stmt → Prop
  | [] => pending = []
  | .declare _ name _ :: rest =>
    name ∉ bound ∧ name ∉ pending ∧ ScopedBlock bound (pending ++ [name]) rest
  | .discard _ name _ :: rest => name ∈ pending ∧ ScopedBlock bound (pending.erase name) rest
  | s :: rest => Scoped (bound ++ pending) s ∧ ScopedBlock bound pending rest

end

/-- The locals of a block that have not ended have different names, and none that was bound when the
block started. -/
structure Pending (bound pending : List String) : Prop where
  nodup : pending.Nodup
  apart : ∀ name ∈ pending, name ∉ bound

namespace Pending

variable {bound pending : List String} {name : String}

theorem nil (bound : List String) : Pending bound [] := ⟨List.nodup_nil, nofun⟩

theorem declare (h : Pending bound pending) (hbound : name ∉ bound) (hpending : name ∉ pending) :
    Pending bound (pending ++ [name]) := by
  constructor
  · rw [List.nodup_append]
    refine ⟨h.nodup, List.nodup_singleton name, fun x hx y hy => ?_⟩
    rintro rfl
    exact hpending (List.mem_singleton.mp hy ▸ hx)
  · intro x hx
    rcases List.mem_append.mp hx with hx | hx
    · exact h.apart x hx
    · rw [List.mem_singleton.mp hx]
      exact hbound

theorem discard (h : Pending bound pending) (name : String) :
    Pending bound (pending.erase name) :=
  ⟨h.nodup.erase name, fun x hx => h.apart x (List.mem_of_mem_erase hx)⟩

end Pending

end Stmt

namespace Legality

open Stmt

variable {t : Table}

theorem mem_declared {name other : String} {names : List String} :
    other ∈ declared name names ↔ other = name ∨ other ∈ names := by
  unfold declared
  split
  · rename_i h
    exact ⟨Or.inr, fun ho => ho.elim (fun he => he ▸ h) id⟩
  · exact List.mem_cons

/-- A body inside a statement starts with no names of its own. -/
theorem visible_of_subset {visible bound : List String} (h : bound ⊆ visible) (name : String)
    (hname : name ∈ bound ∨ name ∈ ([] : List (String × Stmt)).map Prod.fst) :
    name ∈ visible ∨ name ∈ ([] : List String) :=
  hname.imp_left fun hbound => h hbound

mutual

/-- What the check says of the scopes in a statement, where it sees at least the names that may be
bound. -/
theorem scoped_of_stmtFindings : ∀ {s : Stmt} {visible bound : List String},
    stmtFindings t visible s = [] → (∀ loc name e, s ≠ .declare loc name e) →
      (∀ loc name e, s ≠ .discard loc name e) → bound ⊆ visible → s.Scoped bound
  | .branch _ guard thenBody elseBody assertion, _, bound, h, _, _, hbound => by
    simp only [stmtFindings, List.append_eq_nil_iff] at h
    rw [Scoped]
    exact ⟨scopedBlock_of_blockFindings h.1.2 (.nil bound) (visible_of_subset hbound),
      scopedBlock_of_blockFindings h.2 (.nil bound) (visible_of_subset hbound)⟩
  | .loop _ entry doBody loopBody exit, _, bound, h, _, _, hbound => by
    simp only [stmtFindings, List.append_eq_nil_iff] at h
    rw [Scoped]
    exact ⟨scopedBlock_of_blockFindings h.1.2 (.nil bound) (visible_of_subset hbound),
      scopedBlock_of_blockFindings h.2 (.nil bound) (visible_of_subset hbound)⟩
  | .block _ body, _, bound, h, _, _, hbound => by
    rw [stmtFindings] at h
    rw [Scoped]
    exact scopedBlock_of_blockFindings h (.nil bound) (visible_of_subset hbound)
  | .declare loc name e, _, _, _, hs, _, _ => absurd rfl (hs loc name e)
  | .discard loc name e, _, _, _, _, hs, _ => absurd rfl (hs loc name e)
  | .assign .., _, _, _, _, _, _ | .call .., _, _, _, _, _, _ | .swap .., _, _, _, _, _, _
  | .hole _, _, _, _, _, _, _ => by
    rw [Scoped]
    trivial

/-- The check follows a block with the names of the blocks around it, those of the block itself and
the locals that have not ended. -/
theorem scopedBlock_of_blockFindings : ∀ {body : List Stmt} {outer names bound : List String}
    {locals : List (String × Stmt)}, blockFindings t outer names locals body = [] →
      Pending bound (locals.map Prod.fst) →
      (∀ name, name ∈ bound ∨ name ∈ locals.map Prod.fst → name ∈ outer ∨ name ∈ names) →
      ScopedBlock bound (locals.map Prod.fst) body
  | [], outer, names, bound, locals, h, hp, hsub => by
    simpa [blockFindings, ScopedBlock] using h
  | .declare loc name value :: rest, outer, names, bound, locals, h, hp, hsub => by
    simp only [blockFindings, List.append_eq_nil_iff] at h
    obtain ⟨⟨-, hfresh⟩, hrest⟩ := h
    have hnew : ¬(name ∈ outer ∨ name ∈ names) := fun hname => by simp [hname] at hfresh
    have hbound : name ∉ bound := fun hname => hnew (hsub name (Or.inl hname))
    have hpending : name ∉ locals.map Prod.fst := fun hname => hnew (hsub name (Or.inr hname))
    have hlocals : (locals ++ [(name, Stmt.declare loc name value)]).map Prod.fst =
        locals.map Prod.fst ++ [name] := by simp
    rw [ScopedBlock, ← hlocals]
    refine ⟨hbound, hpending, scopedBlock_of_blockFindings hrest ?_ fun other hother => ?_⟩
    · rw [hlocals]
      exact hp.declare hbound hpending
    · rw [hlocals, List.mem_append, List.mem_singleton] at hother
      rw [mem_declared]
      rcases hother with hother | hother | hother
      · exact (hsub other (Or.inl hother)).imp_right Or.inr
      · exact (hsub other (Or.inr hother)).imp_right Or.inr
      · exact Or.inr (Or.inl hother)
  | .discard loc name value :: rest, outer, names, bound, locals, h, hp, hsub => by
    simp only [blockFindings, List.append_eq_nil_iff] at h
    obtain ⟨-, h⟩ := h
    split at h
    · rename_i hany
      rw [List.append_eq_nil_iff] at h
      have hmem : name ∈ locals.map Prod.fst := by simpa using hany
      rw [ScopedBlock, ← map_fst_ended]
      refine ⟨hmem, scopedBlock_of_blockFindings h.2 ?_ fun other hother => ?_⟩
      · rw [map_fst_ended]
        exact hp.discard name
      · -- the name that ends is in none of the lists any more
        rw [map_fst_ended] at hother
        have hne : other ≠ name := by
          rintro rfl
          rcases hother with hother | hother
          · exact hp.apart other hmem hother
          · exact hp.nodup.not_mem_erase hother
        have hold : other ∈ outer ∨ other ∈ names :=
          hsub other (hother.imp_right List.mem_of_mem_erase)
        exact hold.imp_right fun hnames => List.mem_filter.mpr ⟨hnames, by simpa using hne⟩
    · cases h
  | .assign .. :: rest, outer, names, bound, locals, h, hp, hsub
  | .call .. :: rest, outer, names, bound, locals, h, hp, hsub
  | .branch .. :: rest, outer, names, bound, locals, h, hp, hsub
  | .loop .. :: rest, outer, names, bound, locals, h, hp, hsub
  | .swap .. :: rest, outer, names, bound, locals, h, hp, hsub
  | .block .. :: rest, outer, names, bound, locals, h, hp, hsub
  | .hole _ :: rest, outer, names, bound, locals, h, hp, hsub => by
    simp only [blockFindings, List.append_eq_nil_iff] at h
    have hvisible : bound ++ locals.map Prod.fst ⊆ names ++ outer := by
      intro name hname
      rw [List.mem_append, Or.comm]
      exact hsub name (List.mem_append.mp hname)
    simp only [ScopedBlock]
    exact ⟨scoped_of_stmtFindings h.1 nofun nofun hvisible,
      scopedBlock_of_blockFindings h.2 hp hsub⟩

end

theorem mem_foldl_declared {name : String} {names before : List String} :
    name ∈ names.foldl (fun names name => declared name names) before ↔
      name ∈ names ∨ name ∈ before := by
  induction names generalizing before with
  | nil => simp
  | cons other rest ih =>
    rw [List.foldl_cons, ih, mem_declared, List.mem_cons]
    tauto

theorem nodup_of_paramFindings {before : List String} {params : List Param}
    (h : paramFindings before params = []) :
    (params.map Param.name).Nodup ∧ ∀ name ∈ params.map Param.name, name ∉ before := by
  induction params generalizing before with
  | nil => simp
  | cons p rest ih =>
    rw [paramFindings, List.append_eq_nil_iff] at h
    obtain ⟨hnodup, hapart⟩ := ih h.2
    have hp : p.name ∉ before := fun hmem => by simp [hmem] at h
    simp only [mem_declared, not_or] at hapart
    rw [List.map_cons, List.nodup_cons, List.forall_mem_cons]
    exact ⟨⟨fun hmem => (hapart _ hmem).1 rfl, hnodup⟩, hp, fun name hname => (hapart name hname).2⟩

theorem scopedBlock_of_findings {p : Procedure} (h : findings t p = []) :
    ScopedBlock p.paramNames [] p.body := by
  rw [findings, List.append_eq_nil_iff] at h
  refine scopedBlock_of_blockFindings h.2 (.nil _) fun name hname => ?_
  rcases hname with hname | hname
  · exact Or.inr (mem_foldl_declared.mpr (Or.inl hname))
  · simp at hname

end Legality

/-! ## Statements -/

/-- Nothing in the expression is against the rules of a table. -/
def Expr.Clean (t : Table) (e : Expr) : Prop := exprBreaches t e = []

namespace Stmt

/-- What the check asks of one statement, apart from the statements inside it, from the order in
which locals begin and end, and from the value with which a local ends. -/
def Permitted (t : Table) : Stmt → Prop
  | .assign _ target op value =>
    (Update.ofSymbol? op).isSome = true ∧ target.isRef = true ∧ target.Clean t ∧ value.Clean t ∧
      selfAliased target value = false
  | .branch _ guard _ _ assertion => guard.Clean t ∧ assertion.Clean t
  | .call _ callee args _ =>
    Datum.field? callee t.arities = some args.length ∧ ∀ arg ∈ args, arg.isRef = true ∧ arg.Clean t
  | .declare _ _ value | .discard _ _ value => value.Clean t
  | .loop _ entry _ _ exit => entry.Clean t ∧ exit.Clean t
  | .swap _ left right =>
    (left.isRef = true → left.Clean t) ∧ (right.isRef = true → right.Clean t) ∧
      left.alike right = false
  | .block .. | .hole _ => True

/-- The operators, functions, references and callees of a statement are in order. -/
def Proper (t : Table) : Stmt → Prop
  | .assign _ target op value =>
    (Update.ofSymbol? op).isSome = true ∧ target.Locatable t ∧ value.Evaluable t
  | .branch _ guard _ _ assertion => guard.Evaluable t ∧ assertion.Evaluable t
  | .call _ callee args _ =>
    Datum.field? callee t.arities = some args.length ∧ ∀ arg ∈ args, arg.Locatable t
  | .declare _ _ value | .discard _ _ value => value.Evaluable t
  | .loop _ entry _ _ exit => entry.Evaluable t ∧ exit.Evaluable t
  | .swap _ left right => left.Locatable t ∧ right.Locatable t
  | .block .. => True
  | .hole _ => False

/-- The statements of a body are in order, at all depths. -/
def ProperAll (t : Table) (body : List Stmt) : Prop :=
  ∀ s ∈ nestedAll body, s.Proper t

theorem properAll_cons {t : Table} {s : Stmt} {rest : List Stmt} :
    ProperAll t (s :: rest) ↔ (∀ u ∈ s.nested, u.Proper t) ∧ ProperAll t rest := by
  rw [ProperAll, nestedAll, List.forall_mem_append]
  rfl

/-- What the check found permitted is in order, if nothing is missing in it. -/
theorem Permitted.proper {t : Table} {s : Stmt} (h : s.Permitted t) (hw : s.Writable) :
    s.Proper t := by
  cases s with
  | assign loc target op value =>
    obtain ⟨hop, href, htarget, hvalue, -⟩ := h
    rw [Writable] at hw
    exact ⟨hop, ⟨href, evaluable_of_exprBreaches htarget hw.2.1⟩,
      evaluable_of_exprBreaches hvalue hw.2.2.2⟩
  | branch loc guard thenBody elseBody assertion =>
    rw [Writable] at hw
    exact ⟨evaluable_of_exprBreaches h.1 hw.1, evaluable_of_exprBreaches h.2 hw.2.2.2⟩
  | call loc callee args uncall =>
    rw [Writable] at hw
    exact ⟨h.1, fun arg harg => ⟨(h.2 arg harg).1,
      evaluable_of_exprBreaches (h.2 arg harg).2 (hw.2 arg harg).2⟩⟩
  | declare loc name value | discard loc name value =>
    rw [Writable] at hw
    exact evaluable_of_exprBreaches h hw.2
  | loop loc entry doBody loopBody exit =>
    rw [Writable] at hw
    exact ⟨evaluable_of_exprBreaches h.1 hw.1, evaluable_of_exprBreaches h.2 hw.2.2.2⟩
  | swap loc left right =>
    rw [Writable] at hw
    exact ⟨⟨hw.1.1, evaluable_of_exprBreaches (h.1 hw.1.1) hw.1.2⟩,
      ⟨hw.2.1, evaluable_of_exprBreaches (h.2.1 hw.2.1) hw.2.2⟩⟩
  | block loc body => trivial
  | hole loc => simp [Writable] at hw

/-- A property of the statements of a statement is that of the statement and of its bodies. -/
theorem forall_mem_nested {P : Stmt → Prop} {s : Stmt} :
    (∀ u ∈ s.nested, P u) ↔ P s ∧ ∀ body ∈ s.bodies, ∀ u ∈ nestedAll body, P u := by
  simp only [mem_nested]
  exact ⟨fun h => ⟨h s (Or.inl rfl), fun body hbody u hu => h u (Or.inr ⟨body, hbody, hu⟩)⟩,
    fun h u hu => hu.elim (fun hus => hus ▸ h.1) fun ⟨body, hbody, hu⟩ => h.2 body hbody u hu⟩

mutual

theorem writable_of_mem_nested : ∀ {s : Stmt}, s.Writable → ∀ u ∈ s.nested, u.Writable
  | .branch .., h | .loop .., h => by
    have hw := h
    rw [Writable] at hw
    refine forall_mem_nested.mpr ⟨h, ?_⟩
    simpa [bodies] using
      ⟨writable_of_mem_nestedAll hw.2.1, writable_of_mem_nestedAll hw.2.2.1⟩
  | .block .., h => by
    have hw := h
    rw [Writable] at hw
    exact forall_mem_nested.mpr ⟨h, by simpa [bodies] using writable_of_mem_nestedAll hw⟩
  | .assign .., h | .call .., h | .declare .., h | .discard .., h | .swap .., h | .hole _, h =>
    forall_mem_nested.mpr ⟨h, by simp [bodies]⟩

theorem writable_of_mem_nestedAll : ∀ {body : List Stmt}, AllWritable body →
    ∀ u ∈ nestedAll body, u.Writable
  | [], _ => by simp [nestedAll]
  | s :: rest, h => by
    rw [AllWritable] at h
    rw [nestedAll, List.forall_mem_append]
    exact ⟨writable_of_mem_nested h.1, writable_of_mem_nestedAll h.2⟩

end

end Stmt

namespace Legality

open Stmt

variable {t : Table}

theorem within_eq_nil {s : Stmt} {e : Expr} : within t s e = [] ↔ e.Clean t :=
  List.map_eq_nil_iff

theorem assignFindings_eq_nil {s : Stmt} {target value : Expr} {op : String} :
    assignFindings t s target op value = [] ↔ (Update.ofSymbol? op).isSome = true ∧
      target.isRef = true ∧ target.Clean t ∧ value.Clean t ∧ selfAliased target value = false := by
  rw [assignFindings, List.append_eq_nil_iff, ite_nil_eq_nil (List.cons_ne_nil _ _)]
  by_cases href : target.isRef = true <;>
    by_cases halias : selfAliased target value = true <;>
      simp [href, halias, within_eq_nil]

theorem swapFindings_eq_nil {s : Stmt} {left right : Expr} :
    swapFindings t s left right = [] ↔ (left.isRef = true → left.Clean t) ∧
      (right.isRef = true → right.Clean t) ∧ left.alike right = false := by
  simp only [swapFindings, List.append_eq_nil_iff, and_assoc]
  by_cases hl : left.isRef = true <;> by_cases hr : right.isRef = true <;>
    by_cases halike : left.alike right = true <;> simp [hl, hr, halike, within_eq_nil]

theorem callFindings_eq_nil {s : Stmt} {callee : String} {args : List Expr} :
    callFindings t s callee args = [] ↔ Datum.field? callee t.arities = some args.length ∧
      ∀ arg ∈ args, arg.isRef = true ∧ arg.Clean t := by
  simp only [callFindings, List.append_eq_nil_iff, List.flatMap_eq_nil_iff]
  refine and_congr ?_ (forall₂_congr fun arg _ => ?_)
  · cases Datum.field? callee t.arities with
    | none => simp
    | some expected => rw [ite_nil_eq_nil (List.cons_ne_nil _ _), Option.some.injEq]
  · by_cases href : arg.isRef = true <;> simp [href, within_eq_nil]

mutual

/-- What the check says of the statements in a statement that neither begins nor ends a local. -/
theorem permitted_of_stmtFindings : ∀ {s : Stmt} {visible : List String},
    stmtFindings t visible s = [] → (∀ loc name e, s ≠ .declare loc name e) →
      (∀ loc name e, s ≠ .discard loc name e) → ∀ u ∈ s.nested, u.Permitted t
  | .assign .., _, h, _, _ => by
    rw [stmtFindings, assignFindings_eq_nil] at h
    exact forall_mem_nested.mpr ⟨h, by simp [bodies]⟩
  | .swap .., _, h, _, _ => by
    rw [stmtFindings, swapFindings_eq_nil] at h
    exact forall_mem_nested.mpr ⟨h, by simp [bodies]⟩
  | .call .., _, h, _, _ => by
    rw [stmtFindings, callFindings_eq_nil] at h
    exact forall_mem_nested.mpr ⟨h, by simp [bodies]⟩
  | .branch .., _, h, _, _ | .loop .., _, h, _, _ => by
    simp only [stmtFindings, List.append_eq_nil_iff, within_eq_nil] at h
    refine forall_mem_nested.mpr ⟨h.1.1, ?_⟩
    simpa [bodies] using ⟨permitted_of_blockFindings h.1.2, permitted_of_blockFindings h.2⟩
  | .block .., _, h, _, _ => by
    rw [stmtFindings] at h
    exact forall_mem_nested.mpr ⟨trivial, by simpa [bodies] using permitted_of_blockFindings h⟩
  | .declare loc name e, _, _, hs, _ => absurd rfl (hs loc name e)
  | .discard loc name e, _, _, _, hs => absurd rfl (hs loc name e)
  | .hole _, _, _, _, _ => forall_mem_nested.mpr ⟨trivial, by simp [bodies]⟩

theorem permitted_of_blockFindings : ∀ {body : List Stmt} {outer names : List String}
    {locals : List (String × Stmt)}, blockFindings t outer names locals body = [] →
      ∀ u ∈ nestedAll body, u.Permitted t
  | [], _, _, _, _ => by simp [nestedAll]
  | .declare loc name value :: rest, outer, names, locals, h => by
    simp only [blockFindings, List.append_eq_nil_iff, within_eq_nil] at h
    rw [nestedAll, List.forall_mem_append]
    exact ⟨forall_mem_nested.mpr ⟨h.1.1, by simp [bodies]⟩, permitted_of_blockFindings h.2⟩
  | .discard loc name value :: rest, outer, names, locals, h => by
    simp only [blockFindings, List.append_eq_nil_iff, within_eq_nil] at h
    rw [nestedAll, List.forall_mem_append]
    refine ⟨forall_mem_nested.mpr ⟨h.1, by simp [bodies]⟩, ?_⟩
    obtain ⟨-, h⟩ := h
    split at h
    · exact permitted_of_blockFindings (List.append_eq_nil_iff.mp h).2
    · cases h
  | .assign .. :: rest, outer, names, locals, h | .call .. :: rest, outer, names, locals, h
  | .branch .. :: rest, outer, names, locals, h | .loop .. :: rest, outer, names, locals, h
  | .swap .. :: rest, outer, names, locals, h | .block .. :: rest, outer, names, locals, h
  | .hole _ :: rest, outer, names, locals, h => by
    simp only [blockFindings, List.append_eq_nil_iff] at h
    rw [nestedAll, List.forall_mem_append]
    exact ⟨permitted_of_stmtFindings h.1 nofun nofun, permitted_of_blockFindings h.2⟩

end

end Legality

/-! ## Libraries -/

/-- A body whose scopes are nested and whose statements are in order. -/
structure Stmt.LegalBody (t : Table) (bound : List String) (body : List Stmt) : Prop where
  scopes : ScopedBlock bound [] body
  proper : ProperAll t body

/-- A procedure with a legal body whose parameters have different names. -/
structure Procedure.Legal (t : Table) (p : Procedure) : Prop where
  params : p.paramNames.Nodup
  body : Stmt.LegalBody t p.paramNames p.body

theorem Legality.legal_of_findings {t : Table} {p : Procedure} (h : findings t p = [])
    (hw : p.Writable) : p.Legal t := by
  have hscoped := scopedBlock_of_findings h
  rw [findings, List.append_eq_nil_iff] at h
  exact ⟨(nodup_of_paramFindings h.1).1, hscoped, fun s hs =>
    (permitted_of_blockFindings h.2 s hs).proper (Stmt.writable_of_mem_nestedAll hw.2.2 s hs)⟩

/-- The functions that a table promises are among the given ones. -/
def Legality.Table.Offered (t : Table) (functions : List (String × HostFunction)) : Prop :=
  ∀ name, t.isPure name = true → (Datum.field? name functions).isSome = true

namespace Library

variable {lib lib' : Library}

/-- The library offers what the table promises. -/
structure Keeps (lib : Library) (t : Table) : Prop where
  procedure : ∀ {name : String} {arity : Nat}, Datum.field? name t.arities = some arity →
    ∃ p, lib.get name = .ok p ∧ p.params.length = arity
  functions : t.Offered lib.functions

/-- Every procedure of the library is legal, by a table that the library keeps. -/
def Legal (lib : Library) : Prop := ∀ p ∈ lib.procedures, ∃ t, lib.Keeps t ∧ p.Legal t

/-- The libraries that come about by registering programs that were read from texts. -/
inductive Compiled : Library → Prop
  | empty {settings : Settings} {further : List (String × HostFunction)} {lib : Library} :
      Library.empty settings further = .ok lib → Compiled lib
  | register {lib lib' : Library} {toolkit : Toolkit} {source file : String} {program : Program}
      {inquiry inquiry' : Inquiry} : Compiled lib → Program.parse source file = .ok program →
      lib.register toolkit program.procedures inquiry = .ok lib' inquiry' → Compiled lib'

theorem Compiled.accepted (h : lib.Compiled) : lib.Accepted := by
  induction h with
  | empty h => exact .empty h
  | register _ _ h ih => exact .register ih h

theorem get_eq_ok {name : String} {p : Procedure} :
    lib.get name = .ok p ↔ lib.find? name = some p := by
  unfold get
  cases lib.find? name <;> simp

/-- A procedure that was found before is found after more of them were added. -/
theorem get_append {name : String} {p : Procedure} (h : lib.get name = .ok p)
    (more : List Procedure) :
    get { lib with procedures := lib.procedures ++ more } name = .ok p := by
  rw [get_eq_ok, find?] at h ⊢
  rw [List.find?_append, h]
  rfl

theorem Keeps.append {t : Table} (h : lib.Keeps t) (more : List Procedure) :
    Keeps { lib with procedures := lib.procedures ++ more } t where
  procedure hname := by
    obtain ⟨p, hp, harity⟩ := h.procedure hname
    exact ⟨p, get_append hp more, harity⟩
  functions := h.functions

theorem field?_arities (name : String) (procedures : List Procedure) :
    Datum.field? name (procedures.map fun p => (p.name, p.params.length)) =
      (procedures.find? fun p => p.name == name).map fun p => p.params.length := by
  induction procedures with
  | nil => rfl
  | cons p rest ih =>
    by_cases hname : p.name = name
    · simp [Datum.field?, hname]
    · rw [List.map_cons, Datum.field?, if_neg hname, ih,
        List.find?_cons_of_neg (by simpa using hname)]

/-- A library keeps the table by which new procedures were checked, once they are in it. -/
theorem keeps_tableWith (lib : Library) (more : List Procedure) :
    Keeps { lib with procedures := lib.procedures ++ more } (lib.tableWith more) where
  procedure := by
    intro name arity h
    rw [tableWith, field?_arities, Option.map_eq_some_iff] at h
    obtain ⟨p, hp, harity⟩ := h
    exact ⟨p, get_eq_ok.mpr hp, harity⟩
  functions := by
    intro name h
    simpa [tableWith, isPure, Datum.field?_isSome] using h

/-- Every procedure that was read from a text and registered is legal. -/
theorem Compiled.legal (h : lib.Compiled) : lib.Legal := by
  induction h with
  | empty hempty =>
    intro p hp
    rw [procedures_empty hempty] at hp
    cases hp
  | register hlib hparse hregister ih =>
    obtain ⟨rfl, hnew⟩ := register_eq_ok hregister
    intro p hp
    rcases List.mem_append.mp hp with hp | hp
    · obtain ⟨t, hkeeps, hlegal⟩ := ih p hp
      exact ⟨t, hkeeps.append _, hlegal⟩
    · have hwritable : p.Writable := Program.writable_of_parse hparse p hp
      exact ⟨_, keeps_tableWith _ _, Legality.legal_of_findings (hnew p hp) hwritable⟩

end Library

end Retrace
