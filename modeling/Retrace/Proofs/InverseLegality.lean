import Retrace.Proofs.Inversion
import Retrace.Proofs.Registry

/-!
# The legality of inverse procedures

The rules of the legality check mean the same in both directions, with one exception. Inverting a
body turns it round, and a local that ends where it began is a local that begins where it ends: the
lists of pending names are met in the opposite order (`ScopedBlock.inverse`). The rules for single
statements do not depend on the direction (`Permitted.inverse`). But the check asks that the value
with which a local ends does not name the local, and does not ask it of the value with which the
local begins. So the inverse of a legal procedure has one finding for each local that begins with a
value that names it, and no other findings (`Procedure.check_inverse`).
-/

namespace Retrace

open Legality Actions

/-! ## All findings of a procedure -/

namespace Legality

open Stmt

variable {t t' : Table}

/-- The finding about a local that ends with a value that names it. -/
def selfEnding : Stmt → List Finding
  | .discard loc name value =>
    if name ∈ value.names then [about (.discard loc name value) (.selfAliased name)] else []
  | _ => []

mutual

/-- Where the rules for names and for single statements are kept, a statement that neither begins
nor ends a local has the findings about the locals that end inside it. -/
theorem stmtFindings_eq : ∀ {s : Stmt} {visible bound : List String},
    (∀ u ∈ s.nested, u.Permitted t) → s.Scoped bound → visible ⊆ bound →
      stmtFindings t visible s = s.nested.flatMap selfEnding
  | .assign .., _, _, hp, _, _ => by
    rw [stmtFindings, assignFindings_eq_nil.mpr (forall_mem_nested.mp hp).1]
    simp [nested, selfEnding]
  | .swap .., _, _, hp, _, _ => by
    rw [stmtFindings, swapFindings_eq_nil.mpr (forall_mem_nested.mp hp).1]
    simp [nested, selfEnding]
  | .call .., _, _, hp, _, _ => by
    rw [stmtFindings, callFindings_eq_nil.mpr (forall_mem_nested.mp hp).1]
    simp [nested, selfEnding]
  | .branch _ _ first second _, visible, _, hp, hs, hv
  | .loop _ _ first second _, visible, _, hp, hs, hv => by
    obtain ⟨hself, hbodies⟩ := forall_mem_nested.mp hp
    rw [Scoped] at hs
    have hfirst : blockFindings t visible [] [] first = (nestedAll first).flatMap selfEnding :=
      blockFindings_eq (hbodies first (by simp [bodies])) hs.1 hv (by simp)
    have hsecond : blockFindings t visible [] [] second = (nestedAll second).flatMap selfEnding :=
      blockFindings_eq (hbodies second (by simp [bodies])) hs.2 hv (by simp)
    simp [stmtFindings, within_eq_nil.mpr hself.1, within_eq_nil.mpr hself.2, hfirst, hsecond,
      nested, selfEnding]
  | .block _ body, visible, _, hp, hs, hv => by
    rw [Scoped] at hs
    have hbody : blockFindings t visible [] [] body = (nestedAll body).flatMap selfEnding :=
      blockFindings_eq ((forall_mem_nested.mp hp).2 body (by simp [bodies])) hs hv (by simp)
    simp [stmtFindings, hbody, nested, selfEnding]
  | .declare .., _, _, _, hs, _ | .discard .., _, _, _, hs, _ => by simp [Scoped] at hs
  | .hole _, _, _, _, _, _ => by simp [stmtFindings, nested, selfEnding]

theorem blockFindings_eq : ∀ {body : List Stmt} {outer names bound : List String}
    {locals : List (String × Stmt)}, (∀ u ∈ nestedAll body, u.Permitted t) →
      ScopedBlock bound (locals.map Prod.fst) body → outer ⊆ bound →
      (∀ name ∈ names, name ∈ bound ∨ name ∈ locals.map Prod.fst) →
      blockFindings t outer names locals body = (nestedAll body).flatMap selfEnding
  | [], _, _, _, locals, _, hs, _, _ => by
    rw [ScopedBlock, List.map_eq_nil_iff] at hs
    simp [blockFindings, nestedAll, hs]
  | .declare loc name value :: rest, outer, names, bound, locals, hp, hs, houter, hnames => by
    rw [nestedAll, List.forall_mem_append] at hp
    obtain ⟨hbound, hpending, hrest⟩ := hs
    have hvalue : value.Clean t := (forall_mem_nested.mp hp.1).1
    have hfresh : ¬(name ∈ outer ∨ name ∈ names) := fun h =>
      h.elim (fun h => hbound (houter h)) fun h => (hnames name h).elim hbound hpending
    have hlocals : (locals ++ [(name, Stmt.declare loc name value)]).map Prod.fst =
        locals.map Prod.fst ++ [name] := by simp
    rw [← hlocals] at hrest
    have hkept : ∀ other ∈ declared name names, other ∈ bound ∨
        other ∈ (locals ++ [(name, Stmt.declare loc name value)]).map Prod.fst := by
      intro other hother
      rw [hlocals, List.mem_append, List.mem_singleton]
      rcases mem_declared.mp hother with hother | hother
      · exact Or.inr (Or.inr hother)
      · exact (hnames other hother).imp_right Or.inl
    have hrest' := blockFindings_eq hp.2 hrest houter hkept
    simp [blockFindings, within_eq_nil.mpr hvalue, hfresh, hrest', nestedAll, nested, selfEnding]
  | .discard loc name value :: rest, outer, names, bound, locals, hp, hs, houter, hnames => by
    rw [nestedAll, List.forall_mem_append] at hp
    obtain ⟨hpending, hrest⟩ := hs
    have hvalue : value.Clean t := (forall_mem_nested.mp hp.1).1
    have hany : (locals.any fun entry => entry.1 = name) = true := by simpa using hpending
    rw [← map_fst_ended] at hrest
    have hkept : ∀ other ∈ names.filter fun other => other ≠ name,
        other ∈ bound ∨ other ∈ (ended name locals).map Prod.fst := by
      intro other hother
      rw [List.mem_filter, decide_eq_true_eq] at hother
      rw [map_fst_ended]
      exact (hnames other hother.1).imp_right (List.mem_erase_of_ne hother.2).mpr
    have hrest' := blockFindings_eq hp.2 hrest houter hkept
    simp only [blockFindings, within_eq_nil.mpr hvalue, hany, if_true, hrest', nestedAll, nested,
      selfEnding, List.nil_append, List.singleton_append, List.flatMap_cons]
  | .assign .. :: rest, _, _, _, _, hp, hs, houter, hnames
  | .call .. :: rest, _, _, _, _, hp, hs, houter, hnames
  | .branch .. :: rest, _, _, _, _, hp, hs, houter, hnames
  | .loop .. :: rest, _, _, _, _, hp, hs, houter, hnames
  | .swap .. :: rest, _, _, _, _, hp, hs, houter, hnames
  | .block .. :: rest, _, _, _, _, hp, hs, houter, hnames
  | .hole _ :: rest, _, _, _, _, hp, hs, houter, hnames => by
    rw [nestedAll, List.forall_mem_append] at hp
    simp only [ScopedBlock] at hs
    have hvisible := List.append_subset.mpr
      ⟨fun name hname => List.mem_append.mpr (hnames name hname),
        fun name hname => List.mem_append_left _ (houter hname)⟩
    simp only [blockFindings, nestedAll, List.flatMap_append, stmtFindings_eq hp.1 hs.1 hvisible,
      blockFindings_eq hp.2 hs.2 houter hnames]

end

end Legality

/-! ## Names in an inverse body -/

namespace Stmt

variable {renames : List (String × String)}

mutual

/-- Which names may be bound matters, and not their order. -/
theorem Scoped.congr : ∀ {s : Stmt} {bound bound' : List String},
    (∀ name, name ∈ bound ↔ name ∈ bound') → s.Scoped bound → s.Scoped bound'
  | .branch .., _, _, hb, h | .loop .., _, _, hb, h => by
    rw [Scoped] at h ⊢
    exact ⟨ScopedBlock.congr hb (.refl []) h.1, ScopedBlock.congr hb (.refl []) h.2⟩
  | .block .., _, _, hb, h => by
    rw [Scoped] at h ⊢
    exact ScopedBlock.congr hb (.refl []) h
  | .declare .., _, _, _, h | .discard .., _, _, _, h => by simp [Scoped] at h
  | .assign .., _, _, _, _ | .call .., _, _, _, _ | .swap .., _, _, _, _ | .hole _, _, _, _, _ => by
    rw [Scoped]
    trivial

theorem ScopedBlock.congr : ∀ {body : List Stmt} {bound bound' pending pending' : List String},
    (∀ name, name ∈ bound ↔ name ∈ bound') → pending.Perm pending' →
      ScopedBlock bound pending body → ScopedBlock bound' pending' body
  | [], _, _, _, _, _, hp, h => by
    rw [ScopedBlock] at h ⊢
    exact (h ▸ hp).nil_eq.symm
  | .declare _ name _ :: rest, _, _, _, _, hb, hp, h => by
    obtain ⟨hbound, hpending, h⟩ := h
    exact ⟨mt (hb name).mpr hbound, mt hp.mem_iff.mpr hpending,
      ScopedBlock.congr hb (hp.append_right [name]) h⟩
  | .discard _ name _ :: rest, _, _, _, _, hb, hp, h =>
    ⟨hp.mem_iff.mp h.1, ScopedBlock.congr hb (hp.erase name) h.2⟩
  | .assign .. :: rest, _, _, _, _, hb, hp, h | .call .. :: rest, _, _, _, _, hb, hp, h
  | .branch .. :: rest, _, _, _, _, hb, hp, h | .loop .. :: rest, _, _, _, _, hb, hp, h
  | .swap .. :: rest, _, _, _, _, hb, hp, h | .block .. :: rest, _, _, _, _, hb, hp, h
  | .hole _ :: rest, _, _, _, _, hb, hp, h => by
    simp only [ScopedBlock] at h ⊢
    refine ⟨Scoped.congr (fun name => ?_) h.1, ScopedBlock.congr hb hp h.2⟩
    rw [List.mem_append, List.mem_append, hb, hp.mem_iff]

end

theorem scopedBlock_nil (bound : List String) : ScopedBlock bound [] [] := by rw [ScopedBlock]

/-- A statement that neither begins nor ends a local leaves the pending ones as they are. -/
theorem scopedBlock_cons {s : Stmt} {rest : List Stmt} {bound pending : List String}
    (hs : s.Scoped (bound ++ pending)) (h : ScopedBlock bound pending rest) :
    ScopedBlock bound pending (s :: rest) := by
  cases s with
  | declare | discard => simp [Scoped] at hs
  | assign | branch | call | loop | swap | block | hole =>
    simp only [ScopedBlock]
    exact ⟨hs, h⟩

mutual

theorem Scoped.inverse : ∀ {s s' : Stmt} {bound : List String}, s.inverse renames = .ok s' →
    s.Scoped bound → s'.Scoped bound
  | .assign .., _, _, hi, _ => by
    obtain ⟨_, -, rfl⟩ := inverse_assign_eq_ok.mp hi
    rw [Scoped]
    trivial
  | .branch _ _ first second _, _, bound, hi, h | .loop _ _ first second _, _, bound, hi, h => by
    simp only [inverse_branch_eq_ok, inverse_loop_eq_ok] at hi
    obtain ⟨first', hfirst, second', hsecond, rfl⟩ := hi
    rw [Scoped] at h ⊢
    have hfirst' := ScopedBlock.inverse hfirst h.1 (.nil bound) (scopedBlock_nil bound)
    have hsecond' := ScopedBlock.inverse hsecond h.2 (.nil bound) (scopedBlock_nil bound)
    rw [List.append_nil] at hfirst' hsecond'
    exact ⟨hfirst', hsecond'⟩
  | .block .., _, bound, hi, h => by
    obtain ⟨body', hbody, rfl⟩ := inverse_block_eq_ok.mp hi
    rw [Scoped] at h ⊢
    have hbody' := ScopedBlock.inverse hbody h (.nil bound) (scopedBlock_nil bound)
    rwa [List.append_nil] at hbody'
  | .call l callee args uncall, _, _, hi, _ => by
    obtain ⟨_, hcall⟩ := inverse_call l callee args uncall
    cases hcall.symm.trans hi
    rw [Scoped]
    trivial
  | .swap .., _, _, hi, _ => by
    cases hi
    rw [Scoped]
    trivial
  | .declare .., _, _, _, h | .discard .., _, _, _, h => by simp [Scoped] at h
  | .hole _, _, _, hi, _ => by cases hi

/-- Turned round, the rest of a block ends with the locals pending with which it began. So it can be
followed by what may come at that place. -/
theorem ScopedBlock.inverse : ∀ {body body' : List Stmt} {bound pending : List String},
    inverseBody renames body = .ok body' → ScopedBlock bound pending body →
      Pending bound pending → ∀ {tail : List Stmt}, ScopedBlock bound pending tail →
      ScopedBlock bound [] (body' ++ tail)
  | [], _, _, _, hi, h, _, tail, htail => by
    cases hi
    rw [ScopedBlock] at h
    rw [h] at htail
    exact htail
  | .declare loc name value :: rest, _, bound, pending, hi, h, hp, tail, htail => by
    obtain ⟨rest', hrest, _, ⟨⟩, rfl⟩ := inverseBody_cons_eq_ok.mp hi
    obtain ⟨hbound, hpending, h⟩ := h
    rw [List.append_assoc]
    refine ScopedBlock.inverse hrest h (hp.declare hbound hpending) ?_
    -- the local that began last ends here
    have herase : (pending ++ [name]).erase name = pending := by
      rw [List.erase_append_right _ hpending, List.erase_cons_head, List.append_nil]
    exact ⟨by simp, herase.symm ▸ htail⟩
  | .discard loc name value :: rest, _, bound, pending, hi, h, hp, tail, htail => by
    obtain ⟨rest', hrest, _, ⟨⟩, rfl⟩ := inverseBody_cons_eq_ok.mp hi
    obtain ⟨hmem, h⟩ := h
    rw [List.append_assoc]
    refine ScopedBlock.inverse hrest h (hp.discard name) ?_
    have hperm : pending.Perm (pending.erase name ++ [name]) :=
      (List.perm_cons_erase hmem).trans (List.perm_append_singleton name _).symm
    exact ⟨hp.apart name hmem, hp.nodup.not_mem_erase,
      ScopedBlock.congr (fun _ => Iff.rfl) hperm htail⟩
  | .assign .. :: rest, _, _, _, hi, h, hp, tail, htail
  | .call .. :: rest, _, _, _, hi, h, hp, tail, htail
  | .branch .. :: rest, _, _, _, hi, h, hp, tail, htail
  | .loop .. :: rest, _, _, _, hi, h, hp, tail, htail
  | .swap .. :: rest, _, _, _, hi, h, hp, tail, htail
  | .block .. :: rest, _, _, _, hi, h, hp, tail, htail
  | .hole _ :: rest, _, _, _, hi, h, hp, tail, htail => by
    obtain ⟨rest', hrest, s', hs', rfl⟩ := inverseBody_cons_eq_ok.mp hi
    simp only [ScopedBlock] at h
    rw [List.append_assoc]
    exact ScopedBlock.inverse hrest h.2 hp (scopedBlock_cons (Scoped.inverse hs' h.1) htail)

end

/-! ## Statements of an inverse body -/

theorem nestedAll_append (l r : List Stmt) : nestedAll (l ++ r) = nestedAll l ++ nestedAll r := by
  induction l with
  | nil => rfl
  | cons s l ih => rw [List.cons_append, nestedAll, ih, nestedAll, List.append_assoc]

theorem anyHole_append (l r : List Stmt) : anyHole (l ++ r) = (anyHole l || anyHole r) := by
  induction l with
  | nil => rfl
  | cons s l ih => rw [List.cons_append, anyHole, ih, anyHole, Bool.or_assoc]

mutual

/-- The statements inside the inverse of a statement are the inverses of those inside it. -/
theorem mem_nested_inverse : ∀ {s s' u' : Stmt}, s.inverse renames = .ok s' →
    (u' ∈ s'.nested ↔ ∃ u ∈ s.nested, u.inverse renames = .ok u')
  | .branch _ guard first second assertion, _, u', hi
  | .loop _ guard first second assertion, _, u', hi => by
    have hs := hi
    simp only [inverse_branch_eq_ok, inverse_loop_eq_ok] at hi
    obtain ⟨first', hfirst, second', hsecond, rfl⟩ := hi
    simp only [nested, List.mem_cons, List.mem_append, mem_nestedAll_inverse hfirst,
      mem_nestedAll_inverse hsecond, or_and_right, exists_or, exists_eq_left, hs, Except.ok.injEq,
      eq_comm]
  | .block .., _, u', hi => by
    have hs := hi
    obtain ⟨body', hbody, rfl⟩ := inverse_block_eq_ok.mp hi
    simp only [nested, List.mem_cons, mem_nestedAll_inverse hbody, or_and_right, exists_or,
      exists_eq_left, hs, Except.ok.injEq, eq_comm]
  | .assign .., _, u', hi => by
    have hs := hi
    obtain ⟨_, -, rfl⟩ := inverse_assign_eq_ok.mp hi
    simp only [nested, List.mem_singleton, exists_eq_left, hs, Except.ok.injEq, eq_comm]
  | .call l callee args uncall, _, u', hi => by
    obtain ⟨_, hcall⟩ := inverse_call l callee args uncall
    cases hcall.symm.trans hi
    simp only [nested, List.mem_singleton, exists_eq_left, hcall, Except.ok.injEq, eq_comm]
  | .declare .., _, u', hi | .discard .., _, u', hi | .swap .., _, u', hi => by
    have hs := hi
    cases hi
    simp only [nested, List.mem_singleton, exists_eq_left, hs, Except.ok.injEq, eq_comm]
  | .hole _, _, _, hi => by cases hi

theorem mem_nestedAll_inverse : ∀ {body body' : List Stmt} {u' : Stmt},
    inverseBody renames body = .ok body' →
      (u' ∈ nestedAll body' ↔ ∃ u ∈ nestedAll body, u.inverse renames = .ok u')
  | [], _, _, hi => by
    cases hi
    simp [nestedAll]
  | s :: rest, _, u', hi => by
    obtain ⟨rest', hrest, s', hs, rfl⟩ := inverseBody_cons_eq_ok.mp hi
    rw [nestedAll_append, List.mem_append, mem_nestedAll_inverse hrest, nestedAll, nestedAll,
      List.append_nil, mem_nested_inverse hs, or_comm]
    simp only [nestedAll, List.mem_append, or_and_right, exists_or]

end

/-- The locals of the inverse end where those of the body begin. -/
theorem discard_mem_inverse {body body' : List Stmt} (h : inverseBody renames body = .ok body')
    {loc : Option Location} {name : String} {e : Expr} :
    discard loc name e ∈ nestedAll body' ↔ declare loc name e ∈ nestedAll body := by
  rw [mem_nestedAll_inverse h]
  constructor
  · rintro ⟨u, hu, hinverse⟩
    cases u with
    | declare =>
      cases hinverse
      exact hu
    | assign =>
      obtain ⟨_, -, hinverse⟩ := inverse_assign_eq_ok.mp hinverse
      cases hinverse
    | branch =>
      obtain ⟨_, -, _, -, hinverse⟩ := inverse_branch_eq_ok.mp hinverse
      cases hinverse
    | loop =>
      obtain ⟨_, -, _, -, hinverse⟩ := inverse_loop_eq_ok.mp hinverse
      cases hinverse
    | block =>
      obtain ⟨_, -, hinverse⟩ := inverse_block_eq_ok.mp hinverse
      cases hinverse
    | call l callee args uncall =>
      obtain ⟨_, hcall⟩ := inverse_call l callee args uncall
      cases hcall.symm.trans hinverse
    | discard | swap | hole => cases hinverse
  · exact fun hmem => ⟨_, hmem, rfl⟩

mutual

/-- A statement without missing parts whose update operators are known has an inverse. -/
theorem exists_inverse {t : Table} : ∀ {s : Stmt}, (∀ u ∈ s.nested, u.Permitted t) →
    s.hasHole = false → ∃ s', s.inverse renames = .ok s'
  | .assign _ _ op _, hp, _ => by
    obtain ⟨u, hu⟩ := Option.isSome_iff_exists.mp (forall_mem_nested.mp hp).1.1
    have hop : Update.ofSymbol op = .ok u := by rw [Update.ofSymbol, hu]
    exact ⟨_, inverse_assign_eq_ok.mpr ⟨u, hop, rfl⟩⟩
  | .branch _ _ first second _, hp, hh | .loop _ _ first second _, hp, hh => by
    rw [hasHole, Bool.or_eq_false_iff] at hh
    have hbodies := (forall_mem_nested.mp hp).2
    obtain ⟨first', hfirst⟩ := exists_inverseBody (hbodies first (by simp [bodies])) hh.1
    obtain ⟨second', hsecond⟩ := exists_inverseBody (hbodies second (by simp [bodies])) hh.2
    simp only [inverse_branch_eq_ok, inverse_loop_eq_ok]
    exact ⟨_, first', hfirst, second', hsecond, rfl⟩
  | .block _ body, hp, hh => by
    rw [hasHole] at hh
    have hbodies := (forall_mem_nested.mp hp).2
    obtain ⟨body', hbody⟩ := exists_inverseBody (hbodies body (by simp [bodies])) hh
    exact ⟨_, inverse_block_eq_ok.mpr ⟨body', hbody, rfl⟩⟩
  | .call l callee args uncall, _, _ =>
    have ⟨_, hcall⟩ := inverse_call l callee args uncall
    ⟨_, hcall⟩
  | .declare .., _, _ | .discard .., _, _ | .swap .., _, _ => ⟨_, rfl⟩
  | .hole _, _, hh => by simp [hasHole] at hh

theorem exists_inverseBody {t : Table} : ∀ {body : List Stmt},
    (∀ u ∈ nestedAll body, u.Permitted t) → anyHole body = false →
      ∃ body', inverseBody renames body = .ok body'
  | [], _, _ => ⟨[], rfl⟩
  | s :: rest, hp, hh => by
    rw [nestedAll, List.forall_mem_append] at hp
    rw [anyHole, Bool.or_eq_false_iff] at hh
    obtain ⟨s', hs⟩ := exists_inverse hp.1 hh.1
    obtain ⟨rest', hrest⟩ := exists_inverseBody hp.2 hh.2
    exact ⟨_, inverseBody_cons_eq_ok.mpr ⟨rest', hrest, s', hs, rfl⟩⟩

end

mutual

theorem hasHole_inverse : ∀ {s s' : Stmt}, s.inverse renames = .ok s' → s'.hasHole = false
  | .branch .., _, hi | .loop .., _, hi => by
    simp only [inverse_branch_eq_ok, inverse_loop_eq_ok] at hi
    obtain ⟨first', hfirst, second', hsecond, rfl⟩ := hi
    rw [hasHole, anyHole_inverse hfirst, anyHole_inverse hsecond]
    rfl
  | .block .., _, hi => by
    obtain ⟨body', hbody, rfl⟩ := inverse_block_eq_ok.mp hi
    rw [hasHole, anyHole_inverse hbody]
  | .assign .., _, hi => by
    obtain ⟨_, -, rfl⟩ := inverse_assign_eq_ok.mp hi
    rfl
  | .call l callee args uncall, _, hi => by
    obtain ⟨_, hcall⟩ := inverse_call l callee args uncall
    cases hcall.symm.trans hi
    rfl
  | .declare .., _, hi | .discard .., _, hi | .swap .., _, hi => by
    cases hi
    rfl
  | .hole _, _, hi => by cases hi

theorem anyHole_inverse : ∀ {body body' : List Stmt}, inverseBody renames body = .ok body' →
    anyHole body' = false
  | [], _, hi => by
    cases hi
    rfl
  | s :: rest, _, hi => by
    obtain ⟨rest', hrest, s', hs, rfl⟩ := inverseBody_cons_eq_ok.mp hi
    rw [anyHole_append, anyHole_inverse hrest, anyHole, hasHole_inverse hs]
    rfl

end

end Stmt

/-! ## Rules for single statements -/

namespace Legality

/-- What one table promises, another one promises too, under new names. -/
structure Table.Carries (t t' : Table) (renames : List (String × String)) : Prop where
  functions : ∀ name, t.isPure name = true → t'.isPure name = true
  arities : ∀ name arity, Datum.field? name t.arities = some arity →
    Datum.field? (Stmt.renamed renames name) t'.arities = some arity

variable {t t' : Table} {renames : List (String × String)}

mutual

theorem exprBreaches_of_carries (h : t.Carries t' renames) : ∀ {e : Expr}, exprBreaches t e = [] →
    exprBreaches t' e = []
  | .int .., _ | .bool .., _ | .var .., _ | .hole _, _ => rfl
  | .elem .., he => by
    rw [exprBreaches] at he ⊢
    exact exprBreaches_of_carries h he
  | .binary .., he => by
    rw [exprBreaches, List.append_eq_nil_iff, List.append_eq_nil_iff] at he ⊢
    exact ⟨⟨he.1.1, exprBreaches_of_carries h he.1.2⟩, exprBreaches_of_carries h he.2⟩
  | .unary .., he => by
    rw [exprBreaches, List.append_eq_nil_iff] at he ⊢
    exact ⟨he.1, exprBreaches_of_carries h he.2⟩
  | .call _ name args, he => by
    simp only [exprBreaches, List.append_eq_nil_iff, ite_nil_eq_nil (List.cons_ne_nil _ _)] at he ⊢
    exact ⟨h.functions name he.1, argBreaches_of_carries h he.2⟩
  | .update .., he => by simp [exprBreaches] at he

theorem argBreaches_of_carries (h : t.Carries t' renames) : ∀ {es : List Expr},
    argBreaches t es = [] → argBreaches t' es = []
  | [], _ => rfl
  | e :: es, he => by
    rw [argBreaches, List.append_eq_nil_iff] at he ⊢
    exact ⟨exprBreaches_of_carries h he.1, argBreaches_of_carries h he.2⟩

end

end Legality

open Stmt

variable {t t' : Table} {renames : List (String × String)}

theorem Expr.Clean.carry {e : Expr} (he : e.Clean t) (h : t.Carries t' renames) : e.Clean t' :=
  exprBreaches_of_carries h he

/-- The inverse of a permitted statement is permitted. -/
theorem Stmt.Permitted.inverse {s s' : Stmt} (hs : s.Permitted t) (h : t.Carries t' renames)
    (hi : s.inverse renames = .ok s') : s'.Permitted t' := by
  cases s with
  | assign loc target op value =>
    obtain ⟨u, -, rfl⟩ := inverse_assign_eq_ok.mp hi
    obtain ⟨-, href, htarget, hvalue, halias⟩ := hs
    refine ⟨?_, href, htarget.carry h, hvalue.carry h, halias⟩
    cases u <;> rfl
  | branch loc guard thenBody elseBody assertion =>
    obtain ⟨_, -, _, -, rfl⟩ := inverse_branch_eq_ok.mp hi
    exact ⟨hs.2.carry h, hs.1.carry h⟩
  | call loc callee args uncall =>
    obtain ⟨_, hcall⟩ := inverse_call loc callee args uncall
    cases hcall.symm.trans hi
    exact ⟨h.arities callee args.length hs.1,
      fun arg harg => ⟨(hs.2 arg harg).1, (hs.2 arg harg).2.carry h⟩⟩
  | declare loc name value | discard loc name value =>
    cases hi
    exact Expr.Clean.carry hs h
  | loop loc entry doBody loopBody exit =>
    obtain ⟨_, -, _, -, rfl⟩ := inverse_loop_eq_ok.mp hi
    exact ⟨hs.2.carry h, hs.1.carry h⟩
  | swap loc left right =>
    cases hi
    exact ⟨fun hleft => (hs.1 hleft).carry h, fun hright => (hs.2.1 hright).carry h, hs.2.2⟩
  | block loc body =>
    obtain ⟨_, -, rfl⟩ := inverse_block_eq_ok.mp hi
    trivial
  | hole loc => cases hi

/-! ## Procedures -/

namespace Legality

theorem flatMap_selfEnding_eq_nil {body : List Stmt} :
    (nestedAll body).flatMap selfEnding = [] ↔
      ∀ loc name e, .discard loc name e ∈ nestedAll body → name ∉ e.names := by
  rw [List.flatMap_eq_nil_iff]
  constructor
  · intro h loc name e hmem hname
    have hnone := h _ hmem
    rw [selfEnding, if_pos hname] at hnone
    cases hnone
  · intro h u hu
    cases u with
    | discard loc name e => rw [selfEnding, if_neg (h loc name e hu)]
    | assign | branch | call | declare | loop | swap | block | hole => rfl

/-- A procedure that keeps the rules for names and for single statements has the findings about the
locals that end with a value that names them. -/
theorem findings_eq {p : Procedure} (hparams : paramFindings [] p.params = [])
    (hs : ScopedBlock p.paramNames [] p.body) (hp : ∀ u ∈ nestedAll p.body, u.Permitted t) :
    findings t p = (nestedAll p.body).flatMap selfEnding := by
  rw [findings, hparams, List.nil_append]
  refine blockFindings_eq hp hs (List.nil_subset _) fun name hname => ?_
  exact Or.inl ((mem_foldl_declared.mp hname).resolve_right List.not_mem_nil)

/-- The inverse of a legal procedure, under a table that carries over the one of the procedure: it
exists, and its findings are known. -/
theorem check_inverse {p : Procedure} {n : String} (hp : check t p = .ok [])
    (h : t.Carries t' [(p.name, n)]) :
    ∃ q, p.inverse n = .ok q ∧ q.name = n ∧ q.params = p.params ∧
      check t' q = .ok (((nestedAll q.body).flatMap selfEnding).map (Finding.record n)) ∧
      (check t' q = .ok [] ↔
        ∀ loc name e, .declare loc name e ∈ nestedAll p.body → name ∉ e.names) := by
  obtain ⟨hhole, hfindings⟩ := check_eq_ok_nil.mp hp
  have hscoped := scopedBlock_of_findings hfindings
  rw [findings, List.append_eq_nil_iff] at hfindings
  have hpermitted := permitted_of_blockFindings hfindings.2
  obtain ⟨body, hbody⟩ := exists_inverseBody hpermitted hhole
  have hscoped' : ScopedBlock p.paramNames [] body := by
    have hinverse := hscoped.inverse hbody (.nil _) (scopedBlock_nil _)
    rwa [List.append_nil] at hinverse
  have hpermitted' : ∀ u ∈ nestedAll body, u.Permitted t' := by
    intro u' hu'
    obtain ⟨u, hu, hinverse⟩ := (mem_nestedAll_inverse hbody).mp hu'
    exact (hpermitted u hu).inverse h hinverse
  have hfindings' : findings t' { p with name := n, body } = (nestedAll body).flatMap selfEnding :=
    findings_eq hfindings.1 hscoped' hpermitted'
  have hcheck : check t' { p with name := n, body } =
      .ok (((nestedAll body).flatMap selfEnding).map (Finding.record n)) := by
    rw [check, anyHole_inverse hbody, hfindings']
    rfl
  refine ⟨{ p with name := n, body }, except_bind_eq_ok.mpr ⟨body, hbody, rfl⟩, rfl, rfl, hcheck, ?_⟩
  rw [hcheck, Except.ok.injEq, List.map_eq_nil_iff, flatMap_selfEnding_eq_nil]
  simp only [discard_mem_inverse hbody]

/-- The table with one more procedure. -/
def Table.extend (t : Table) (name : String) (arity : Nat) : Table :=
  { t with arities := Datum.setField name arity t.arities }

theorem renamed_singleton (old new name : String) :
    renamed [(old, new)] name = if old = name then new else name := by
  by_cases h : old = name <;> simp [renamed, h]

theorem Table.carries_extend {old new : String} {arity : Nat}
    (hold : Datum.field? old t.arities = some arity) (hnew : Datum.field? new t.arities = none) :
    t.Carries (t.extend new arity) [(old, new)] where
  functions _ h := h
  arities name k hname := by
    rw [renamed_singleton, Table.extend]
    split
    · rename_i heq
      rw [Datum.field?_setField_self, ← hold, heq, hname]
    · have hne : name ≠ new := by
        rintro rfl
        rw [hnew] at hname
        cases hname
      rw [Datum.field?_setField_of_ne hne, hname]

end Legality

namespace Library

variable {lib : Library} {p q : Procedure}

/-- What a library has promised, it also promises together with a procedure that has the parameters
of one of its own. -/
theorem Keeps.carries (hlib : lib.names.Nodup) (hkeeps : lib.Keeps t) (hp : p ∈ lib.procedures)
    (hq : q.name ∉ lib.names) (hparams : q.params = p.params) :
    t.Carries (lib.tableWith [q]) [(p.name, q.name)] where
  functions name h := by
    simpa [tableWith, isPure, Datum.field?_isSome] using hkeeps.functions name h
  arities name arity hname := by
    obtain ⟨r, hr, rfl⟩ := hkeeps.procedure hname
    rw [renamed_singleton, tableWith, field?_arities, Option.map_eq_some_iff]
    split
    · -- the name is that of the procedure, and `q` stands in its place
      rename_i heq
      obtain rfl : p = r := by
        have hget := (get_eq_ok_iff_mem hlib).mpr ⟨hp, heq⟩
        exact Except.ok.inj (hget.symm.trans hr)
      refine ⟨q, ?_, by rw [hparams]⟩
      have hnone : lib.procedures.find? (fun r => r.name == q.name) = none := by
        rw [List.find?_eq_none]
        intro r hr hname
        exact hq (List.mem_map.mpr ⟨r, hr, by simpa using hname⟩)
      rw [List.find?_append, hnone]
      simp
    · exact ⟨r, get_eq_ok.mp (get_append hr [q]), rfl⟩

theorem tableWith_congr (hname : q.name = p.name) (hparams : q.params = p.params) :
    lib.tableWith [q] = lib.tableWith [p] := by
  simp only [tableWith, List.map_append, List.map_cons, List.map_nil, hname, hparams]

/-- When a single procedure can be registered. -/
theorem register_singleton {toolkit : Toolkit} {inquiry : Inquiry} :
    (∃ lib' inquiry', lib.register toolkit [q] inquiry = .ok lib' inquiry') ↔
      q.name ∉ lib.names ∧ check (lib.tableWith [q]) q = .ok [] ∧
        ∃ inquiry', lib.verify toolkit [q] inquiry = .ok () inquiry' := by
  simp only [register_eq_ok_iff, vet_eq_ok, duplicates_eq_nil, List.map_singleton,
    List.nodup_singleton, List.forall_mem_singleton, true_and]
  constructor
  · rintro ⟨_, _, vetted, ⟨hname, hcheck, hverify⟩, -⟩
    exact ⟨hname, hcheck, vetted, hverify⟩
  · rintro ⟨hname, hcheck, vetted, hverify⟩
    exact ⟨_, _, vetted, ⟨hname, hcheck, hverify⟩, rfl, rfl⟩

end Library

/-- **Legality and inversion.** Let a procedure be legal by a table that has it with its number of
parameters, and let `n` be a new name. Then the procedure has an inverse under the name `n`, and by
the table with that name added the inverse has one finding for each of its locals that ends with a
value that names the local, and no other finding. So the inverse is legal if and only if no local of
the procedure begins with a value that names it.

The same in a library: the inverse of a procedure that is registered can be registered under a new
name if and only if no local of the procedure begins with a value that names it and, where the
settings ask for it, the assertions of the inverse are confirmed. -/
theorem Procedure.inverse_legal_iff (p : Procedure) (n : String) :
    (∀ t : Table, check t p = .ok [] →
      Datum.field? p.name t.arities = some p.params.length → Datum.field? n t.arities = none →
      ∃ q, p.inverse n = .ok q ∧
        check (t.extend n p.params.length) q =
          .ok (((nestedAll q.body).flatMap selfEnding).map (Finding.record n)) ∧
        (check (t.extend n p.params.length) q = .ok [] ↔
          ∀ loc name e, .declare loc name e ∈ nestedAll p.body → name ∉ e.names)) ∧
    ∀ (lib : Library) (toolkit : Toolkit) (inquiry : Inquiry),
      lib.Accepted → p ∈ lib.procedures → n ∉ lib.names →
      ∃ q, p.inverse n = .ok q ∧
        ((∃ lib' inquiry', lib.register toolkit [q] inquiry = .ok lib' inquiry') ↔
          (∀ loc name e, .declare loc name e ∈ nestedAll p.body → name ∉ e.names) ∧
            ∃ inquiry', lib.verify toolkit [q] inquiry = .ok () inquiry') := by
  constructor
  · intro t hp hself hnew
    obtain ⟨q, hq, -, -, hcheck, hlegal⟩ := check_inverse hp (Table.carries_extend hself hnew)
    exact ⟨q, hq, hcheck, hlegal⟩
  · intro lib toolkit inquiry hlib hp hn
    obtain ⟨t, hkeeps, hcheck⟩ := hlib.keeps hp
    have hcarries : t.Carries (lib.tableWith [{ p with name := n }]) [(p.name, n)] :=
      hkeeps.carries hlib.consistent.names hp hn rfl
    obtain ⟨q, hq, hname, hparams, -, hlegal⟩ := check_inverse hcheck hcarries
    have htable : lib.tableWith [q] = lib.tableWith [{ p with name := n }] :=
      Library.tableWith_congr hname hparams
    refine ⟨q, hq, ?_⟩
    rw [Library.register_singleton, htable, hlegal, hname]
    exact and_iff_right hn

/-- The inverse of `triangle` is legal, and can be registered beside it. -/
theorem triangle_inverse_legal :
    (∃ q, Sample.triangle.inverse "triangle_inv" = .ok q ∧
      check (Table.extend ⟨[("triangle", 2)], fun _ => false⟩ "triangle_inv" 2) q = .ok []) ∧
    ∃ q, Sample.triangle.inverse "triangle_inv" = .ok q ∧ ∃ lib' inquiry',
      (Sample.library true).register default [q] {} = .ok lib' inquiry' := by
  have hplain : ∀ loc name e, .declare loc name e ∈ nestedAll Sample.triangle.body →
      name ∉ e.names := fun loc name e hmem =>
    Sample.not_mem_names_of_declare true loc name e ⟨Sample.triangle, List.mem_cons_self, hmem⟩
  constructor
  · obtain ⟨q, hq, -, hlegal⟩ := (Procedure.inverse_legal_iff Sample.triangle "triangle_inv").1
      ⟨[("triangle", 2)], fun _ => false⟩ rfl rfl rfl
    exact ⟨q, hq, hlegal.mpr hplain⟩
  · obtain ⟨q, hq, hregister⟩ := (Procedure.inverse_legal_iff Sample.triangle "triangle_inv").2
      (Sample.library true) default {} (Sample.accepted true) List.mem_cons_self
      (by decide)
    exact ⟨q, hq, hregister.mpr ⟨hplain, _, rfl⟩⟩

namespace Sample

/-- `own()` has a local that begins with its own value. -/
def own : Procedure :=
  { name := "own"
    params := []
    body := [.declare none "t" (.var none "t"), .discard none "t" (.int none 0)] }

/-- The inverse of `own`, which ends the local with its own value. -/
def ownInverse : Procedure :=
  { name := "own_inv"
    params := []
    body := [.declare none "t" (.int none 0), .discard none "t" (.var none "t")] }

end Sample

/-- The procedure `own` is legal, and its inverse is not. -/
theorem own_inverse_illegal :
    check ⟨[("own", 0)], fun _ => false⟩ Sample.own = .ok [] ∧
      Sample.own.inverse "own_inv" = .ok Sample.ownInverse ∧
      check (Table.extend ⟨[("own", 0)], fun _ => false⟩ "own_inv" 0) Sample.ownInverse ≠
        .ok [] := by
  refine ⟨rfl, rfl, ?_⟩
  intro h
  cases (check_eq_ok_nil.mp h).2

end Retrace
