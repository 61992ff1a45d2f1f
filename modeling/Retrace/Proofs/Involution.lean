import Retrace.Proofs.InverseLegality

/-!
# Inversion is an involution

The inverse of the inverse of a procedure, under its old name, is the procedure itself, places
included (`Procedure.inverse_inverse_iff`). Two things can stand in the way, and nothing else does:
a statement that has no inverse at all, and a call of the new name. The first inversion turns such
a call round and leaves it where it is, among the calls that it has sent to the new name itself; the
second one cannot tell them apart, and sends all of them to the old name.
-/

namespace Retrace

open Actions

/-- The symbol of an operator is the only one that denotes it. -/
theorem Update.symbol_of_ofSymbol {text : String} {u : Update} (h : ofSymbol text = .ok u) :
    u.symbol = text := by
  unfold ofSymbol at h
  split at h
  · rename_i hfound
    cases h
    simpa using List.find?_some hfound
  · cases h

namespace Stmt

/-- A statement has an inverse, and it is no call of the new name that calls of the old one are sent
to, unless the two names are the same. -/
structure Returns (old new : String) (s : Stmt) : Prop where
  present : ∀ l, s ≠ hole l
  operator : ∀ l target op value, s = assign l target op value → ∃ u, Update.ofSymbol op = .ok u
  callee : ∀ l args uncall, s = call l new args uncall → new = old

variable {renames : List (String × String)} {old new : String}

/-! ## There and back -/

/-- The inverse of a call is turned back, if the second inversion takes it for what it is. -/
theorem inverse_inverse_call {l : Option Location} {callee : String} {args : List Expr}
    {uncall : Bool} (h : callee = new → new = old) :
    ∃ s', (call l callee args uncall).inverse [(old, new)] = .ok s' ∧
      s'.inverse [(new, old)] = .ok (call l callee args uncall) := by
  by_cases hold : old = callee
  · exact ⟨call l new args uncall, by simp [inverse, hold], by simp [inverse, hold]⟩
  · have hnew : new ≠ callee := fun hnew => hold ((h hnew.symm).symm.trans hnew)
    exact ⟨call l callee args !uncall, by simp [inverse, hold], by simp [inverse, hnew]⟩

/-- The inverse of a body with one more statement at its end begins with the inverse of that. -/
theorem inverseBody_concat {body body' : List Stmt} {s s' : Stmt}
    (hbody : inverseBody renames body = .ok body') (hs : s.inverse renames = .ok s') :
    inverseBody renames (body ++ [s]) = .ok (s' :: body') := by
  induction body generalizing body' with
  | nil =>
    cases hbody
    exact inverseBody_cons_eq_ok.mpr ⟨[], rfl, s', hs, rfl⟩
  | cons t rest ih =>
    obtain ⟨rest', hrest, t', ht, rfl⟩ := inverseBody_cons_eq_ok.mp hbody
    exact inverseBody_cons_eq_ok.mpr ⟨s' :: rest', ih hrest, t', ht, rfl⟩

mutual

/-- A statement is the inverse of its inverse. -/
theorem exists_inverse_inverse : ∀ {s : Stmt}, (∀ u ∈ s.nested, u.Returns old new) →
    ∃ s', s.inverse [(old, new)] = .ok s' ∧ s'.inverse [(new, old)] = .ok s
  | .assign l target op value, h => by
    obtain ⟨u, hu⟩ := (h _ (mem_nested_self _)).operator l target op value rfl
    refine ⟨_, inverse_assign_eq_ok.mpr ⟨u, hu, rfl⟩, inverse_assign_eq_ok.mpr ⟨u.inverse, ?_, ?_⟩⟩
    · exact Update.ofSymbol_symbol u.inverse
    · rw [Update.inverse_inverse, Update.symbol_of_ofSymbol hu]
  | .branch _ _ first second _, h => by
    have hbodies := (forall_mem_nested.mp h).2
    obtain ⟨first', hfirst, hfirst'⟩ := exists_inverseBody_inverseBody
      (hbodies first (by simp [bodies]))
    obtain ⟨second', hsecond, hsecond'⟩ := exists_inverseBody_inverseBody
      (hbodies second (by simp [bodies]))
    exact ⟨_, inverse_branch_eq_ok.mpr ⟨first', hfirst, second', hsecond, rfl⟩,
      inverse_branch_eq_ok.mpr ⟨first, hfirst', second, hsecond', rfl⟩⟩
  | .loop _ _ first second _, h => by
    have hbodies := (forall_mem_nested.mp h).2
    obtain ⟨first', hfirst, hfirst'⟩ := exists_inverseBody_inverseBody
      (hbodies first (by simp [bodies]))
    obtain ⟨second', hsecond, hsecond'⟩ := exists_inverseBody_inverseBody
      (hbodies second (by simp [bodies]))
    exact ⟨_, inverse_loop_eq_ok.mpr ⟨first', hfirst, second', hsecond, rfl⟩,
      inverse_loop_eq_ok.mpr ⟨first, hfirst', second, hsecond', rfl⟩⟩
  | .block _ body, h => by
    obtain ⟨body', hbody, hbody'⟩ := exists_inverseBody_inverseBody
      ((forall_mem_nested.mp h).2 body (by simp [bodies]))
    exact ⟨_, inverse_block_eq_ok.mpr ⟨body', hbody, rfl⟩,
      inverse_block_eq_ok.mpr ⟨body, hbody', rfl⟩⟩
  | .call l callee args uncall, h =>
    inverse_inverse_call fun hnew => (h _ (mem_nested_self _)).callee l args uncall (hnew ▸ rfl)
  | .declare .., _ | .discard .., _ | .swap .., _ => ⟨_, rfl, rfl⟩
  | .hole l, h => absurd rfl ((h _ (mem_nested_self _)).present l)

/-- A body is the inverse of its inverse. -/
theorem exists_inverseBody_inverseBody : ∀ {body : List Stmt},
    (∀ u ∈ nestedAll body, u.Returns old new) →
      ∃ body', inverseBody [(old, new)] body = .ok body' ∧
        inverseBody [(new, old)] body' = .ok body
  | [], _ => ⟨[], rfl, rfl⟩
  | s :: rest, h => by
    rw [nestedAll, List.forall_mem_append] at h
    obtain ⟨s', hs, hs'⟩ := exists_inverse_inverse h.1
    obtain ⟨rest', hrest, hrest'⟩ := exists_inverseBody_inverseBody h.2
    exact ⟨_, inverseBody_cons_eq_ok.mpr ⟨rest', hrest, s', hs, rfl⟩,
      inverseBody_concat hrest' hs'⟩

end

/-! ## What stands in the way -/

mutual

/-- If a statement has an inverse, so have all statements inside it. -/
theorem exists_inverse_of_mem_nested : ∀ {s s' : Stmt}, s.inverse renames = .ok s' →
    ∀ u ∈ s.nested, ∃ u', u.inverse renames = .ok u'
  | .branch .., _, hs | .loop .., _, hs => by
    have hself := hs
    simp only [inverse_branch_eq_ok, inverse_loop_eq_ok] at hs
    obtain ⟨first', hfirst, second', hsecond, rfl⟩ := hs
    simp only [nested, List.forall_mem_cons, List.forall_mem_append]
    exact ⟨⟨_, hself⟩, exists_inverse_of_mem_nestedAll hfirst,
      exists_inverse_of_mem_nestedAll hsecond⟩
  | .block .., _, hs => by
    have hself := hs
    obtain ⟨body', hbody, rfl⟩ := inverse_block_eq_ok.mp hs
    simp only [nested, List.forall_mem_cons]
    exact ⟨⟨_, hself⟩, exists_inverse_of_mem_nestedAll hbody⟩
  | .assign .., s', hs | .call .., s', hs | .declare .., s', hs | .discard .., s', hs
  | .swap .., s', hs | .hole _, s', hs => by
    simp only [nested, List.forall_mem_singleton]
    exact ⟨s', hs⟩

theorem exists_inverse_of_mem_nestedAll : ∀ {body body' : List Stmt},
    inverseBody renames body = .ok body' → ∀ u ∈ nestedAll body, ∃ u', u.inverse renames = .ok u'
  | [], _, _ => by simp [nestedAll]
  | s :: rest, _, h => by
    obtain ⟨rest', hrest, s', hs, rfl⟩ := inverseBody_cons_eq_ok.mp h
    rw [nestedAll, List.forall_mem_append]
    exact ⟨exists_inverse_of_mem_nested hs, exists_inverse_of_mem_nestedAll hrest⟩

end

/-- Only the inverse of a call is a call. -/
theorem exists_call_of_inverse {s : Stmt} {l : Option Location} {callee : String}
    {args : List Expr} {uncall : Bool} (h : s.inverse renames = .ok (call l callee args uncall)) :
    ∃ callee', callee = renamed renames callee' := by
  cases s with
  | call l' callee' args' uncall' =>
    obtain ⟨_, hcall⟩ := inverse_call l' callee' args' uncall'
    cases hcall.symm.trans h
    exact ⟨callee', rfl⟩
  | assign =>
    obtain ⟨_, -, h⟩ := inverse_assign_eq_ok.mp h
    cases h
  | branch =>
    obtain ⟨_, -, _, -, h⟩ := inverse_branch_eq_ok.mp h
    cases h
  | loop =>
    obtain ⟨_, -, _, -, h⟩ := inverse_loop_eq_ok.mp h
    cases h
  | block =>
    obtain ⟨_, -, h⟩ := inverse_block_eq_ok.mp h
    cases h
  | declare | discard | swap | hole => cases h

/-- Every statement of a body that comes back from its inverse returns. -/
theorem returns_of_inverseBody {body body' : List Stmt}
    (h : inverseBody [(old, new)] body = .ok body')
    (h' : inverseBody [(new, old)] body' = .ok body) : ∀ u ∈ nestedAll body, u.Returns old new := by
  intro u hu
  obtain ⟨u', hu'⟩ := exists_inverse_of_mem_nestedAll h u hu
  refine ⟨?_, ?_, ?_⟩
  · rintro l rfl
    cases hu'
  · rintro l target op value rfl
    obtain ⟨update, hupdate, -⟩ := inverse_assign_eq_ok.mp hu'
    exact ⟨update, hupdate⟩
  · rintro l args uncall rfl
    -- the second inversion leaves no call of the new name, unless that is the old one
    obtain ⟨v, -, hv⟩ := (mem_nestedAll_inverse h').mp hu
    obtain ⟨callee, hcallee⟩ := exists_call_of_inverse hv
    rw [Legality.renamed_singleton] at hcallee
    split at hcallee
    · exact hcallee
    · rename_i hne
      exact absurd hcallee hne

end Stmt

/-- **Inversion is an involution.** A procedure that is inverted under a new name and then again
under its old name comes back as it was, places included, exactly if every statement in it, at any
depth, has an inverse and is no call of the new name. -/
theorem Procedure.inverse_inverse_iff (p : Procedure) (n : String) :
    (p.inverse n >>= fun q => q.inverse p.name) = .ok p ↔
      ∀ s ∈ Stmt.nestedAll p.body, s.Returns p.name n := by
  constructor
  · intro h
    obtain ⟨q, hq, hp⟩ := except_bind_eq_ok.mp h
    obtain ⟨body, hbody, hq⟩ := except_bind_eq_ok.mp hq
    obtain ⟨body', hbody', hp⟩ := except_bind_eq_ok.mp hp
    cases hq
    have hback : body' = p.body := congrArg Procedure.body (Except.ok.inj hp)
    exact Stmt.returns_of_inverseBody hbody (hback ▸ hbody')
  · intro h
    obtain ⟨body, hbody, hbody'⟩ := Stmt.exists_inverseBody_inverseBody h
    refine except_bind_eq_ok.mpr ⟨{ p with name := n, body := body }, ?_, ?_⟩
    · exact except_bind_eq_ok.mpr ⟨body, hbody, rfl⟩
    · exact except_bind_eq_ok.mpr ⟨p.body, hbody', rfl⟩

end Retrace
