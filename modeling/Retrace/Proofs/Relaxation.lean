import Retrace.Proofs.Confinement

/-!
# Laxer settings and wider integers

A run that completes also completes under settings that check less, with the same result: calls may
nest deeper, guards need not be checked backward, and slots may hold more values. Nothing in a run
wraps around or looks at the width of its numbers, except to refuse a value or the count of a shift.

`Memory.retype` and `Machine.retype` exchange the integer types of all stores and of the frame, and
nothing else. `Library.Admits` compares two libraries, of which the second allows what the first
one does with the types exchanged; `exec_of_admits` is the statement for all runs. The types stay
the same in `Library.Relaxes`, and so does the memory that a run leaves (`run_of_relaxes`).
-/

namespace Retrace

open Actions

/-! ## Other integer types -/

/-- Every value of a type is one of `wide`, and shifts may count as far at least. -/
structure IntType.Within (t wide : IntType) : Prop where
  range : ∀ v, t.contains v = true → wide.contains v = true
  bits : t.bits ≤ wide.bits

theorem IntType.Within.refl (t : IntType) : t.Within t := ⟨fun _ h => h, Nat.le_refl _⟩

/-- `new` in the place of `old`. -/
def IntType.exchange (old new t : IntType) : IntType := if t = old then new else t

theorem IntType.Within.exchange {old new : IntType} (h : old.Within new) (t : IntType) :
    t.Within (old.exchange new t) := by
  unfold IntType.exchange
  split
  · rename_i ht
    rw [ht]
    exact h
  · exact .refl t

variable {φ : IntType → IntType}

namespace Store

/-- A store with another type. -/
def retype (φ : IntType → IntType) (s : Store) : Store := { s with intType := φ s.intType }

end Store

namespace Heap

/-- A heap whose stores have other types. -/
def retype (φ : IntType → IntType) (h : Heap) : Heap := ⟨h.stores.map (Store.retype φ)⟩

@[simp] theorem size_retype (h : Heap) : (h.retype φ).size = h.size := by
  simp [retype, size]

theorem store_retype (h : Heap) (id : Nat) :
    (h.retype φ).store id = if id < h.size then (h.store id).retype φ else {} := by
  unfold store retype size
  rw [Array.getD_eq_getD_getElem?, Array.getD_eq_getD_getElem?, Array.getElem?_map]
  by_cases hid : id < h.stores.size
  · simp [hid]
  · simp [hid]

theorem cells_retype (h : Heap) (id : Nat) : ((h.retype φ).store id).cells = (h.store id).cells := by
  rw [store_retype]
  split
  · rfl
  · rw [store_of_size_le (by omega)]

@[simp] theorem poisoned_retype (h : Heap) (id : Nat) :
    ((h.retype φ).store id).poisoned = (h.store id).poisoned := by
  rw [store_retype]
  split
  · rfl
  · rw [store_of_size_le (by omega)]

/-- Types do not show in what slots hold. -/
@[simp] theorem cell?_retype (h : Heap) (s : Slot) : (h.retype φ).cell? s = h.cell? s := by
  simp only [cell?, Store.cell?, cells_retype]

@[simp] theorem fresh_retype (h : Heap) (id : Nat) : (h.retype φ).fresh id = h.fresh id := by
  simp only [fresh, cells_retype]

theorem retype_setStore (h : Heap) (id : Nat) (s : Store) :
    (h.setStore id s).retype φ = (h.retype φ).setStore id (s.retype φ) := by
  simp [retype, setStore, Array.map_setIfInBounds]

theorem setStore_of_size_le {h : Heap} {id : Nat} (hid : h.size ≤ id) (s : Store) :
    h.setStore id s = h := by
  unfold size at hid
  simp [setStore, Array.setIfInBounds_eq_of_size_le hid]

theorem retype_put (h : Heap) (s : Slot) (cell : Option Int) :
    (h.put s cell).retype φ = (h.retype φ).put s cell := by
  unfold put
  rw [retype_setStore]
  by_cases hid : s.store < h.size
  · rw [store_retype, if_pos hid]
    rfl
  · rw [setStore_of_size_le (by simpa using hid), setStore_of_size_le (by simpa using hid)]

theorem retype_grow (h : Heap) (id : Nat) (value : Int) :
    (h.grow id value).retype φ = (h.retype φ).grow id value := by
  unfold grow
  rw [retype_setStore]
  by_cases hid : id < h.size
  · rw [store_retype, if_pos hid]
    rfl
  · rw [setStore_of_size_le (by simpa using hid), setStore_of_size_le (by simpa using hid)]

theorem retype_push (h : Heap) (s : Store) :
    (h.push s).retype φ = (h.retype φ).push (s.retype φ) := by
  simp [retype, push]

theorem retype_pop (h : Heap) : h.pop.retype φ = (h.retype φ).pop := by
  simp [retype, pop, Array.map_pop]

@[simp] theorem retype_id (h : Heap) : h.retype id = h := by
  have hid : Store.retype id = id := by
    funext s
    rfl
  simp [retype, hid]

/-- What a store can hold, it can hold with a wider type. -/
theorem contains_retype (hφ : ∀ t : IntType, t.Within (φ t)) {h : Heap} {id : Nat} {v : Int}
    (hv : (h.store id).intType.contains v = true) :
    ((h.retype φ).store id).intType.contains v = true := by
  rw [store_retype]
  split
  · exact (hφ _).range v hv
  · rename_i hid
    rwa [store_of_size_le (by omega)] at hv

end Heap

/-- A memory whose stores have other types. -/
def Memory.retype (φ : IntType → IntType) (mem : Memory) : Memory :=
  { mem with heap := mem.heap.retype φ }

/-- A frame with another type. -/
def Frame.retype (φ : IntType → IntType) (f : Frame) : Frame := { f with intType := φ f.intType }

/-- A machine whose stores and whose frame have other types. -/
def Machine.retype (φ : IntType → IntType) (m : Machine) : Machine :=
  ⟨m.toMemory.retype φ, m.frame.retype φ⟩

@[simp] theorem Memory.retype_id (mem : Memory) : mem.retype id = mem := by
  simp [Memory.retype]

/-! ## Libraries -/

/-- A library with the same procedures that allows what the first one does, where `φ` says which
integer types take the place of the old ones. -/
structure Library.Admits (φ : IntType → IntType) (lib lax : Library) : Prop where
  types : ∀ t : IntType, t.Within (φ t)
  intType : lax.intType = φ lib.intType
  functions : lax.functions = lib.functions
  procedures : lax.procedures = lib.procedures
  depth : lib.settings.maxCallDepth ≤ lax.settings.maxCallDepth
  guards : lax.settings.checkGuardOnBackward = true → lib.settings.checkGuardOnBackward = true

/-- A library with the same procedures whose runs are checked for no more. -/
structure Library.Relaxes (lib lax : Library) : Prop where
  intType : lax.intType = lib.intType
  functions : lax.functions = lib.functions
  procedures : lax.procedures = lib.procedures
  depth : lib.settings.maxCallDepth ≤ lax.settings.maxCallDepth
  guards : lax.settings.checkGuardOnBackward = true → lib.settings.checkGuardOnBackward = true

theorem Library.Relaxes.admits {lib lax : Library} (h : lib.Relaxes lax) : lib.Admits id lax :=
  ⟨IntType.Within.refl, h.intType, h.functions, h.procedures, h.depth, h.guards⟩

/-! ## Expressions -/

namespace Library.Admits

variable {lib lax : Library} {m : Machine} {e : Expr}

/-- With the types exchanged, the same names stand for the same slots. -/
theorem extends_id (h : lib.Admits φ lax) (m : Machine) (names : List String) :
    (m.scope lib).Extends id names ((m.retype φ).scope lax) where
  functions := h.functions
  width := (h.types m.frame.intType).bits
  lookup x _ b hb := by
    rw [Binding.rename_id]
    exact hb

theorem value (h : lib.Admits φ lax) {v : Value} (hv : (m.scope lib).value e = .ok v) :
    ((m.retype φ).scope lax).value e = .ok v :=
  Scope.value_of_extends (h.extends_id m _) hv fun _ _ => Heap.cell?_retype ..

theorem test (h : lib.Admits φ lax) {b : Bool} (hb : (m.scope lib).test e = .ok b) :
    ((m.retype φ).scope lax).test e = .ok b :=
  Scope.test_of_extends (h.extends_id m _) hb fun _ _ => Heap.cell?_retype ..

theorem eval (h : lib.Admits φ lax) {reads reads' : List Slot} {v : Value}
    (hv : (m.scope lib).eval e reads = .ok v reads') :
    ((m.retype φ).scope lax).eval e reads = .ok v reads' := by
  have heval := Scope.eval_of_extends (h.extends_id m _) hv fun _ _ _ => Heap.cell?_retype ..
  rwa [List.map_id, List.map_id] at heval

theorem locate (h : lib.Admits φ lax) {reads reads' : List Slot} {s : Slot}
    (hs : (m.scope lib).locate e reads = .ok s reads') :
    ((m.retype φ).scope lax).locate e reads = .ok s reads' := by
  have hlocate := Scope.locate_of_extends (h.extends_id m _) hs fun _ _ _ => Heap.cell?_retype ..
  rwa [List.map_id, List.map_id] at hlocate

theorem argument (h : lib.Admits φ lax) {reads reads' : List Slot} {b : Binding}
    (hb : (m.scope lib).argument e reads = .ok b reads') :
    ((m.retype φ).scope lax).argument e reads = .ok b reads' := by
  have hargument := Scope.argument_of_extends (h.extends_id m _) hb fun _ _ _ =>
    Heap.cell?_retype ..
  rwa [List.map_id, List.map_id, Binding.rename_id] at hargument

theorem get (h : lib.Admits φ lax) (name : String) : lax.get name = lib.get name := by
  unfold Library.get Library.find? Library.names
  rw [h.procedures]

theorem arguments (h : lib.Admits φ lax) {args : List Expr}
    {p : List (String × Binding) × List (String × List Slot)}
    (hargs : Execution.arguments lib args m = .ok p m) :
    Execution.arguments lax args (m.retype φ) = .ok p (m.retype φ) := by
  induction args generalizing p with
  | nil =>
    obtain ⟨rfl, -⟩ := pure_eq_ok.mp hargs
    rfl
  | cons arg rest ih =>
    obtain ⟨⟨b, reads⟩, _, hb, h₁⟩ := bind_eq_ok.mp hargs
    obtain ⟨hb, rfl⟩ := Execution.reading_eq_ok.mp hb
    obtain ⟨⟨bindings, allReads⟩, _, hrest, h₂⟩ := bind_eq_ok.mp h₁
    obtain ⟨rfl, rfl⟩ := pure_eq_ok.mp h₂
    exact bind_eq_ok.mpr ⟨(b, reads), _, Execution.reading_eq_ok.mpr ⟨h.argument hb, rfl⟩,
      bind_eq_ok.mpr ⟨(bindings, allReads), _, ih hrest, rfl⟩⟩

end Library.Admits

/-! ## Statements -/

namespace Execution

variable {lib lax : Library} {d : Direction} {m m' : Machine}

theorem assign_of_admits (h : lib.Admits φ lax) {target value : Expr} {op : String}
    (hx : assign lib d target op value m = .ok () m') :
    assign lax d target op value (m.retype φ) = .ok () (m'.retype φ) := by
  obtain ⟨u, s, r₁, v, r₂, c, hu, hs, hv, hr, hc, ht, rfl⟩ := assign_eq_ok.mp hx
  refine assign_eq_ok.mpr ⟨u, s, r₁, v, r₂, c, hu, h.locate hs, h.eval hv, hr, ?_, ?_, ?_⟩
  · exact (Heap.cell?_retype ..).trans hc
  · exact Heap.contains_retype h.types ht
  · simp only [Machine.retype, Memory.retype, Heap.retype_put]

theorem swap_of_admits (h : lib.Admits φ lax) {left right : Expr}
    (hx : swap lib left right m = .ok () m') :
    swap lax left right (m.retype φ) = .ok () (m'.retype φ) := by
  obtain ⟨s, r₁, t, r₂, a, b, hs, ht, hne, hr, ha, hb, hbs, hat, rfl⟩ := swap_eq_ok.mp hx
  refine swap_eq_ok.mpr ⟨s, r₁, t, r₂, a, b, h.locate hs, h.locate ht, hne, hr, ?_, ?_, ?_, ?_, ?_⟩
  · exact (Heap.cell?_retype ..).trans ha
  · exact (Heap.cell?_retype ..).trans hb
  · exact Heap.contains_retype h.types hbs
  · exact Heap.contains_retype h.types hat
  · simp only [Machine.retype, Memory.retype, Heap.retype_put]

theorem introduce_of_admits (h : lib.Admits φ lax) {name : String} {e : Expr}
    (hx : introduce lib name e m = .ok () m') :
    introduce lax name e (m.retype φ) = .ok () (m'.retype φ) := by
  obtain ⟨v, hv, hname, ht, rfl⟩ := introduce_eq_ok.mp hx
  refine introduce_eq_ok.mpr ⟨v, h.value hv, hname, Heap.contains_retype h.types ht, ?_⟩
  simp only [Machine.retype, Memory.retype, Heap.retype_grow, Heap.fresh_retype]
  rfl

theorem remove_of_admits (h : lib.Admits φ lax) {name : String} {e : Expr}
    (hx : remove lib name e m = .ok () m') :
    remove lax name e (m.retype φ) = .ok () (m'.retype φ) := by
  obtain ⟨v, s, hv, hs, hc, hl, rfl⟩ := remove_eq_ok.mp hx
  refine remove_eq_ok.mpr ⟨v, s, h.value hv, hs, (Heap.cell?_retype ..).trans hc, hl, ?_⟩
  simp only [Machine.retype, Memory.retype, Heap.retype_put]
  rfl

section Compound

variable {run lrun : Stmt → Execution Unit}

theorem block_of_admits {body : List Stmt}
    (hrun : ∀ s m m', run s m = .ok () m' → lrun s (m.retype φ) = .ok () (m'.retype φ))
    (hx : block run d body m = .ok () m') :
    block lrun d body (m.retype φ) = .ok () (m'.retype φ) := by
  have hforM : ∀ (stmts : List Stmt) (m : Machine), stmts.forM run m = .ok () m' →
      stmts.forM lrun (m.retype φ) = .ok () (m'.retype φ) := by
    intro stmts
    induction stmts with
    | nil =>
      intro m hx
      rw [forM_nil_eq_ok.mp hx]
      rfl
    | cons s rest ih =>
      intro m hx
      obtain ⟨m₁, h₁, h₂⟩ := forM_cons_eq_ok.mp hx
      exact forM_cons_eq_ok.mpr ⟨m₁.retype φ, hrun s m m₁ h₁, ih m₁ h₂⟩
  exact hforM _ m hx

theorem repeatUntil_of_admits (h : lib.Admits φ lax) {last : Expr}
    {body lbody : Nat → Execution Unit}
    (hbody : ∀ i m m', body i m = .ok () m' → lbody i (m.retype φ) = .ok () (m'.retype φ))
    {fuel i : Nat} (hx : repeatUntil (test lib last) body fuel i m = .ok () m') :
    repeatUntil (test lax last) lbody fuel i (m.retype φ) = .ok () (m'.retype φ) := by
  induction fuel generalizing i m with
  | zero => cases hx
  | succ fuel ih =>
    rw [repeatUntil_succ_eq_ok]
    rcases repeatUntil_succ_eq_ok.mp hx with ⟨hdone, rfl⟩ | ⟨hlast, m₁, h₁, h₂⟩
    · exact Or.inl ⟨h.test hdone, rfl⟩
    · exact Or.inr ⟨h.test hlast, m₁.retype φ, hbody _ m m₁ h₁, ih h₂⟩

end Compound

theorem runProcedure_of_admits (h : lib.Admits φ lax)
    {run lrun : Direction → Stmt → Execution Unit}
    (hrun : ∀ d s m m', run d s m = .ok () m' → lrun d s (m.retype φ) = .ok () (m'.retype φ))
    {p : Procedure} {args : List Binding} {depth : Int} {mem mem' : Memory}
    (hx : runProcedure lib run p args d depth mem = .ok () mem') :
    runProcedure lax lrun p args d depth (mem.retype φ) = .ok () (mem'.retype φ) := by
  obtain ⟨hdepth, hcount, happart, m', hbody, rfl⟩ := runProcedure_eq_ok.mp hx
  have hentered : lax.entered p args d depth (mem.retype φ) =
      (lib.entered p args d depth mem).retype φ := by
    simp only [Library.entered, Library.frameOf, Machine.retype, Memory.retype, Frame.retype,
      Heap.retype_push, h.intType, Heap.size_retype]
    rfl
  refine runProcedure_eq_ok.mpr ⟨Int.le_trans hdepth h.depth, hcount, happart, m'.retype φ, ?_, ?_⟩
  · rw [hentered]
    exact block_of_admits (hrun d) hbody
  · simp only [Machine.left, Machine.retype, Memory.retype, Heap.retype_pop]

theorem retype_traced (s : Stmt) (m : Machine) : (traced s m).retype φ = traced s (m.retype φ) := by
  unfold traced
  split <;> rfl

/-- **Allowing more changes no run that completes.** -/
theorem exec_of_admits (h : lib.Admits φ lax) {fuel : Nat} {s : Stmt}
    (hx : exec lib fuel d s m = .ok () m') :
    exec lax fuel d s (m.retype φ) = .ok () (m'.retype φ) := by
  induction fuel generalizing d s m m' with
  | zero => cases hx
  | succ fuel ih =>
    have hrun : ∀ d s (n n' : Machine), exec lib fuel d s n = .ok () n' →
        exec lax fuel d s (n.retype φ) = .ok () (n'.retype φ) := fun d s n n' hx => ih hx
    have hblock : ∀ body (n n' : Machine), block (exec lib fuel d) d body n = .ok () n' →
        block (exec lax fuel d) d body (n.retype φ) = .ok () (n'.retype φ) := fun body n n' =>
      block_of_admits (hrun d)
    rw [exec_succ_eq_ok] at hx ⊢
    rw [← retype_traced]
    cases s with
    | assign loc target op value => exact assign_of_admits h hx
    | branch loc guard thenBody elseBody assertion =>
      obtain ⟨b, hfirst, hbody, hsecond⟩ := branch_eq_ok.mp hx
      exact branch_eq_ok.mpr ⟨b, h.test hfirst, hblock _ _ _ hbody, fun hchecks =>
        h.test (hsecond (hchecks.imp id h.guards))⟩
    | call loc callee args uncall =>
      obtain ⟨p, bindings, reads, mem', hp, hargs, hnodup, hreads, hbody, rfl⟩ := call_eq_ok.mp hx
      refine call_eq_ok.mpr ⟨p, bindings, reads, mem'.retype φ, ?_, h.arguments hargs, hnodup,
        hreads, runProcedure_of_admits h hrun hbody, rfl⟩
      rwa [h.get]
    | declare loc name value =>
      cases d with
      | forward => exact introduce_of_admits h hx
      | backward => exact remove_of_admits h hx
    | discard loc name value =>
      cases d with
      | forward => exact remove_of_admits h hx
      | backward => exact introduce_of_admits h hx
    | loop loc entry doBody loopBody exit =>
      obtain ⟨hfirst, m₁, h₁, h₂⟩ := loop_eq_ok.mp hx
      refine loop_eq_ok.mpr ⟨h.test hfirst, m₁.retype φ, hblock _ _ _ h₁,
        repeatUntil_of_admits h ?_ h₂⟩
      intro i n n' hagain
      obtain ⟨n₁, hn₁, hfalse, hn'⟩ := again_eq_ok.mp hagain
      exact again_eq_ok.mpr ⟨n₁.retype φ, hblock _ _ _ hn₁, h.test hfalse, hblock _ _ _ hn'⟩
    | swap loc left right => exact swap_of_admits h hx
    | block loc body => exact hblock body _ _ hx
    | hole loc => cases hx

end Execution

/-! ## Procedures -/

namespace Library

variable {lib lax : Library} {fuel : Nat} {args : List Binding} {d : Direction} {mem mem' : Memory}

theorem run_of_admits (h : lib.Admits φ lax) {p : Procedure} {depth : Int}
    (hx : lib.run fuel p args d depth mem = .ok () mem') :
    lax.run fuel p args d depth (mem.retype φ) = .ok () (mem'.retype φ) := by
  have hrun : ∀ d s (m m' : Machine), Execution.exec lib fuel d s m = .ok () m' →
      Execution.exec lax fuel d s (m.retype φ) = .ok () (m'.retype φ) :=
    fun _ _ _ _ hx => Execution.exec_of_admits h hx
  exact Execution.runProcedure_of_admits h hrun hx

/-- A procedure that completes completes also in a laxer library. -/
theorem run_of_relaxes (h : lib.Relaxes lax) {p : Procedure} {depth : Int}
    (hx : lib.run fuel p args d depth mem = .ok () mem') :
    lax.run fuel p args d depth mem = .ok () mem' := by
  simpa using run_of_admits h.admits hx

/-- **Relaxing the settings never changes a run that completes.** Let a library have the same
procedures and functions, allow calls at least as deep, check guards backward only if the first one
does, and let its integer type hold at least the same values and be as wide. A run that completes in
the first library completes in the second one, where the stores have the new type and the same
slots, and leaves the same values in all slots. -/
theorem runNamed_of_laxer {name : String} (hprocedures : lax.procedures = lib.procedures)
    (hfunctions : lax.functions = lib.functions)
    (hdepth : lib.settings.maxCallDepth ≤ lax.settings.maxCallDepth)
    (hguards : lax.settings.checkGuardOnBackward = true →
      lib.settings.checkGuardOnBackward = true)
    (hrange : ∀ v, lib.intType.contains v = true → lax.intType.contains v = true)
    (hbits : lib.intType.bits ≤ lax.intType.bits)
    (h : lib.runNamed fuel name args d mem = .ok () mem') :
    ∃ wide, lax.runNamed fuel name args d (mem.retype (lib.intType.exchange lax.intType)) =
        .ok () wide ∧
      wide = mem'.retype (lib.intType.exchange lax.intType) ∧
      ∀ s, wide.heap.cell? s = mem'.heap.cell? s := by
  have hadmits : lib.Admits (lib.intType.exchange lax.intType) lax :=
    ⟨IntType.Within.exchange ⟨hrange, hbits⟩, by simp [IntType.exchange], hfunctions, hprocedures,
      hdepth, hguards⟩
  obtain ⟨p, hp, hclean, hrun⟩ := runNamed_eq_ok.mp h
  refine ⟨_, runNamed_eq_ok.mpr ⟨p, ?_, fun id hid => ?_, run_of_admits hadmits hrun⟩, rfl,
    fun s => Heap.cell?_retype ..⟩
  · rw [hadmits.get, hp]
  · exact (Heap.poisoned_retype ..).trans (hclean id hid)

end Library

namespace Sample

/-- `scale(x, y)` adds four times a positive `x` to `y`. -/
def scale : Procedure :=
  { name := "scale"
    params := [⟨"x", none⟩, ⟨"y", none⟩]
    body :=
      [.branch none (.binary none ">" (.var none "x") (.int none 0))
        [.declare none "t" (.binary none "<<" (.var none "x") (.int none 2)),
          .assign none (.var none "y") "+=" (.var none "t"),
          .discard none "t" (.binary none "<<" (.var none "x") (.int none 2))] []
        (.binary none ">" (.var none "y") (.int none 0))] }

/-- Signed numbers of eight bits. -/
def byte : IntType := ⟨8, true, Nat.succ_pos 7⟩

/-- Unsigned numbers of eight bits, no calls, and guards checked backward. -/
def narrow : Library :=
  { settings :=
      { intType := "u8", checkGuardOnBackward := true, maxCallDepth := 1, pureFunctions := [] }
    intType := { byte with signed := false }
    functions := []
    procedures := [scale] }

/-- Signed numbers of sixteen bits, deep calls, and guards not checked backward. -/
def wide : Library :=
  { settings := { intType := "i16", pureFunctions := [] }
    intType := ⟨16, true, Nat.succ_pos 15⟩
    functions := []
    procedures := [scale] }

/-- One store with two slots, for `x` and `y`. -/
def scaled : Memory :=
  { heap := ⟨#[{ intType := ⟨8, false, Nat.succ_pos 7⟩, cells := #[some 60, some 240] }]⟩ }

end Sample

/-- A backward run with a local, a shift and a guard, in small unsigned numbers and in larger signed
ones. -/
theorem scale_in_wide : ∃ mem' wide,
    Sample.narrow.runNamed 10 "scale" [.scalar ⟨0, 0⟩, .scalar ⟨0, 1⟩] .backward Sample.scaled =
        .ok () mem' ∧
      Sample.wide.runNamed 10 "scale" [.scalar ⟨0, 0⟩, .scalar ⟨0, 1⟩] .backward
          (Sample.scaled.retype (Sample.narrow.intType.exchange Sample.wide.intType)) =
        .ok () wide ∧
      ∀ s, wide.heap.cell? s = mem'.heap.cell? s := by
  have hruns : completes (Sample.narrow.runNamed 10 "scale" [.scalar ⟨0, 0⟩, .scalar ⟨0, 1⟩]
      .backward) Sample.scaled = true := by decide +kernel
  obtain ⟨_, mem', h⟩ := exists_of_completes hruns
  have hrange : ∀ v, Sample.narrow.intType.contains v = true →
      Sample.wide.intType.contains v = true := by
    intro v hv
    have hnarrow : 0 ≤ v ∧ v ≤ 255 := (IntType.contains_iff _ _).mp hv
    have hwide : -32768 ≤ v ∧ v ≤ 32767 := by omega
    exact (IntType.contains_iff _ _).mpr hwide
  have hprocedures : Sample.wide.procedures = Sample.narrow.procedures := rfl
  obtain ⟨wide, hwide, -, hcells⟩ := Library.runNamed_of_laxer hprocedures rfl (by decide) nofun
    hrange (by decide) h
  exact ⟨mem', wide, h, hwide, hcells⟩

end Retrace
