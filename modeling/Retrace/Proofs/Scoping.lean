import Mathlib.Data.List.Perm.Basic
import Retrace.Proofs.Confinement
import Retrace.Registration

/-!
# Locals begin and end in one block

The legality check follows a block from its start to its end with the list of locals that have
begun and not ended. Seen from a run, that list is what a frame holds in addition to the names that
it held when the block started, in both directions: a block that was found legal leaves the frame as
it was (`frame_of_balanced`).

`Stmt.nested` lists the statements inside a statement at any depth, and `Library.Holds` says that a
statement occurs in a procedure of a library. What registration guarantees is stated for all
statements that a library holds (`Library.Accepted.wellScoped`).
-/

namespace Retrace

/-! ## Statements at any depth -/

mutual

/-- A statement and the statements inside it, at any depth. -/
def Stmt.nested : Stmt → List Stmt
  | .assign l target op value => [.assign l target op value]
  | .branch l guard thenBody elseBody assertion =>
    .branch l guard thenBody elseBody assertion ::
      (Stmt.nestedAll thenBody ++ Stmt.nestedAll elseBody)
  | .call l callee args uncall => [.call l callee args uncall]
  | .declare l name value => [.declare l name value]
  | .discard l name value => [.discard l name value]
  | .loop l entry doBody loopBody exit =>
    .loop l entry doBody loopBody exit :: (Stmt.nestedAll doBody ++ Stmt.nestedAll loopBody)
  | .swap l left right => [.swap l left right]
  | .block l body => .block l body :: Stmt.nestedAll body
  | .hole l => [.hole l]

/-- Some statements and the statements inside them, at any depth. -/
def Stmt.nestedAll : List Stmt → List Stmt
  | [] => []
  | s :: rest => Stmt.nested s ++ Stmt.nestedAll rest

end

namespace Stmt

theorem mem_nested {s t : Stmt} :
    t ∈ s.nested ↔ t = s ∨ ∃ body ∈ s.bodies, t ∈ nestedAll body := by
  cases s <;> simp [nested, bodies]

theorem mem_nested_self (s : Stmt) : s ∈ s.nested := mem_nested.mpr (Or.inl rfl)

theorem mem_nestedAll {body : List Stmt} {t : Stmt} :
    t ∈ nestedAll body ↔ ∃ s ∈ body, t ∈ s.nested := by
  induction body with
  | nil => simp [nestedAll]
  | cons s rest ih => simp [nestedAll, ih]

theorem sizeOf_lt_of_bodies {s t : Stmt} {body : List Stmt} (hbody : body ∈ s.bodies)
    (ht : t ∈ body) : sizeOf t < sizeOf s := by
  have hlt := List.sizeOf_lt_of_mem ht
  cases s <;> simp [bodies] at hbody
  all_goals grind

/-- What is inside a body of a statement inside `s` is inside `s`. -/
theorem nested_of_bodies {s t u : Stmt} {body : List Stmt} (ht : t ∈ s.nested)
    (hbody : body ∈ t.bodies) (hu : u ∈ body) : u ∈ s.nested := by
  induction hsize : sizeOf s using Nat.strongRecOn generalizing s with
  | ind size ih =>
    rcases mem_nested.mp ht with rfl | ⟨outer, houter, ht⟩
    · exact mem_nested.mpr
        (Or.inr ⟨body, hbody, mem_nestedAll.mpr ⟨u, hu, u.mem_nested_self⟩⟩)
    · obtain ⟨v, hv, ht⟩ := mem_nestedAll.mp ht
      have hinner : u ∈ v.nested := ih _ (hsize ▸ sizeOf_lt_of_bodies houter hv) ht rfl
      exact mem_nested.mpr (Or.inr ⟨outer, houter, mem_nestedAll.mpr ⟨v, hv, hinner⟩⟩)

theorem mem_nestedAll_of_mem {body : List Stmt} {s : Stmt} (hs : s ∈ body) : s ∈ nestedAll body :=
  mem_nestedAll.mpr ⟨s, hs, s.mem_nested_self⟩

theorem nestedAll_of_bodies {outer body : List Stmt} {s t : Stmt} (hs : s ∈ nestedAll outer)
    (hbody : body ∈ s.bodies) (ht : t ∈ body) : t ∈ nestedAll outer := by
  obtain ⟨first, hfirst, hs⟩ := mem_nestedAll.mp hs
  exact mem_nestedAll.mpr ⟨first, hfirst, nested_of_bodies hs hbody ht⟩

/-! ## Balanced blocks -/

/-- In the rest of a block, the pending locals and those that begin later end, each once. -/
def Balanced : List String → List Stmt → Prop
  | pending, [] => pending = []
  | pending, .declare _ name _ :: rest => Balanced (pending ++ [name]) rest
  | pending, .discard _ name _ :: rest => name ∈ pending ∧ Balanced (pending.erase name) rest
  | pending, _ :: rest => Balanced pending rest

/-- The bodies of a statement are balanced, and it does not end a local with a value that names
it. -/
structure WellScoped (s : Stmt) : Prop where
  bodies : ∀ body ∈ s.bodies, Balanced [] body
  discard : ∀ loc name e, s = .discard loc name e → name ∉ e.names

end Stmt

namespace Legality

open Stmt

variable {t : Table}

theorem map_fst_ended (name : String) (locals : List (String × Stmt)) :
    (ended name locals).map Prod.fst = (locals.map Prod.fst).erase name := by
  rw [ended, List.erase_eq_eraseP', List.eraseP_map]
  congr 2

theorem check_eq_ok_nil {p : Procedure} :
    check t p = .ok [] ↔ Stmt.anyHole p.body = false ∧ findings t p = [] := by
  unfold check
  cases Stmt.anyHole p.body <;> simp

/-- A statement that ends no local is well scoped at all depths if its bodies are. -/
theorem wellScoped_of_bodies {s : Stmt} (hs : ∀ loc name e, s ≠ .discard loc name e)
    (hbodies : ∀ body ∈ s.bodies, Stmt.Balanced [] body ∧ ∀ u ∈ nestedAll body, u.WellScoped) :
    ∀ u ∈ s.nested, u.WellScoped := by
  intro u hu
  rcases mem_nested.mp hu with rfl | ⟨body, hbody, hu⟩
  · exact ⟨fun body hbody => (hbodies body hbody).1, fun loc name e he => absurd he (hs loc name e)⟩
  · exact (hbodies body hbody).2 u hu

mutual

theorem wellScoped_of_stmtFindings : ∀ {s : Stmt} {visible : List String},
    stmtFindings t visible s = [] → (∀ loc name e, s ≠ .discard loc name e) →
      ∀ u ∈ s.nested, u.WellScoped
  | .branch loc guard thenBody elseBody assertion, visible, h, hs => by
    simp only [stmtFindings, List.append_eq_nil_iff] at h
    exact wellScoped_of_bodies hs (by
      simpa [Stmt.bodies] using
        ⟨balanced_of_blockFindings h.1.2, balanced_of_blockFindings h.2⟩)
  | .loop loc entry doBody loopBody exit, visible, h, hs => by
    simp only [stmtFindings, List.append_eq_nil_iff] at h
    exact wellScoped_of_bodies hs (by
      simpa [Stmt.bodies] using
        ⟨balanced_of_blockFindings h.1.2, balanced_of_blockFindings h.2⟩)
  | .block loc body, visible, h, hs => by
    simp only [stmtFindings] at h
    exact wellScoped_of_bodies hs (by
      simpa [Stmt.bodies] using balanced_of_blockFindings h)
  | .assign .., _, _, hs | .call .., _, _, hs | .declare .., _, _, hs | .discard .., _, _, hs
  | .swap .., _, _, hs | .hole _, _, _, hs =>
    wellScoped_of_bodies hs (by simp [Stmt.bodies])

theorem balanced_of_blockFindings : ∀ {body : List Stmt} {outer names : List String}
    {locals : List (String × Stmt)}, blockFindings t outer names locals body = [] →
      Stmt.Balanced (locals.map Prod.fst) body ∧ ∀ u ∈ nestedAll body, u.WellScoped
  | [], outer, names, locals, h => by
    simp only [blockFindings, List.map_eq_nil_iff] at h
    simp [Stmt.Balanced, nestedAll, h]
  | .declare loc name value :: rest, outer, names, locals, h => by
    simp only [blockFindings, List.append_eq_nil_iff] at h
    obtain ⟨hrest, hall⟩ := balanced_of_blockFindings h.2
    refine ⟨by simpa [Stmt.Balanced] using hrest, fun u hu => ?_⟩
    rw [nestedAll, nested, List.singleton_append, List.mem_cons] at hu
    rcases hu with rfl | hu
    · exact ⟨by simp [Stmt.bodies], nofun⟩
    · exact hall u hu
  | .discard loc name value :: rest, outer, names, locals, h => by
    simp only [blockFindings, List.append_eq_nil_iff] at h
    obtain ⟨-, h⟩ := h
    split at h
    · rename_i hmem
      rw [List.append_eq_nil_iff] at h
      obtain ⟨hrest, hall⟩ := balanced_of_blockFindings h.2
      rw [map_fst_ended] at hrest
      refine ⟨⟨by simpa using hmem, hrest⟩, fun u hu => ?_⟩
      rw [nestedAll, nested, List.singleton_append, List.mem_cons] at hu
      rcases hu with rfl | hu
      · refine ⟨by simp [Stmt.bodies], fun loc' name' e he => ?_⟩
        cases he
        intro hname
        simp [hname] at h
      · exact hall u hu
    · cases h
  | .assign .. :: rest, outer, names, locals, h | .call .. :: rest, outer, names, locals, h
  | .branch .. :: rest, outer, names, locals, h | .loop .. :: rest, outer, names, locals, h
  | .swap .. :: rest, outer, names, locals, h | .block .. :: rest, outer, names, locals, h
  | .hole _ :: rest, outer, names, locals, h => by
    simp only [blockFindings, List.append_eq_nil_iff] at h
    obtain ⟨hrest, hall⟩ := balanced_of_blockFindings h.2
    have hs := wellScoped_of_stmtFindings h.1 nofun
    refine ⟨by simpa [Stmt.Balanced] using hrest, fun u hu => ?_⟩
    rw [nestedAll, List.mem_append] at hu
    exact hu.elim (hs u) (hall u)

end

end Legality

/-! ## Registered procedures -/

/-- The libraries that come about by registering procedures. -/
inductive Library.Accepted : Library → Prop
  | empty {settings : Settings} {further : List (String × HostFunction)} {lib : Library} :
      Library.empty settings further = .ok lib → Accepted lib
  | register {lib lib' : Library} {toolkit : Toolkit} {procedures : List Procedure}
      {inquiry inquiry' : Inquiry} : Accepted lib →
      lib.register toolkit procedures inquiry = .ok lib' inquiry' → Accepted lib'

/-- A statement occurs in a procedure of the library, at any depth. -/
def Library.Holds (lib : Library) (s : Stmt) : Prop :=
  ∃ p ∈ lib.procedures, s ∈ Stmt.nestedAll p.body

/-- All bodies in a library are balanced, and no local ends with a value that names it. -/
structure Library.WellScoped (lib : Library) : Prop where
  body : ∀ p ∈ lib.procedures, Stmt.Balanced [] p.body
  stmt : ∀ s, lib.Holds s → s.WellScoped

namespace Library

open Actions

variable {lib lib' : Library}

theorem refuseRecords_eq_ok {records : List Record} {inquiry inquiry' : Inquiry} {a : Unit} :
    refuseRecords records inquiry = .ok a inquiry' ↔ records = [] ∧ inquiry' = inquiry := by
  unfold refuseRecords
  cases records <;> simp [Failure.registration?, eq_comm]

theorem mem_of_mapM_eq_ok {ε α β : Type} {f : α → Except ε β} :
    ∀ {l : List α} {rs : List β}, l.mapM f = .ok rs → ∀ a ∈ l, ∃ b ∈ rs, f a = .ok b
  | [], _, _ => by simp
  | a :: l, rs, h => by
    rw [List.mapM_cons] at h
    cases ha : f a with
    | error e => simp [ha, bind, Except.bind] at h
    | ok b =>
      cases hl : l.mapM f with
      | error e => simp [ha, hl, bind, Except.bind] at h
      | ok bs =>
        simp only [ha, hl, bind, Except.bind, pure, Except.pure, Except.ok.injEq] at h
        subst h
        intro x hx
        rcases List.mem_cons.mp hx with rfl | hx
        · exact ⟨b, List.mem_cons_self, ha⟩
        · obtain ⟨y, hy, hxy⟩ := mem_of_mapM_eq_ok hl x hx
          exact ⟨y, List.mem_cons_of_mem _ hy, hxy⟩

theorem mapM_eq_ok_replicate {ε α β : Type} {f : α → Except ε β} {b : β} {l : List α}
    (h : ∀ a ∈ l, f a = .ok b) : l.mapM f = .ok (List.replicate l.length b) := by
  rw [mapM_eq_ok_map h, List.map_const']

/-- What passes all checks has names of its own, no findings, and assertions that stand. -/
theorem vet_eq_ok {toolkit : Toolkit} {procedures : List Procedure} {inquiry inquiry' : Inquiry} :
    lib.vet toolkit procedures inquiry = .ok () inquiry' ↔
      duplicates lib.names procedures = [] ∧
      (∀ p ∈ procedures, Legality.check (lib.tableWith procedures) p = .ok []) ∧
      lib.verify toolkit procedures inquiry = .ok () inquiry' := by
  constructor
  · intro h
    obtain ⟨_, _, hnames, h₁⟩ := bind_eq_ok.mp h
    obtain ⟨hduplicates, rfl⟩ := refuseRecords_eq_ok.mp hnames
    obtain ⟨illegal, _, hillegal, h₂⟩ := bind_eq_ok.mp h₁
    obtain ⟨hchecks, rfl⟩ := ofExcept_eq_ok.mp hillegal
    obtain ⟨_, _, hrefuse, hverify⟩ := bind_eq_ok.mp h₂
    obtain ⟨hnone, rfl⟩ := refuseRecords_eq_ok.mp hrefuse
    refine ⟨hduplicates, fun p hp => ?_, hverify⟩
    obtain ⟨records, hrecords, hcheck⟩ := mem_of_mapM_eq_ok hchecks p hp
    rw [hcheck, List.flatten_eq_nil_iff.mp hnone records hrecords]
  · rintro ⟨hduplicates, hchecks, hverify⟩
    refine bind_eq_ok.mpr ⟨(), inquiry, refuseRecords_eq_ok.mpr ⟨hduplicates, rfl⟩, ?_⟩
    refine bind_eq_ok.mpr
      ⟨_, inquiry, ofExcept_eq_ok.mpr ⟨mapM_eq_ok_replicate hchecks, rfl⟩, ?_⟩
    exact bind_eq_ok.mpr ⟨(), inquiry, refuseRecords_eq_ok.mpr ⟨by simp, rfl⟩, hverify⟩

/-- What is registered passed all checks, and is added to the library. -/
theorem register_eq_ok_iff {toolkit : Toolkit} {procedures : List Procedure}
    {inquiry inquiry' : Inquiry} :
    lib.register toolkit procedures inquiry = .ok lib' inquiry' ↔
      ∃ vetted, lib.vet toolkit procedures inquiry = .ok () vetted ∧
        lib' = { lib with procedures := lib.procedures ++ procedures } ∧
        inquiry' = { vetted with log := (procedures.map .registered).reverse ++ vetted.log } := by
  constructor
  · intro h
    obtain ⟨_, vetted, hvet, h₁⟩ := bind_eq_ok.mp h
    obtain ⟨hlib, hinquiry⟩ := EStateM.Result.ok.inj h₁
    exact ⟨vetted, hvet, hlib.symm, hinquiry.symm⟩
  · rintro ⟨vetted, hvet, rfl, rfl⟩
    exact bind_eq_ok.mpr ⟨(), vetted, hvet, rfl⟩

/-- What is registered was found legal, and is added to the library. -/
theorem register_eq_ok {toolkit : Toolkit} {procedures : List Procedure}
    {inquiry inquiry' : Inquiry} (h : lib.register toolkit procedures inquiry = .ok lib' inquiry') :
    lib' = { lib with procedures := lib.procedures ++ procedures } ∧
      ∀ p ∈ procedures, Legality.findings (lib.tableWith procedures) p = [] := by
  obtain ⟨vetted, hvet, hlib, -⟩ := register_eq_ok_iff.mp h
  refine ⟨hlib, fun p hp => ?_⟩
  exact (Legality.check_eq_ok_nil.mp ((vet_eq_ok.mp hvet).2.1 p hp)).2

theorem procedures_empty {settings : Settings} {further : List (String × HostFunction)}
    (h : Library.empty settings further = .ok lib) : lib.procedures = [] := by
  unfold empty at h
  cases hf : HostFunction.select settings.pureFunctions further with
  | error f => simp [hf, bind, Except.bind] at h
  | ok functions =>
    cases ht : IntType.ofName settings.intType with
    | error f => simp [hf, ht, bind, Except.bind] at h
    | ok intType =>
      simp only [hf, ht, bind, Except.bind, pure, Except.pure, Except.ok.injEq] at h
      rw [← h]

/-- Every procedure of the library passed the legality check. -/
def Checked (lib : Library) : Prop := ∀ p ∈ lib.procedures, ∃ t, Legality.findings t p = []

theorem Accepted.checked (h : lib.Accepted) : lib.Checked := by
  induction h with
  | empty hempty =>
    intro p hp
    rw [procedures_empty hempty] at hp
    cases hp
  | register hlib hregister ih =>
    obtain ⟨rfl, hnew⟩ := register_eq_ok hregister
    intro p hp
    rcases List.mem_append.mp hp with hp | hp
    · exact ih p hp
    · exact ⟨_, hnew p hp⟩

/-- What the legality check guarantees of the procedures of a library. -/
theorem Checked.wellScoped (h : lib.Checked) : lib.WellScoped := by
  have hscoped : ∀ p ∈ lib.procedures,
      Stmt.Balanced [] p.body ∧ ∀ u ∈ Stmt.nestedAll p.body, u.WellScoped := by
    intro p hp
    obtain ⟨t, hfindings⟩ := h p hp
    exact Legality.balanced_of_blockFindings (List.append_eq_nil_iff.mp hfindings).2
  exact ⟨fun p hp => (hscoped p hp).1, fun s ⟨p, hp, hs⟩ => (hscoped p hp).2 s hs⟩

theorem Accepted.wellScoped (h : lib.Accepted) : lib.WellScoped := h.checked.wellScoped

theorem holds_of_body {p : Procedure} (hp : p ∈ lib.procedures) {s : Stmt} (hs : s ∈ p.body) :
    lib.Holds s :=
  ⟨p, hp, Stmt.mem_nestedAll_of_mem hs⟩

theorem Holds.of_bodies {s t : Stmt} {body : List Stmt} (hs : lib.Holds s) (hbody : body ∈ s.bodies)
    (ht : t ∈ body) : lib.Holds t := by
  obtain ⟨p, hp, hs⟩ := hs
  exact ⟨p, hp, Stmt.nestedAll_of_bodies hs hbody ht⟩

theorem mem_of_get {name : String} {p : Procedure} (h : lib.get name = .ok p) :
    p ∈ lib.procedures := by
  unfold get find? at h
  split at h
  · rename_i q hq
    rw [← Except.ok.inj h]
    exact List.mem_of_find?_eq_some hq
  · cases h

end Library

/-! ## Names along a block -/

namespace Frame

/-- A local begins: a new name is added. -/
def Begins (name : String) (f f' : Frame) : Prop :=
  f.has name = false ∧ ∃ b, f' = f.push name b

/-- A local ends: its name is removed. -/
def Ends (name : String) (f f' : Frame) : Prop := f' = f.erase name

variable {f f' : Frame} {name : String}

theorem has_iff_mem_names : f.has name = true ↔ name ∈ f.names := by
  simp only [has, names, List.any_eq_true, beq_iff_eq, List.mem_map]

theorem Begins.nodup_names (h : f.Begins name f') (hf : f.names.Nodup) : f'.names.Nodup := by
  obtain ⟨hname, b, rfl⟩ := h
  have hnot : name ∉ f.names := by
    rw [← has_iff_mem_names, hname]
    decide
  have hpush : (f.push name b).names = f.names ++ [name] := by simp [names, push]
  rw [hpush, List.nodup_append]
  refine ⟨hf, by simp, fun x hx y hy => ?_⟩
  rintro rfl
  exact hnot (List.mem_singleton.mp hy ▸ hx)

theorem Ends.nodup_names (h : f.Ends name f') (hf : f.names.Nodup) : f'.names.Nodup := by
  rw [h]
  exact hf.sublist (List.filter_sublist.map _)

/-- Removing the name of a local leaves the names from before the block alone. -/
theorem erase_of_mem {base extra : List (String × Binding)} (hf : f.names.Nodup)
    (hb : f.bindings = base ++ extra) (hname : name ∈ extra.map Prod.fst) :
    ∃ extra', (f.erase name).bindings = base ++ extra' ∧
      extra'.map Prod.fst = (extra.map Prod.fst).erase name := by
  rw [names, hb, List.map_append] at hf
  obtain ⟨-, hextra, hdisjoint⟩ := List.nodup_append.mp hf
  refine ⟨extra.filter fun entry => entry.1 != name, ?_, ?_⟩
  · simp only [erase, hb, List.filter_append]
    congr 1
    refine List.filter_eq_self.mpr fun entry hentry => ?_
    simpa using hdisjoint entry.1 (List.mem_map_of_mem hentry) name hname
  · rw [hextra.erase_eq_filter, List.filter_map]
    rfl

end Frame

namespace Stmt

/-- How a statement that completes changes the names of a frame. -/
def Rebinds (d : Direction) : Stmt → Frame → Frame → Prop
  | .declare _ name _, f, f' => d.pick (f.Begins name f') (f.Ends name f')
  | .discard _ name _, f, f' => d.pick (f.Ends name f') (f.Begins name f')
  | _, f, f' => f' = f

/-- How statements that complete one after the other change the names of a frame. -/
def RebindAll (d : Direction) : List Stmt → Frame → Frame → Prop
  | [], f, f' => f' = f
  | s :: rest, f, f' => ∃ g, s.Rebinds d f g ∧ RebindAll d rest g f'

variable {d : Direction} {f f' : Frame}

theorem rebindAll_append {l r : List Stmt} :
    RebindAll d (l ++ r) f f' ↔ ∃ g, RebindAll d l f g ∧ RebindAll d r g f' := by
  induction l generalizing f with
  | nil => simp [RebindAll]
  | cons s l ih =>
    simp only [List.cons_append, RebindAll, ih]
    exact ⟨fun ⟨g, hs, k, hl, hr⟩ => ⟨k, ⟨g, hs, hl⟩, hr⟩,
      fun ⟨k, ⟨g, hs, hl⟩, hr⟩ => ⟨g, hs, k, hl, hr⟩⟩

theorem Rebinds.nodup_names {s : Stmt} (h : s.Rebinds d f f') (hf : f.names.Nodup) :
    f'.names.Nodup := by
  cases s with
  | declare loc name e =>
    cases d with
    | forward => exact Frame.Begins.nodup_names h hf
    | backward => exact Frame.Ends.nodup_names h hf
  | discard loc name e =>
    cases d with
    | forward => exact Frame.Ends.nodup_names h hf
    | backward => exact Frame.Begins.nodup_names h hf
  | assign | branch | call | loop | swap | block | hole =>
    rw [h]
    exact hf

theorem RebindAll.nodup_names {body : List Stmt} (h : RebindAll d body f f')
    (hf : f.names.Nodup) : f'.names.Nodup := by
  induction body generalizing f with
  | nil =>
    rw [h]
    exact hf
  | cons s rest ih =>
    obtain ⟨g, hs, hrest⟩ := h
    exact ih hrest (hs.nodup_names hf)

/-- Part of a block is balanced with the locals that are pending where it starts. -/
theorem Balanced.drop {pending : List String} {l r : List Stmt} (h : Balanced pending (l ++ r)) :
    ∃ pending', Balanced pending' r := by
  induction l generalizing pending with
  | nil => exact ⟨pending, h⟩
  | cons s l ih =>
    cases s with
    | discard => exact ih h.2
    | declare | assign | branch | call | loop | swap | block | hole => exact ih h

/-- Forward, the frame holds the pending locals on top of what it held when the block started. -/
theorem Balanced.forward {pending : List String} {l r : List Stmt} (h : Balanced pending (l ++ r))
    (hr : RebindAll .forward l f f') (hf : f.names.Nodup) {base extra : List (String × Binding)}
    (hb : f.bindings = base ++ extra) (hp : (extra.map Prod.fst).Perm pending) :
    ∃ extra' pending', f' = { f with bindings := base ++ extra' } ∧
      (extra'.map Prod.fst).Perm pending' ∧ Balanced pending' r := by
  induction l generalizing pending f extra with
  | nil => exact ⟨extra, pending, by rw [show f' = f from hr, ← hb], hp, h⟩
  | cons s rest ih =>
    obtain ⟨g, hs, hrest⟩ := hr
    have hg := hs.nodup_names hf
    cases s with
    | declare loc name e =>
      obtain ⟨-, b, rfl⟩ := hs
      have hb' : (f.push name b).bindings = base ++ (extra ++ [(name, b)]) := by
        simp [Frame.push, hb]
      have hp' : ((extra ++ [(name, b)]).map Prod.fst).Perm (pending ++ [name]) := by
        simpa using hp.append_right [name]
      have hend := ih h hrest hg hb' hp'
      exact hend
    | discard loc name e =>
      obtain ⟨hmem, hbal⟩ := h
      obtain rfl : g = f.erase name := hs
      obtain ⟨extra', hb', he'⟩ := Frame.erase_of_mem hf hb (hp.mem_iff.mpr hmem)
      have hend := ih hbal hrest hg hb' (he' ▸ hp.erase name)
      exact hend
    | assign | branch | call | loop | swap | block | hole =>
      obtain rfl : g = f := hs
      exact ih h hrest hg hb hp

/-- Backward, the frame holds at the start of the rest of a block the locals that are pending
there. -/
theorem Balanced.backward {pending : List String} {body : List Stmt} (h : Balanced pending body)
    (hr : RebindAll .backward body.reverse f f') (hf : f.names.Nodup) :
    ∃ extra, f' = { f with bindings := f.bindings ++ extra } ∧
      (extra.map Prod.fst).Perm pending := by
  induction body generalizing pending f' with
  | nil =>
    obtain rfl : pending = [] := h
    exact ⟨[], by simpa [RebindAll] using hr, .nil⟩
  | cons s rest ih =>
    rw [List.reverse_cons, rebindAll_append] at hr
    obtain ⟨g, hrest, k, hs, rfl⟩ := hr
    have hg := hrest.nodup_names hf
    cases s with
    | declare loc name e =>
      obtain ⟨extra, rfl, hp⟩ := ih h hrest
      obtain rfl : f' = Frame.erase _ name := hs
      have hname : name ∈ extra.map Prod.fst := hp.mem_iff.mpr (by simp)
      obtain ⟨extra', hb', he'⟩ := Frame.erase_of_mem hg rfl hname
      refine ⟨extra', ?_, ?_⟩
      · rw [← hb']
        rfl
      · have hlast := (List.perm_append_singleton name pending).erase name
        rw [List.erase_cons_head] at hlast
        rw [he']
        exact (hp.erase name).trans hlast
    | discard loc name e =>
      obtain ⟨hmem, hbal⟩ := h
      obtain ⟨extra, rfl, hp⟩ := ih hbal hrest
      obtain ⟨-, b, rfl⟩ := hs
      refine ⟨extra ++ [(name, b)], by simp [Frame.push], ?_⟩
      rw [List.map_append]
      exact ((List.perm_append_singleton name _).trans (hp.cons name)).trans
        (List.perm_cons_erase hmem).symm
    | assign | branch | call | loop | swap | block | hole =>
      obtain rfl : f' = g := hs
      exact ih h hrest

/-- Inside a balanced block, in both directions, every name from before the block stands for what
it stood for. -/
theorem Balanced.bindings_eq {body l r : List Stmt} (h : Balanced [] body)
    (hbody : d.order body = l ++ r) (hr : RebindAll d l f f') (hf : f.names.Nodup) :
    ∃ extra, f' = { f with bindings := f.bindings ++ extra } := by
  cases d with
  | forward =>
    rw [show body = l ++ r from hbody] at h
    obtain ⟨extra, _, hend, -⟩ := h.forward hr hf (List.append_nil _).symm .nil
    exact ⟨extra, hend⟩
  | backward =>
    rw [List.reverse_eq_iff.mp hbody, List.reverse_append] at h
    obtain ⟨pending, hl⟩ := h.drop
    rw [← List.reverse_reverse l] at hr
    obtain ⟨extra, hend, -⟩ := hl.backward hr hf
    exact ⟨extra, hend⟩

/-- A balanced block leaves the names of a frame as they were, in both directions. -/
theorem Balanced.frame_eq {body : List Stmt} (h : Balanced [] body)
    (hr : RebindAll d (d.order body) f f') (hf : f.names.Nodup) : f' = f := by
  cases d with
  | forward =>
    rw [← List.append_nil body] at h
    obtain ⟨extra, pending, rfl, hp, rfl⟩ := h.forward hr hf (List.append_nil _).symm .nil
    obtain rfl : extra = [] := by simpa using hp.eq_nil
    simp
  | backward =>
    obtain ⟨extra, rfl, hp⟩ := h.backward hr hf
    obtain rfl : extra = [] := by simpa using hp.eq_nil
    simp

end Stmt

/-! ## Frames along a run -/

theorem Machine.Ordered.nodup_names {m : Machine} (h : m.Ordered) : m.frame.names.Nodup :=
  List.pairwise_map.mpr (h.apart.imp fun hab => hab.1)

namespace Execution

variable {lib : Library} {m m' : Machine} {d : Direction}

section Compound

variable {run : Stmt → Execution Unit}

theorem frame_of_block (hcareful : ∀ s m, Careful (run s) m) {body : List Stmt}
    (hbody : Stmt.Balanced [] body)
    (hrun : ∀ s ∈ body, ∀ m m', m.Ordered → run s m = .ok () m' → s.Rebinds d m.frame m'.frame)
    (hm : m.Ordered) (h : block run d body m = .ok () m') : m'.frame = m.frame := by
  have hall : ∀ (stmts : List Stmt) (m : Machine), (∀ s ∈ stmts, s ∈ body) → m.Ordered →
      stmts.forM run m = .ok () m' → Stmt.RebindAll d stmts m.frame m'.frame := by
    intro stmts
    induction stmts with
    | nil =>
      intro m _ _ h
      rw [forM_nil_eq_ok.mp h]
      rfl
    | cons s rest ih =>
      intro m hmem hm h
      obtain ⟨m₁, h₁, h₂⟩ := forM_cons_eq_ok.mp h
      refine ⟨m₁.frame, hrun s (hmem s List.mem_cons_self) m m₁ hm h₁, ih m₁ ?_ ?_ h₂⟩
      · exact fun t ht => hmem t (List.mem_cons_of_mem s ht)
      · exact ((hcareful s m).ok h₁).ordered hm
  exact hbody.frame_eq (hall _ m (fun _ => Direction.mem_order.mp) hm h) hm.nodup_names

theorem frame_of_repeatUntil {last : Expr} {body : Nat → Execution Unit}
    (hcareful : ∀ i m, Careful (body i) m)
    (hbody : ∀ i m m', m.Ordered → body i m = .ok () m' → m'.frame = m.frame) {fuel i : Nat}
    (hm : m.Ordered) (h : repeatUntil (test lib last) body fuel i m = .ok () m') :
    m'.frame = m.frame := by
  induction fuel generalizing i m with
  | zero => cases h
  | succ fuel ih =>
    rcases repeatUntil_succ_eq_ok.mp h with ⟨-, rfl⟩ | ⟨-, m₁, h₁, h₂⟩
    · rfl
    · rw [ih (((hcareful _ m).ok h₁).ordered hm) h₂, hbody _ m m₁ hm h₁]

end Compound

/-- **Statements and names.** In a library of legal procedures, only a statement that begins or ends
a local changes which names are bound. -/
theorem rebinds_exec (hlib : lib.WellScoped) {fuel : Nat} {s : Stmt} (hs : lib.Holds s)
    (hm : m.Ordered) (h : exec lib fuel d s m = .ok () m') : s.Rebinds d m.frame m'.frame := by
  induction fuel generalizing d s m m' with
  | zero => cases h
  | succ fuel ih =>
    have hsafe : m.Safe (traced s m) := .of_eq (heap_traced s m) (frame_traced s m)
    have hordered := hsafe.ordered hm
    rw [exec_succ_eq_ok] at h
    rw [← frame_traced s m]
    have hblock : ∀ body ∈ s.bodies, ∀ n n' : Machine, n.Ordered →
        block (exec lib fuel d) d body n = .ok () n' → n'.frame = n.frame :=
      fun body hbody n n' hn =>
      frame_of_block (careful_exec lib fuel d) ((hlib.stmt s hs).bodies body hbody)
        (fun t ht _ _ hk hrun => ih (hs.of_bodies hbody ht) hk hrun) hn
    cases s with
    | assign loc target op value =>
      obtain ⟨_, _, _, _, _, _, -, -, -, -, -, -, rfl⟩ := assign_eq_ok.mp h
      rfl
    | branch loc guard thenBody elseBody assertion =>
      obtain ⟨b, -, hb, -⟩ := branch_eq_ok.mp h
      exact hblock _ (by cases b <;> simp [Stmt.bodies]) _ _ hordered hb
    | call loc callee args uncall =>
      obtain ⟨_, _, _, _, -, -, -, -, -, rfl⟩ := call_eq_ok.mp h
      rfl
    | declare loc name value =>
      cases d with
      | forward =>
        obtain ⟨v, -, hname, -, rfl⟩ := introduce_eq_ok.mp h
        exact ⟨hname, _, rfl⟩
      | backward =>
        obtain ⟨v, s, -, -, -, -, rfl⟩ := remove_eq_ok.mp h
        rfl
    | discard loc name value =>
      cases d with
      | forward =>
        obtain ⟨v, s, -, -, -, -, rfl⟩ := remove_eq_ok.mp h
        rfl
      | backward =>
        obtain ⟨v, -, hname, -, rfl⟩ := introduce_eq_ok.mp h
        exact ⟨hname, _, rfl⟩
    | loop loc entry doBody loopBody exit =>
      obtain ⟨-, m₁, h₁, h₂⟩ := loop_eq_ok.mp h
      have hm₁ := ((careful_block (careful_exec lib fuel d) d doBody).ok h₁).ordered hordered
      refine (frame_of_repeatUntil (fun i n => careful_again (careful_exec lib fuel d) ..) ?_ hm₁
        h₂).trans (hblock doBody (by simp [Stmt.bodies]) _ _ hordered h₁)
      intro i n n' hn hagain
      obtain ⟨n₁, hn₁, -, hn'⟩ := again_eq_ok.mp hagain
      have hordered₁ := ((careful_block (careful_exec lib fuel d) d loopBody).ok hn₁).ordered hn
      rw [hblock doBody (by simp [Stmt.bodies]) _ _ hordered₁ hn',
        hblock loopBody (by simp [Stmt.bodies]) _ _ hn hn₁]
    | swap loc left right =>
      obtain ⟨_, _, _, _, _, _, -, -, -, -, -, -, -, -, rfl⟩ := swap_eq_ok.mp h
      rfl
    | block loc body => exact hblock body (by simp [Stmt.bodies]) _ _ hordered h
    | hole loc => cases h

/-- A balanced block of a library leaves the frame as it was. -/
theorem frame_of_balanced (hlib : lib.WellScoped) {fuel : Nat} {body : List Stmt}
    (hbody : Stmt.Balanced [] body) (hheld : ∀ s ∈ body, lib.Holds s) (hm : m.Ordered)
    (h : block (exec lib fuel d) d body m = .ok () m') : m'.frame = m.frame :=
  frame_of_block (careful_exec lib fuel d) hbody
    (fun s hs _ _ hn hrun => rebinds_exec hlib (hheld s hs) hn hrun) hm h

end Execution

end Retrace
