import Retrace.Proofs.Encoding
import Retrace.Proofs.Footprint
import Retrace.Symbolic.Verify

/-!
# Following single statements

An analysis that follows a statement follows the run of the statement, for all statements that are
not made of others and for loops. An update or an exchange writes to slots, which are told apart by
names: no two names of a frame share a slot, and no array holds a slot twice. A call changes at most
the slots of its arguments, a loop at most those of the names that its bodies may write to; the
analysis forgets them, and the fresh unknowns can be what the run left there.
-/

namespace Retrace

open Actions

/-! ## Views and slots -/

namespace Heap

variable {h h' : Heap}

theorem held_congr {u : Slot} (hu : h'.cell? u = h.cell? u) : h'.held u = h.held u := by
  rw [held, held, hu]

theorem heldAt_congr {slots : List Slot} (hslots : ∀ u ∈ slots, h'.held u = h.held u) :
    h'.heldAt slots = h.heldAt slots := by
  funext i
  unfold heldAt
  split
  · cases hu : slots[i.toNat]? with
    | none => rfl
    | some u => exact hslots u (List.mem_of_getElem? hu)
  · rfl

/-- Where no slot stands twice, a slot that changes is one element that changes. -/
theorem heldAt_update {slots : List Slot} (hslots : slots.Nodup) {k : Int} (hk : 0 ≤ k) {u : Slot}
    (hu : slots[k.toNat]? = some u) (hothers : ∀ w ∈ slots, w ≠ u → h'.held w = h.held w) :
    h'.heldAt slots = Function.update (h.heldAt slots) k (h'.held u) := by
  funext i
  by_cases hi : i = k
  · subst hi
    rw [Function.update_self, heldAt, if_pos hk, hu, Option.elim_some]
  · rw [Function.update_of_ne hi]
    unfold heldAt
    split
    · rename_i hnonneg
      cases hw : slots[i.toNat]? with
      | none => rfl
      | some w =>
        refine hothers w (List.mem_of_getElem? hw) ?_
        rintro rfl
        have hindex : i.toNat = k.toNat :=
          (List.getElem?_inj (List.getElem?_eq_some_iff.mp hw).1 hslots).mp (hw.trans hu.symm)
        omega
    · rfl

end Heap

namespace Binding

theorem content_congr {h h' : Heap} {b : Binding} (hb : ∀ u ∈ b.slots, h'.held u = h.held u) :
    b.content h' = b.content h := by
  cases b with
  | scalar u => exact congrArg Content.one (hb u (List.mem_singleton_self u))
  | array slots => exact congrArg Content.many (Heap.heldAt_congr hb)

/-- A binding stands for numbers of a type if its slots hold such numbers. -/
theorem inRange_content {type : IntType} {h : Heap} {b : Binding}
    (hb : ∀ u ∈ b.slots, type.contains (h.held u) = true) : (b.content h).InRange type := by
  cases b with
  | scalar u => exact hb u (List.mem_singleton_self u)
  | array slots =>
    intro i
    unfold Heap.heldAt
    split
    · cases hu : slots[i.toNat]? with
      | none => exact type.contains_zero
      | some u => exact hb u (List.mem_of_getElem? hu)
    · exact type.contains_zero

end Binding

/-- A frame in which different slots are seen through different names and indices. -/
structure Frame.Distinct (f : Frame) : Prop where
  apart : f.bindings.Pairwise Frame.Apart
  nodup : ∀ x slots, f.lookup? x = some (.array slots) → slots.Nodup

namespace Frame

variable {f : Frame} {h h' : Heap}

theorem view_congr {x : String}
    (hx : ∀ b, f.lookup? x = some b → ∀ u ∈ b.slots, h'.held u = h.held u) :
    f.view h' x = f.view h x := by
  unfold view
  cases hb : f.lookup? x with
  | none => rfl
  | some b => exact congrArg some (Binding.content_congr (hx b hb))

/-- Slots of one name leave the views of the others alone. -/
theorem view_of_ne (hf : f.Distinct) {x y : String} {b : Binding} (hb : f.lookup? x = some b)
    (hothers : ∀ u, u ∉ b.slots → h'.held u = h.held u) (hy : y ≠ x) : f.view h' y = f.view h y :=
  view_congr fun _ hc u hu => hothers u fun hub =>
    Frame.disjoint_of_lookup? hf.apart hy hc hb hu hub

theorem view_push_of_ne {name : String} (hname : f.has name = false) (b : Binding)
    (hcovers : ∀ u, f.Covers u → h'.held u = h.held u) {x : String} (hx : x ≠ name) :
    (f.push name b).view h' x = f.view h x := by
  rw [← view_congr fun c hc u hu => hcovers u ⟨x, c, hc, hu⟩]
  rw [view, view, lookup?_push hname, if_neg hx]

theorem view_erase_of_ne (hf : f.Distinct) {name : String} {b : Binding}
    (hb : f.lookup? name = some b) (hothers : ∀ u, u ∉ b.slots → h'.held u = h.held u) {x : String}
    (hx : x ≠ name) : (f.erase name).view h' x = f.view h x := by
  rw [← view_of_ne hf hb hothers hx]
  rw [view, view, lookup?_erase, if_neg hx]

end Frame

namespace Analyzing

variable {s : Subject} {t : Scope} {P : Model → Prop}

theorem gives_of_locate {ref : Expr} {u : Slot} {reads reads' : List Slot} {n : Int}
    (hu : t.locate ref reads = .ok u reads') (hn : t.heap.cell? u = some n) :
    t.Gives ref (.int n) := by
  cases ref with
  | var loc x =>
    obtain ⟨hslot, rfl⟩ := ofExcept_eq_ok.mp hu
    refine ⟨reads, reads ++ [u], ?_⟩
    rw [Scope.eval]
    exact bind_eq_ok.mpr ⟨u, reads, ofExcept_eq_ok.mpr ⟨hslot, rfl⟩,
      bind_eq_ok.mpr ⟨n, _, Scope.readSlot_eq_ok.mpr ⟨hn, rfl⟩, rfl⟩⟩
  | elem loc x index =>
    obtain ⟨i, r, hi, hu⟩ := bind_eq_ok.mp hu
    obtain ⟨helement, rfl⟩ := ofExcept_eq_ok.mp hu
    refine ⟨reads, r ++ [u], ?_⟩
    rw [Scope.eval]
    exact bind_eq_ok.mpr ⟨i, r, hi, bind_eq_ok.mpr ⟨u, r, ofExcept_eq_ok.mpr ⟨helement, rfl⟩,
      bind_eq_ok.mpr ⟨n, _, Scope.readSlot_eq_ok.mpr ⟨hn, rfl⟩, rfl⟩⟩⟩
  | _ => cases hu

/-- A write to a reference follows a change of the slot that the reference names. -/
theorem follows_write (ht : t.Suits s) (hf : t.frame.Distinct) {ref : Expr}
    (hguarded : ref.isGuarded = true) {u : Slot} {reads reads' : List Slot}
    (hu : t.locate ref reads = .ok u reads') {h' : Heap}
    (hrange : s.intType.contains (h'.held u) = true)
    (hothers : ∀ w, w ≠ u → h'.held w = t.heap.held w) {v : SymValue}
    (hv : ∀ M, P M → v.Denotes M (h'.held u)) :
    Follows s.intType P (write s ref v) (t.frame.view t.heap) (t.frame.view h')
      fun _ _ => True := by
  unfold write
  refine (follows_assumeInRange fun M hM t' ht' => ?_).bind fun _ => ?_
  · have hnumber := (hv M hM).asNumber
    rw [ht'] at hnumber
    rw [show t'.value M = _ from hnumber]
    exact hrange
  cases ref with
  | var loc x =>
    have hx := Frame.slot_eq_ok.mp (ofExcept_eq_ok.mp hu).1
    refine follows_setVar (fun y hy => ?_) fun M hM => ?_
    · refine Frame.view_of_ne hf hx (fun w hw => hothers w ?_) hy
      rintro rfl
      exact hw (List.mem_singleton_self _)
    · obtain ⟨hP, t', ht'⟩ := hM
      refine ⟨ht' ▸ SymValue.bounded_int t', fun c hc => ?_⟩
      rw [Frame.view_of_lookup? hx] at hc
      rw [← Option.some.inj hc]
      exact (hv M hP).asNumber
  | elem loc x index =>
    obtain ⟨i, r, hi, hu⟩ := bind_eq_ok.mp hu
    obtain ⟨slots, hx, hk, hslot⟩ := Frame.element_eq_ok.mp (ofExcept_eq_ok.mp hu).1
    rw [Expr.isGuarded] at hguarded
    refine (follows_lookup x ht.inRange).bind fun a => ?_
    refine (follows_encode ht hguarded ⟨reads, r, hi⟩).bind fun iv => ?_
    refine (follows_arrayOf a).bind fun at' => (follows_indexOf iv.asNumber).bind fun k => ?_
    refine (follows_plain v.asNumber).bind fun p => follows_setVar (fun y hy => ?_) fun M hM => ?_
    · refine Frame.view_of_ne hf hx (fun w hw => hothers w ?_) hy
      rintro rfl
      exact hw (List.mem_of_getElem? hslot)
    · obtain ⟨⟨⟨⟨⟨⟨hP, -⟩, ha⟩, hiv⟩, rfl⟩, hk'⟩, hp⟩ := hM
      have hindex : k.value M = i.toInt := hk' _ hiv.asNumber
      have hvalue : p.value M = h'.held u := hp _ (hv M hP).asNumber
      have hstore : (ArrayTerm.store at' k p).value M =
          Function.update (at'.value M) i.toInt (h'.held u) := by
        rw [ArrayTerm.value, hindex, hvalue]
      constructor
      · rintro _ ⟨⟩ j
        rw [hstore, Function.update_apply]
        split
        · exact hrange
        · exact ha.1 at' rfl j
      · intro c hc
        rw [Frame.view_of_lookup? hx] at hc
        rw [← Option.some.inj hc]
        rintro _ ⟨⟩
        have hold : at'.value M = t.heap.heldAt slots :=
          ha.2 _ (Frame.view_of_lookup? hx) at' rfl
        rw [hstore, hold, Heap.heldAt_update (hf.nodup x slots hx) hk hslot fun w _ hw =>
          hothers w hw]
  | _ => cases hu

end Analyzing

/-! ## Machines -/

/-- What the names of a frame stand for in a machine. -/
def Machine.view (m : Machine) : View := m.frame.view m.heap

/-- A machine in order whose names stand for slots of one integer type, each for its own. -/
structure Machine.Uniform (type : IntType) (m : Machine) : Prop where
  sound : m.Sound
  intType : m.frame.intType = type
  locals : (m.heap.store m.frame.locals).intType = type
  covered : ∀ u, m.frame.Covers u → (m.heap.store u.store).intType = type
  nodup : ∀ x slots, m.frame.lookup? x = some (.array slots) → slots.Nodup

namespace Machine.Uniform

variable {type : IntType} {m m' : Machine}

theorem distinct (hm : m.Uniform type) : m.frame.Distinct := ⟨hm.sound.apart, hm.nodup⟩

theorem contains_held (hm : m.Uniform type) {u : Slot} (hu : m.frame.Covers u) :
    type.contains (m.heap.held u) = true := by
  unfold Heap.held
  cases hn : m.heap.cell? u with
  | none => exact type.contains_zero
  | some n =>
    have hcontains := hm.sound.inRange u n hn
    rwa [hm.covered u hu] at hcontains

theorem inRange_view (hm : m.Uniform type) : m.view.InRange type := by
  intro x c hc
  cases hb : m.frame.lookup? x with
  | none =>
    rw [view, Frame.view, hb] at hc
    cases hc
  | some b =>
    rw [view, Frame.view_of_lookup? hb] at hc
    rw [← Option.some.inj hc]
    exact Binding.inRange_content fun u hu => hm.contains_held ⟨x, b, hb, hu⟩

theorem suits {s : Subject} {lib : Library} (hm : m.Uniform s.intType)
    (hlib : Analyzing.KeepsBuiltins lib.functions) : (m.scope lib).Suits s :=
  ⟨hm.intType, hlib, hm.inRange_view⟩

/-- A step that changes no name. -/
theorem of_frame_eq (hm : m.Uniform type) (hsafe : m.Safe m') (hframe : m'.frame = m.frame) :
    m'.Uniform type := by
  have hheap := (hsafe.evolves hm.sound.lt_size).heap
  refine ⟨hsafe.sound hm.sound, ?_, ?_, fun u hu => ?_, ?_⟩
  · rw [hframe, hm.intType]
  · rw [hheap.types, hframe, hm.locals]
  · rw [hheap.types, hm.covered u (hframe ▸ hu)]
  · rw [hframe]
    exact hm.nodup

theorem traced (hm : m.Uniform type) (s : Stmt) : (Execution.traced s m).Uniform type :=
  hm.of_frame_eq (.of_eq (Execution.heap_traced s m) (Execution.frame_traced s m))
    (Execution.frame_traced s m)

end Machine.Uniform

@[simp] theorem Machine.view_traced (s : Stmt) (m : Machine) :
    (Execution.traced s m).view = m.view := by
  rw [view, view, Execution.frame_traced, Execution.heap_traced]

/-! ## Statements -/

namespace Analyzing

variable {s : Subject} {lib : Library} {m m' : Machine} {P : Model → Prop} {loc : Option Location}

/-- What an update makes of a number. -/
theorem follows_updated {V : View} {op : String} {u : Update} (hop : Update.ofSymbol? op = some u)
    (current operand : SymValue) (m n : Int) :
    Follows s.intType P (updated s op current operand) V V fun v M =>
      current.Denotes M m → operand.Denotes M n → v.Denotes M (u.apply m n) := by
  unfold updated
  rw [hop]
  cases u with
  | add =>
    refine (follows_pair current operand).bind fun p => .pure fun M hM hm hn => ?_
    rw [SymValue.Denotes, IntTerm.value, hM.2.1 m hm, hM.2.2 n hn, Update.apply]
  | sub =>
    refine (follows_pair current operand).bind fun p => .pure fun M hM hm hn => ?_
    rw [SymValue.Denotes, IntTerm.value, hM.2.1 m hm, hM.2.2 n hn, Update.apply]
  | xor => exact follows_bitwise .xor current operand m n

theorem follows_assign (hm : m.Uniform s.intType) (hlib : KeepsBuiltins lib.functions)
    {target value : Expr} {op : String} (ht : target.isGuarded = true)
    (hv : value.isGuarded = true) (h : Execution.assign lib .forward target op value m = .ok () m') :
    Follows s.intType P (follow s (.assign loc target op value)) m.view m'.view
      fun _ _ => True := by
  obtain ⟨u, slot, r₁, v, r₂, c, hop, hslot, hvalue, -, hc, hrange, rfl⟩ :=
    Execution.assign_eq_ok.mp h
  have hsuits := hm.suits hlib
  have hop' : Update.ofSymbol? op = some u := by
    unfold Update.ofSymbol at hop
    split at hop
    · rename_i hsome
      rw [hsome, Except.ok.inj hop]
    · cases hop
  have hcovers := (Scope.covers_of_locate hslot).1
  rw [hm.covered slot hcovers] at hrange
  rw [follow]
  refine (follows_encode hsuits hv ⟨r₁, r₂, hvalue⟩).bind fun operand => ?_
  refine (follows_encode hsuits ht (gives_of_locate hslot hc)).bind fun current => ?_
  refine (follows_updated hop' current operand.asNumber c v.toInt).bind fun w => ?_
  have hheld : (m.heap.put slot (some ((u.directed .forward).apply c v.toInt))).held slot =
      u.apply c v.toInt := by
    rw [Heap.held, Heap.cell?_put hc, if_pos rfl]
    rfl
  refine follows_write hsuits hm.distinct ht hslot ?_ (fun w hw => ?_) fun M hM => ?_
  · rw [hheld]
    exact hrange
  · exact Heap.held_congr (by rw [Heap.cell?_put hc, if_neg hw]; rfl)
  · rw [hheld]
    exact hM.2 hM.1.2 hM.1.1.2.asNumber

theorem follows_swap (hm : m.Uniform s.intType) (hlib : KeepsBuiltins lib.functions)
    {left right : Expr} (hl : left.isGuarded = true) (hr : right.isGuarded = true)
    (h : Execution.swap lib left right m = .ok () m') :
    Follows s.intType P (follow s (.swap loc left right)) m.view m'.view fun _ _ => True := by
  obtain ⟨a, r₁, b, r₂, i, j, ha, hb, hab, hreads, hi, hj, hrange, hrange', rfl⟩ :=
    Execution.swap_eq_ok.mp h
  have hsuits := hm.suits hlib
  have hcovers := (Scope.covers_of_locate ha).1
  have hcovers' := (Scope.covers_of_locate hb).1
  -- the machine between the two writes
  have hsafe : m.Safe { m with heap := m.heap.put a (some j) } := .put hcovers hi hrange
  have hm₁ := hm.of_frame_eq hsafe rfl
  have hcell : ∀ u, (m.heap.put a (some j)).cell? u = if u = a then some j else m.heap.cell? u :=
    Heap.cell?_put hi (some j)
  have hb₁ : ((⟨{ m.toMemory with heap := m.heap.put a (some j) }, m.frame⟩ : Machine).scope
      lib).locate right [] = .ok b r₂ := by
    have hx : (m.scope lib).Extends id right.names
        ((⟨{ m.toMemory with heap := m.heap.put a (some j) }, m.frame⟩ : Machine).scope lib) :=
      ⟨rfl, Nat.le_refl _, fun x _ c hc => by rwa [Binding.rename_id]⟩
    have hlocate := Scope.locate_of_extends hx hb fun u hu _ => by
      exact (hcell u).trans (if_neg (hreads u (List.mem_append_right r₁ hu)).1)
    rwa [List.map_nil, List.map_id] at hlocate
  rw [hm.covered a hcovers] at hrange
  rw [hm.covered b hcovers'] at hrange'
  rw [follow]
  refine (follows_encode hsuits hl (gives_of_locate ha hi)).bind fun lv => ?_
  refine (follows_encode hsuits hr (gives_of_locate hb hj)).bind fun rv => ?_
  have hheld : (m.heap.put a (some j)).held a = j := by rw [Heap.held, hcell, if_pos rfl]; rfl
  have hj₁ : (m.heap.put a (some j)).cell? b = some j := by rw [hcell, if_neg hab.symm, hj]
  have hheld' : ((m.heap.put a (some j)).put b (some i)).held b = i := by
    rw [Heap.held, Heap.cell?_put hj₁, if_pos rfl]
    rfl
  refine Follows.bind
    (?_ : Follows _ _ _ _ (m.frame.view (m.heap.put a (some j))) fun _ _ => True) fun _ => ?_
  · refine follows_write hsuits hm.distinct hl ha ?_ (fun w hw => ?_) fun M hM => ?_
    · rwa [hheld]
    · exact Heap.held_congr (by rw [hcell, if_neg hw]; rfl)
    · rw [hheld]
      exact hM.2
  · refine follows_write (hm₁.suits hlib) hm₁.distinct hr hb₁ ?_ (fun w hw => ?_) fun M hM => ?_
    · rwa [hheld']
    · exact Heap.held_congr (by rw [Heap.cell?_put hj₁, if_neg hw]; rfl)
    · rw [hheld']
      exact hM.1.1.2

/-! ### Locals -/

theorem follows_declare (hm : m.Uniform s.intType) (hlib : KeepsBuiltins lib.functions)
    {name : String} {value : Expr} (hv : value.isGuarded = true)
    (h : Execution.introduce lib name value m = .ok () m') :
    Follows s.intType P (follow s (.declare loc name value)) m.view m'.view fun _ _ => True := by
  obtain ⟨v, hvalue, hname, hrange, rfl⟩ := Execution.introduce_eq_ok.mp h
  rw [hm.locals] at hrange
  have hcell := Heap.cell?_grow hm.sound.lt_size v.toInt
  rw [follow]
  refine (follows_encode (hm.suits hlib) hv (Scope.gives_of_value hvalue)).bind fun w => ?_
  refine (follows_assumeInRange fun M hM t ht => ?_).bind fun _ => ?_
  · have hnumber := hM.2.asNumber
    rw [ht] at hnumber
    rw [show t.value M = _ from hnumber]
    exact hrange
  · refine follows_setVar (fun x hx => ?_) fun M hM => ?_
    · refine Frame.view_push_of_ne hname _ (fun u hu => Heap.held_congr ?_) hx
      exact (hcell u).trans (if_neg (hm.sound.ne_fresh hu))
    · obtain ⟨⟨-, hdenotes⟩, t, ht⟩ := hM
      refine ⟨ht ▸ SymValue.bounded_int t, fun c hc => ?_⟩
      have hlookup : (m.frame.push name (.scalar (m.heap.fresh m.frame.locals))).lookup? name =
          some (.scalar (m.heap.fresh m.frame.locals)) := by
        rw [Frame.lookup?_push hname, if_pos rfl]
      have hheld : (m.heap.grow m.frame.locals v.toInt).held (m.heap.fresh m.frame.locals) =
          v.toInt := by
        rw [Heap.held, hcell, if_pos rfl, Option.getD_some]
      rw [Machine.view, Frame.view_of_lookup? hlookup, Binding.content, hheld] at hc
      rw [← Option.some.inj hc]
      exact hdenotes.asNumber

/-- A name that ends is forgotten. -/
theorem follows_erase {type : IntType} {V V' : View} {name : String}
    (hothers : ∀ x, x ≠ name → V' x = V x) :
    Follows type P (modify fun a => { a with vars := a.vars.filter fun entry => entry.1 ≠ name })
      V V' fun _ _ => True := by
  intro σ a hσ v a' hok
  obtain rfl := (EStateM.Result.ok.inj hok).2
  have hfield : ∀ x u, Datum.field? x (a.vars.filter fun entry => entry.1 ≠ name) = some u →
      x ≠ name ∧ Datum.field? x a.vars = some u := by
    intro x u hu
    rw [Datum.field?_filter_decide_ne] at hu
    split at hu
    · cases hu
    · exact ⟨‹_›, hu⟩
  refine ⟨σ, fun M hM => ⟨hM, ⟨(hσ M hM).2.constraints, fun x u hu => ?_, fun x u hu c hc => ?_⟩,
    trivial⟩⟩
  · exact (hσ M hM).2.bounded x u (hfield x u hu).2
  · obtain ⟨hx, hu⟩ := hfield x u hu
    exact (hσ M hM).2.mirrors x u hu c (hothers x hx ▸ hc)

theorem follows_discard (hm : m.Uniform s.intType) (hlib : KeepsBuiltins lib.functions)
    {name : String} {value : Expr} (hv : value.isGuarded = true)
    (h : Execution.remove lib name value m = .ok () m') :
    Follows s.intType P (follow s (.discard loc name value)) m.view m'.view fun _ _ => True := by
  obtain ⟨v, u, hvalue, hu, hc, -, rfl⟩ := Execution.remove_eq_ok.mp h
  have hsuits := hm.suits hlib
  rw [follow]
  refine (follows_lookup name hsuits.inRange).bind fun current => ?_
  refine (follows_encode hsuits hv (Scope.gives_of_value hvalue)).bind fun w => ?_
  refine (follows_equal current w.asNumber).bind fun c => ?_
  refine (follows_assume fun M hM => ?_).bind fun _ => follows_erase fun x hx => ?_
  · obtain ⟨⟨⟨-, -, hcurrent⟩, hw⟩, hequal⟩ := hM
    have hone := hcurrent _ (Frame.view_of_lookup? hu)
    exact (hequal _ _ hone hw.asNumber).mpr (Heap.held_of_cell? hc)
  · refine Frame.view_erase_of_ne hm.distinct hu (fun w hw => Heap.held_congr ?_) hx
    exact (Heap.cell?_put hc none w).trans (if_neg fun he => hw (List.mem_singleton.mpr he))

end Analyzing

namespace Machine.Uniform

variable {type : IntType} {m m' : Machine} {lib : Library} {name : String} {value : Expr}

theorem introduce (hm : m.Uniform type) (h : Execution.introduce lib name value m = .ok () m') :
    m'.Uniform type := by
  have hsafe := (Execution.careful_introduce name value).ok h
  obtain ⟨v, -, hname, -, rfl⟩ := Execution.introduce_eq_ok.mp h
  have hheap := (hsafe.evolves hm.sound.lt_size).heap
  refine ⟨hsafe.sound hm.sound, hm.intType, ?_, fun u hu => ?_, fun x slots hx => ?_⟩
  · rw [hheap.types]
    exact hm.locals
  · rw [hheap.types]
    rcases (Frame.covers_push hname).mp hu with hu | hu
    · rw [List.mem_singleton.mp hu]
      exact hm.locals
    · exact hm.covered u hu
  · rw [Frame.lookup?_push hname] at hx
    split at hx
    · cases hx
    · exact hm.nodup x slots hx

theorem remove (hm : m.Uniform type) (h : Execution.remove lib name value m = .ok () m') :
    m'.Uniform type := by
  have hsafe := (Execution.careful_remove name value).ok h
  obtain ⟨v, u, -, -, -, -, rfl⟩ := Execution.remove_eq_ok.mp h
  have hheap := (hsafe.evolves hm.sound.lt_size).heap
  refine ⟨hsafe.sound hm.sound, hm.intType, ?_, fun u hu => ?_, fun x slots hx => ?_⟩
  · rw [hheap.types]
    exact hm.locals
  · rw [hheap.types]
    exact hm.covered u (Frame.covers_of_covers_erase hu)
  · rw [Frame.lookup?_erase] at hx
    split at hx
    · cases hx
    · exact hm.nodup x slots hx

end Machine.Uniform

/-! ### Calls -/

/-- A machine of which some slots hold what they hold elsewhere. -/
theorem Machine.Uniform.exists_patched {type : IntType} {m : Machine} (hm : m.Uniform type)
    {h' : Heap} (hlive : ∀ u, m.frame.Covers u → (h'.cell? u).isSome = (m.heap.cell? u).isSome)
    (hrange : ∀ u, m.frame.Covers u → type.contains (h'.held u) = true) {slots : List Slot}
    (hslots : ∀ u ∈ slots, m.frame.Covers u) :
    ∃ n : Machine, n.Uniform type ∧ n.frame = m.frame ∧
      ∀ u, n.heap.cell? u = if u ∈ slots then h'.cell? u else m.heap.cell? u := by
  induction slots with
  | nil => exact ⟨m, hm, rfl, fun u => (if_neg List.not_mem_nil).symm⟩
  | cons w rest ih =>
    obtain ⟨n, hn, hframe, hcells⟩ := ih fun u hu => hslots u (List.mem_cons_of_mem w hu)
    have hw := hslots w List.mem_cons_self
    cases hc : m.heap.cell? w with
    | none =>
      have hc' : h'.cell? w = none := by simpa [hc] using hlive w hw
      refine ⟨n, hn, hframe, fun u => ?_⟩
      by_cases hu : u = w
      · rw [hcells, hu, hc, hc']
        simp
      · simp [hcells, hu]
    | some c =>
      obtain ⟨c', hc'⟩ := Option.isSome_iff_exists.mp ((hlive w hw).trans (by rw [hc]; rfl))
      obtain ⟨d, hd⟩ : ∃ d, n.heap.cell? w = some d := by
        rw [hcells]
        split
        · exact ⟨c', hc'⟩
        · exact ⟨c, hc⟩
      have hcovers : n.frame.Covers w := hframe ▸ hw
      have hcontains : (n.heap.store w.store).intType.contains c' = true := by
        rw [hn.covered w hcovers, ← Heap.held_of_cell? hc']
        exact hrange w hw
      refine ⟨{ n with heap := n.heap.put w (some c') },
        hn.of_frame_eq (.put hcovers hd hcontains) rfl, hframe, fun u => ?_⟩
      rw [Heap.cell?_put hd]
      by_cases hu : u = w
      · rw [if_pos hu, hu, if_pos List.mem_cons_self, hc']
      · simp [hcells, hu]

namespace Analyzing

variable {s : Subject} {lib : Library} {m m' : Machine} {P : Model → Prop} {loc : Option Location}

/-- A name that is forgotten stands for whatever it comes to stand for in the run. -/
theorem follows_forget_var (loc : Option Location) {V V' : View} {x : String}
    (hothers : ∀ y, y ≠ x → V' y = V y) (hrange : ∀ c, V' x = some c → c.InRange s.intType) :
    Follows s.intType P (forget s (.var loc x)) V V' fun _ _ => True := by
  unfold forget
  refine (follows_freshValue x (V' x) hrange).bind fun v => ?_
  refine (follows_setVar hothers fun M hM => ⟨hM.2.bounded, hM.2.mirrors⟩).bind fun _ => ?_
  split
  · exact (follows_assumeInRange fun M hM => hM.1.2.inRange).weaken fun _ _ _ _ => trivial
  · exact .pure fun _ _ => trivial

/-- Forgetting an argument follows any change of its slots. -/
theorem follows_forget (hm : m.Uniform s.intType) (hlib : KeepsBuiltins lib.functions)
    {arg : Expr} (hguarded : arg.isGuarded = true) {b : Binding} {reads reads' : List Slot}
    (hb : (m.scope lib).argument arg reads = .ok b reads') {h' : Heap}
    (hrange : ∀ u ∈ b.slots, s.intType.contains (h'.held u) = true)
    (hothers : ∀ u, u ∉ b.slots → h'.held u = m.heap.held u) :
    Follows s.intType P (forget s arg) m.view (m.frame.view h') fun _ _ => True := by
  cases arg with
  | var loc x =>
    have hx : m.frame.lookup? x = some b := Frame.lookup_eq_ok.mp (ofExcept_eq_ok.mp hb).1
    refine follows_forget_var loc (fun y hy => Frame.view_of_ne hm.distinct hx hothers hy) ?_
    intro c hc
    rw [Frame.view_of_lookup? hx] at hc
    rw [← Option.some.inj hc]
    exact Binding.inRange_content hrange
  | elem loc x index =>
    obtain ⟨u, r, hu, hpure⟩ := bind_eq_ok.mp hb
    obtain ⟨rfl, -⟩ := pure_eq_ok.mp hpure
    refine (follows_freshName x (h'.held u) fun _ => 0).bind fun y => ?_
    refine follows_write (hm.suits hlib) hm.distinct hguarded hu
      (hrange u (List.mem_singleton_self u)) (fun w hw => hothers w ?_) fun M hM => ?_
    · exact fun he => hw (List.mem_singleton.mp he)
    · rw [SymValue.Denotes, IntTerm.value]
      exact hM.2.1
  | _ =>
    obtain ⟨u, r, hu, -⟩ := bind_eq_ok.mp hb
    cases hu

/-- Arguments are forgotten one after the other. The indices in later ones do not depend on what
earlier ones stand for. -/
theorem follows_forgets (hm : m.Uniform s.intType) (hlib : KeepsBuiltins lib.functions)
    {args : List Expr} (hguarded : ∀ e ∈ args, e.isGuarded = true)
    {p : List (String × Binding) × List (String × List Slot)}
    (hargs : Execution.arguments lib args m = .ok p m)
    (hreads : ∀ entry ∈ p.2, ∀ u ∈ entry.2, u ∉ Overlap.slotsOf p.1) {h' : Heap}
    (hlive : ∀ u, m.frame.Covers u → (h'.cell? u).isSome = (m.heap.cell? u).isSome)
    (hrange : ∀ u, m.frame.Covers u → s.intType.contains (h'.held u) = true)
    (hothers : ∀ u, m.frame.Covers u → u ∉ Overlap.slotsOf p.1 → h'.cell? u = m.heap.cell? u) :
    Follows s.intType P (args.forM (forget s)) m.view (m.frame.view h') fun _ _ => True := by
  induction args generalizing m p P with
  | nil =>
    obtain ⟨rfl, -⟩ := pure_eq_ok.mp hargs
    have hview : m.frame.view h' = m.view := funext fun x => Frame.view_congr fun b hb u hu =>
      Heap.held_congr (hothers u ⟨x, b, hb, hu⟩ (by simp [Overlap.slotsOf]))
    rw [hview]
    exact .pure fun _ _ => trivial
  | cons arg rest ih =>
    obtain ⟨⟨b, reads⟩, m₁, hb', h₁⟩ := bind_eq_ok.mp hargs
    obtain ⟨hb, hm₁⟩ := Execution.reading_eq_ok.mp hb'
    subst m₁
    obtain ⟨⟨bindings, allReads⟩, m₂, hrest, h₂⟩ := bind_eq_ok.mp h₁
    obtain ⟨rfl, hm₂⟩ := pure_eq_ok.mp h₂
    subst m₂
    have hcovers := (Scope.covers_of_argument hb).1
    obtain ⟨n, hn, hframe, hcells⟩ := hm.exists_patched hlive hrange hcovers
    have hsame : ∀ u, u ∉ b.slots → n.heap.cell? u = m.heap.cell? u := fun u hu =>
      (hcells u).trans (if_neg hu)
    have hnew : ∀ u ∈ b.slots, n.heap.cell? u = h'.cell? u := fun u hu =>
      (hcells u).trans (if_pos hu)
    simp only [Overlap.slotsOf_cons, List.mem_append, not_or] at hothers hreads
    have hrest' : Execution.arguments lib rest n = .ok (bindings, allReads) n := by
      have hx : (m.scope lib).Extends id (Expr.namesOfList rest) (n.scope lib) :=
        ⟨rfl, by rw [Machine.scope, Machine.scope, hframe], fun x _ c hc => by
          rw [Binding.rename_id, show (n.scope lib).frame = m.frame from hframe]
          exact hc⟩
      have harguments := Execution.arguments_of_extends hx hrest fun entry he u hu _ =>
        hsame u (hreads entry (List.mem_cons_of_mem _ he) u hu).1
      simpa [Binding.rename_id] using harguments
    have hfirst : Follows s.intType P (forget s arg) m.view n.view fun _ _ => True := by
      rw [show n.view = m.frame.view n.heap by rw [Machine.view, hframe]]
      refine follows_forget hm hlib (hguarded arg List.mem_cons_self) hb (fun u hu => ?_)
        fun u hu => Heap.held_congr (hsame u hu)
      rw [Heap.held_congr (hnew u hu)]
      exact hrange u (hcovers u hu)
    refine hfirst.bind fun _ => ?_
    rw [← hframe] at hlive hrange hothers ⊢
    refine ih hn (fun e he => hguarded e (List.mem_cons_of_mem arg he)) hrest'
      (fun entry he u hu => (hreads entry (List.mem_cons_of_mem _ he) u hu).2)
      (fun u hu => ?_) hrange fun u hu hslots => ?_
    · rw [hcells]
      split
      · rfl
      · exact hlive u hu
    · by_cases hub : u ∈ b.slots
      · exact (hnew u hub).symm
      · rw [hsame u hub]
        exact hothers u hu ⟨hub, hslots⟩

theorem follows_call (hm : m.Uniform s.intType) (hlib : KeepsBuiltins lib.functions)
    {run : Direction → Stmt → Execution Unit} (hrun : ∀ d s m, Execution.Careful (run d s) m)
    {callee : String} {args : List Expr} {uncall : Bool}
    (hguarded : ∀ e ∈ args, e.isGuarded = true)
    (h : Execution.call lib run .forward callee args uncall m = .ok () m') :
    Follows s.intType P (follow s (.call loc callee args uncall)) m.view m'.view
      fun _ _ => True := by
  have hsafe := (Execution.careful_call hrun .forward callee args uncall).ok h
  obtain ⟨p, bindings, reads, mem', -, hargs, -, hreads, hproc, rfl⟩ := Execution.call_eq_ok.mp h
  have hm' := hm.of_frame_eq hsafe rfl
  have hkept := Execution.kept_of_runProcedure hrun hproc (m.frame.locals + 1)
  have hplaced : ∀ u, m.frame.Covers u → u.store ≠ m.frame.locals + 1 := fun u hu => by
    have hle := hm.sound.placed u hu
    omega
  rw [follow]
  exact follows_forgets hm hlib hguarded hargs hreads
    (fun u hu => hkept.live u (hplaced u hu)) (fun u hu => hm'.contains_held hu)
    fun u hu hslots => hkept.cells u (hplaced u hu) fun hamong =>
      hslots (Binding.among_iff_mem_slotsOf.mp hamong)

/-! ### Loops -/

/-- A condition that was tested in the run holds just if it did there. -/
theorem follows_tested {t : Scope} (ht : t.Suits s) {e : Expr} (he : e.isGuarded = true) {b : Bool}
    (hb : t.test e = .ok b) :
    Follows s.intType P (encode s e >>= condition) (t.frame.view t.heap) (t.frame.view t.heap)
      fun c M => c.Holds M ↔ b = true := by
  obtain ⟨v, hv, rfl⟩ := Scope.test_eq_ok.mp hb
  refine (follows_encode ht he (Scope.gives_of_value hv)).bind fun w => ?_
  refine (follows_condition w).weaken fun c M hM hc => ?_
  rw [hc v.toInt hM.2, Value.holds]
  simp

/-- What a loop may write to is forgotten, and stands for whatever it stands for in the end. -/
theorem follows_forgetInLoop {V V' : View} (hrange : V'.InRange s.intType) {refs : List Expr}
    (hothers : ∀ x, x ∉ refs.filterMap Expr.refName? → V' x = V x) :
    Follows s.intType P (refs.forM (forgetInLoop s)) V V' fun _ _ => True := by
  induction refs generalizing V P with
  | nil =>
    rw [funext fun x => hothers x List.not_mem_nil]
    exact .pure fun _ _ => trivial
  | cons ref rest ih =>
    cases hname : ref.refName? with
    | none =>
      rw [List.filterMap_cons_none hname] at hothers
      have hnothing : Follows s.intType P (forgetInLoop s ref) V V fun _ _ => True := by
        cases ref <;> first | exact .pure fun _ _ => trivial | cases hname
      exact hnothing.bind fun _ => ih hothers
    | some x =>
      rw [List.filterMap_cons_some hname] at hothers
      -- the name gets what it stands for in the end at once, also if it occurs again
      have hfirst : Follows s.intType P (forgetInLoop s ref) V (Function.update V x (V' x))
          fun _ _ => True := by
        have hothers' : ∀ y, y ≠ x → Function.update V x (V' x) y = V y := fun y hy =>
          Function.update_of_ne hy ..
        have hrange' : ∀ c, Function.update V x (V' x) x = some c → c.InRange s.intType := by
          rw [Function.update_self]
          exact hrange x
        cases ref with
        | var loc y =>
          obtain rfl := Option.some.inj hname
          exact follows_forget_var loc hothers' hrange'
        | elem loc y index =>
          obtain rfl := Option.some.inj hname
          refine (follows_freshValue y _ hrange').bind fun v => ?_
          exact follows_setVar hothers' fun M hM => ⟨hM.2.bounded, hM.2.mirrors⟩
        | _ => cases hname
      refine hfirst.bind fun _ => ih fun y hy => ?_
      by_cases hyx : y = x
      · rw [hyx, Function.update_self]
      · rw [Function.update_of_ne hyx]
        exact hothers y (by simp [hyx, hy])

theorem follows_loop (hm' : m'.Uniform s.intType) (hlib : KeepsBuiltins lib.functions)
    {entry exit : Expr} {doBody loopBody : List Stmt} (hexit : exit.isGuarded = true)
    (hothers : ∀ x, x ∉ (Stmt.loop loc entry doBody loopBody exit).touched →
      m'.view x = m.view x) (hlast : (m'.scope lib).test exit = .ok true) :
    Follows s.intType P (follow s (.loop loc entry doBody loopBody exit)) m.view m'.view
      fun _ _ => True := by
  rw [follow]
  refine Follows.bind (?_ : Follows _ _ _ _ m'.view fun _ _ => True) fun _ => ?_
  · refine follows_forgetInLoop hm'.inRange_view fun x hx => hothers x fun hx' => hx ?_
    rwa [Stmt.touched, Stmt.modified] at hx'
  · rw [← bind_assoc]
    exact (follows_tested (hm'.suits hlib) hexit hlast).bind fun c => follows_assume fun M hM =>
      hM.2.mpr rfl

end Analyzing

end Retrace
