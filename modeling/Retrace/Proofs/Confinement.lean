import Retrace.Proofs.Statement

/-!
# What a run can touch

A run of a procedure changes the slots that its frame covers and the store of its locals, and
nothing else; and it keeps the frame in order. Both hold whether the run completes or fails, and
both are proved here together, one form of statement after the other:

* `Machine.Evolves` is the frame condition. Slots that are not covered keep their values, and no
  slot outside the store of the locals is allocated or released.
* `Machine.Sound` is the invariant of the machine that a procedure runs in. No two names share a
  slot, the locals are live slots of the last store, and every slot holds a value of its type. All
  but the last is `Machine.Ordered`, which survives whatever the slots hold.

`careful_exec` is the statement for all runs, and `kept_runProcedure` what it says of a procedure as
a whole. The lemma about each form of statement asks of the smaller runs only that they are careful
too.
-/

namespace Retrace

open Actions

/-! ## The frame condition -/

/-- Every slot holds a value of the type of its store. -/
def Heap.InRange (h : Heap) : Prop :=
  ∀ s v, h.cell? s = some v → (h.store s.store).intType.contains v = true

/-- It is enough to look at the cells that are there. -/
theorem Heap.inRange_of_all {h : Heap}
    (hall : (h.stores.toList.all fun s => s.cells.toList.all fun c => c.all s.intType.contains) =
      true) : h.InRange := by
  intro s v hs
  have hlt := Heap.lt_size_of_cell? hs
  obtain ⟨hnonneg, hi⟩ := Store.lt_size_of_cell? hs
  have hstore : h.store s.store ∈ h.stores.toList := by
    rw [Heap.store, Array.getD_eq_getD_getElem?, Array.getElem?_eq_getElem hlt]
    exact Array.mem_toList_iff.mpr (Array.getElem_mem hlt)
  have hcell : some v ∈ (h.store s.store).cells.toList := by
    rw [Heap.cell?, Store.cell?, if_pos hnonneg, Array.getD_eq_getD_getElem?,
      Array.getElem?_eq_getElem hi, Option.getD_some] at hs
    exact hs ▸ Array.mem_toList_iff.mpr (Array.getElem_mem hi)
  exact List.all_eq_true.mp (List.all_eq_true.mp hall _ hstore) _ hcell

/-- A heap is another one still, apart from the values in a region and from the store `id`. -/
structure Heap.KeptOutside (region : Slot → Prop) (id : Nat) (h h' : Heap) : Prop where
  size : h'.size = h.size
  types : ∀ i, (h'.store i).intType = (h.store i).intType
  flags : ∀ i, (h'.store i).poisoned = (h.store i).poisoned
  lengths : ∀ i, i ≠ id → (h'.store i).cells.size = (h.store i).cells.size
  live : ∀ s, s.store ≠ id → (h'.cell? s).isSome = (h.cell? s).isSome
  cells : ∀ s, s.store ≠ id → ¬region s → h'.cell? s = h.cell? s

namespace Heap.KeptOutside

variable {region region' : Slot → Prop} {id : Nat} {h h' h'' : Heap}

theorem refl (region : Slot → Prop) (id : Nat) (h : Heap) : KeptOutside region id h h :=
  ⟨rfl, fun _ => rfl, fun _ => rfl, fun _ _ => rfl, fun _ _ => rfl, fun _ _ _ => rfl⟩

theorem trans (h₁ : KeptOutside region id h h') (h₂ : KeptOutside region id h' h'') :
    KeptOutside region id h h'' where
  size := h₂.size.trans h₁.size
  types i := (h₂.types i).trans (h₁.types i)
  flags i := (h₂.flags i).trans (h₁.flags i)
  lengths i hi := (h₂.lengths i hi).trans (h₁.lengths i hi)
  live s hs := (h₂.live s hs).trans (h₁.live s hs)
  cells s hs hr := (h₂.cells s hs hr).trans (h₁.cells s hs hr)

/-- A region may be larger than needed, also by slots of the store that is left out. -/
theorem mono (hk : KeptOutside region id h h')
    (hsub : ∀ s, region s → region' s ∨ s.store = id) : KeptOutside region' id h h' :=
  { hk with cells := fun s hs hr => hk.cells s hs fun hreg => (hsub s hreg).elim hr hs }

theorem put {s : Slot} {c : Int} (hs : h.cell? s = some c) (v : Int) (hreg : region s) :
    KeptOutside region id h (h.put s (some v)) where
  size := size_put ..
  types i := intType_put ..
  flags i := poisoned_put ..
  lengths i _ := length_put ..
  live t _ := by
    rw [cell?_put hs]
    split
    · rename_i ht
      simp [ht, hs]
    · rfl
  cells t _ ht := by
    rw [cell?_put hs, if_neg]
    rintro rfl
    exact ht hreg

/-- Releasing a slot of the store that is left out. -/
theorem release {s : Slot} {c : Int} (hs : h.cell? s = some c) :
    KeptOutside region s.store h (h.put s none) where
  size := size_put ..
  types i := intType_put ..
  flags i := poisoned_put ..
  lengths i _ := length_put ..
  live t ht := by
    rw [cell?_put hs, if_neg]
    rintro rfl
    exact ht rfl
  cells t ht _ := by
    rw [cell?_put hs, if_neg]
    rintro rfl
    exact ht rfl

theorem grow (hid : id < h.size) (v : Int) : KeptOutside region id h (h.grow id v) where
  size := size_grow ..
  types i := intType_grow ..
  flags i := poisoned_grow ..
  lengths i hi := by rw [store_grow_of_ne h hi]
  live t ht := by
    rw [cell?_grow hid, if_neg]
    rintro rfl
    exact ht rfl
  cells t ht _ := by
    rw [cell?_grow hid, if_neg]
    rintro rfl
    exact ht rfl

/-- What is done in a store of its own, on top of the heap, and in a region is seen in the region
only once that store is dropped. -/
theorem pop {t : Store} (ht : t.cells = #[]) (hk : KeptOutside region h.size (h.push t) h') :
    KeptOutside region id h h'.pop := by
  have hsize : h'.size = h.size + 1 := by rw [hk.size, size_push]
  have hstore : ∀ i, h'.pop.store i = if i = h.size then {} else h'.store i := by
    intro i
    rw [store_pop, hsize]
    simp
  have hpush : ∀ i, i ≠ h.size → (h.push t).store i = h.store i := by
    intro i hi
    rw [store_push, if_neg hi]
  have htop : h.store h.size = {} := store_of_size_le (Nat.le_refl _)
  have hcell : ∀ s, h'.pop.cell? s = if s.store = h.size then none else h'.cell? s := by
    intro s
    rw [cell?_pop, hsize]
    simp
  have hnone : ∀ s : Slot, s.store = h.size → h.cell? s = none := by
    intro s hs
    rw [cell?, hs, htop]
    simp [Store.cell?]
  refine ⟨by rw [size_pop, hsize]; rfl, ?_, ?_, ?_, ?_, ?_⟩
  · intro i
    rw [hstore]
    split
    · rename_i hi
      rw [hi, htop]
    · rename_i hi
      rw [hk.types, hpush i hi]
  · intro i
    rw [hstore]
    split
    · rename_i hi
      rw [hi, htop]
    · rename_i hi
      rw [hk.flags, hpush i hi]
  · intro i _
    rw [hstore]
    split
    · rename_i hi
      rw [hi, htop]
    · rename_i hi
      rw [hk.lengths i hi, hpush i hi]
  · intro s _
    rw [hcell]
    split
    · rename_i hs
      rw [hnone s hs]
    · rename_i hs
      rw [hk.live s hs, cell?_push h ht]
  · intro s _ hr
    rw [hcell]
    split
    · rename_i hs
      rw [hnone s hs]
    · rename_i hs
      rw [hk.cells s hs hr, cell?_push h ht]

end Heap.KeptOutside

/-- A machine that comes from `m` by running statements of its procedure. -/
structure Machine.Evolves (m m' : Machine) : Prop where
  procedure : m'.frame.procedure = m.frame.procedure
  intType : m'.frame.intType = m.frame.intType
  depth : m'.frame.depth = m.frame.depth
  locals : m'.frame.locals = m.frame.locals
  covers : ∀ s, m'.frame.Covers s → m.frame.Covers s ∨ s.store = m.frame.locals
  heap : Heap.KeptOutside m.frame.Covers m.frame.locals m.heap m'.heap

/-- The invariant of the machine that a procedure runs in, as far as names and slots go. -/
structure Machine.Ordered (m : Machine) : Prop where
  /-- the locals live in the last store -/
  top : m.heap.size = m.frame.locals + 1
  placed : ∀ s, m.frame.Covers s → s.store ≤ m.frame.locals
  apart : m.frame.bindings.Pairwise Frame.Apart
  /-- locals have not been released -/
  held : ∀ s, m.frame.Covers s → s.store = m.frame.locals → (m.heap.cell? s).isSome

/-- The invariant of the machine that a procedure runs in. -/
structure Machine.Sound (m : Machine) : Prop where
  /-- the locals live in the last store -/
  top : m.heap.size = m.frame.locals + 1
  inRange : m.heap.InRange
  placed : ∀ s, m.frame.Covers s → s.store ≤ m.frame.locals
  apart : m.frame.bindings.Pairwise Frame.Apart
  /-- locals have not been released -/
  held : ∀ s, m.frame.Covers s → s.store = m.frame.locals → (m.heap.cell? s).isSome

namespace Machine

theorem Evolves.trans {m m' m'' : Machine} (h₁ : m.Evolves m') (h₂ : m'.Evolves m'') :
    m.Evolves m'' where
  procedure := h₂.procedure.trans h₁.procedure
  intType := h₂.intType.trans h₁.intType
  depth := h₂.depth.trans h₁.depth
  locals := h₂.locals.trans h₁.locals
  covers s hs := (h₂.covers s hs).elim (h₁.covers s) fun h => Or.inr (h.trans h₁.locals)
  heap := h₁.heap.trans ((h₁.locals ▸ h₂.heap).mono h₁.covers)

theorem Evolves.lt_size {m m' : Machine} (h : m.Evolves m')
    (hlt : m.frame.locals < m.heap.size) : m'.frame.locals < m'.heap.size := by
  rw [h.locals, h.heap.size]
  exact hlt

theorem Sound.ordered {m : Machine} (h : m.Sound) : m.Ordered := ⟨h.top, h.placed, h.apart, h.held⟩

theorem Ordered.sound {m : Machine} (h : m.Ordered) (hrange : m.heap.InRange) : m.Sound :=
  ⟨h.top, hrange, h.placed, h.apart, h.held⟩

theorem Ordered.lt_size {m : Machine} (h : m.Ordered) : m.frame.locals < m.heap.size := by
  rw [h.top]
  exact Nat.lt_succ_self _

theorem Sound.lt_size {m : Machine} (h : m.Sound) : m.frame.locals < m.heap.size :=
  h.ordered.lt_size

theorem Ordered.store_lt {m : Machine} (h : m.Ordered) {s : Slot} (hs : m.frame.Covers s) :
    s.store < m.heap.size :=
  Nat.lt_of_le_of_lt (h.placed s hs) h.lt_size

theorem Sound.store_lt {m : Machine} (h : m.Sound) {s : Slot} (hs : m.frame.Covers s) :
    s.store < m.heap.size :=
  h.ordered.store_lt hs

/-- The slot of the next local is not in use. -/
theorem Ordered.ne_fresh {m : Machine} (h : m.Ordered) {s : Slot} (hs : m.frame.Covers s) :
    s ≠ m.heap.fresh m.frame.locals := by
  rintro rfl
  have hheld := h.held _ hs rfl
  rw [Heap.cell?_fresh] at hheld
  cases hheld

theorem Sound.ne_fresh {m : Machine} (h : m.Sound) {s : Slot} (hs : m.frame.Covers s) :
    s ≠ m.heap.fresh m.frame.locals :=
  h.ordered.ne_fresh hs

/-- A machine that evolves from `m`, if this has a store for its locals, and keeps its invariant. -/
structure Safe (m m' : Machine) : Prop where
  evolves : m.frame.locals < m.heap.size → m.Evolves m'
  ordered : m.Ordered → m'.Ordered
  inRange : m.Sound → m'.heap.InRange

theorem Safe.sound {m m' : Machine} (h : m.Safe m') (hm : m.Sound) : m'.Sound :=
  (h.ordered hm.ordered).sound (h.inRange hm)

theorem Safe.trans {m m' m'' : Machine} (h₁ : m.Safe m') (h₂ : m'.Safe m'') : m.Safe m'' where
  evolves hlt := (h₁.evolves hlt).trans (h₂.evolves ((h₁.evolves hlt).lt_size hlt))
  ordered h := h₂.ordered (h₁.ordered h)
  inRange h := h₂.inRange (h₁.sound h)

/-- The log does not matter. -/
theorem Safe.of_eq {m m' : Machine} (hheap : m'.heap = m.heap) (hframe : m'.frame = m.frame) :
    m.Safe m' where
  evolves _ := by
    refine ⟨by rw [hframe], by rw [hframe], by rw [hframe], by rw [hframe], ?_, ?_⟩
    · rw [hframe]
      exact fun s hs => Or.inl hs
    · rw [hheap]
      exact .refl ..
  ordered h := by
    refine ⟨?_, ?_, ?_, ?_⟩
    · rw [hheap, hframe]
      exact h.top
    · rw [hframe]
      exact h.placed
    · rw [hframe]
      exact h.apart
    · rw [hheap, hframe]
      exact h.held
  inRange h := by
    rw [hheap]
    exact h.inRange

theorem Safe.refl (m : Machine) : m.Safe m := .of_eq rfl rfl

/-- Writing to a covered slot is safe. -/
theorem Safe.put {m : Machine} {s : Slot} {c v : Int} (hs : m.frame.Covers s)
    (hc : m.heap.cell? s = some c) (hv : (m.heap.store s.store).intType.contains v = true) :
    m.Safe { m with heap := m.heap.put s (some v) } where
  evolves _ := ⟨rfl, rfl, rfl, rfl, fun t ht => Or.inl ht, .put hc v hs⟩
  ordered h := by
    refine ⟨by simpa using h.top, h.placed, h.apart, fun t ht hl => ?_⟩
    rw [Heap.cell?_put hc]
    split
    · rfl
    · exact h.held t ht hl
  inRange h := by
    intro t w ht
    rw [Heap.intType_put]
    rw [Heap.cell?_put hc] at ht
    split at ht
    · rename_i hts
      rw [hts, ← Option.some.inj ht]
      exact hv
    · exact h.inRange t w ht

/-- Beginning a local is safe. -/
theorem Safe.introduce {m : Machine} {name : String} {v : Int} (hname : m.frame.has name = false)
    (hv : (m.heap.store m.frame.locals).intType.contains v = true) :
    m.Safe ⟨{ m.toMemory with heap := m.heap.grow m.frame.locals v },
      m.frame.push name (.scalar (m.heap.fresh m.frame.locals))⟩ where
  evolves hlt := by
    refine ⟨rfl, rfl, rfl, rfl, fun t ht => ?_, .grow hlt v⟩
    rcases (Frame.covers_push hname).mp ht with ht | ht
    · rw [List.mem_singleton.mp ht]
      exact Or.inr rfl
    · exact Or.inl ht
  ordered h := by
    have hlt := h.lt_size
    have hfresh : ¬m.frame.Covers (m.heap.fresh m.frame.locals) := fun hcov => h.ne_fresh hcov rfl
    refine ⟨by simpa [Frame.push] using h.top, ?_, Frame.pairwise_push h.apart hname hfresh, ?_⟩
    · intro t ht
      rcases (Frame.covers_push hname).mp ht with ht | ht
      · rw [List.mem_singleton.mp ht]
        exact Nat.le_refl _
      · exact h.placed t ht
    · intro t ht hl
      rw [Heap.cell?_grow hlt]
      split
      · rfl
      · rename_i hne
        rcases (Frame.covers_push hname).mp ht with ht | ht
        · exact absurd (List.mem_singleton.mp ht) hne
        · exact h.held t ht hl
  inRange h := by
    intro t w ht
    rw [Heap.intType_grow]
    rw [Heap.cell?_grow h.lt_size] at ht
    split at ht
    · rename_i hts
      rw [hts, ← Option.some.inj ht]
      exact hv
    · exact h.inRange t w ht

/-- Forgetting a name is safe. -/
theorem Safe.erase (m : Machine) (name : String) :
    m.Safe { m with frame := m.frame.erase name } where
  evolves _ := ⟨rfl, rfl, rfl, rfl, fun _ ht => Or.inl (Frame.covers_of_covers_erase ht), .refl ..⟩
  ordered h := ⟨h.top, fun t ht => h.placed t (Frame.covers_of_covers_erase ht),
    Frame.pairwise_erase h.apart name, fun t ht => h.held t (Frame.covers_of_covers_erase ht)⟩
  inRange h := h.inRange

/-- Ending a local is safe. -/
theorem Safe.remove {m : Machine} {name : String} {s : Slot} {c : Int}
    (hname : m.frame.lookup? name = some (.scalar s)) (hs : s.store = m.frame.locals)
    (hc : m.heap.cell? s = some c) :
    m.Safe ⟨{ m.toMemory with heap := m.heap.put s none }, m.frame.erase name⟩ where
  evolves _ := by
    refine ⟨rfl, rfl, rfl, rfl, fun t ht => Or.inl (Frame.covers_of_covers_erase ht), ?_⟩
    rw [← hs]
    exact .release hc
  ordered h := by
    refine ⟨by simpa [Frame.erase] using h.top,
      fun t ht => h.placed t (Frame.covers_of_covers_erase ht),
      Frame.pairwise_erase h.apart name, fun t ht hl => ?_⟩
    -- the released slot stood for `name` only
    obtain ⟨hcov, hts⟩ := (Frame.covers_erase h.apart hname).mp ht
    rw [Heap.cell?_put hc, if_neg hts]
    exact h.held t hcov hl
  inRange h := by
    intro t w ht
    rw [Heap.intType_put]
    rw [Heap.cell?_put hc] at ht
    split at ht
    · cases ht
    · exact h.inRange t w ht

end Machine

/-! ## Single statements -/

namespace Execution

variable {lib : Library} {m : Machine}

/-- An action moves to a machine that is still in order, also if it fails. -/
abbrev Careful {α : Type} (x : Execution α) (m : Machine) : Prop := Moves Machine.Safe x m

theorem Careful.bind {α β : Type} {x : Execution α} {f : α → Execution β} (hx : Careful x m)
    (hf : ∀ a m', x m = .ok a m' → Careful (f a) m') : Careful (x >>= f) m :=
  Moves.bind (fun h₁ h₂ => h₁.trans h₂) hx hf

/-- What does not change the machine is careful. -/
theorem careful_of_after {α : Type} {x : Execution α} (h : after x m = m) : Careful x m :=
  Moves.of_eq Machine.Safe.refl h

theorem careful_pure {α : Type} (a : α) : Careful (pure a) m := careful_of_after rfl

theorem careful_throw {α : Type} (stop : Stop) : Careful (throw stop : Execution α) m :=
  careful_of_after rfl

theorem after_ofExcept {α : Type} (r : Except Fault α) : after (ofExcept r) m = m := by
  cases r <;> rfl

theorem careful_ofExcept {α : Type} (r : Except Fault α) : Careful (ofExcept r) m :=
  careful_of_after (after_ofExcept r)

theorem careful_violate {α : Type} (v : Violation) : Careful (violate v : Execution α) m :=
  careful_of_after rfl

theorem after_refuse (v : Option Violation) : after (refuse v) m = m := by
  cases v <;> rfl

theorem careful_refuse (v : Option Violation) : Careful (refuse v) m :=
  careful_of_after (after_refuse v)

theorem after_reading {α : Type} (before : List Slot) (work : Scope → Reading α) :
    after (reading lib before work) m = m := by
  rw [after, reading_apply]
  cases work (m.scope lib) before <;> rfl

theorem careful_reading {α : Type} (before : List Slot) (work : Scope → Reading α) :
    Careful (reading lib before work) m :=
  careful_of_after (after_reading before work)

theorem careful_number (e : Expr) : Careful (number lib e) m :=
  .bind (careful_of_after rfl) fun _ _ _ => .bind (careful_ofExcept _) fun _ _ _ => careful_pure _

theorem careful_test (e : Expr) : Careful (test lib e) m :=
  .bind (careful_of_after rfl) fun _ _ _ => careful_ofExcept _

theorem careful_readSlot (s : Slot) : Careful (readSlot s) m :=
  .bind (careful_of_after rfl) fun _ _ _ => careful_ofExcept _

theorem careful_writeSlot {s : Slot} (hs : m.frame.Covers s) (v : Int) :
    Careful (writeSlot s v) m := by
  rw [Careful, Moves, after, writeSlot_apply]
  cases hc : m.heap.cell? s with
  | none => exact .refl m
  | some c =>
    by_cases hv : (m.heap.store s.store).intType.contains v = true
    · rw [if_pos hv]
      exact .put hs hc hv
    · rw [if_neg hv]
      exact .refl m

theorem careful_assign (d : Direction) (target : Expr) (op : String) (value : Expr) :
    Careful (assign lib d target op value) m := by
  refine .bind (careful_ofExcept _) fun u m₁ hu => ?_
  refine .bind (careful_reading ..) fun located m₂ hlocated => ?_
  refine .bind (careful_reading ..) fun operand m₃ hoperand => ?_
  refine .bind (careful_refuse _) fun _ m₄ hrefuse => ?_
  refine .bind (careful_readSlot _) fun c m₅ hc => careful_writeSlot ?_ _
  obtain ⟨hs, rfl⟩ := reading_eq_ok.mp hlocated
  obtain ⟨-, rfl⟩ := reading_eq_ok.mp hoperand
  obtain ⟨-, rfl⟩ := refuse_eq_ok.mp hrefuse
  obtain ⟨-, rfl⟩ := readSlot_eq_ok.mp hc
  exact (Scope.covers_of_locate hs).1

theorem careful_swap (left right : Expr) : Careful (swap lib left right) m := by
  refine .bind (careful_reading ..) fun leftSlot m₁ hleft => ?_
  refine .bind (careful_reading ..) fun rightSlot m₂ hright => ?_
  refine .bind (careful_refuse _) fun _ m₃ hdistinct => ?_
  refine .bind (careful_refuse _) fun _ m₄ hindices => ?_
  refine .bind (careful_readSlot _) fun a m₅ ha => ?_
  refine .bind (careful_readSlot _) fun b m₆ hb => ?_
  obtain ⟨hs, rfl⟩ := reading_eq_ok.mp hleft
  obtain ⟨ht, rfl⟩ := reading_eq_ok.mp hright
  obtain ⟨-, rfl⟩ := refuse_eq_ok.mp hdistinct
  obtain ⟨-, rfl⟩ := refuse_eq_ok.mp hindices
  obtain ⟨-, rfl⟩ := readSlot_eq_ok.mp ha
  obtain ⟨-, rfl⟩ := readSlot_eq_ok.mp hb
  refine .bind (careful_writeSlot (Scope.covers_of_locate hs).1 _) fun _ m₇ hwrite => ?_
  obtain ⟨-, -, rfl⟩ := writeSlot_eq_ok.mp hwrite
  refine careful_writeSlot ?_ _
  exact (Scope.covers_of_locate ht).1

theorem careful_bind (name : String) (v : Int) : Careful (bind name v) m := by
  unfold Careful Moves after bind
  simp only [bind_apply, get_apply]
  by_cases hn : m.frame.has name = true
  · simp only [hn, if_true, bind_apply, throw_apply]
    exact .refl m
  · simp only [hn, if_false, bind_apply, onHeap_alloc_apply, Bool.false_eq_true]
    by_cases hv : (m.heap.store m.frame.locals).intType.contains v = true
    · simp only [hv, if_true, modify_apply, pure_apply]
      exact .introduce (by simpa using hn) hv
    · simp only [hv, if_false, Bool.false_eq_true]
      exact .refl m

theorem careful_introduce (name : String) (e : Expr) : Careful (introduce lib name e) m :=
  .bind (careful_number e) fun v _ _ => .bind (careful_bind name v) fun _ _ _ => careful_pure ()

theorem careful_unbind (name : String) : Careful (unbind name) m := by
  unfold Careful Moves after unbind
  simp only [bind_apply, get_apply]
  cases hs : m.frame.slot name with
  | error f => exact .refl m
  | ok s =>
    simp only [ofExcept, pure_apply]
    by_cases hl : s.store = m.frame.locals
    · simp only [hl, ne_eq, not_true_eq_false, if_false, bind_apply, modify_apply]
      rw [← hl, onHeap_free_apply]
      cases hc : m.heap.cell? s with
      | none => exact .erase m name
      | some c => exact .remove (Frame.slot_eq_ok.mp hs) hl hc
    · simp only [hl, ne_eq, not_false_eq_true, if_true, bind_apply, throw_apply]
      exact .refl m

theorem careful_remove (name : String) (e : Expr) : Careful (remove lib name e) m := by
  refine .bind (careful_number e) fun v m₁ _ => ?_
  refine .bind (careful_of_after rfl) fun m₂ m₃ _ => ?_
  refine .bind (careful_ofExcept _) fun s m₄ _ => ?_
  refine .bind (careful_readSlot s) fun c m₅ _ => ?_
  have hend : ∀ m : Machine, Careful (do let _ ← unbind name; pure ()) m := fun m =>
    .bind (careful_unbind name) fun _ _ _ => careful_pure ()
  split
  · exact .bind (careful_violate _) fun _ m₆ _ => hend m₆
  · exact hend m₅

/-! ## Statements made of others -/

section Compound

variable {run : Stmt → Execution Unit}

theorem careful_block (hrun : ∀ s m, Careful (run s) m) (d : Direction) (body : List Stmt) :
    Careful (block run d body) m := by
  have hforM : ∀ (stmts : List Stmt) (m : Machine), Careful (stmts.forM run) m := by
    intro stmts
    induction stmts with
    | nil => exact fun m => careful_pure ()
    | cons s rest ih => exact fun m => .bind (hrun s m) fun _ m' _ => ih m'
  exact hforM (d.order body) m

theorem careful_ite_violate {c : Prop} [Decidable c] (v : Violation) :
    Careful (if c then violate v else pure () : Execution Unit) m := by
  split
  · exact careful_violate v
  · exact careful_pure ()

theorem careful_branch (hrun : ∀ s m, Careful (run s) m) (d : Direction) (guard assertion : Expr)
    (thenBody elseBody : List Stmt) :
    Careful (branch lib run d guard thenBody elseBody assertion) m := by
  cases d with
  | forward =>
    refine .bind (careful_test guard) fun _ _ _ => .bind (careful_block hrun ..) fun _ _ _ => ?_
    exact .bind (careful_test assertion) fun _ _ _ => careful_ite_violate _
  | backward =>
    refine .bind (careful_test assertion) fun _ _ _ => .bind (careful_block hrun ..) fun _ _ _ => ?_
    split
    · exact .bind (careful_test guard) fun _ _ _ => careful_ite_violate _
    · exact careful_pure ()

theorem careful_repeatUntil {last : Expr} {body : Nat → Execution Unit}
    (hbody : ∀ i m, Careful (body i) m) (fuel i : Nat) :
    Careful (repeatUntil (test lib last) body fuel i) m := by
  induction fuel generalizing i m with
  | zero => exact careful_throw _
  | succ fuel ih =>
    refine .bind (careful_test last) fun b m₁ _ => ?_
    cases b with
    | true => exact careful_pure ()
    | false => exact .bind (hbody (i + 1) m₁) fun _ _ _ => ih (i + 1)

theorem careful_again (hrun : ∀ s m, Careful (run s) m) (d : Direction) (first : Expr)
    (doBody loopBody : List Stmt) (i : Nat) :
    Careful (again lib run d first doBody loopBody i) m := by
  refine .bind (careful_block hrun ..) fun _ _ _ => .bind (careful_test first) fun b _ _ => ?_
  cases b with
  | true => exact .bind (careful_violate _) fun _ _ _ => careful_block hrun ..
  | false => exact careful_block hrun ..

theorem careful_loop (hrun : ∀ s m, Careful (run s) m) (fuel : Nat) (d : Direction)
    (entry exit : Expr) (doBody loopBody : List Stmt) :
    Careful (loop lib run fuel d entry doBody loopBody exit) m := by
  rw [loop_eq]
  refine .bind (careful_test _) fun b _ _ => ?_
  have hrest : ∀ m, Careful (do
      block run d doBody
      repeatUntil (test lib (d.pick exit entry))
        (again lib run d (d.pick entry exit) doBody loopBody) fuel 0) m := fun m =>
    .bind (careful_block hrun ..) fun _ _ _ =>
      careful_repeatUntil (fun i m => careful_again hrun d _ doBody loopBody i) ..
  cases b with
  | false => exact .bind (careful_violate _) fun _ m' _ => hrest m'
  | true => exact hrest _

end Compound

end Execution

/-! ## Procedures -/

/-- Some argument of a procedure stands for the slot. -/
def Binding.Among (args : List Binding) (s : Slot) : Prop := ∃ b ∈ args, s ∈ b.slots

theorem Binding.among_iff_mem_slotsOf {bindings : List (String × Binding)} {s : Slot} :
    Among (bindings.map Prod.snd) s ↔ s ∈ Overlap.slotsOf bindings := by
  simp only [Among, Overlap.slotsOf, List.mem_map, List.mem_flatMap]
  constructor
  · rintro ⟨b, ⟨entry, hentry, rfl⟩, hs⟩
    exact ⟨entry, hentry, hs⟩
  · rintro ⟨entry, hentry, hs⟩
    exact ⟨entry.2, ⟨entry, hentry, rfl⟩, hs⟩

namespace Library

variable {lib : Library} {p : Procedure} {args : List Binding} {d : Direction} {depth : Int}
  {mem : Memory}

theorem among_of_covers {s : Slot} (h : (lib.entered p args d depth mem).frame.Covers s) :
    Binding.Among args s := by
  obtain ⟨name, b, hb, hs⟩ := h
  exact ⟨b, (List.of_mem_zip (Datum.mem_of_field? hb)).2, hs⟩

theorem lt_size_entered :
    (lib.entered p args d depth mem).frame.locals < (lib.entered p args d depth mem).heap.size := by
  simp [entered, frameOf]

/-- A procedure starts in order, if its arguments are slots of the stores that are there. -/
theorem ordered_entered (hargs : ∀ s, Binding.Among args s → s.store < mem.heap.size)
    (happart : (p.paramNames.zip args).Pairwise Frame.Apart) :
    (lib.entered p args d depth mem).Ordered where
  top := by simp [entered, frameOf]
  placed s hs := Nat.le_of_lt (hargs s (among_of_covers hs))
  apart := happart
  held s hs hl := absurd hl (Nat.ne_of_lt (hargs s (among_of_covers hs)))

theorem sound_entered (hrange : mem.heap.InRange)
    (hargs : ∀ s, Binding.Among args s → s.store < mem.heap.size)
    (happart : (p.paramNames.zip args).Pairwise Frame.Apart) :
    (lib.entered p args d depth mem).Sound := by
  refine (ordered_entered hargs happart).sound fun s v hs => ?_
  simp only [entered] at hs ⊢
  rw [Heap.cell?_push _ rfl] at hs
  rw [Heap.store_push, if_neg (Nat.ne_of_lt (Heap.lt_size_of_cell? hs))]
  exact hrange s v hs

end Library

theorem Heap.InRange.pop {h : Heap} (hr : h.InRange) : h.pop.InRange := by
  intro s v hs
  rw [Heap.cell?_pop] at hs
  split at hs
  · cases hs
  · rename_i hne
    rw [Heap.store_pop, if_neg hne]
    exact hr s v hs

namespace Execution

variable {lib : Library} {m : Machine} {run : Direction → Stmt → Execution Unit}

variable (lib run) in
/-- A procedure leaves the memory as it was, or as its body leaves it. -/
theorem after_runProcedure (p : Procedure) (args : List Binding) (d : Direction) (depth : Int)
    (mem : Memory) :
    after (runProcedure lib run p args d depth) mem = mem ∨
      ((p.paramNames.zip args).Pairwise Frame.Apart ∧
        after (runProcedure lib run p args d depth) mem =
          (after (block (run d) d p.body) (lib.entered p args d depth mem)).left) := by
  unfold after
  rw [runProcedure_apply]
  by_cases hdepth : depth > lib.settings.maxCallDepth
  · simp [hdepth]
  by_cases hcount : args.length ≠ p.params.length
  · simp [hdepth, hcount]
  rw [if_neg hdepth, if_neg hcount]
  cases hattach : (lib.frameOf p depth mem).attachAll (p.paramNames.zip args) with
  | error f => exact Or.inl rfl
  | ok frame =>
    obtain ⟨-, happart, -⟩ := Frame.attachAll_eq_ok.mp hattach
    refine Or.inr ⟨happart, ?_⟩
    cases block (run d) d p.body (lib.entered p args d depth mem) <;> rfl

/-- **What a procedure can touch.** A run of a procedure changes only what its arguments stand for,
whether it completes or fails. -/
theorem kept_runProcedure (hrun : ∀ d s m, Careful (run d s) m) (p : Procedure)
    (args : List Binding) (d : Direction) (depth : Int) (mem : Memory) (id : Nat) :
    Heap.KeptOutside (Binding.Among args) id mem.heap
      (after (runProcedure lib run p args d depth) mem).heap := by
  rcases after_runProcedure lib run p args d depth mem with h | ⟨-, h⟩
  · rw [h]
    exact .refl ..
  · -- the body works in a store of its own, which is dropped at the end
    have hbody := (careful_block (hrun d) d p.body).evolves
      (Library.lt_size_entered : (lib.entered p args d depth mem).frame.locals < _)
    rw [h]
    exact .pop rfl (hbody.heap.mono fun s hs => Or.inl (Library.among_of_covers hs))

theorem inRange_runProcedure (hrun : ∀ d s m, Careful (run d s) m) (p : Procedure)
    {args : List Binding} (d : Direction) (depth : Int) {mem : Memory} (hrange : mem.heap.InRange)
    (hargs : ∀ s, Binding.Among args s → s.store < mem.heap.size) :
    (after (runProcedure lib run p args d depth) mem).heap.InRange := by
  rcases after_runProcedure lib run p args d depth mem with h | ⟨happart, h⟩
  · rwa [h]
  · have hentered : (lib.entered p args d depth mem).Sound :=
      Library.sound_entered hrange hargs happart
    rw [h]
    exact ((careful_block (hrun d) d p.body).sound hentered).inRange.pop

/-- Finding out what the arguments of a call stand for changes nothing. -/
theorem after_arguments (args : List Expr) (m : Machine) : after (arguments lib args) m = m := by
  induction args generalizing m with
  | nil => rfl
  | cons arg rest ih =>
    rw [arguments]
    refine after_bind (P := (· = m)) (after_reading ..) fun _ m₁ hreading => ?_
    obtain rfl : m₁ = m := (after_of_ok hreading).symm.trans (after_reading ..)
    refine after_bind (P := (· = m₁)) (ih m₁) fun _ m₂ hrest => ?_
    exact (after_of_ok hrest).symm.trans (ih m₁)

theorem careful_call (hrun : ∀ d s m, Careful (run d s) m) (d : Direction) (callee : String)
    (args : List Expr) (uncall : Bool) : Careful (call lib run d callee args uncall) m := by
  have hargs : ∀ m, Careful (arguments lib args) m := fun m =>
    careful_of_after (after_arguments args m)
  refine .bind (careful_ofExcept _) fun p m₁ _ => .bind (hargs m₁) fun operands m₂ hoperands => ?_
  refine .bind (careful_refuse _) fun _ m₃ h₃ => .bind (careful_refuse _) fun _ m₄ h₄ => ?_
  refine .bind (careful_of_after rfl) fun m₅ m₆ h₆ => ?_
  obtain ⟨rfl, hcovers, -⟩ := covers_of_arguments hoperands
  obtain ⟨-, rfl⟩ := refuse_eq_ok.mp h₃
  obtain ⟨-, rfl⟩ := refuse_eq_ok.mp h₄
  cases h₆
  have hamong : ∀ s, Binding.Among (operands.1.map Prod.snd) s → m₄.frame.Covers s := fun s hs =>
    hcovers s (Binding.among_iff_mem_slotsOf.mp hs)
  rw [Careful, Moves, after_onMemory]
  refine ⟨fun _ => ⟨rfl, rfl, rfl, rfl, fun s hs => Or.inl hs, ?_⟩, fun hordered => ?_,
    fun hsound => ?_⟩
  · exact (kept_runProcedure hrun ..).mono fun s hs => Or.inl (hamong s hs)
  · have hkept : Heap.KeptOutside (Binding.Among (operands.1.map Prod.snd)) (m₄.frame.locals + 1)
      m₄.heap (after (runProcedure lib run p (operands.1.map Prod.snd)
        (if uncall then d.flip else d) (m₄.frame.depth + 1)) m₄.toMemory).heap :=
      kept_runProcedure hrun ..
    refine ⟨hkept.size.trans hordered.top, hordered.placed, hordered.apart, fun s hs hl => ?_⟩
    have hne : s.store ≠ m₄.frame.locals + 1 := by
      rw [hl]
      exact Nat.ne_of_lt (Nat.lt_succ_self _)
    exact (hkept.live s hne).trans (hordered.held s hs hl)
  · exact inRange_runProcedure hrun p _ _ hsound.inRange fun s hs =>
      hsound.store_lt (hamong s hs)

/-! ## All statements -/

theorem careful_step (hrun : ∀ d s m, Careful (run d s) m) (fuel : Nat) (d : Direction) (s : Stmt) :
    Careful (step lib run fuel d s) m := by
  cases s with
  | assign loc target op value => exact careful_assign ..
  | branch loc guard thenBody elseBody assertion => exact careful_branch (hrun d) ..
  | call loc callee args uncall => exact careful_call hrun ..
  | declare loc name value =>
    cases d with
    | forward => exact careful_introduce ..
    | backward => exact careful_remove ..
  | discard loc name value =>
    cases d with
    | forward => exact careful_remove ..
    | backward => exact careful_introduce ..
  | loop loc entry doBody loopBody exit => exact careful_loop (hrun d) ..
  | swap loc left right => exact careful_swap ..
  | block loc body => exact careful_block (hrun d) ..
  | hole loc => exact careful_throw _

/-- **A run keeps its machine in order.** Whether a statement completes or fails, it changes only
what its procedure can name and the locals, and the invariant of the machine survives. -/
theorem careful_exec (lib : Library) (fuel : Nat) (d : Direction) (s : Stmt) (m : Machine) :
    Careful (exec lib fuel d s) m := by
  induction fuel generalizing d s m with
  | zero => exact careful_throw _
  | succ fuel ih =>
    refine .bind ?_ fun _ m' _ => ?_
    · rw [Careful, Moves, after, trace_apply]
      exact .of_eq (heap_traced s m) (frame_traced s m)
    · have hstep : Careful (step lib (exec lib fuel) fuel d s) m' := careful_step ih fuel d s
      rw [Careful, Moves] at hstep ⊢
      rwa [after_annotated]

end Execution

/-! ## The frame of a run

What is left when nothing is said about flags and types: outside of the arguments every slot keeps
its value, and no slot of the stores that were there is allocated or released. -/

/-- The slots of two heaps hold the same outside of a region, and the same slots are live. -/
structure Heap.SameOutside (region : Slot → Prop) (h h' : Heap) : Prop where
  size : h'.size = h.size
  lengths : ∀ id, (h'.store id).cells.size = (h.store id).cells.size
  live : ∀ s, (h'.cell? s).isSome = (h.cell? s).isSome
  cells : ∀ s, ¬region s → h'.cell? s = h.cell? s

namespace Heap.SameOutside

variable {region : Slot → Prop} {h h' : Heap}

theorem refl (region : Slot → Prop) (h : Heap) : SameOutside region h h :=
  ⟨rfl, fun _ => rfl, fun _ => rfl, fun _ _ => rfl⟩

/-- A slot lies in the store that is left out for at most one choice of it. -/
theorem of_kept (hkept : ∀ id, KeptOutside region id h h') : SameOutside region h h' where
  size := (hkept 0).size
  lengths id := (hkept (id + 1)).lengths id (Nat.ne_of_lt (Nat.lt_succ_self id))
  live s := (hkept (s.store + 1)).live s (Nat.ne_of_lt (Nat.lt_succ_self s.store))
  cells s := (hkept (s.store + 1)).cells s (Nat.ne_of_lt (Nat.lt_succ_self s.store))

theorem poison (hsame : SameOutside region h h') (ids : List Nat) :
    SameOutside region h (h'.poison ids) where
  size := (size_poison ..).trans hsame.size
  lengths id := by rw [cells_poison, hsame.lengths]
  live s := by rw [cell?_poison, hsame.live]
  cells s hs := by rw [cell?_poison, hsame.cells s hs]

end Heap.SameOutside

/-- The arguments of a call stand for the bindings. -/
def Scope.Resolves (t : Scope) (args : List Expr) (bindings : List Binding) : Prop :=
  List.Forall₂ (fun arg b => ∃ reads, t.argument arg [] = .ok b reads) args bindings

namespace Execution

variable {lib : Library} {fuel : Nat}

theorem resolves_of_arguments {args : List Expr} {m m' : Machine}
    {operands : List (String × Binding) × List (String × List Slot)}
    (h : arguments lib args m = .ok operands m') :
    (m.scope lib).Resolves args (operands.1.map Prod.snd) := by
  induction args generalizing m m' operands with
  | nil =>
    obtain ⟨rfl, -⟩ := pure_eq_ok.mp h
    exact .nil
  | cons arg rest ih =>
    obtain ⟨⟨b, reads⟩, m₁, hreading, h₁⟩ := bind_eq_ok.mp h
    obtain ⟨hb, rfl⟩ := reading_eq_ok.mp hreading
    obtain ⟨_, _, hrest, h₂⟩ := bind_eq_ok.mp h₁
    obtain ⟨rfl, -⟩ := pure_eq_ok.mp h₂
    exact .cons ⟨reads, hb⟩ (ih hrest)

theorem sameOutside_runProcedure (p : Procedure) (args : List Binding) (d : Direction) (depth : Int)
    (mem : Memory) :
    mem.heap.SameOutside (Binding.Among args)
      (after (runProcedure lib (exec lib fuel) p args d depth) mem).heap :=
  .of_kept (kept_runProcedure (careful_exec lib fuel) p args d depth mem)

/-- What a call statement leaves behind: all names, and every slot that its arguments do not stand
for. If they stand for nothing, it leaves every slot. -/
def CallFrame (lib : Library) (args : List Expr) (m m' : Machine) : Prop :=
  m'.frame = m.frame ∧ (m'.heap = m.heap ∨ ∃ bindings, (m.scope lib).Resolves args bindings ∧
    m.heap.SameOutside (Binding.Among bindings) m'.heap)

theorem callFrame_call (d : Direction) (callee : String) (args : List Expr) (uncall : Bool)
    (m : Machine) :
    CallFrame lib args m (after (call lib (exec lib fuel) d callee args uncall) m) := by
  have hstill : ∀ {m' : Machine}, m' = m → CallFrame lib args m m' := by
    rintro _ rfl
    exact ⟨rfl, Or.inl rfl⟩
  refine after_bind (hstill (after_ofExcept _)) fun p m₁ h₁ => ?_
  obtain rfl : m₁ = m := (after_of_ok h₁).symm.trans (after_ofExcept _)
  refine after_bind (hstill (after_arguments args m₁)) fun operands m₂ h₂ => ?_
  obtain rfl : m₂ = m₁ := (after_of_ok h₂).symm.trans (after_arguments args m₁)
  refine after_bind (hstill (after_refuse _)) fun _ m₃ h₃ => ?_
  obtain rfl : m₃ = m₂ := (after_of_ok h₃).symm.trans (after_refuse _)
  refine after_bind (hstill (after_refuse _)) fun _ m₄ h₄ => ?_
  obtain rfl : m₄ = m₃ := (after_of_ok h₄).symm.trans (after_refuse _)
  refine after_bind (hstill rfl) fun n m₅ h₅ => ?_
  obtain ⟨rfl, rfl⟩ := EStateM.Result.ok.inj h₅
  rw [after_onMemory]
  exact ⟨rfl, Or.inr ⟨_, resolves_of_arguments h₂, sameOutside_runProcedure ..⟩⟩

theorem callFrame_exec (d : Direction) (loc : Option Location) (callee : String) (args : List Expr)
    (uncall : Bool) (m : Machine) :
    CallFrame lib args m (after (exec lib fuel d (.call loc callee args uncall)) m) := by
  cases fuel with
  | zero => exact ⟨rfl, Or.inl rfl⟩
  | succ fuel =>
    -- the line in the log changes neither names nor slots
    have hcall : CallFrame lib args (traced (.call loc callee args uncall) m)
        (after (call lib (exec lib fuel) d callee args uncall)
          (traced (.call loc callee args uncall) m)) := callFrame_call ..
    have hafter : after (exec lib (fuel + 1) d (.call loc callee args uncall)) m =
        after (call lib (exec lib fuel) d callee args uncall)
          (traced (.call loc callee args uncall) m) := by
      rw [after, exec, bind_apply, trace_apply]
      exact after_annotated ..
    rw [hafter]
    rwa [CallFrame, frame_traced, heap_traced, Machine.scope, frame_traced, heap_traced] at hcall

end Execution

namespace Library

/-- **The frame of a run.** Whether a run of a procedure completes or fails, a slot that none of its
arguments stands for keeps its value, and no slot of a store that was there is allocated or
released. The stores of a run that failed are poisoned, which changes no slot. It is the same with
every call statement of a run, for the slots that the arguments of the call stand for: whatever
machine the statement finds, it leaves the names of the machine and all other slots alone. -/
theorem run_frame (lib : Library) (fuel : Nat) :
    (∀ name args d (mem : Memory), mem.heap.SameOutside (Binding.Among args)
      (after (lib.runNamed fuel name args d) mem).heap) ∧
    (∀ p args d depth (mem : Memory), mem.heap.SameOutside (Binding.Among args)
      (after (lib.run fuel p args d depth) mem).heap) ∧
    ∀ d loc callee args uncall m, Execution.CallFrame lib args m
      (after (Execution.exec lib fuel d (.call loc callee args uncall)) m) := by
  have hrun : ∀ p args d depth (mem : Memory), mem.heap.SameOutside (Binding.Among args)
      (after (lib.run fuel p args d depth) mem).heap :=
    fun p args d depth mem => Execution.sameOutside_runProcedure p args d depth mem
  refine ⟨fun name args d mem => ?_, hrun, fun d loc callee args uncall m =>
    Execution.callFrame_exec d loc callee args uncall m⟩
  rw [after, runNamed_apply]
  cases lib.get name with
  | error f => exact .refl ..
  | ok p =>
    by_cases hpoison : ((Binding.storesOf args).any fun id => (mem.heap.store id).poisoned) = true
    · simp only [hpoison, if_true]
      exact .refl ..
    · simp only [hpoison, if_false, Bool.false_eq_true]
      have hp := hrun p args d 0 mem
      rw [after] at hp
      cases hresult : lib.run fuel p args d 0 mem with
      | ok a mem' =>
        rw [hresult] at hp
        exact hp
      | error stop mem' =>
        rw [hresult] at hp
        cases stop with
        | exhausted => exact hp
        | fault f => exact hp.poison _

end Library

end Retrace
