import Mathlib.Data.List.Pairwise
import Mathlib.Tactic.Common
import Retrace.Memory.Frame

/-!
# What the names of a frame stand for

A frame is seen through `lookup?`. Binding and removing a name change what is seen under this name
only, and binding the parameters of a procedure succeeds exactly if no two of them share a name or
a slot (`attachAll_eq_ok`). The slots that some name stands for are those that the frame `Covers`:
a run of the procedure reads and writes no others in the stores of its caller.
-/

namespace Retrace

namespace Datum

variable {α : Type}

theorem field?_append (key : String) (l r : List (String × α)) :
    field? key (l ++ r) = (field? key l).or (field? key r) := by
  induction l with
  | nil => rfl
  | cons entry rest ih =>
    by_cases h : entry.1 = key
    · simp [field?, h]
    · simp [field?, h, ih]

theorem mem_of_field? {key : String} {fields : List (String × α)} {a : α}
    (h : field? key fields = some a) : (key, a) ∈ fields := by
  induction fields with
  | nil => cases h
  | cons entry rest ih =>
    unfold field? at h
    split at h
    · rename_i hk
      obtain rfl := Option.some.inj h
      rw [← hk]
      exact List.mem_cons_self
    · exact List.mem_cons_of_mem _ (ih h)

theorem field?_isSome {key : String} {fields : List (String × α)} :
    (field? key fields).isSome = fields.any fun entry => entry.1 == key := by
  induction fields with
  | nil => rfl
  | cons entry rest ih =>
    by_cases h : entry.1 = key
    · simp [field?, h]
    · simp [field?, h, ih]

theorem field?_filter (p : String → Bool) (key : String) (fields : List (String × α)) :
    field? key (fields.filter fun entry => p entry.1) =
      if p key then field? key fields else none := by
  induction fields with
  | nil => simp [field?]
  | cons entry rest ih =>
    obtain ⟨k, a⟩ := entry
    by_cases hk : k = key
    · subst hk
      cases hp : p k <;> simp [field?, hp, ih]
    · cases hp : p k <;> simp [field?, hp, hk, ih]

theorem field?_filter_ne (key other : String) (fields : List (String × α)) :
    field? other (fields.filter fun entry => entry.1 != key) =
      if other = key then none else field? other fields := by
  rw [field?_filter fun name => name != key]
  by_cases h : other = key <;> simp [h]

theorem field?_filter_decide_ne (key other : String) (fields : List (String × α)) :
    field? other (fields.filter fun entry => entry.1 ≠ key) =
      if other = key then none else field? other fields := by
  rw [field?_filter fun name => decide (name ≠ key)]
  by_cases h : other = key <;> simp [h]

theorem field?_map {β : Type} (f : α → β) (key : String) (fields : List (String × α)) :
    field? key (fields.map fun entry => (entry.1, f entry.2)) = (field? key fields).map f := by
  induction fields with
  | nil => rfl
  | cons entry rest ih =>
    by_cases h : entry.1 = key
    · simp [field?, h]
    · simp [field?, h, ih]

end Datum

namespace Binding

/-- A binding with other slots in the place of its own. -/
def rename (ρ : Slot → Slot) : Binding → Binding
  | .scalar s => .scalar (ρ s)
  | .array slots => .array (slots.map ρ)

@[simp] theorem slots_rename (ρ : Slot → Slot) (b : Binding) :
    (b.rename ρ).slots = b.slots.map ρ := by
  cases b <;> rfl

theorem rename_congr {ρ τ : Slot → Slot} {b : Binding} (h : ∀ s ∈ b.slots, ρ s = τ s) :
    b.rename ρ = b.rename τ := by
  cases b with
  | scalar s => exact congrArg scalar (h s (by simp [slots]))
  | array slots => exact congrArg array (List.map_congr_left h)

@[simp] theorem rename_id (b : Binding) : b.rename id = b := by
  cases b <;> simp [rename]

/-- Two renamings that give the same binding agree on its slots. -/
theorem eq_of_rename_eq {ρ τ : Slot → Slot} {b : Binding} (h : b.rename ρ = b.rename τ) :
    ∀ s ∈ b.slots, ρ s = τ s := by
  cases b with
  | scalar s => simpa [rename, slots] using h
  | array slots => simpa [rename, Binding.slots] using h

end Binding

namespace Frame

/-! ## Names -/

theorem has_eq (f : Frame) (name : String) : f.has name = (f.lookup? name).isSome :=
  Datum.field?_isSome.symm

theorem lookup?_push {f : Frame} {name : String} (h : f.has name = false) (b : Binding)
    (other : String) :
    (f.push name b).lookup? other = if other = name then some b else f.lookup? other := by
  unfold lookup? push
  rw [Datum.field?_append]
  by_cases ho : other = name
  · subst ho
    rw [has_eq, lookup?, Option.isSome_eq_false_iff, Option.isNone_iff_eq_none] at h
    simp [h, Datum.field?]
  · simp [Datum.field?, ho, Ne.symm ho]

/-- A new name leaves the others alone. -/
theorem lookup?_push_of_some {f : Frame} {name : String} (h : f.has name = false) (b : Binding)
    {other : String} {c : Binding} (hc : f.lookup? other = some c) :
    (f.push name b).lookup? other = some c := by
  rw [lookup?_push h, if_neg, hc]
  rintro rfl
  rw [has_eq, hc] at h
  cases h

theorem lookup?_erase (f : Frame) (name other : String) :
    (f.erase name).lookup? other = if other = name then none else f.lookup? other :=
  Datum.field?_filter_ne ..

theorem lookup_eq_ok {f : Frame} {name : String} {b : Binding} :
    f.lookup name = .ok b ↔ f.lookup? name = some b := by
  unfold lookup
  cases f.lookup? name <;> simp

theorem slot_eq_ok {f : Frame} {name : String} {s : Slot} :
    f.slot name = .ok s ↔ f.lookup? name = some (.scalar s) := by
  unfold slot lookup
  cases f.lookup? name with
  | none => simp [bind, Except.bind]
  | some b => cases b <;> simp [bind, Except.bind]

theorem element_eq_ok {f : Frame} {name : String} {i : Int} {s : Slot} :
    f.element name i = .ok s ↔
      ∃ slots, f.lookup? name = some (.array slots) ∧ 0 ≤ i ∧ slots[i.toNat]? = some s := by
  unfold element array lookup
  cases f.lookup? name with
  | none => simp [bind, Except.bind]
  | some b =>
    cases b with
    | scalar t => simp [bind, Except.bind]
    | array slots =>
      by_cases hi : 0 ≤ i
      · cases hs : slots[i.toNat]? <;> simp [bind, Except.bind, hi, hs]
      · simp [bind, Except.bind, hi]

/-! ## Covered slots -/

/-- Some name of the frame stands for the slot, alone or as an element of an array. -/
def Covers (f : Frame) (s : Slot) : Prop := ∃ name b, f.lookup? name = some b ∧ s ∈ b.slots

theorem covers_of_slot {f : Frame} {name : String} {s : Slot} (h : f.slot name = .ok s) :
    f.Covers s :=
  ⟨name, .scalar s, slot_eq_ok.mp h, by simp [Binding.slots]⟩

theorem covers_of_element {f : Frame} {name : String} {i : Int} {s : Slot}
    (h : f.element name i = .ok s) : f.Covers s := by
  obtain ⟨slots, hl, -, hs⟩ := element_eq_ok.mp h
  exact ⟨name, .array slots, hl, List.mem_of_getElem? hs⟩

theorem covers_push {f : Frame} {name : String} (h : f.has name = false) {b : Binding} {s : Slot} :
    (f.push name b).Covers s ↔ s ∈ b.slots ∨ f.Covers s := by
  constructor
  · rintro ⟨other, c, hl, hs⟩
    rw [lookup?_push h] at hl
    split at hl
    · obtain rfl := Option.some.inj hl
      exact Or.inl hs
    · exact Or.inr ⟨other, c, hl, hs⟩
  · rintro (hs | ⟨other, c, hl, hs⟩)
    · exact ⟨name, b, by rw [lookup?_push h, if_pos rfl], hs⟩
    · exact ⟨other, c, lookup?_push_of_some h b hl, hs⟩

theorem covers_of_covers_erase {f : Frame} {name : String} {s : Slot}
    (h : (f.erase name).Covers s) : f.Covers s := by
  obtain ⟨other, b, hl, hs⟩ := h
  rw [lookup?_erase] at hl
  split at hl
  · cases hl
  · exact ⟨other, b, hl, hs⟩

/-! ## Entries that share nothing -/

/-- Two entries of a frame have different names and no slot in common. -/
def Apart (a b : String × Binding) : Prop := a.1 ≠ b.1 ∧ a.2.slots.Disjoint b.2.slots

instance : Std.Symm Apart := ⟨fun _ _ h => ⟨h.1.symm, List.disjoint_symm h.2⟩⟩

/-- Where no two entries share anything, different names stand for different slots. -/
theorem disjoint_of_lookup? {f : Frame} (h : f.bindings.Pairwise Apart) {x y : String}
    (hxy : x ≠ y) {b c : Binding} (hx : f.lookup? x = some b) (hy : f.lookup? y = some c) :
    b.slots.Disjoint c.slots :=
  (h.forall (Datum.mem_of_field? hx) (Datum.mem_of_field? hy) fun he =>
    hxy (congrArg Prod.fst he)).2

/-- Where no two entries share a name, every entry is seen. -/
theorem lookup?_of_mem {f : Frame} (h : f.bindings.Pairwise Apart) {x : String} {b : Binding}
    (hb : (x, b) ∈ f.bindings) : f.lookup? x = some b := by
  obtain ⟨c, hc⟩ : ∃ c, f.lookup? x = some c := by
    rw [← Option.isSome_iff_exists, ← has_eq]
    exact List.any_eq_true.mpr ⟨(x, b), hb, by simp⟩
  by_cases he : (x, b) = (x, c)
  · rw [hc, (Prod.mk.inj he).2]
  · exact absurd rfl (h.forall hb (Datum.mem_of_field? hc) he).1

/-- Removing the name of a slot uncovers this slot, and no other. -/
theorem covers_erase {f : Frame} (h : f.bindings.Pairwise Apart) {name : String} {s : Slot}
    (hs : f.lookup? name = some (.scalar s)) {t : Slot} :
    (f.erase name).Covers t ↔ f.Covers t ∧ t ≠ s := by
  constructor
  · rintro ⟨x, b, hb, ht⟩
    rw [lookup?_erase] at hb
    split at hb
    · cases hb
    · rename_i hx
      refine ⟨⟨x, b, hb, ht⟩, ?_⟩
      rintro rfl
      exact disjoint_of_lookup? h hx hb hs ht (by simp [Binding.slots])
  · rintro ⟨⟨x, b, hb, ht⟩, hne⟩
    refine ⟨x, b, ?_, ht⟩
    rw [lookup?_erase, if_neg, hb]
    rintro rfl
    rw [hs] at hb
    cases hb
    exact hne (by simpa [Binding.slots] using ht)

theorem pairwise_erase {f : Frame} (h : f.bindings.Pairwise Apart) (name : String) :
    (f.erase name).bindings.Pairwise Apart :=
  h.filter _

/-- A new name for a slot that is not covered yet shares nothing. -/
theorem pairwise_push {f : Frame} (h : f.bindings.Pairwise Apart) {name : String}
    (hname : f.has name = false) {s : Slot} (hs : ¬f.Covers s) :
    (f.push name (.scalar s)).bindings.Pairwise Apart := by
  refine List.pairwise_append.mpr ⟨h, List.pairwise_singleton .., ?_⟩
  rintro ⟨x, b⟩ hb entry hentry
  rw [List.mem_singleton.mp hentry]
  refine ⟨?_, ?_⟩
  · rintro rfl
    rw [has_eq, lookup?_of_mem h hb] at hname
    cases hname
  · intro t ht hts
    rw [List.mem_singleton.mp hts] at ht
    exact hs ⟨x, b, lookup?_of_mem h hb, ht⟩

/-! ## Binding parameters -/

theorem attach_eq_ok {f g : Frame} {name : String} {b : Binding} :
    f.attach name b = .ok g ↔ g = f.push name b ∧ ∀ entry ∈ f.bindings, Apart entry (name, b) := by
  have hhas : f.has name = true ↔ ∃ entry ∈ f.bindings, entry.1 = name := by simp [has]
  have hover : f.overlapping? b = none ↔
      ∀ entry ∈ f.bindings, entry.2.slots.Disjoint b.slots := by
    simp only [overlapping?, Option.map_eq_none_iff, List.find?_eq_none, List.any_eq_true,
      List.contains_iff_mem, not_exists, not_and]
    exact forall₂_congr fun entry _ => ⟨fun h s hs hb => h s hb hs, fun h s hb hs => h hs hb⟩
  unfold attach
  by_cases hn : f.has name = true
  · rw [if_pos hn]
    obtain ⟨entry, he, hname⟩ := hhas.mp hn
    exact ⟨nofun, fun h => absurd hname (h.2 entry he).1⟩
  · rw [if_neg hn]
    have hne : ∀ entry ∈ f.bindings, entry.1 ≠ name := fun entry he hname =>
      hn (hhas.mpr ⟨entry, he, hname⟩)
    cases ho : f.overlapping? b with
    | none =>
      rw [hover] at ho
      constructor
      · intro h
        exact ⟨(Except.ok.inj h).symm, fun entry he => ⟨hne entry he, ho entry he⟩⟩
      · rintro ⟨rfl, -⟩
        rfl
    | some other =>
      constructor
      · intro h
        cases h
      · rintro ⟨-, h⟩
        rw [hover.mpr fun entry he => (h entry he).2] at ho
        cases ho

/-- Parameters can be bound exactly if no two of them, and none and an earlier name, share a name
or a slot. -/
theorem attachAll_eq_ok {f g : Frame} {params : List (String × Binding)} :
    f.attachAll params = .ok g ↔
      g = { f with bindings := f.bindings ++ params } ∧ params.Pairwise Apart ∧
        ∀ entry ∈ f.bindings, ∀ param ∈ params, Apart entry param := by
  induction params generalizing f with
  | nil =>
    simp only [attachAll, Except.ok.injEq, List.append_nil, List.Pairwise.nil,
      List.not_mem_nil, IsEmpty.forall_iff, implies_true, and_true]
    exact eq_comm
  | cons param rest ih =>
    obtain ⟨name, b⟩ := param
    have hstep : f.attachAll ((name, b) :: rest) = .ok g ↔
        ∃ k, f.attach name b = .ok k ∧ k.attachAll rest = .ok g := by
      rw [attachAll]
      cases f.attach name b <;> simp [bind, Except.bind]
    rw [hstep]
    constructor
    · rintro ⟨k, hk, hg⟩
      obtain ⟨rfl, hfirst⟩ := attach_eq_ok.mp hk
      obtain ⟨rfl, hrest, hall⟩ := ih.mp hg
      refine ⟨by simp [push], List.pairwise_cons.mpr ⟨?_, hrest⟩, ?_⟩
      · exact fun q hq => hall (name, b) (by simp [push]) q hq
      · intro entry he q hq
        rcases List.mem_cons.mp hq with rfl | hq
        · exact hfirst entry he
        · exact hall entry (by simp [push, he]) q hq
    · rintro ⟨rfl, hpair, hall⟩
      obtain ⟨hfirst, hrest⟩ := List.pairwise_cons.mp hpair
      refine ⟨f.push name b, attach_eq_ok.mpr ⟨rfl, fun e he => hall e he _ (by simp)⟩,
        ih.mpr ⟨by simp [push], hrest, ?_⟩⟩
      intro entry he q hq
      rcases List.mem_append.mp he with he | he
      · exact hall entry he q (List.mem_cons_of_mem _ hq)
      · rw [List.mem_singleton.mp he]
        exact hfirst q hq

end Frame

end Retrace
