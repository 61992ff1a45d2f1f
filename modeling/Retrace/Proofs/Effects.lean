import Retrace.Proofs.Aliasing
import Retrace.Proofs.Footprint

/-!
# What blocks do to the names around them

A block that completes has bound the names that it found, and no others, to what they stood for; and
of these names it has changed only those that `Stmt.modifiedIn` collects. `Machine.Effects` says so
of one run of one block, and `Library.Framed` of all runs, in both directions, of all blocks of a
library from one machine.

The second is a condition on machines, so it can be watched for (`Execution.monitored`): in a run of
a procedure of an accepted library it holds wherever the run gets, in whatever frame
(`Library.run_framed`). The names of a frame share no slots there, which is why a write through one
name is never a change of another.
-/

namespace Retrace

open Actions

theorem Heap.mapM_read_congr {h h' : Heap} {us : List Slot}
    (hcells : ∀ u ∈ us, h'.cell? u = h.cell? u) : us.mapM h'.read = us.mapM h.read := by
  induction us with
  | nil => rfl
  | cons u us ih =>
    obtain ⟨hu, hus⟩ := List.forall_mem_cons.mp hcells
    have hread : h'.read u = h.read u := by rw [Heap.read, Heap.read, hu]
    rw [List.mapM_cons, List.mapM_cons, hread, ih hus]

theorem Binding.read_congr {h h' : Heap} {b : Binding}
    (hcells : ∀ u ∈ b.slots, h'.cell? u = h.cell? u) : b.read h' = b.read h := by
  cases b with
  | scalar u => rw [read, read, Heap.read, Heap.read, hcells u (by simp [slots])]
  | array us => rw [read, read, Heap.mapM_read_congr (show ∀ u ∈ us, _ from hcells)]

/-- A block of a library: the body of one of its procedures, or a block of a statement that is
nested in one at any depth. -/
inductive Library.HasBlock (lib : Library) : List Stmt → Prop
  | body {p : Procedure} : p ∈ lib.procedures → HasBlock lib p.body
  | nested {p : Procedure} {s : Stmt} {block : List Stmt} : p ∈ lib.procedures →
      s ∈ Stmt.nestedAll p.body → block ∈ s.bodies → HasBlock lib block

namespace Library.HasBlock

variable {lib : Library} {block : List Stmt}

theorem holds (h : lib.HasBlock block) {s : Stmt} (hs : s ∈ block) : lib.Holds s := by
  cases h with
  | body hp => exact holds_of_body hp hs
  | nested hp ht hblock => exact Holds.of_bodies ⟨_, hp, ht⟩ hblock hs

theorem balanced (h : lib.HasBlock block) (hlib : lib.WellScoped) : Stmt.Balanced [] block := by
  cases h with
  | body hp => exact hlib.body _ hp
  | nested hp ht hblock => exact (hlib.stmt _ ⟨_, hp, ht⟩).bodies _ hblock

end Library.HasBlock

/-- The effects of a block that was run from one machine to another. -/
structure Machine.Effects (block : List Stmt) (m m' : Machine) : Prop where
  /-- the same names are bound, to the same slots -/
  names : ∀ x, m'.frame.lookup? x = m.frame.lookup? x
  /-- a name that holds something else is collected -/
  modified : ∀ x b, m.frame.lookup? x = some b → b.read m'.heap ≠ b.read m.heap →
    ∃ ref ∈ Stmt.modifiedIn block, ref.refName? = some x

/-- From this machine, the blocks of the library have no other effects than those stated. -/
def Library.Framed (lib : Library) (m : Machine) : Prop :=
  ∀ block, lib.HasBlock block → ∀ fuel d m',
    Execution.block (Execution.exec lib fuel d) d block m = .ok () m' → m.Effects block m'

theorem Library.WellScoped.framed {lib : Library} (hlib : lib.WellScoped) {m : Machine}
    (hm : m.Ordered) : lib.Framed m := by
  intro block hblock fuel d m' hrun
  have hframe : m'.frame = m.frame :=
    Execution.frame_of_balanced hlib (hblock.balanced hlib) (fun _ => hblock.holds) hm hrun
  refine ⟨fun x => by rw [hframe], fun x b hb hchanged => ?_⟩
  by_contra hmissed
  have htouched : x ∉ Stmt.touchedIn block := by
    rwa [Stmt.touchedIn, List.mem_filterMap]
  have hspares := Execution.spares_of_balanced hlib (hblock.balanced hlib) (fun _ => hblock.holds)
    htouched hm hb hrun
  exact hchanged (Binding.read_congr hspares.cells)

namespace Library

/-- **Nothing else is modified.** A run of a procedure of an accepted library, in either direction,
is the same as one that sounds an alarm before any statement, in whatever frame, from which some
block of the library could be run to its end, in one direction or the other, and leave the names
bound otherwise than it found them or a name changed that is not among those it modifies. -/
theorem run_framed {lib : Library} (hlib : lib.Accepted) {p : Procedure} (hp : p ∈ lib.procedures)
    {args : List Binding} {mem : Memory}
    (hargs : ∀ s, Binding.Among args s → s.store < mem.heap.size) (fuel : Nat) (d : Direction)
    (depth : Int) (alarm : Execution Unit) :
    Execution.runProcedure lib (Execution.monitored (fun _ _ => lib.Framed) alarm lib fuel) p args d
      depth mem = lib.run fuel p args d depth mem := by
  refine Execution.runProcedure_eq_of_coincide (Execution.careful_exec lib fuel)
    (fun s hs m => ?_) hargs
  exact Execution.coincide_monitored (fun _ _ _ _ hm => hlib.wellScoped.framed hm) alarm fuel d
    (holds_of_body hp hs) m

end Library

/-- A run with a call that runs a loop backward never sounds the alarm, and completes. -/
theorem settle_framed : (Sample.library true).Accepted ∧
    Sample.settle ∈ (Sample.library true).procedures ∧
    (∀ s, Binding.Among Sample.arguments s → s.store < Sample.memory.heap.size) ∧
    ∀ alarm, ∃ mem', Execution.runProcedure (Sample.library true)
      (Execution.monitored (fun _ _ => (Sample.library true).Framed) alarm (Sample.library true) 10)
      Sample.settle Sample.arguments .forward 0 Sample.memory = .ok () mem' := by
  have hsettle : Sample.settle ∈ (Sample.library true).procedures := by simp [Sample.library]
  refine ⟨Sample.accepted true, hsettle, Sample.placed_arguments, fun alarm => ?_⟩
  have hruns : completes ((Sample.library true).run 10 Sample.settle Sample.arguments .forward 0)
      Sample.memory = true := by
    decide +kernel
  obtain ⟨_, mem', h⟩ := exists_of_completes hruns
  exact ⟨mem', (Library.run_framed (Sample.accepted true) hsettle Sample.placed_arguments 10
    .forward 0 alarm).trans h⟩

end Retrace
