import Retrace.Proofs.Encodability
import Retrace.Proofs.Registry
import Retrace.Proofs.Reprinting

/-!
# What a registration can end in

A program that was read from a text is registered as a whole, or it is refused with records that say
why. Where assertions are checked ahead of time there is a third way out: the analysis of a
procedure may fail by itself, if the procedure is not well sorted or has shifts that are not sound
(`Registry.register_cases`). It does so at a shift count that is written as a negative number
(`Registry.register_negative_shift`).
-/

namespace Retrace

/-! ## Checks -/

/-- A failed registration, with the given records. -/
def Fault.OfRegistration (f : Fault) (records : List Record) : Prop :=
  ∃ failure, f = .failure failure ∧ failure.kind.below (.registration none) = true ∧
    failure.records = records

namespace Library

open Actions

/-- The records for which some procedures may be refused: those of names that are taken, of breaches
of the static rules, and of assertions that cannot be confirmed. -/
inductive Grounds (lib : Library) (toolkit : Toolkit) (procedures : List Procedure) :
    List Record → Prop
  | taken : Grounds lib toolkit procedures (duplicates lib.names procedures)
  | illegal : Grounds lib toolkit procedures (procedures.flatMap fun p =>
      (Legality.findings (lib.tableWith procedures) p).map (Finding.record p.name))
  | unconfirmable {reports : List Report} {inquiry inquiry' : Inquiry}
      (hsetting : lib.settings.verifyAssertions = true)
      (h : procedures.mapM (fun p => p.verify lib.intType toolkit) inquiry = .ok reports inquiry') :
      Grounds lib toolkit procedures (reports.flatMap Report.records)

/-- How some procedures fail the checks. -/
inductive Unfit (lib : Library) (toolkit : Toolkit) (procedures : List Procedure) : Fault → Prop
  | refused {f : Fault} {records : List Record} (hgrounds : lib.Grounds toolkit procedures records)
      (hrecords : records ≠ []) (hf : f.OfRegistration records) : Unfit lib toolkit procedures f
  | failed {f : Fault} {p : Procedure} (hsetting : lib.settings.verifyAssertions = true)
      (hp : p ∈ procedures) (hf : p.Fails toolkit f) : Unfit lib toolkit procedures f

variable {lib : Library} {toolkit : Toolkit} {procedures : List Procedure} {f : Fault}
  {inquiry inquiry' : Inquiry}

theorem ofRegistration_ofRecords (first : Record) (rest : List Record) :
    (Fault.failure (.ofRecords (.registration none) first rest)).OfRegistration
      (first :: rest) := by
  refine ⟨_, rfl, ?_, rfl⟩
  unfold Failure.ofRecords
  dsimp only
  split
  · split
    · assumption
    · rfl
  · rfl

theorem Unfit.of_refuseRecords {records : List Record}
    (hgrounds : lib.Grounds toolkit procedures records)
    (h : refuseRecords records inquiry = .error f inquiry') : lib.Unfit toolkit procedures f := by
  cases records with
  | nil => cases h
  | cons first rest =>
    cases h
    exact .refused hgrounds (List.cons_ne_nil first rest) (ofRegistration_ofRecords first rest)

theorem Unfit.of_verify (h : lib.verify toolkit procedures inquiry = .error f inquiry') :
    lib.Unfit toolkit procedures f := by
  unfold verify at h
  split at h
  · rename_i hsetting
    obtain h | ⟨_, _, -, h⟩ := bind_eq_error.mp h
    · cases h
    obtain h | ⟨reports, _, hreports, h⟩ := bind_eq_error.mp h
    · obtain ⟨p, hp, inquiry₁, hfails⟩ := exists_of_mapM_eq_error h
      have hanalyzed := p.analyzed lib.intType toolkit inquiry₁
      rw [hfails] at hanalyzed
      cases hanalyzed with
      | failed hf => exact .failed hsetting hp hf
    · exact .of_refuseRecords (.unconfirmable hsetting hreports) h
  · cases h

/-- **What the checks come to.** Procedures without missing statements are refused with records, or
the analysis of one of them fails by itself. -/
theorem Unfit.of_vet (hholes : ∀ p ∈ procedures, Stmt.anyHole p.body = false)
    (h : lib.vet toolkit procedures inquiry = .error f inquiry') :
    lib.Unfit toolkit procedures f := by
  obtain h | ⟨_, _, -, h⟩ := bind_eq_error.mp h
  · exact .of_refuseRecords .taken h
  have hchecks : ∀ p ∈ procedures, Legality.check (lib.tableWith procedures) p =
      .ok ((Legality.findings (lib.tableWith procedures) p).map (Finding.record p.name)) :=
    fun p hp => by rw [Legality.check, hholes p hp]; rfl
  rw [mapM_eq_ok_map hchecks] at h
  obtain h | ⟨_, _, hillegal, h⟩ := bind_eq_error.mp h
  · cases h
  obtain ⟨rfl, rfl⟩ := EStateM.Result.ok.inj hillegal
  obtain h | ⟨_, _, -, h⟩ := bind_eq_error.mp h
  · exact .of_refuseRecords .illegal h
  · exact .of_verify h

/-- New procedures without duplicates are found under their names. -/
theorem get_of_mem_new {p : Procedure} (h : duplicates lib.names procedures = [])
    (hp : p ∈ procedures) :
    get { lib with procedures := lib.procedures ++ procedures } p.name = .ok p := by
  obtain ⟨hnodup, hfresh⟩ := duplicates_eq_nil.mp h
  have hnew : get { lib with procedures } p.name = .ok p :=
    (@get_eq_ok_iff_mem { lib with procedures } p hnodup p.name).mpr ⟨hp, rfl⟩
  rw [get_eq_ok, find?] at hnew ⊢
  rw [List.find?_append, hnew, List.find?_eq_none.mpr, Option.none_or]
  intro q hq hname
  exact hfresh p hp (List.mem_map.mpr ⟨q, hq, by simpa using hname⟩)

end Library

/-! ## Registrations -/

namespace Stmt

mutual

theorem hasHole_of_writable : ∀ {s : Stmt}, s.Writable → s.hasHole = false
  | .assign .., _ | .call .., _ | .declare .., _ | .discard .., _ | .swap .., _ => rfl
  | .branch _ _ thenBody elseBody _, h => by
    rw [Writable] at h
    rw [hasHole, anyHole_of_allWritable h.2.1, anyHole_of_allWritable h.2.2.1]
    rfl
  | .loop _ _ doBody loopBody _, h => by
    rw [Writable] at h
    rw [hasHole, anyHole_of_allWritable h.2.1, anyHole_of_allWritable h.2.2.1]
    rfl
  | .block _ body, h => @anyHole_of_allWritable body h
  | .hole _, h => h.elim

theorem anyHole_of_allWritable : ∀ {body : List Stmt}, AllWritable body → anyHole body = false
  | [], _ => rfl
  | s :: rest, h => by
    rw [AllWritable] at h
    rw [anyHole, hasHole_of_writable h.1, anyHole_of_allWritable h.2]
    rfl

end

end Stmt

namespace Registry

open Actions

/-- How a registration ends: the library holds the procedures, or it is as it was. -/
inductive Registered (r : Registry) (toolkit : Toolkit) (procedures : List Procedure) :
    EStateM.Result Fault Registry Unit → Prop
  | stored {r' : Registry}
      (hlibrary : r'.library = { r.library with
        procedures := r.library.procedures ++ procedures })
      (hget : ∀ p ∈ procedures, r'.library.get p.name = .ok p) :
      Registered r toolkit procedures (.ok () r')
  | unfit {f : Fault} {r' : Registry} (hlibrary : r'.library = r.library)
      (hf : r.library.Unfit toolkit procedures f) : Registered r toolkit procedures (.error f r')

/-- **How a program is admitted.** A program that was read from a text is registered as a whole or
refused with records, unless the analysis of a procedure fails by itself. It fails only if values do
not fit in a procedure that is not well sorted, or at a shift that is not sound. All other analyses
come to a report; those that were given up are in the log. -/
theorem register_cases {source file : String} {program : Program}
    (hparse : Program.parse source file = .ok program) (toolkit : Toolkit) (r : Registry) :
    r.Registered toolkit program.procedures (register toolkit program.procedures r) ∧
      ∀ p ∈ program.procedures, ∀ inquiry,
        p.Analyzed toolkit (p.verify r.library.intType toolkit inquiry) := by
  refine ⟨?_, fun p _ inquiry => p.analyzed _ toolkit inquiry⟩
  cases h : register toolkit program.procedures r with
  | ok u r' =>
    obtain ⟨vetted, hvet, hlibrary, -⟩ := Library.register_eq_ok_iff.mp (register_eq_ok.mp h)
    refine .stored hlibrary fun p hp => ?_
    rw [hlibrary]
    exact Library.get_of_mem_new (Library.vet_eq_ok.mp hvet).1 hp
  | error f r' =>
    obtain ⟨hvet, hlibrary⟩ := register_eq_error h
    refine .unfit hlibrary (.of_vet (fun p hp => ?_) hvet)
    exact Stmt.anyHole_of_allWritable (Program.writable_of_parse hparse p hp).2.2

end Registry

namespace Sample

/-- An empty library that checks assertions ahead of time. -/
def careful : Library := { usual with settings := { verifyAssertions := true } }

/-- Doubles a number into another one that is zero. -/
def doubling : String :=
  "procedure f(x, y) \x7b if y == 0 \x7b y += x << 1 \x7d else \x7b \x7d assert y == 2 * x \x7d"

/-- What a solver says about `doubling`: the assertion always confirms the first branch, and not the
second one, where `x` is `1` and `y` is `2`. -/
def answers : Solver := fun n _ =>
  if n = 2 then .unsat else .sat fun name => if name = "x" then "1" else "2"

/-- Shifts by a count that is written as a negative number. -/
def negativeShift : String := "procedure p(x) \x7b x += 1 << -1 \x7d"

end Sample

/-- A procedure with a shift and an assertion, in a library that checks assertions. It is well
sorted and its shift is sound, so its registration is not one that fails by itself. -/
theorem register_doubling : ∃ program, Program.parse Sample.doubling "" = .ok program ∧
    program.procedures.all (fun p => p.wellSorted && p.soundShifts 13) = true ∧
      Registry.Registered ⟨Sample.careful, {}⟩ (.usual Sample.answers) program.procedures
        (Registry.register (.usual Sample.answers) program.procedures ⟨Sample.careful, {}⟩) ∧
      ∀ p ∈ program.procedures, ∀ inquiry, p.Analyzed (.usual Sample.answers)
        (p.verify .word (.usual Sample.answers) inquiry) := by
  have hreads : (Program.parse Sample.doubling "").toOption.any
      (fun program => program.procedures.all fun p => p.wellSorted && p.soundShifts 13) = true := by
    decide +kernel
  obtain ⟨program, hparse, hconditions⟩ := Actions.exists_of_toOption_any hreads
  exact ⟨program, hparse, hconditions, Registry.register_cases hparse (.usual Sample.answers)
    ⟨Sample.careful, {}⟩⟩

/-- A shift count that is written as a negative number is not against the static rules, and the
analysis of assertions cannot take it: the registration neither succeeds nor is refused. -/
theorem Registry.register_negative_shift :
    Library.empty { verifyAssertions := true } [] = .ok Sample.careful ∧
      ∃ program f r', Program.parse Sample.negativeShift "" = .ok program ∧
        register (.usual fun _ _ => .unknown) program.procedures ⟨Sample.careful, {}⟩ =
          .error f r' ∧ f.class? = some .value := by
  have hclass : (Program.parse Sample.negativeShift "").toOption.bind (fun program =>
      (Actions.error? (register (.usual fun _ _ => .unknown) program.procedures)
        ⟨Sample.careful, {}⟩).bind Fault.class?) = some .value := by
    decide +kernel
  refine ⟨rfl, ?_⟩
  cases h : Program.parse Sample.negativeShift "" with
  | error f =>
    rw [h] at hclass
    cases hclass
  | ok program =>
    rw [h] at hclass
    change Option.bind _ Fault.class? = _ at hclass
    obtain ⟨f, hf, hvalue⟩ := Option.bind_eq_some_iff.mp hclass
    obtain ⟨r', hr'⟩ := Actions.exists_of_error? hf
    exact ⟨program, f, r', rfl, hr', hvalue⟩

end Retrace
