import Retrace.Proofs.Legality
import Retrace.Proofs.RoundTrip

/-!
# Registries

All checks of a registration come before the first procedure is stored, and what passes them has
names that are not in use. So storing one procedure after the other adds them at the end of the
library, and a registration that fails has stored nothing: `Registry.register` changes a registry as
`Library.register` says (`register_eq_ok`, `library_of_register_eq_error`).

Along a history of registrations, some of which may fail, the library holds the units that were
accepted, in order, and stays consistent: names are different, and every call statement finds a
procedure with as many parameters as it has arguments (`Library.Consistent`). The table by which a
unit was checked is kept by all later libraries, since they only grow at the end.
-/

namespace Retrace

open Actions

/-! ## Names in use -/

namespace Library

variable {lib lib' : Library} {p : Procedure} {procedures : List Procedure}

theorem has_iff_mem_names {name : String} : lib.has name = true ↔ name ∈ lib.names := by
  simp [has, names]

theorem store_of_not_mem (h : p.name ∉ lib.names) :
    lib.store p = { lib with procedures := lib.procedures ++ [p] } := by
  rw [store, if_neg (mt has_iff_mem_names.mp h)]

theorem names_append (lib : Library) (procedures : List Procedure) :
    names { lib with procedures := lib.procedures ++ procedures } =
      lib.names ++ procedures.map Procedure.name :=
  List.map_append

/-- There are no duplicates if the names are different, and none of them is taken. -/
theorem duplicates_eq_nil {taken : List String} :
    duplicates taken procedures = [] ↔
      (procedures.map Procedure.name).Nodup ∧ ∀ p ∈ procedures, p.name ∉ taken := by
  induction procedures generalizing taken with
  | nil => simp [duplicates]
  | cons p rest ih =>
    have hfound : (if p.name ∈ taken then
        [Finding.record p.name ⟨.duplicateProcedure p.name, none, p.loc⟩] else []) = [] ↔
          p.name ∉ taken := by
      by_cases h : p.name ∈ taken <;> simp [h]
    have hrest : (∀ q ∈ rest, q.name ∉ p.name :: taken) ↔
        p.name ∉ rest.map Procedure.name ∧ ∀ q ∈ rest, q.name ∉ taken := by
      simp only [List.mem_cons, not_or, forall_and, List.mem_map, not_exists, not_and]
    rw [duplicates, List.append_eq_nil_iff, hfound, ih, hrest, List.map_cons, List.nodup_cons,
      List.forall_mem_cons]
    tauto

/-- The names of a library stay different if new procedures have no duplicates. -/
theorem nodup_names_append (hlib : lib.names.Nodup) (h : duplicates lib.names procedures = []) :
    (names { lib with procedures := lib.procedures ++ procedures }).Nodup := by
  obtain ⟨hnodup, hfresh⟩ := duplicates_eq_nil.mp h
  rw [names_append]
  refine List.Nodup.append hlib hnodup fun name hname hnew => ?_
  obtain ⟨p, hp, rfl⟩ := List.mem_map.mp hnew
  exact hfresh p hp hname

theorem name_of_get {name : String} (h : lib.get name = .ok p) : p.name = name := by
  rw [get_eq_ok, find?] at h
  simpa using List.find?_some h

/-- Where names are different, a name stands for a procedure if the library holds it under that
name. -/
theorem get_eq_ok_iff_mem (hlib : lib.names.Nodup) {name : String} :
    lib.get name = .ok p ↔ p ∈ lib.procedures ∧ p.name = name := by
  refine ⟨fun h => ⟨mem_of_get h, name_of_get h⟩, ?_⟩
  rintro ⟨hp, rfl⟩
  obtain ⟨q, hq⟩ : ∃ q, lib.find? p.name = some q :=
    Option.isSome_iff_exists.mp (List.find?_isSome.mpr ⟨p, hp, by simp⟩)
  have hget : lib.get p.name = .ok q := get_eq_ok.mpr hq
  rw [hget, List.inj_on_of_nodup_map hlib (mem_of_get hget) hp (name_of_get hget)]

/-! ## Consistent libraries -/

/-- Names are different, and call statements find what they call. -/
structure Consistent (lib : Library) : Prop where
  names : lib.names.Nodup
  callees : ∀ loc callee args uncall, lib.Holds (.call loc callee args uncall) →
    ∃ q, lib.get callee = .ok q ∧ q.params.length = args.length

theorem consistent_of_nil (h : lib.procedures = []) : lib.Consistent := by
  refine ⟨by simp [names, h], ?_⟩
  rintro loc callee args uncall ⟨p, hp, -⟩
  rw [h] at hp
  cases hp

/-- **One registration.** A unit that passes the checks keeps a library consistent. -/
theorem Consistent.append (hlib : lib.Consistent) {toolkit : Toolkit} {inquiry inquiry' : Inquiry}
    (h : lib.vet toolkit procedures inquiry = .ok () inquiry') :
    Consistent { lib with procedures := lib.procedures ++ procedures } := by
  obtain ⟨hduplicates, hchecks, -⟩ := vet_eq_ok.mp h
  refine ⟨nodup_names_append hlib.names hduplicates, ?_⟩
  rintro loc callee args uncall ⟨p, hp, hcall⟩
  rcases List.mem_append.mp hp with hp | hp
  · -- calls from before still find what they found
    obtain ⟨q, hq, hlength⟩ := hlib.callees loc callee args uncall ⟨p, hp, hcall⟩
    exact ⟨q, get_append hq _, hlength⟩
  · have hfindings := (Legality.check_eq_ok_nil.mp (hchecks p hp)).2
    rw [Legality.findings, List.append_eq_nil_iff] at hfindings
    have hpermitted := Legality.permitted_of_blockFindings hfindings.2 _ hcall
    exact (keeps_tableWith lib procedures).procedure hpermitted.1

theorem Consistent.register (hlib : lib.Consistent) {toolkit : Toolkit}
    {inquiry inquiry' : Inquiry} (h : lib.register toolkit procedures inquiry = .ok lib' inquiry') :
    lib'.Consistent := by
  obtain ⟨vetted, hvet, rfl, -⟩ := register_eq_ok_iff.mp h
  exact hlib.append hvet

theorem Accepted.consistent (h : lib.Accepted) : lib.Consistent := by
  induction h with
  | empty hempty => exact consistent_of_nil (procedures_empty hempty)
  | register _ hregister ih => exact ih.register hregister

/-- Every procedure of a library passed the check, by a table that the library keeps. -/
theorem Accepted.keeps (h : lib.Accepted) (hp : p ∈ lib.procedures) :
    ∃ t, lib.Keeps t ∧ Legality.check t p = .ok [] := by
  induction h with
  | empty hempty =>
    rw [procedures_empty hempty] at hp
    cases hp
  | register _ hregister ih =>
    obtain ⟨vetted, hvet, rfl, -⟩ := register_eq_ok_iff.mp hregister
    rcases List.mem_append.mp hp with hp | hp
    · obtain ⟨t, hkeeps, hcheck⟩ := ih hp
      exact ⟨t, hkeeps.append _, hcheck⟩
    · exact ⟨_, keeps_tableWith _ _, (vet_eq_ok.mp hvet).2.1 p hp⟩

end Library

/-! ## One registration -/

/-- A request to register some procedures as one unit, and what their assertions are checked
with. -/
structure Request where
  toolkit : Toolkit
  procedures : List Procedure

namespace Registry

variable {r r' : Registry} {toolkit : Toolkit} {procedures : List Procedure} {f : Fault}

theorem inquire_eq_ok {action : EStateM Fault Inquiry Unit} :
    inquire action r = .ok () r' ↔
      action r.inquiry = .ok () r'.inquiry ∧ r'.library = r.library := by
  unfold inquire
  cases action r.inquiry with
  | ok a inquiry =>
    obtain ⟨library, inquiry'⟩ := r'
    simp [and_comm, eq_comm]
  | error f inquiry => simp

theorem inquire_eq_error {action : EStateM Fault Inquiry Unit} :
    inquire action r = .error f r' ↔
      action r.inquiry = .error f r'.inquiry ∧ r'.library = r.library := by
  unfold inquire
  cases action r.inquiry with
  | ok a inquiry => simp
  | error f' inquiry =>
    obtain ⟨library, inquiry'⟩ := r'
    simp only [EStateM.Result.error.injEq, mk.injEq]
    tauto

/-- The registry after some procedures with new names have been stored. -/
def stored (r : Registry) (procedures : List Procedure) : Registry where
  library := { r.library with procedures := r.library.procedures ++ procedures }
  inquiry := { r.inquiry with log := (procedures.map .registered).reverse ++ r.inquiry.log }

/-- Storing one procedure after the other adds them in order if no name comes twice. -/
theorem forM_store (h : Library.duplicates r.library.names procedures = []) :
    procedures.forM store r = .ok () (r.stored procedures) := by
  induction procedures generalizing r with
  | nil => simp [stored]
  | cons p rest ih =>
    obtain ⟨hnodup, hfresh⟩ := Library.duplicates_eq_nil.mp h
    rw [List.map_cons, List.nodup_cons] at hnodup
    rw [List.forall_mem_cons] at hfresh
    have hp : store p r = .ok () (r.stored [p]) := by
      have hstore := Library.store_of_not_mem hfresh.1
      simp [store, stored, hstore]
    have hrest : Library.duplicates (r.stored [p]).library.names rest = [] := by
      refine Library.duplicates_eq_nil.mpr ⟨hnodup.2, fun q hq => ?_⟩
      rw [stored, Library.names_append, List.mem_append, not_or]
      refine ⟨hfresh.2 q hq, fun hname => hnodup.1 ?_⟩
      rw [List.map_singleton, List.mem_singleton] at hname
      exact List.mem_map.mpr ⟨q, hq, hname⟩
    have hboth : (r.stored [p]).stored rest = r.stored (p :: rest) := by simp [stored]
    exact bind_eq_ok.mpr ⟨(), r.stored [p], hp, (ih hrest).trans (by rw [hboth])⟩

/-- A registration succeeds in place where the larger library exists, and gives that library. -/
theorem register_eq_ok :
    register toolkit procedures r = .ok () r' ↔
      r.library.register toolkit procedures r.inquiry = .ok r'.library r'.inquiry := by
  rw [Library.register_eq_ok_iff]
  constructor
  · intro h
    obtain ⟨_, _, hget, h₁⟩ := bind_eq_ok.mp h
    obtain ⟨rfl, rfl⟩ := EStateM.Result.ok.inj hget
    obtain ⟨_, r₁, hvet, h₂⟩ := bind_eq_ok.mp h₁
    obtain ⟨hvet, hlibrary⟩ := inquire_eq_ok.mp hvet
    rw [← hlibrary] at hvet ⊢
    rw [forM_store (Library.vet_eq_ok.mp hvet).1] at h₂
    obtain ⟨-, rfl⟩ := EStateM.Result.ok.inj h₂
    exact ⟨r₁.inquiry, hvet, rfl, rfl⟩
  · rintro ⟨vetted, hvet, hlibrary, hinquiry⟩
    refine bind_eq_ok.mpr ⟨r, r, rfl, bind_eq_ok.mpr ⟨(), ⟨r.library, vetted⟩, ?_, ?_⟩⟩
    · exact inquire_eq_ok.mpr ⟨hvet, rfl⟩
    · obtain ⟨library, inquiry⟩ := r'
      obtain rfl : library = _ := hlibrary
      obtain rfl : inquiry = _ := hinquiry
      exact forM_store (Library.vet_eq_ok.mp hvet).1

/-- A registration that fails does so in the checks, and leaves the library alone. -/
theorem register_eq_error (h : register toolkit procedures r = .error f r') :
    r.library.vet toolkit procedures r.inquiry = .error f r'.inquiry ∧ r'.library = r.library := by
  obtain h | ⟨_, _, hget, h⟩ := bind_eq_error.mp h
  · cases h
  obtain ⟨rfl, rfl⟩ := EStateM.Result.ok.inj hget
  obtain h | ⟨_, r₁, hvet, h⟩ := bind_eq_error.mp h
  · exact inquire_eq_error.mp h
  · -- after the checks nothing can fail
    obtain ⟨hvetted, hlibrary⟩ := inquire_eq_ok.mp hvet
    have hduplicates := (Library.vet_eq_ok.mp hvetted).1
    rw [← hlibrary] at hduplicates
    rw [forM_store hduplicates] at h
    cases h

theorem library_of_register_eq_error (h : register toolkit procedures r = .error f r') :
    r'.library = r.library := (register_eq_error h).2

/-! ## Histories -/

/-- The registry after a request, whether it is granted or not. -/
def attempt (r : Registry) (q : Request) : Registry := after (register q.toolkit q.procedures) r

/-- The registry after some requests, one after the other. -/
def attempts (r : Registry) (history : List Request) : Registry := history.foldl attempt r

/-- The units of those requests of a history that are granted, in order. -/
def granted (r : Registry) : List Request → List (List Procedure)
  | [] => []
  | q :: rest =>
    (if completes (register q.toolkit q.procedures) r then [q.procedures] else []) ++
      granted (r.attempt q) rest

/-- What a request does to a library: its unit is added, or nothing happens. -/
theorem library_attempt (r : Registry) (q : Request) :
    (r.attempt q).library = { r.library with
      procedures := r.library.procedures ++ (granted r [q]).flatten } := by
  rw [attempt, after, granted, granted, List.append_nil, completes]
  cases h : register q.toolkit q.procedures r with
  | ok a r' =>
    obtain ⟨_, -, hlibrary, -⟩ := Library.register_eq_ok_iff.mp (register_eq_ok.mp h)
    simpa using hlibrary
  | error f r' => simpa using library_of_register_eq_error h

theorem granted_cons (r : Registry) (q : Request) (rest : List Request) :
    granted r (q :: rest) = granted r [q] ++ granted (r.attempt q) rest := by
  simp [granted]

/-- The library after a history holds the units that were granted, in order. -/
theorem library_attempts (r : Registry) (history : List Request) :
    (r.attempts history).library = { r.library with
      procedures := r.library.procedures ++ (r.granted history).flatten } := by
  induction history generalizing r with
  | nil => simp [attempts, granted]
  | cons q rest ih =>
    have hrest := ih (r.attempt q)
    rw [library_attempt, List.append_assoc, ← List.flatten_append, ← granted_cons] at hrest
    exact hrest

theorem consistent_attempt (h : r.library.Consistent) (q : Request) :
    (r.attempt q).library.Consistent := by
  rw [attempt, after]
  cases hr : register q.toolkit q.procedures r with
  | ok a r' => exact h.register (register_eq_ok.mp hr)
  | error f r' =>
    rw [library_of_register_eq_error hr]
    exact h

theorem consistent_attempts (h : r.library.Consistent) (history : List Request) :
    (r.attempts history).library.Consistent := by
  induction history generalizing r with
  | nil => exact h
  | cons q rest ih => exact ih (consistent_attempt h q)

/-- **Registration is atomic, and every registry is consistent.** After any history of requests,
granted or refused, of a registry that was empty at first:

* a further request that fails, for whatever reason, leaves the library as it is, and one that
  succeeds adds exactly its unit;
* the library holds the procedures of the granted units, in order, and no name occurs twice among
  all procedures ever accepted, so a name stands for the first and only procedure accepted for it;
* every call statement at any depth names a procedure of the library that has as many parameters as
  the call has arguments. -/
theorem attempts_sound {settings : Settings} {further : List (String × HostFunction)}
    {lib : Library} (hempty : Library.empty settings further = .ok lib) (inquiry : Inquiry)
    (history : List Request) :
    (∀ toolkit unit f r', register toolkit unit (attempts ⟨lib, inquiry⟩ history) = .error f r' →
      r'.library = (attempts ⟨lib, inquiry⟩ history).library) ∧
    (∀ toolkit unit r', register toolkit unit (attempts ⟨lib, inquiry⟩ history) = .ok () r' →
      r'.library = { (attempts ⟨lib, inquiry⟩ history).library with
        procedures := (attempts ⟨lib, inquiry⟩ history).library.procedures ++ unit }) ∧
    (attempts ⟨lib, inquiry⟩ history).library =
      { lib with procedures := (granted ⟨lib, inquiry⟩ history).flatten } ∧
    ((granted ⟨lib, inquiry⟩ history).flatten.map Procedure.name).Nodup ∧
    (∀ name p, (attempts ⟨lib, inquiry⟩ history).library.get name = .ok p ↔
      p ∈ (granted ⟨lib, inquiry⟩ history).flatten ∧ p.name = name) ∧
    ∀ loc callee args uncall,
      (attempts ⟨lib, inquiry⟩ history).library.Holds (.call loc callee args uncall) →
        ∃ p, (attempts ⟨lib, inquiry⟩ history).library.get callee = .ok p ∧
          p.params.length = args.length := by
  have hnone : lib.procedures = [] := Library.procedures_empty hempty
  have hlibrary : (attempts ⟨lib, inquiry⟩ history).library =
      { lib with procedures := (granted ⟨lib, inquiry⟩ history).flatten } := by
    rw [library_attempts, hnone, List.nil_append]
  have hconsistent : (attempts ⟨lib, inquiry⟩ history).library.Consistent :=
    consistent_attempts (Library.consistent_of_nil hnone) history
  have hnodup : ((granted ⟨lib, inquiry⟩ history).flatten.map Procedure.name).Nodup := by
    have hnames := hconsistent.names
    rwa [hlibrary] at hnames
  refine ⟨fun _ _ _ _ h => library_of_register_eq_error h, fun _ _ r' h => ?_, hlibrary, hnodup,
    fun name p => ?_, hconsistent.callees⟩
  · obtain ⟨_, -, hr', -⟩ := Library.register_eq_ok_iff.mp (register_eq_ok.mp h)
    exact hr'
  · rw [Library.get_eq_ok_iff_mem hconsistent.names, hlibrary]

end Registry

namespace Sample

/-- Four requests. The second is refused because `bump` is known already, and the third because the
second one did not store `triangle`. -/
def requests : List Request :=
  [[unbump, bump], [triangle, bump], [settle], [triangle, settle]].map fun procedures =>
    ⟨default, procedures⟩

theorem granted_requests :
    Registry.granted ⟨usual, {}⟩ requests = [[unbump, bump], [triangle, settle]] := rfl

end Sample

theorem requests_sound :
    (Registry.attempts ⟨Sample.usual, {}⟩ Sample.requests).library.procedures =
        [Sample.unbump, Sample.bump, Sample.triangle, Sample.settle] ∧
      ∀ loc callee args uncall,
        (Registry.attempts ⟨Sample.usual, {}⟩ Sample.requests).library.Holds
          (.call loc callee args uncall) →
        ∃ p, (Registry.attempts ⟨Sample.usual, {}⟩ Sample.requests).library.get callee = .ok p ∧
          p.params.length = args.length := by
  have hempty : Library.empty {} [] = .ok Sample.usual := rfl
  obtain ⟨-, -, hlibrary, -, -, hcallees⟩ := Registry.attempts_sound hempty {} Sample.requests
  refine ⟨?_, hcallees⟩
  rw [hlibrary, Sample.granted_requests]
  rfl

end Retrace
