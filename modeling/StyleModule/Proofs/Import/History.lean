import StyleModule.Proofs.Import.Binds

/-!
# Names over a history of requests

A set of names is asked for names again and again: a stylesheet is scanned, or one name like a
candidate is wanted. Each request makes the set grow by just the names it hands out
(`NameRequest.grows`), and growth adds up, so over any history the names handed out are all
different and none of them was taken at the start (`serveAll_exact`).

A scan that fails tells of no imports, but has handed out names to those in front of the statement
that it fails at. They are found out from the statements (`Importer.accepted`), and stay taken.
-/

namespace StyleModule

/-! ## Growth -/

/-- The set `after` is the set `names` with the names `added`, all of them new and different. -/
structure NameSet.Grows (names : NameSet) (added : List String) (after : NameSet) : Prop where
  mem_iff : ∀ name, name ∈ after ↔ name ∈ names ∨ name ∈ added
  distinct : added.Nodup
  absent : ∀ name ∈ added, name ∉ names
  size_eq : after.size = names.size + added.length

namespace NameSet

theorem grows_nil (names : NameSet) : Grows names [] names where
  mem_iff := by simp
  distinct := List.nodup_nil
  absent := by simp
  size_eq := rfl

/-- A set with names in front of those of another has grown by them, since it has each name once. -/
theorem grows_of_names_eq {names after : NameSet} {added : List String}
    (front : after.names = added.reverse ++ names.names) : Grows names added after := by
  have once := after.nodup
  rw [front, List.nodup_append] at once
  obtain ⟨distinct, _, apart⟩ := once
  refine ⟨?_, List.nodup_reverse.1 distinct, ?_, ?_⟩
  · intro name
    show name ∈ after.names ↔ _
    rw [front, List.mem_append, List.mem_reverse]
    exact or_comm
  · intro name new taken
    exact apart name (List.mem_reverse.2 new) name taken rfl
  · rw [size, size, front, List.length_append, List.length_reverse, Nat.add_comm]

/-- Growth adds up. -/
theorem Grows.trans {names between after : NameSet} {first second : List String}
    (h : Grows names first between) (h' : Grows between second after) :
    Grows names (first ++ second) after := by
  have apart : ∀ name ∈ second, name ∉ names ∧ name ∉ first := by
    intro name new
    have outside := h'.absent name new
    rwa [h.mem_iff, not_or] at outside
  refine ⟨?_, ?_, ?_, ?_⟩
  · intro name
    rw [h'.mem_iff, h.mem_iff, List.mem_append, or_assoc]
  · refine List.nodup_append.2 ⟨h.distinct, h'.distinct, ?_⟩
    rintro name early _ late rfl
    exact (apart name late).2 early
  · intro name new
    rcases List.mem_append.1 new with early | late
    · exact h.absent name early
    · exact (apart name late).1
  · rw [h'.size_eq, h.size_eq, List.length_append, Nat.add_assoc]

end NameSet

/-! ## Imports in front of a fault -/

namespace Importer

variable {importer : Importer}

/-- The imports that are made of statements, up to the first that none can be made of. -/
def accepted (importer : Importer) : List Statement → NameSet → List Import
  | [], _ => []
  | statement :: statements, names =>
    if statement.IsLocal then
      match importer.find (String.ofList statement.url) with
      | .error _ => []
      | .ok (file, candidate) =>
        let name := names.fresh candidate
        importOf statement file name :: accepted importer statements (names.insert name)
    else accepted importer statements names

/-- Statements that are bound are accepted, whatever stands behind them. -/
theorem Binds.accepted_append {bound : List Statement} {names after : NameSet}
    {imports : List Import} (h : Binds importer bound names after imports)
    (rest : List Statement) :
    importer.accepted (bound ++ rest) names = imports ++ importer.accepted rest after := by
  induction h with
  | done => rfl
  | pass elsewhere _ ih => rw [List.cons_append, accepted, if_neg elsewhere, ih]
  | bind here found _ ih =>
    rw [List.cons_append, accepted, if_pos here, found, List.cons_append]
    exact congrArg (_ :: ·) ih

/-- A scan that succeeds has accepted its imports. -/
theorem accepted_of_scan {css : String} {names after : NameSet} {scan : Scan}
    (scanned : importer.scan css names = (after, .ok scan)) :
    importer.accepted (statements css.toList) names = scan.imports := by
  obtain ⟨binds, _⟩ := scan_eq_ok_iff.1 scanned
  have whole := binds.accepted_append []
  rwa [List.append_nil, accepted, List.append_nil] at whole

/-- A scan that fails has accepted the imports in front of a statement that none can be made of, and
has taken their names. -/
theorem exists_bound_of_scan_eq_error {css : String} {names after : NameSet} {fault : Fault}
    (failed : importer.scan css names = (after, .error fault)) :
    ∃ bound failing rest, statements css.toList = bound ++ failing :: rest ∧
      importer.bindAll bound names =
        (after, .ok (importer.accepted (statements css.toList) names)) ∧
      failing.IsLocal ∧ importer.find (String.ofList failing.url) = .error fault := by
  obtain ⟨bound, failing, rest, imports, split, binds, leads, missing⟩ :=
    bindAll_eq_error_iff.1 (scan_eq_error_iff.1 failed)
  have stops : importer.accepted (failing :: rest) after = [] := by
    rw [accepted, if_pos leads, missing]
  have made : importer.accepted (statements css.toList) names = imports := by
    rw [split, binds.accepted_append, stops, List.append_nil]
  refine ⟨bound, failing, rest, split, ?_, leads, missing⟩
  rw [made]
  exact binds.bindAll

/-- Whether it succeeds or fails, a scan makes the set grow by the names of what it accepted. -/
theorem grows_scan (importer : Importer) (css : String) (names : NameSet) :
    names.Grows ((importer.accepted (statements css.toList) names).map Import.name)
      (importer.scan css names).1 := by
  apply NameSet.grows_of_names_eq
  cases scanned : importer.scan css names with
  | mk after outcome =>
    cases outcome with
    | ok scan =>
      rw [accepted_of_scan scanned]
      exact (scan_eq_ok_iff.1 scanned).1.names_eq
    | error fault =>
      obtain ⟨_, _, _, _, bound, _⟩ := exists_bound_of_scan_eq_error scanned
      exact (binds_of_bindAll bound).names_eq

end Importer

/-! ## Requests -/

/-- Something that a set of names is asked for: the names of a stylesheet's imports, or one name
like a candidate. -/
inductive NameRequest where
  | scan (importer : Importer) (css : String)
  | name (candidate : String)

namespace NameRequest

/-- The set after a request. -/
def serve (request : NameRequest) (names : NameSet) : NameSet :=
  match request with
  | scan importer css => (importer.scan css names).1
  | name candidate => names.insert (names.fresh candidate)

/-- The names that a request is handed out. -/
def handedOut (request : NameRequest) (names : NameSet) : List String :=
  match request with
  | scan importer css =>
    (importer.accepted (Importer.statements css.toList) names).map Import.name
  | name candidate => [names.fresh candidate]

/-- A request makes the set grow by what it is handed out. -/
theorem grows (request : NameRequest) (names : NameSet) :
    names.Grows (request.handedOut names) (request.serve names) := by
  cases request with
  | scan importer css => exact importer.grows_scan css names
  | name candidate => exact NameSet.grows_of_names_eq (names.names_insert_fresh candidate)

/-- The set after requests, one after another. -/
def serveAll : List NameRequest → NameSet → NameSet
  | [], names => names
  | request :: requests, names => serveAll requests (request.serve names)

/-- The names that requests are handed out, one request after another. -/
def handedOutAll : List NameRequest → NameSet → List String
  | [], _ => []
  | request :: requests, names =>
    request.handedOut names ++ handedOutAll requests (request.serve names)

theorem grows_serveAll (requests : List NameRequest) (names : NameSet) :
    names.Grows (handedOutAll requests names) (serveAll requests names) := by
  induction requests generalizing names with
  | nil => exact names.grows_nil
  | cons request requests ih => exact (request.grows names).trans (ih _)

/-- A set of names is exact over any history: each request makes it grow by the names it is handed
out, and so does the history as a whole. A scan that succeeds is handed out the names of its
imports, and one that fails the names of the imports made of the statements in front of the one it
fails at. -/
theorem serveAll_exact (start : NameSet) (requests : List NameRequest) :
    (∀ (request : NameRequest) (names : NameSet),
      names.Grows (request.handedOut names) (request.serve names)) ∧
    (∀ (importer : Importer) (css : String) (names after : NameSet) (found : Scan),
      importer.scan css names = (after, .ok found) →
        (scan importer css).handedOut names = found.imports.map Import.name) ∧
    (∀ (importer : Importer) (css : String) (names after : NameSet) (fault : Fault),
      importer.scan css names = (after, .error fault) →
        ∃ bound failing rest imports, Importer.statements css.toList = bound ++ failing :: rest ∧
          importer.bindAll bound names = (after, .ok imports) ∧ failing.IsLocal ∧
          importer.find (String.ofList failing.url) = .error fault ∧
          (scan importer css).handedOut names = imports.map Import.name) ∧
    start.Grows (handedOutAll requests start) (serveAll requests start) := by
  refine ⟨grows, ?_, ?_, grows_serveAll requests start⟩
  · intro importer css names after found scanned
    exact congrArg (List.map Import.name) (Importer.accepted_of_scan scanned)
  · intro importer css names after fault failed
    obtain ⟨bound, failing, rest, split, made, leads, missing⟩ :=
      Importer.exists_bound_of_scan_eq_error failed
    exact ⟨bound, failing, rest, _, split, made, leads, missing, rfl⟩

end NameRequest

end StyleModule
