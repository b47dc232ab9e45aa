import StyleModule.Import.Scan
import StyleModule.Proofs.Name.Fresh

/-!
# How statements become imports

`Binds` is the relation between the statements that a scan looks at and the imports it makes of
them, together with the names taken before and after: a statement that leads elsewhere is passed
over, and one that leads to a file of the project is bound to a name that is new to the set.
`bindAll_eq_ok_iff` says that the relation is what a scan computes when it succeeds, so what holds
of every successful scan is shown by induction on `Binds`, never by opening the scan.
-/

namespace StyleModule.Importer

/-- The import that is made of a statement. -/
def importOf (statement : Statement) (file : Path) (name : String) : Import :=
  ⟨String.ofList statement.text, String.ofList statement.url, file, name⟩

/-- Statements, the names taken before, the names taken after, and the imports made. -/
inductive Binds (importer : Importer) : List Statement → NameSet → NameSet → List Import → Prop
  | done {names : NameSet} : Binds importer [] names names []
  | pass {statement : Statement} {statements : List Statement} {names after : NameSet}
      {imports : List Import} (elsewhere : ¬ statement.IsLocal)
      (rest : Binds importer statements names after imports) :
      Binds importer (statement :: statements) names after imports
  | bind {statement : Statement} {statements : List Statement} {names after : NameSet}
      {imports : List Import} {file : Path} {candidate : String} (here : statement.IsLocal)
      (found : importer.find (String.ofList statement.url) = .ok (file, candidate))
      (rest : Binds importer statements (names.insert (names.fresh candidate)) after imports) :
      Binds importer (statement :: statements) names after
        (importOf statement file (names.fresh candidate) :: imports)

variable {importer : Importer}

theorem binds_of_bindAll {statements : List Statement} {names after : NameSet}
    {imports : List Import} (h : importer.bindAll statements names = (after, .ok imports)) :
    Binds importer statements names after imports := by
  induction statements generalizing names imports with
  | nil => cases h; exact .done
  | cons statement statements ih =>
    rw [bindAll] at h
    split at h
    next here =>
      split at h
      next => cases h
      next file candidate found =>
        cases bound : importer.bindAll statements (names.insert (names.fresh candidate)) with
        | mk set made =>
          simp only [bound] at h
          cases made with
          | error => cases h
          | ok made => cases h; exact .bind here found (ih bound)
    next elsewhere => exact .pass elsewhere (ih h)

theorem Binds.bindAll {statements : List Statement} {names after : NameSet}
    {imports : List Import} (h : Binds importer statements names after imports) :
    importer.bindAll statements names = (after, .ok imports) := by
  induction h with
  | done => rfl
  | pass elsewhere _ ih => rw [Importer.bindAll, if_neg elsewhere, ih]
  | bind here found _ ih =>
    rw [Importer.bindAll, if_pos here, found]
    dsimp only
    rw [ih]
    rfl

/-- The relation is what a successful scan of statements computes. -/
theorem bindAll_eq_ok_iff {statements : List Statement} {names after : NameSet}
    {imports : List Import} :
    importer.bindAll statements names = (after, .ok imports) ↔
      Binds importer statements names after imports :=
  ⟨binds_of_bindAll, Binds.bindAll⟩

/-- Statements are not all bound just where, after some that are, one leads to a file of the project
that cannot be found or named. The names taken on the way stay taken. -/
theorem bindAll_eq_error_iff {statements : List Statement} {names after : NameSet}
    {fault : Fault} :
    importer.bindAll statements names = (after, .error fault) ↔
      ∃ bound statement rest imports, statements = bound ++ statement :: rest ∧
        Binds importer bound names after imports ∧ statement.IsLocal ∧
          importer.find (String.ofList statement.url) = .error fault := by
  constructor
  · intro h
    induction statements generalizing names with
    | nil => cases h
    | cons statement statements ih =>
      rw [bindAll] at h
      split at h
      next here =>
        split at h
        next fault' missing =>
          cases h
          exact ⟨[], statement, statements, [], rfl, .done, here, missing⟩
        next file candidate found =>
          cases later : importer.bindAll statements (names.insert (names.fresh candidate)) with
          | mk set made =>
            simp only [later] at h
            cases made with
            | ok => cases h
            | error =>
              cases h
              obtain ⟨bound, failing, rest, imports, rfl, binds, leads, missing⟩ := ih later
              exact ⟨statement :: bound, failing, rest, _, rfl, .bind here found binds, leads,
                missing⟩
      next elsewhere =>
        obtain ⟨bound, failing, rest, imports, rfl, binds, leads, missing⟩ := ih h
        exact ⟨statement :: bound, failing, rest, imports, rfl, .pass elsewhere binds, leads,
          missing⟩
  · rintro ⟨bound, failing, rest, imports, rfl, binds, leads, missing⟩
    induction binds with
    | done => rw [List.nil_append, bindAll, if_pos leads, missing]
    | pass elsewhere _ ih => rw [List.cons_append, bindAll, if_neg elsewhere, ih]
    | bind here found _ ih =>
      rw [List.cons_append, bindAll, if_pos here, found]
      dsimp only
      rw [ih]
      rfl

/-! ## What a derivation tells -/

/-- The names taken afterwards are those of the imports, the last one first, and those taken
before. -/
theorem Binds.names_eq {statements : List Statement} {names after : NameSet}
    {imports : List Import} (h : Binds importer statements names after imports) :
    after.names = (imports.map Import.name).reverse ++ names.names := by
  induction h with
  | done => rfl
  | pass _ _ ih => exact ih
  | bind _ _ _ ih =>
    rw [ih, NameSet.names_insert_fresh]
    simp only [importOf, List.map_cons, List.reverse_cons, List.append_assoc, List.singleton_append]

/-- The imports are made of the statements that lead to files of the project, in their order. -/
theorem Binds.statements_eq {statements : List Statement} {names after : NameSet}
    {imports : List Import} (h : Binds importer statements names after imports) :
    imports.map Import.statement =
      (statements.filter (·.IsLocal)).map fun statement => String.ofList statement.text := by
  induction h with
  | done => rfl
  | pass elsewhere _ ih => rw [List.filter_cons_of_neg (by simpa using elsewhere), ih]
  | bind here _ _ ih =>
    rw [List.filter_cons_of_pos (by simpa using here), List.map_cons, List.map_cons, ih]
    rfl

/-- Taking out the statements of the imports is taking out the statements that lead to files of the
project. -/
theorem Binds.removeAll_eq {statements : List Statement} {names after : NameSet}
    {imports : List Import} (h : Binds importer statements names after imports)
    (css : List Char) :
    removeAll imports css = (statements.filter (·.IsLocal)).foldl
      (fun css statement => Text.removeFirst statement.text css) css := by
  have removed : removeAll imports css = (imports.map Import.statement).foldl
      (fun css statement => Text.removeFirst statement.toList css) css := by
    rw [List.foldl_map]
    rfl
  rw [removed, h.statements_eq, List.foldl_map]
  simp only [String.toList_ofList]

/-- Each import has the file that its address leads to, and a name made from the one that the file
asks for. -/
theorem Binds.find_eq {statements : List Statement} {names after : NameSet}
    {imports : List Import} (h : Binds importer statements names after imports) :
    ∀ made ∈ imports, ∃ (candidate : String) (taken : NameSet),
      importer.find made.url = .ok (made.file, candidate) ∧ made.name = taken.fresh candidate := by
  induction h with
  | done => simp
  | pass _ _ ih => exact ih
  | bind _ found _ ih =>
    intro made hmade
    rcases List.mem_cons.1 hmade with rfl | hmade
    · exact ⟨_, _, found, rfl⟩
    · exact ih made hmade

/-- Each import has the address that its statement names. -/
theorem Binds.url_eq {statements : List Statement} {names after : NameSet}
    {imports : List Import} (h : Binds importer statements names after imports) :
    ∀ made ∈ imports, made.url = String.ofList (Statement.url ⟨made.statement.toList⟩) := by
  induction h with
  | done => simp
  | pass _ _ ih => exact ih
  | bind _ _ _ ih =>
    intro made hmade
    rcases List.mem_cons.1 hmade with rfl | hmade
    · rw [importOf, String.toList_ofList]
    · exact ih made hmade

/-- What an address is found to be: the file it leads to, and the binding name of that file. -/
theorem find_eq_ok_iff {url : String} {file : Path} {candidate : String} :
    importer.find url = .ok (file, candidate) ↔
      importer.locate url = .ok file ∧
        Name.binding importer.identifier importer.mode file = .ok candidate := by
  rw [find]
  cases importer.locate url with
  | error => simp [bind, Except.bind]
  | ok located =>
    simp only [bind, Except.bind, Except.ok.injEq]
    cases bound : Name.binding importer.identifier importer.mode located with
    | error =>
      simp only [reduceCtorEq, false_iff, not_and]
      rintro rfl
      simp [bound]
    | ok name =>
      simp only [Except.ok.injEq, Prod.mk.injEq]
      constructor
      · rintro ⟨rfl, rfl⟩; exact ⟨rfl, bound⟩
      · rintro ⟨rfl, h⟩; rw [bound] at h; cases h; exact ⟨rfl, rfl⟩

/-- The name that an imported file asks for is taken in the end, by its own import or by an earlier
one. -/
theorem Binds.mem_of_binding {statements : List Statement} {names after : NameSet}
    {imports : List Import} (h : Binds importer statements names after imports) :
    ∀ made ∈ imports, ∀ name,
      Name.binding importer.identifier importer.mode made.file = .ok name → name ∈ after := by
  induction h with
  | done => simp
  | pass _ _ ih => exact ih
  | @bind statement statements names after imports file candidate _ found rest ih =>
    intro made hmade name asked
    rcases List.mem_cons.1 hmade with rfl | hmade
    · have same : candidate = name := Except.ok.inj ((find_eq_ok_iff.1 found).2.symm.trans asked)
      show name ∈ after.names
      rw [← same, rest.names_eq]
      exact List.mem_append_right _ (NameSet.mem_insert_fresh names candidate)
    · exact ih made hmade name asked

/-- What keeps an address from being found is told of the importing file. -/
theorem file?_of_find_eq_error {url : String} {fault : Fault}
    (h : importer.find url = .error fault) : fault.file? = some importer.file := by
  rw [find] at h
  cases located : importer.locate url with
  | error cause =>
    rw [located] at h
    cases h
    rw [locate] at located
    split at located
    next => cases located
    next => split at located <;> cases located; rfl
  | ok file =>
    rw [located] at h
    simp only [bind, Except.bind] at h
    split at h <;> cases h
    rfl

/-! ## Scans -/

/-- A scan succeeds with the imports that its statements are bound to, and with the text that they
are taken out of. -/
theorem scan_eq_ok_iff {css : String} {names after : NameSet} {scan : Scan} :
    importer.scan css names = (after, .ok scan) ↔
      Binds importer (statements css.toList) names after scan.imports ∧
        scan.text = String.ofList (removeAll scan.imports css.toList) := by
  rw [← bindAll_eq_ok_iff, Importer.scan]
  cases bound : importer.bindAll (statements css.toList) names with
  | mk set made =>
    cases made with
    | error => simp [Except.map]
    | ok made =>
      obtain ⟨imports, text⟩ := scan
      simp only [Except.map, Prod.mk.injEq, Except.ok.injEq, Scan.mk.injEq]
      constructor
      · rintro ⟨rfl, rfl, rfl⟩; exact ⟨⟨rfl, rfl⟩, rfl⟩
      · rintro ⟨⟨rfl, rfl⟩, rfl⟩; exact ⟨rfl, rfl, rfl⟩

/-- A scan fails where a statement cannot be bound, with the names that were taken before it. -/
theorem scan_eq_error_iff {css : String} {names after : NameSet} {fault : Fault} :
    importer.scan css names = (after, .error fault) ↔
      importer.bindAll (statements css.toList) names = (after, .error fault) := by
  rw [Importer.scan]
  cases importer.bindAll (statements css.toList) names with
  | mk set made => cases made <;> simp [Except.map]

end StyleModule.Importer
