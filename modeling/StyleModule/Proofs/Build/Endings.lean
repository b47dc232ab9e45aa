import StyleModule.Proofs.Build.Drafted
import StyleModule.Proofs.Import.Binds
import StyleModule.Proofs.Name.Legal

/-!
# How a build ends

A build that does not optimize ends in exactly one of four ways (`build_ends`), whatever its tools
are. `Ends` writes out each of them: what has happened, the whole product, and everything the tools
were asked for, in order.

A fault leaves nothing behind of what was done after the last step that went well. The imports that
were bound before one could not be are not in the product, and no specifier is asked for; what is
left is the text as the last step made it, the report of the fault, and a program without imports.
-/

namespace StyleModule

/-- The report of a fault that a build met. -/
def buildError (message : String) (file : Option Path) : Diagnostic :=
  { level := .error, kind := "build", header := "Build Error", message, file }

/-- The program of a text that imports nothing. -/
def loneProgram (format : Format) (name text : String) : String :=
  Program.render format ⟨[], name, text⟩

namespace Toolchain

/-- The ways in which a build ends. -/
inductive Ending where
  | nameless
  | unscoped
  | unscanned
  | complete
  deriving DecidableEq, Repr

/-- The name that the text of a source is bound to; it is empty where the file gives none. -/
def ownName (t : Toolchain) (s : Source) : String :=
  t.identifier (String.ofList (Name.stem s.specificMode s.file))

/-- The text that is scanned for imports, and what was asked for to get it. -/
inductive Prepared (t : Toolchain) (s : Source) : String → List Call → Prop
  | asWritten (unscoped : s.scopesSelectors = false) : Prepared t s s.css []
  | kept {tag css : String} (needed : s.scopesSelectors = true) (tagged : s.tag = some tag)
      (done : t.scope s.css (componentScope tag s.mode) s.keepSelectors = .ok css) :
      Prepared t s css [.scope s.css (componentScope tag s.mode) s.keepSelectors]

/-- An ending, the product, and what the tools were asked for. -/
inductive Ends (t : Toolchain) (here : Path.Location) (s : Source) :
    Ending → Product → List Call → Prop
  | nameless (unnamed : t.ownName s = "") :
      Ends t here s .nameless
        { diagnostics :=
            [buildError ("Unable to derive a binding name for " ++ s.file.text) none]
          text := s.css, output := "", map := none, name := "", imports := [] }
        []
  | unscoped {tag : String} {fault : Fault} (named : t.ownName s ≠ "")
      (needed : s.scopesSelectors = true) (tagged : s.tag = some tag)
      (failed : t.scope s.css (componentScope tag s.mode) s.keepSelectors = .error fault) :
      Ends t here s .unscoped
        { diagnostics := [buildError fault.message fault.file?]
          text := s.css, output := loneProgram s.format (t.ownName s) s.css, map := none
          name := t.ownName s, imports := [] }
        [.scope s.css (componentScope tag s.mode) s.keepSelectors]
  | unscanned {css : String} {calls : List Call} {bound rest : List Statement}
      {statement : Statement} {taken : NameSet} {imports : List Import} {fault : Fault}
      (named : t.ownName s ≠ "") (prepared : Prepared t s css calls)
      (found : Importer.statements css.toList = bound ++ statement :: rest)
      (binds : Importer.Binds (s.importer here t.identifier) bound (.singleton (t.ownName s)) taken
        imports)
      (leads : statement.IsLocal)
      (failed : (s.importer here t.identifier).find (String.ofList statement.url) =
        .error fault) :
      Ends t here s .unscanned
        { diagnostics := [buildError fault.message (some s.file)]
          text := css, output := loneProgram s.format (t.ownName s) css, map := none
          name := t.ownName s, imports := [] }
        calls
  | complete {css text : String} {calls : List Call} {taken : NameSet} {imports : List Import}
      {links : List Link} {refer : Import → Reference}
      (named : t.ownName s ≠ "") (prepared : Prepared t s css calls)
      (binds : Importer.Binds (s.importer here t.identifier) (Importer.statements css.toList)
        (.singleton (t.ownName s)) taken imports)
      (removed : text = String.ofList (Importer.removeAll imports css.toList))
      (refers : ∀ made, refer made =
        { importee := made.file, importer := s.file, tag := s.tag,
          encapsulation := s.encapsulation, mode := s.mode })
      (resolved : links = imports.map fun made =>
        { statement := made.statement, file := made.file,
          specifier := t.specifier (refer made), name := made.name }) :
      Ends t here s .complete
        { diagnostics := [], text
          output := Program.render s.format
            ⟨links.map fun link => ⟨link.name, link.specifier⟩, t.ownName s, text⟩
          map := none, name := t.ownName s, imports := links }
        (calls ++ imports.map fun made => .resolve (refer made))

variable {t : Toolchain} {here : Path.Location} {s : Source}

/-! ## No two endings at once -/

theorem Prepared.unique {css css' : String} {calls calls' : List Call}
    (h : Prepared t s css calls) (h' : Prepared t s css' calls') : css = css' := by
  cases h with
  | asWritten unscoped =>
    cases h' with
    | asWritten => rfl
    | kept needed => rw [unscoped] at needed; cases needed
  | kept needed tagged kept =>
    cases h' with
    | asWritten unscoped => rw [unscoped] at needed; cases needed
    | kept _ tagged' kept' =>
      rw [tagged] at tagged'
      cases tagged'
      rw [kept] at kept'
      exact Except.ok.inj kept'

theorem Prepared.not_failed {css tag : String} {calls : List Call} {fault : Fault}
    (h : Prepared t s css calls) (needed : s.scopesSelectors = true) (tagged : s.tag = some tag)
    (failed : t.scope s.css (componentScope tag s.mode) s.keepSelectors = .error fault) :
    False := by
  cases h with
  | asWritten unscoped => rw [unscoped] at needed; cases needed
  | kept _ tagged' kept =>
    rw [tagged] at tagged'
    cases tagged'
    rw [failed] at kept
    cases kept

/-- What has happened tells the endings apart, so a build has no two of them. -/
theorem Ends.unique {e e' : Ending} {p p' : Product} {calls calls' : List Call}
    (h : Ends t here s e p calls) (h' : Ends t here s e' p' calls') : e = e' := by
  have distinct : ∀ {css : String} {bound rest : List Statement} {statement : Statement}
      {taken after : NameSet} {imports made : List Import} {fault : Fault},
      Importer.statements css.toList = bound ++ statement :: rest →
      Importer.Binds (s.importer here t.identifier) bound (.singleton (t.ownName s)) taken
        imports → statement.IsLocal →
      (s.importer here t.identifier).find (String.ofList statement.url) = .error fault →
      Importer.Binds (s.importer here t.identifier) (Importer.statements css.toList)
        (.singleton (t.ownName s)) after made → False := by
    intro css bound rest statement taken after imports made fault found binds leads failed all
    have stopped := Importer.bindAll_eq_error_iff.2
      ⟨bound, statement, rest, imports, found, binds, leads, failed⟩
    have done := Importer.bindAll_eq_ok_iff.2 all
    rw [stopped] at done
    cases congrArg Prod.snd done
  cases h with
  | nameless unnamed =>
    cases h' with
    | nameless => rfl
    | unscoped named | unscanned named | complete named => exact absurd unnamed named
  | unscoped named needed tagged failed =>
    cases h' with
    | nameless unnamed => exact absurd unnamed named
    | unscoped => rfl
    | unscanned _ prepared | complete _ prepared =>
      exact (prepared.not_failed needed tagged failed).elim
  | unscanned named prepared found binds leads failed =>
    cases h' with
    | nameless unnamed => exact absurd unnamed named
    | unscoped _ needed tagged scoping => exact (prepared.not_failed needed tagged scoping).elim
    | unscanned => rfl
    | complete _ prepared' all =>
      cases prepared.unique prepared'
      exact (distinct found binds leads failed all).elim
  | complete named prepared all =>
    cases h' with
    | nameless unnamed => exact absurd unnamed named
    | unscoped _ needed tagged scoping => exact (prepared.not_failed needed tagged scoping).elim
    | unscanned _ prepared' found binds leads failed =>
      cases prepared.unique prepared'
      exact (distinct found binds leads failed all).elim
    | complete => rfl

/-! ## No other ending -/

theorem ownName_of_binding {name : String}
    (named : Name.binding t.identifier s.specificMode s.file = .ok name) :
    name = t.ownName s ∧ t.ownName s ≠ "" := by
  obtain ⟨rfl, some⟩ := Name.binding_eq_ok_iff.1 named
  exact ⟨rfl, some⟩

/-- Scoping a source asks the scoping tool once, with the component's scope, where the source wants
its selectors kept to the component, and leaves the text alone elsewhere. -/
theorem scopeSource_cases (t : Toolchain) (s : Source) :
    (∃ css calls, t.scopeSource s = (.ok css, calls) ∧ Prepared t s css calls) ∨
      ∃ tag fault, s.scopesSelectors = true ∧ s.tag = some tag ∧
        t.scope s.css (componentScope tag s.mode) s.keepSelectors = .error fault ∧
        t.scopeSource s =
          (.error fault, [.scope s.css (componentScope tag s.mode) s.keepSelectors]) := by
  by_cases needed : s.scopesSelectors = true
  · obtain ⟨tag, tagged⟩ : ∃ tag, s.tag = some tag :=
      Option.isSome_iff_exists.1 (Bool.and_eq_true_iff.1 needed).1
    have scope : s.scope? = some (componentScope tag s.mode) := by
      rw [Source.scope?, if_pos needed, tagged]
      rfl
    have asked : t.scopeSource s =
        (t.scope s.css (componentScope tag s.mode) s.keepSelectors,
          [.scope s.css (componentScope tag s.mode) s.keepSelectors]) := by
      rw [scopeSource, scope]
    cases done : t.scope s.css (componentScope tag s.mode) s.keepSelectors with
    | ok css => exact .inl ⟨css, _, by rw [asked, done], .kept needed tagged done⟩
    | error fault => exact .inr ⟨tag, fault, needed, tagged, done, by rw [asked, done]⟩
  · have scope : s.scope? = none := if_neg needed
    rw [scopeSource, scope]
    exact .inl ⟨s.css, [], rfl, .asWritten (by simpa using needed)⟩

/-- What a build makes of a draft: the program is generated where there is a name for it. -/
def finish (s : Source) (p : Product) : Product :=
  if p.name = "" then p else p.generate s.format

theorem Ends.finish_of_generate {e : Ending} {p : Product} {calls : List Call}
    (some : p.name ≠ "") (h : Ends t here s e (p.generate s.format) calls) :
    Ends t here s e (finish s p) calls := by
  rwa [finish, if_neg some]

theorem prepared_of_scopeSource {css : String} {calls : List Call}
    (h : t.scopeSource s = (.ok css, calls)) : Prepared t s css calls := by
  rcases scopeSource_cases t s with ⟨_, _, done, prepared⟩ | ⟨_, _, _, _, _, asked⟩
  · rw [h] at done
    cases done
    exact prepared
  · rw [h] at asked
    cases asked

/-- Each of the ways in which a draft can end is an ending of the build. -/
theorem Drafted.exists_ends {d : Draft × List Call} (h : Drafted t here s d) :
    ∃ ending, Ends t here s ending (finish s d.1.product) d.2 := by
  cases h with
  | nameless unnamed =>
    obtain ⟨none, rfl⟩ := Name.binding_eq_error_iff.1 unnamed
    exact ⟨.nameless, .nameless none⟩
  | unscoped named failed =>
    obtain ⟨rfl, nonempty⟩ := ownName_of_binding named
    rcases scopeSource_cases t s with
      ⟨css, calls, done, _⟩ | ⟨tag, fault, needed, tagged, scoping, asked⟩
    · rw [failed] at done
      cases done
    · rw [failed] at asked
      cases asked
      exact ⟨.unscoped, .finish_of_generate nonempty (.unscoped nonempty needed tagged scoping)⟩
  | @unscanned name css fault calls names named kept failed =>
    obtain ⟨rfl, nonempty⟩ := ownName_of_binding named
    obtain ⟨bound, statement, rest, imports, found, binds, leads, missing⟩ :=
      Importer.bindAll_eq_error_iff.1 (Importer.scan_eq_error_iff.1 failed)
    have prepared := prepared_of_scopeSource kept
    have reported : Diagnostic.ofFault fault = buildError fault.message (some s.file) := by
      rw [Diagnostic.ofFault, Importer.file?_of_find_eq_error missing]
      rfl
    rw [reported]
    exact ⟨.unscanned, .finish_of_generate nonempty
      (.unscanned nonempty prepared found binds leads missing)⟩
  | complete named kept scanned =>
    obtain ⟨rfl, nonempty⟩ := ownName_of_binding named
    obtain ⟨binds, removed⟩ := Importer.scan_eq_ok_iff.1 scanned
    have prepared := prepared_of_scopeSource kept
    have ends := Ends.complete nonempty prepared binds removed (fun _ => rfl) rfl
    exact ⟨.complete, .finish_of_generate nonempty ends⟩

/-- A build that does not optimize ends in exactly one of four ways, whatever its tools are. -/
theorem build_ends (t : Toolchain) (here : Path.Location) (s : Source) :
    ∃! ending, Ends t here s ending (t.build here s).1 (t.build here s).2 := by
  refine existsUnique_of_exists_of_unique ?_ fun _ _ => Ends.unique
  have built : t.build here s = (finish s (t.draft here s).1.product, (t.draft here s).2) := by
    rw [build_eq, finish]
    split <;> rfl
  rw [built]
  exact (t.drafted here s).exists_ends

end Toolchain

end StyleModule
