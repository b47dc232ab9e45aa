import Mathlib.Data.List.TakeWhile
import StyleModule.Proofs.Import.Binds
import StyleModule.Proofs.Name.Legal
import StyleModule.Proofs.Path.Normal

/-!
# Where imports are located

An import that is accepted has a canonical file from the root, whatever its address, and a name made
from that file's. The working directory is asked for only for an address that is relative, and only
by a file whose directory is relative too (`locate_eq_error_iff`); that is a relative file, or the
root, which lies in no directory (`Path.directory_of_isAbsolute`). `scan_located` says this of whole
scans.
-/

namespace StyleModule

/-! ## Directories -/

namespace Path

theorem stepsOf_idle {s : List Char} (idle : dropIdleEnd (s.splitOn '/') = []) :
    stepsOf ('/' :: s) = [.root] := by
  have all : ∀ segment ∈ s.splitOn '/', isIdle segment = true := by
    have none := List.reverse_eq_nil_iff.1 idle
    rw [List.dropWhile_eq_nil_iff] at none
    intro segment mem
    exact none segment (List.mem_reverse.2 mem)
  have still : (s.splitOn '/').filterMap Step.ofSegment? = [] := by
    rw [List.filterMap_eq_nil_iff]
    intro segment mem
    rw [Step.ofSegment?, if_pos (all segment mem)]
  rw [stepsOf, still]

/-- A file from the root lies in a directory from the root, unless it is the root. -/
theorem directory_of_isAbsolute {file : Path} (absolute : file.isAbsolute = true) :
    file.directory.isAbsolute = true ∨ file.steps = [.root] ∧ file.directory = current := by
  obtain ⟨s, text⟩ := isAbsolute_iff.1 absolute
  unfold directory parent? steps
  rw [text, parentText?]
  split
  next dir parent =>
    obtain ⟨written, split, rfl⟩ := Option.map_eq_some_iff.1 parent
    split at split
    next => cases split
    next =>
      cases split
      refine .inl ?_
      rw [if_neg (by simp [← String.toList_inj]), isAbsolute, String.toList_ofList, List.head?_cons]
      rfl
  next none =>
    rw [Option.map_eq_none_iff] at none
    split at none
    next idle => exact .inr ⟨stepsOf_idle idle, rfl⟩
    next => cases none

/-- What is resolved is the canonical form of a path from the root. -/
theorem exists_of_resolve {here : Location}
    (anchored : ∀ cwd, here = .ok cwd → cwd.isAbsolute = true) {base target file : Path}
    (h : resolve here base target = .ok file) :
    ∃ path : Path, path.isAbsolute = true ∧ file = path.canonical := by
  rw [resolve] at h
  by_cases absolute : (base.join target).isAbsolute = true
  · rw [if_pos absolute] at h
    exact ⟨_, absolute, (Except.ok.inj h).symm⟩
  · rw [if_neg absolute] at h
    cases place : here with
    | error reason =>
      rw [place] at h
      cases h
    | ok cwd =>
      rw [place] at h
      exact ⟨_, isAbsolute_join (anchored cwd place) _, (Except.ok.inj h).symm⟩

theorem resolve_eq_error_iff {here : Location} {base target : Path} {reason : String} :
    resolve here base target = .error reason ↔
      here = .error reason ∧ base.isAbsolute = false ∧ target.isAbsolute = false := by
  rw [resolve, isAbsolute_join_eq]
  cases base.isAbsolute <;> cases target.isAbsolute <;> cases here <;> simp [Except.map]

/-- A canonical path from the root begins there, and takes no step but into entries. -/
theorem mem_steps_canonical {p : Path} (h : p.isAbsolute = true) {step : Step}
    (mem : step ∈ p.canonical.steps) : step = .root ∨ ∃ entry, step = .name entry := by
  obtain ⟨down, below, settled⟩ := settle_absolute h
  rw [steps_eq_moves (isAbsolute_canonical h), moves_canonical, settled] at mem
  rcases List.mem_cons.1 mem with root | mem
  · exact .inl root
  · obtain ⟨entry, _, named⟩ := below step mem
    exact .inr ⟨entry, named⟩

end Path

namespace Importer

variable {importer : Importer}

/-! ## Addresses -/

/-- What an address leads to is the canonical form of a path from the root. -/
theorem exists_of_locate (anchored : ∀ cwd, importer.here = .ok cwd → cwd.isAbsolute = true)
    {url : String} {file : Path} (h : importer.locate url = .ok file) :
    ∃ path : Path, path.isAbsolute = true ∧ file = path.canonical := by
  rw [locate] at h
  by_cases absolute : (⟨url⟩ : Path).isAbsolute = true
  · rw [if_pos absolute] at h
    exact ⟨_, absolute, (Except.ok.inj h).symm⟩
  · rw [if_neg absolute] at h
    split at h
    next resolved =>
      cases h
      exact Path.exists_of_resolve anchored resolved
    next => cases h

/-- An address is not located just where it is relative, the directory of the importing file is
relative, and there is no working directory. -/
theorem locate_eq_error_iff {url : String} {fault : Fault} :
    importer.locate url = .error fault ↔ ∃ reason, importer.here = .error reason ∧
      importer.file.directory.isAbsolute = false ∧ (⟨url⟩ : Path).isAbsolute = false ∧
        fault = .unresolved url importer.file (.io reason) := by
  rw [locate]
  by_cases absolute : (⟨url⟩ : Path).isAbsolute = true
  · rw [if_pos absolute]
    constructor
    · intro h
      cases h
    · rintro ⟨_, _, _, relative, _⟩
      rw [absolute] at relative
      cases relative
  · rw [if_neg absolute]
    have relative : (⟨url⟩ : Path).isAbsolute = false := by simpa using absolute
    constructor
    · intro h
      split at h
      next => cases h
      next reason failed =>
        cases h
        obtain ⟨gone, outside, _⟩ := Path.resolve_eq_error_iff.1 failed
        exact ⟨reason, gone, outside, relative, rfl⟩
    · rintro ⟨reason, gone, outside, _, rfl⟩
      rw [Path.resolve_eq_error_iff.2 ⟨gone, outside, relative⟩]

/-- An address that was not located is told of in other words than a file without a name. -/
theorem unresolved_ne_whileScanning (url : String) (file other located : Path) (cause : Fault) :
    Fault.unresolved url file cause ≠ .whileScanning other (.nameless located) := by
  intro same
  have texts : "Cannot resolve @import \"" ++ url ++ "\": " ++ cause.message =
      "Unable to derive a binding name for " ++ located.text := (Fault.scan.inj same).1
  have heads := congrArg (fun text => text.toList.head?) texts
  have cannot : "Cannot resolve @import \"".toList.head? = some 'C' := by decide
  have unable : "Unable to derive a binding name for ".toList.head? = some 'U' := by decide
  simp only [String.toList_append, List.head?_append, cannot, unable] at heads
  cases heads

/-- What keeps an address from being found: it is not located, or its file has no binding name. -/
theorem find_eq_error_cases {url : String} {fault : Fault} (h : importer.find url = .error fault) :
    importer.locate url = .error fault ∨
      ∃ located, fault = .whileScanning importer.file (.nameless located) := by
  rw [find] at h
  cases place : importer.locate url with
  | error cause =>
    rw [place] at h
    cases h
    exact .inl rfl
  | ok located =>
    rw [place] at h
    simp only [bind, Except.bind] at h
    split at h
    next => cases h
    next cause unnamed =>
      obtain ⟨_, rfl⟩ := Name.binding_eq_error_iff.1 unnamed
      exact .inr ⟨located, (Except.error.inj h).symm⟩

/-! ## Scans -/

/-- Where the working directory is from the root, the file of every import that a scan accepts is a
canonical path from the root, and the import's name is the binding name of that file, as it is or
with a number behind it. A scan is ended by an address that was not located only where there is no
working directory, the importing file is relative or the root, and a statement that leads to a file
of the project has a relative address. -/
theorem scan_located (importer : Importer) (css : String) (names after : NameSet) :
    ((∀ cwd, importer.here = .ok cwd → cwd.isAbsolute = true) →
      ∀ scan, importer.scan css names = (after, .ok scan) → ∀ made ∈ scan.imports,
        made.file.isAbsolute = true ∧ .here ∉ made.file.steps ∧ .up ∉ made.file.steps ∧
          made.file.canonical = made.file ∧
          ∃ candidate,
            Name.binding importer.identifier importer.mode made.file = .ok candidate ∧
              (made.name = candidate ∨ ∃ n, made.name = NameSet.numbered candidate n)) ∧
      ∀ url cause,
        importer.scan css names = (after, .error (.unresolved url importer.file cause)) →
          (importer.file.isAbsolute = false ∨ importer.file.steps = [.root]) ∧
            ∃ statement ∈ statements css.toList, statement.IsLocal ∧
              (⟨String.ofList statement.url⟩ : Path).isAbsolute = false ∧
              ∃ reason, importer.here = .error reason ∧ Fault.unresolved url importer.file cause =
                .unresolved (String.ofList statement.url) importer.file (.io reason) := by
  constructor
  · intro anchored scan scanned made mem
    obtain ⟨binds, _⟩ := scan_eq_ok_iff.1 scanned
    obtain ⟨candidate, taken, found, name⟩ := binds.find_eq made mem
    obtain ⟨located, bound⟩ := find_eq_ok_iff.1 found
    obtain ⟨path, absolute, file⟩ := exists_of_locate anchored located
    have steps : ∀ step ∈ path.canonical.steps, step ≠ .here ∧ step ≠ .up := by
      intro step taken
      rcases Path.mem_steps_canonical absolute taken with rfl | ⟨entry, rfl⟩
      · exact ⟨nofun, nofun⟩
      · exact ⟨nofun, nofun⟩
    rw [name]
    rw [file] at bound ⊢
    refine ⟨Path.isAbsolute_canonical absolute, fun stays => (steps _ stays).1 rfl,
      fun goesUp => (steps _ goesUp).2 rfl, Path.canonical_canonical path, candidate, bound,
      taken.fresh_cases candidate⟩
  · intro url cause failed
    obtain ⟨bound, statement, rest, _, split, _, leads, missing⟩ :=
      bindAll_eq_error_iff.1 (scan_eq_error_iff.1 failed)
    rcases find_eq_error_cases missing with missing | ⟨located, nameless⟩
    · obtain ⟨reason, gone, outside, relative, told⟩ := locate_eq_error_iff.1 missing
      refine ⟨?_, statement, ?_, leads, relative, reason, gone, told⟩
      · by_contra within
        rw [not_or, Bool.not_eq_false] at within
        have inside := (Path.directory_of_isAbsolute within.1).resolve_right
          fun root => within.2 root.1
        rw [outside] at inside
        cases inside
      · rw [split]
        exact List.mem_append_right _ List.mem_cons_self
    · exact absurd nameless (unresolved_ne_whileScanning url importer.file _ located cause)

/-- An address that climbs above the root is located at the root, and a second import of a file's
name gets a number; without a working directory, a relative file is left without a relative
import. -/
theorem scan_located_above :
    let within : Importer := ⟨⟨"/d/main.css"⟩, none, .ok ⟨"/"⟩, Name.toIdentifier⟩
    let outside : Importer := ⟨⟨"main.css"⟩, none, .error "gone", Name.toIdentifier⟩
    let names := NameSet.singleton "mainCss"
    let css := "@import '/a//b.css';@import '../../../b.css';"
    (∀ cwd, within.here = .ok cwd → cwd.isAbsolute = true) ∧
      (within.scan css names).2 = .ok ⟨[⟨"@import '/a//b.css';", "/a//b.css", ⟨"/a/b.css"⟩, "bCss"⟩,
        ⟨"@import '../../../b.css';", "../../../b.css", ⟨"/b.css"⟩, "bCss2"⟩], ""⟩ ∧
      (⟨"/b.css"⟩ : Path).isAbsolute = true ∧
      (outside.scan css names).2 = .error (.unresolved "../../../b.css" ⟨"main.css"⟩ (.io "gone")) ∧
      outside.file.isAbsolute = false := by
  intro within outside names css
  have anchored : ∀ cwd, within.here = .ok cwd → cwd.isAbsolute = true := by
    intro cwd here
    cases here
    decide
  have scanned : (within.scan css names).2 =
      .ok ⟨[⟨"@import '/a//b.css';", "/a//b.css", ⟨"/a/b.css"⟩, "bCss"⟩,
        ⟨"@import '../../../b.css';", "../../../b.css", ⟨"/b.css"⟩, "bCss2"⟩], ""⟩ := by
    decide +kernel
  have failed : (outside.scan css names).2 =
      .error (.unresolved "../../../b.css" ⟨"main.css"⟩ (.io "gone")) := by
    decide +kernel
  have found := (scan_located within css names (within.scan css names).1).1 anchored _
    (by rw [← scanned]) ⟨"@import '../../../b.css';", "../../../b.css", ⟨"/b.css"⟩, "bCss2"⟩
    (by decide)
  have missed := (scan_located outside css names (outside.scan css names).1).2 "../../../b.css"
    (.io "gone") (by rw [← failed])
  refine ⟨anchored, scanned, found.1, failed, missed.1.resolve_right ?_⟩
  decide +kernel

/-- The root is an absolute file, but lies in no directory: its relative imports are looked for from
the working directory, and fail with it. -/
theorem scan_at_root_fails :
    let importer : Importer := ⟨⟨"/"⟩, none, .error "gone", Name.toIdentifier⟩
    importer.file.isAbsolute = true ∧
      (importer.scan "@import './a.css';" (NameSet.singleton "mainCss")).2 =
        .error (.unresolved "./a.css" ⟨"/"⟩ (.io "gone")) := by
  intro importer
  constructor
  · decide
  · decide +kernel

end Importer

end StyleModule
