import StyleModule.Proofs.Css.Scoped
import StyleModule.Proofs.Import.Binds
import StyleModule.Proofs.Import.Head

/-!
# Scoping before scanning

A component scopes its stylesheet before it looks for the imports of it. For a stylesheet that
begins with its imports this makes no difference but the one that is meant: the scan of the scoped
text makes the same imports, hands out the same names and fails alike, and the text that it leaves
is the text that a scan of the stylesheet leaves, scoped (`scan_scopeText`).

Two facts carry this. A head of statements and blanks stays what it is when a stylesheet is scoped,
and what a scan takes out it takes out of the head, so it never looks at what is scoped.
-/

namespace StyleModule

/-! ## Heads of scoped stylesheets -/

/-- Scoping leaves the head of a stylesheet as it is. -/
theorem Css.Scoped.head {scope : List Char} {keep : Bool} {statements : List Statement}
    {head css out : List Char} (kept : Css.Scoped scope keep css out)
    (headed : Statement.Head statements head) :
    Css.Scoped scope keep (head ++ css) (head ++ out) := by
  induction headed with
  | blank blank => exact kept.blanks blank
  | @cons blanks address head _ blank wording plain _ ih =>
    have next : Css.Scoped scope keep (wording.phrase address ++ ';' :: (head ++ css))
        (wording.phrase address ++ ';' :: (head ++ out)) :=
      .statement (wording.quiet_phrase plain) ih
    rw [← wording.text_append, ← wording.text_append] at next
    have whole := next.blanks blank
    simp only [List.append_assoc]
    exact whole

namespace Importer

/-- Does `@import` stand in a stylesheet outside comments, in any letter case? -/
def Mentions (css : List Char) : Prop :=
  importWord <:+: (Css.withoutComments css).map Char.toLower

instance (css : List Char) : Decidable (Mentions css) :=
  inferInstanceAs (Decidable (_ <:+: _))

theorem prefix_of_afterAnyCase? {word s rest : List Char}
    (h : Text.afterAnyCase? word s = some rest) : word <+: s.map Char.toLower := by
  induction word generalizing s with
  | nil => exact List.nil_prefix
  | cons w word ih =>
    cases s with
    | nil => cases h
    | cons c s =>
      rw [Text.afterAnyCase?] at h
      split at h
      next same =>
        rw [List.map_cons, same]
        exact (List.prefix_cons_inj _).2 (ih h)
      next => cases h

/-- There is no statement in a text in which `@import` does not stand. -/
theorem all_eq_nil {s : List Char} (none : ¬ importWord <:+: s.map Char.toLower) :
    Statement.all s = [] := by
  induction s with
  | nil => rw [Statement.all]
  | cons c s ih =>
    rw [List.map_cons, List.infix_cons_iff, not_or] at none
    have other : ¬ Statement.startsAt (c :: s) = true := by
      intro starts
      rw [Statement.startsAt] at starts
      split at starts
      next found => exact none.1 (prefix_of_afterAnyCase? found)
      next => cases starts
    rw [Statement.all, if_neg other]
    exact ih none.2

/-- The statements that a scan looks at are those of the head, if there are none behind it. -/
theorem statements_append {statements : List Statement} {head s : List Char}
    (headed : Statement.Head statements head) (none : ¬ Mentions s) :
    Importer.statements (head ++ s) = statements := by
  have found : Statement.all (Css.withoutComments (head ++ s)) = statements := by
    rw [headed.withoutComments_append, headed.all_append, all_eq_nil none, List.append_nil]
  rw [Importer.statements, found]
  split
  next => rfl
  next unmarked =>
    cases headed with
    | blank => rfl
    | @cons blanks address head _ _ wording _ _ =>
      obtain ⟨word, text⟩ := wording.exists_word address
      refine absurd (Text.contains_iff_infix.2 ⟨blanks, ' ' :: (word ++ (head ++ s)), ?_⟩) unmarked
      have begins : Statement.lead = importWord ++ [' '] := rfl
      rw [text, begins]
      simp only [List.append_assoc, List.cons_append, List.nil_append]

/-- Statements of a head that are taken out of a text are taken out of the head, whatever stands
behind it. -/
theorem exists_left {statements : List Statement} {head : List Char}
    (headed : Statement.Head statements head) {taken : List Statement}
    (part : taken.Sublist statements) :
    ∃ left others, Statement.Head others left ∧ ∀ s, taken.foldl
      (fun css statement => Text.removeFirst statement.text css) (head ++ s) = left ++ s := by
  induction taken generalizing statements head with
  | nil => exact ⟨head, statements, headed, fun _ => rfl⟩
  | cons statement taken ih =>
    obtain ⟨left, headed, removed⟩ := headed.removeFirst (part.subset List.mem_cons_self)
    have smaller := part.erase statement
    rw [List.erase_cons_head] at smaller
    obtain ⟨last, others, headed, all⟩ := ih headed smaller
    refine ⟨last, others, headed, ?_⟩
    intro s
    rw [List.foldl_cons, removed, all]

/-! ## Both ways round -/

/-- The outcome of scanning a stylesheet, and that of scanning it scoped: the same fault, or the
same imports with a text in the one and that text scoped in the other. -/
inductive SameButScoped (scope : String) : Except Fault Scan → Except Fault Scan → Prop
  | error (fault : Fault) : SameButScoped scope (.error fault) (.error fault)
  | ok (imports : List Import) {text textScoped : String}
      (kept : Css.scopeText text scope false = .ok textScoped) :
      SameButScoped scope (.ok ⟨imports, text⟩) (.ok ⟨imports, textScoped⟩)

/-- Scoping a stylesheet that begins with its imports and then scanning it is scanning it and then
scoping what is left: the names handed out are the same, and so is the outcome. -/
theorem scan_scopeText (importer : Importer) (names : NameSet) (scope : String)
    {statements : List Statement} {head : List Char} {css rest restScoped : String}
    (headed : Statement.Head statements head) (whole : css.toList = head ++ rest.toList)
    (kept : Css.scopeText rest scope false = .ok restScoped)
    (silent : ¬ Mentions rest.toList) (silentScoped : ¬ Mentions restScoped.toList) :
    ∃ cssScoped, Css.scopeText css scope false = .ok cssScoped ∧
      (importer.scan cssScoped names).1 = (importer.scan css names).1 ∧
      SameButScoped scope (importer.scan css names).2 (importer.scan cssScoped names).2 := by
  have keptRest := Css.scoped_of_scopeText kept
  have keptWhole := keptRest.head headed
  obtain ⟨cssScoped, wholeScoped⟩ : ∃ cssScoped : String,
      cssScoped.toList = head ++ restScoped.toList := ⟨_, String.toList_ofList⟩
  refine ⟨cssScoped, ?_, ?_⟩
  · refine Css.Scoped.scopeText ?_
    rw [whole, wholeScoped]
    exact keptWhole
  have found : Importer.statements css.toList = statements := by
    rw [whole, statements_append headed silent]
  have foundScoped : Importer.statements cssScoped.toList = statements := by
    rw [wholeScoped, statements_append headed silentScoped]
  cases bound : importer.bindAll statements names with
  | mk after outcome =>
    cases outcome with
    | error fault =>
      have failed : importer.scan css names = (after, .error fault) :=
        scan_eq_error_iff.2 (by rw [found, bound])
      have failedScoped : importer.scan cssScoped names = (after, .error fault) :=
        scan_eq_error_iff.2 (by rw [foundScoped, bound])
      rw [failed, failedScoped]
      exact ⟨rfl, .error fault⟩
    | ok imports =>
      have binds := bindAll_eq_ok_iff.1 bound
      obtain ⟨left, others, headedLeft, removed⟩ := exists_left headed List.filter_sublist
      have scanned : importer.scan css names =
          (after, .ok ⟨imports, String.ofList (left ++ rest.toList)⟩) :=
        scan_eq_ok_iff.2 ⟨by rw [found]; exact binds, by rw [binds.removeAll_eq, whole, removed]⟩
      have scannedScoped : importer.scan cssScoped names =
          (after, .ok ⟨imports, String.ofList (left ++ restScoped.toList)⟩) :=
        scan_eq_ok_iff.2
          ⟨by rw [foundScoped]; exact binds, by rw [binds.removeAll_eq, wholeScoped, removed]⟩
      rw [scanned, scannedScoped]
      refine ⟨rfl, .ok imports (Css.Scoped.scopeText ?_)⟩
      rw [String.toList_ofList, String.toList_ofList]
      exact keptRest.head headedLeft

/-- An import, a statement that leads to a package, and a rule. -/
theorem scan_scopeText_package :
    let importer : Importer := ⟨⟨"/d/main.css"⟩, none, .ok ⟨"/"⟩, Name.toIdentifier⟩
    let names := NameSet.singleton "mainCss"
    let css := "@import './a.css'; @import url(~p.css);.x\x7b\x7d"
    let scan : Scan := ⟨[⟨"@import './a.css';", "./a.css", ⟨"/d/a.css"⟩, "aCss"⟩],
      " @import url(~p.css);.x\x7b\x7d"⟩
    (importer.scan css names).2 = .ok scan ∧
      ∃ cssScoped, Css.scopeText css "s1" false = .ok cssScoped ∧
        (importer.scan cssScoped names).1 = (importer.scan css names).1 ∧
        SameButScoped "s1" (importer.scan css names).2 (importer.scan cssScoped names).2 := by
  intro importer names css scan
  have file : Statement.PlainAddress "./a.css".toList :=
    ⟨by simp, by simp [Text.isBlank], by decide +kernel⟩
  have package : Statement.PlainAddress "~p.css".toList :=
    ⟨by simp, by simp [Text.isBlank], by decide +kernel⟩
  have none : Text.allBlank [] = true := rfl
  have space : Text.allBlank [' '] = true := rfl
  have headed := Statement.Head.cons none (.string ⟨'\'', .inr rfl⟩) file
    (.cons space .brackets package (.blank none))
  have kept : Css.scopeText ".x\x7b\x7d" "s1" false = .ok ".x.s1\x7b\x7d" := by decide +kernel
  have silent : ¬ Mentions ".x\x7b\x7d".toList := by decide +kernel
  have silentScoped : ¬ Mentions ".x.s1\x7b\x7d".toList := by decide +kernel
  refine ⟨by decide +kernel, ?_⟩
  refine scan_scopeText importer names "s1" headed ?_ kept silent silentScoped
  decide +kernel

end Importer

end StyleModule
