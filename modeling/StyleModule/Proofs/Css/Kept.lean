import StyleModule.Proofs.Css.Sealed

/-!
# Keeping lists in comments

Each list of selectors may be kept in a comment in front of what it becomes. That should be for a
reader's eyes only. `scopeText_kept` says how far it is so, for stylesheets without backslashes: a
stylesheet is scoped with the comments just where it is without them, and where its lists are sealed
the two are the same without comments.

A list in which the end mark of a comment stands, as it may in a string, ends the comment that it is
kept in. What is behind the mark is seen then, and unless other comment signs happen to hide it, the
two always differ (`Reads.outlasts`).
-/

namespace StyleModule.Css

variable {scope : List Char}

/-! ## Lists that end their comment -/

/-- A reader of comments that is in no comment sees at least as much of a text as another text is
long, and no more only if something holds. -/
def Outlasts (bare kept : List Char) (only : Prop) : Prop :=
  ∀ quote s, (kept.getLast? = some '/' → s.head? ≠ some '*') → ∃ live quote',
    liveFrom (.text quote false) (kept ++ s) = live ++ liveFrom (.text quote' false) s ∧
      bare.length ≤ live.length ∧ (live.length = bare.length → only)

/-- A text without backslashes in which no comment begins; all of it is seen. -/
def Bare (s : List Char) : Prop := '\\' ∉ s ∧ ¬ commentStart <:+: s

instance (s : List Char) : Decidable (Bare s) := inferInstanceAs (Decidable (_ ∧ _))

section Outlasts

variable {a b : List Char} {p q : Prop}

theorem outlasts_self (bare : Bare a) : Outlasts a a True := by
  intro quote s apart
  exact ⟨a, _, liveFrom_append_of_live bare.1 (liveFrom_eq_self bare.1 bare.2) apart,
    Nat.le_refl _, fun _ => trivial⟩

theorem Outlasts.imp {kept : List Char} (h : Outlasts a kept p) (weaker : p → q) :
    Outlasts a kept q := by
  intro quote s apart
  obtain ⟨live, quote', seen, le, only⟩ := h quote s apart
  exact ⟨live, quote', seen, le, fun same => weaker (only same)⟩

theorem Outlasts.append {a' b' : List Char} (here : Outlasts a a' p) (behind : Outlasts b b' q)
    (apart : a'.getLast? ≠ some '/' ∨ b' ≠ [] ∧ b'.head? ≠ some '*') :
    Outlasts (a ++ b) (a' ++ b') (p ∧ q) := by
  intro quote s last
  have apartHere : a'.getLast? = some '/' → (b' ++ s).head? ≠ some '*' := by
    intro ends
    obtain ⟨some, noStar⟩ := apart.resolve_left fun other => other ends
    obtain ⟨c, b', rfl⟩ := List.exists_cons_of_ne_nil some
    exact noStar
  have apartBehind : b'.getLast? = some '/' → s.head? ≠ some '*' := by
    intro ends
    refine last ?_
    rw [List.getLast?_append, ends]
    rfl
  obtain ⟨live, quote₁, seen, le, only⟩ := here quote (b' ++ s) apartHere
  obtain ⟨live', quote₂, seen', le', only'⟩ := behind quote₁ s apartBehind
  refine ⟨live ++ live', quote₂, ?_, ?_, ?_⟩
  · rw [List.append_assoc, seen, seen', List.append_assoc]
  · rw [List.length_append, List.length_append]
    omega
  · rw [List.length_append, List.length_append]
    exact fun same => ⟨only (by omega), only' (by omega)⟩

/-- What is seen anyway changes nothing in front. -/
theorem Outlasts.prepend {item kept : List Char} (behind : Outlasts a kept p) (bare : Bare item)
    (apart : item.getLast? ≠ some '/' ∨ kept ≠ [] ∧ kept.head? ≠ some '*') :
    Outlasts (item ++ a) (item ++ kept) p :=
  ((outlasts_self bare).append behind apart).imp And.right

end Outlasts

theorem not_commentStart_append {a b : List Char} (inA : ¬ commentStart <:+: a)
    (inB : ¬ commentStart <:+: b) (apart : a.getLast? ≠ some '/') :
    ¬ commentStart <:+: a ++ b := by
  induction a with
  | nil => exact inB
  | cons c a ih =>
    rw [List.infix_cons_iff, not_or] at inA
    rw [List.cons_append, List.infix_cons_iff, not_or]
    cases a with
    | nil =>
      refine ⟨?_, inB⟩
      rintro ⟨_, split⟩
      exact apart (congrArg some (List.cons.inj split).1.symm)
    | cons d a =>
      refine ⟨?_, ih inA.2 apart⟩
      rintro ⟨rest, split⟩
      obtain ⟨rfl, follows⟩ := List.cons.inj split
      obtain ⟨rfl, _⟩ := List.cons.inj follows
      exact inA.1 ⟨a, rfl⟩

/-- Some of a comment is seen where the list that it holds ends it, and where it is read in a
string. -/
theorem outlasts_keepComment {selectors : List Char} (bare : Bare selectors)
    (apart : selectors.getLast? ≠ some '/') :
    Outlasts [] (keepComment selectors) (¬ commentEnd <:+: selectors) := by
  intro quote s last
  have noStar : s.head? ≠ some '*' := last (by rw [keepComment, List.getLast?_append]; rfl)
  -- what is behind the opening, in which no comment begins
  have inside : Bare ("*!@".toList ++ (selectors ++ commentEnd)) := by
    refine ⟨by simp [commentEnd, bare.1], ?_⟩
    exact not_commentStart_append (by decide) (not_commentStart_append bare.2 (by decide) apart)
      (by decide)
  have passes : ∀ {t}, t <:+ "*!@".toList ++ (selectors ++ commentEnd) → ∀ quote, ∃ live quote',
      liveFrom (.text quote false) (t ++ s) = live ++ liveFrom (.text quote' false) s ∧
        t.length ≤ live.length := by
    intro t suffix quote
    have passed := outlasts_self ⟨fun mem => inside.1 (suffix.subset mem),
      fun opens => inside.2 (opens.trans suffix.isInfix)⟩
    obtain ⟨live, quote', seen, le, -⟩ := passed quote s fun _ => noStar
    exact ⟨live, quote', seen, le⟩
  cases quote with
  | some quote =>
    obtain ⟨live, quote', seen, -⟩ := passes (List.suffix_refl _) (some quote)
    refine ⟨'/' :: live, quote', ?_, Nat.zero_le _, nofun⟩
    have text : keepComment selectors ++ s =
        '/' :: ("*!@".toList ++ (selectors ++ commentEnd) ++ s) := by
      simp [keepComment, commentEnd]
    have stays : quoteAfter (some quote) false '/' = some quote := quoteAfter_of_not_quote rfl _ _
    rw [text, liveFrom_text (by simp), stays]
    exact congrArg ('/' :: ·) seen
  | none =>
    by_cases ends : commentEnd <:+: selectors
    · have held : commentEnd <:+: '!' :: '@' :: selectors :=
        ends.trans (List.suffix_append ['!', '@'] selectors).isInfix
      obtain ⟨inner, rest, first, split⟩ :=
        (comment_cases ('!' :: '@' :: selectors)).resolve_right fun none => none held
      have suffix : rest ++ commentEnd <:+ "*!@".toList ++ (selectors ++ commentEnd) := by
        refine ⟨'*' :: (inner ++ commentEnd), ?_⟩
        have whole : "*!@".toList ++ (selectors ++ commentEnd) =
            '*' :: ('!' :: '@' :: selectors ++ commentEnd) := rfl
        rw [whole, split]
        simp
      obtain ⟨live, quote', seen, le⟩ := passes suffix none
      have text : keepComment selectors ++ s =
          '/' :: '*' :: (inner ++ commentEnd) ++ (rest ++ commentEnd ++ s) := by
        have whole : keepComment selectors ++ s =
            '/' :: '*' :: ('!' :: '@' :: selectors ++ commentEnd ++ s) := rfl
        rw [whole, split]
        simp
      refine ⟨live, quote', ?_, Nat.zero_le _, fun none => ?_⟩
      · rw [text, IsComment.live (.closed first), seen]
      · rw [none, List.length_append] at le
        cases Nat.le_of_add_left_le le
    · exact ⟨[], none, (isComment_keepComment ends).live s, Nat.le_refl _, fun _ => ends⟩

theorem not_infix_append {word a b : List Char} (absent : ¬ word <:+: a ++ b) :
    ¬ word <:+: a ∧ ¬ word <:+: b :=
  ⟨fun inA => absent (inA.trans (List.prefix_append a b).isInfix),
    fun inB => absent (inB.trans (List.suffix_append a b).isInfix)⟩

theorem Bare.split {a b : List Char} (bare : Bare (a ++ b)) : Bare a ∧ Bare b := by
  obtain ⟨plain, absent⟩ := bare
  rw [List.mem_append, not_or] at plain
  obtain ⟨inA, inB⟩ := not_infix_append absent
  exact ⟨⟨plain.1, inA⟩, plain.2, inB⟩

theorem getLast?_ne_slash (a : List Char) {c : Char} (other : c ≠ '/') :
    (a ++ [c]).getLast? ≠ some '/' := by
  rw [List.getLast?_concat]
  exact fun same => other (Option.some.inj same)

theorem block_append (prelude body css : List Char) :
    prelude ++ '{' :: (body ++ '}' :: css) = prelude ++ '{' :: body ++ ['}'] ++ css := by
  simp

/-- A group outlasts what it is without the comments if its inner sheet and what is behind it do. -/
theorem outlasts_group {prelude body css : List Char} {inner sheet : Sheet} {p q : Prop}
    (bare : Bare (prelude ++ '{' :: (body ++ '}' :: css)))
    (absent : ¬ commentStart <:+: ((Sheet.group prelude inner sheet).scope scope false).text)
    (within : Bare body → ¬ commentStart <:+: (inner.scope scope false).text →
      Outlasts (inner.scope scope false).text (inner.scope scope true).text p)
    (behind : Bare css → ¬ commentStart <:+: (sheet.scope scope false).text →
      Outlasts (sheet.scope scope false).text (sheet.scope scope true).text q) :
    Outlasts ((Sheet.group prelude inner sheet).scope scope false).text
      ((Sheet.group prelude inner sheet).scope scope true).text (p ∧ q) := by
  have cssText : prelude ++ '{' :: (body ++ '}' :: css) =
      prelude ++ ['{'] ++ (body ++ (['}'] ++ css)) := by simp
  have text : ∀ keep, ((Sheet.group prelude inner sheet).scope scope keep).text =
      prelude ++ ['{'] ++ ((inner.scope scope keep).text ++
        (['}'] ++ (sheet.scope scope keep).text)) := by
    simp [Sheet.scope, Sheet.text]
  rw [text] at absent
  rw [cssText] at bare
  obtain ⟨opening, bare⟩ := bare.split
  obtain ⟨inBody, bare⟩ := bare.split
  obtain ⟨inInner, inRest⟩ := not_infix_append (not_infix_append absent).2
  have first := within inBody inInner
  have second := (behind bare.split.2 (not_infix_append inRest).2).prepend bare.split.1
    (.inl (by decide))
  rw [text, text]
  exact (first.append second (.inr ⟨by simp, by simp⟩)).prepend opening
    (.inl (getLast?_ne_slash _ (by decide)))

/-- A rule outlasts what it is without its comment if what is behind it does. -/
theorem outlasts_rule (quoteless : Quoteless scope)
    {leading selectors trailing body css : List Char} {sheet : Sheet} {q : Prop}
    (margins : Text.Margins leading selectors trailing)
    (bare : Bare (leading ++ (selectors ++ trailing) ++ '{' :: (body ++ '}' :: css)))
    (absent : ¬ commentStart <:+:
      ((Sheet.rule (leading ++ (selectors ++ trailing)) body sheet).scope scope false).text)
    (apart : selectors.getLast? ≠ some '/' ∧ (scopeList scope selectors).head? ≠ some '*')
    (behind : Bare css → ¬ commentStart <:+: (sheet.scope scope false).text →
      Outlasts (sheet.scope scope false).text (sheet.scope scope true).text q) :
    Outlasts ((Sheet.rule (leading ++ (selectors ++ trailing)) body sheet).scope scope false).text
      ((Sheet.rule (leading ++ (selectors ++ trailing)) body sheet).scope scope true).text
      (¬ commentEnd <:+: selectors ∧ q) := by
  have cssText : leading ++ (selectors ++ trailing) ++ '{' :: (body ++ '}' :: css) =
      leading ++ (selectors ++ (trailing ++ '{' :: body ++ ['}'] ++ css)) := by simp
  have text : ∀ keep, ((Sheet.rule (leading ++ (selectors ++ trailing)) body sheet).scope scope
      keep).text = leading ++ ((if keep then keepComment selectors else []) ++
        (scopeList scope selectors ++ (trailing ++ '{' :: body ++ ['}']) ++
          (sheet.scope scope keep).text)) := by
    intro keep
    have comment : keepComment selectors = "/*!@".toList ++ selectors ++ "*/".toList := rfl
    rw [Sheet.scope, Sheet.text, scopePrelude_eq margins, comment]
    simp
  rw [text] at absent
  rw [cssText] at bare
  obtain ⟨inLeading, bare⟩ := bare.split
  obtain ⟨inList, bare⟩ := bare.split
  obtain ⟨inBlock, inCss⟩ := bare.split
  obtain ⟨inItem, inRest⟩ := not_infix_append (not_infix_append (not_infix_append absent).2).2
  have item : Bare (scopeList scope selectors ++ (trailing ++ '{' :: body ++ ['}'])) := by
    refine ⟨fun mem => ?_, inItem⟩
    exact (List.mem_append.1 mem).elim (backslash_not_mem_scopeList quoteless inList.1) inBlock.1
  have ends : (scopeList scope selectors ++ (trailing ++ '{' :: body ++ ['}'])).getLast? ≠
      some '/' := by
    rw [← List.append_assoc]
    exact getLast?_ne_slash _ (by decide)
  have begins : (scopeList scope selectors ++ (trailing ++ '{' :: body ++ ['}']) ++
      (sheet.scope scope true).text).head? ≠ some '*' := by
    cases list : scopeList scope selectors with
    | nil =>
      have first := head?_blanks margins.trailing_blank
        (body ++ '}' :: (sheet.scope scope true).text)
      simpa using first
    | cons c rest => rw [list] at apart; exact apart.2
  have rest := (behind inCss inRest).prepend item (.inl ends)
  have comment := (outlasts_keepComment inList apart.1).append rest (.inr ⟨by simp, begins⟩)
  rw [text, text]
  exact comment.prepend inLeading (.inr ⟨by simp [keepComment], by simp [keepComment]⟩)

/-- Where no comment sign stands in a stylesheet and none comes about when it is scoped, the lists
that are kept are longer than their comments only if one ends its comment. -/
theorem Reads.outlasts (quoteless : Quoteless scope) {css : List Char} {sheet : Sheet}
    (reads : Reads css sheet) (bare : Bare css)
    (absent : ¬ commentStart <:+: (sheet.scope scope false).text)
    (apart : ∀ selectors ∈ sheet.selectors,
      selectors.getLast? ≠ some '/' ∧ (scopeList scope selectors).head? ≠ some '*') :
    Outlasts (sheet.scope scope false).text (sheet.scope scope true).text
      (∀ selectors ∈ sheet.selectors, ¬ commentEnd <:+: selectors) := by
  induction reads with
  | tail => exact (outlasts_self bare).imp fun _ => nofun
  | @comment before c css n sheet quiet closed =>
    obtain ⟨_⟩ := closed
    exact absurd ⟨before, _, by simp [commentStart]; rfl⟩ bare.2
  | @openComment before c n quiet cut =>
    obtain ⟨_⟩ := cut
    exact absurd ⟨before, _, by simp [commentStart]; rfl⟩ bare.2
  | @statement before css sheet quiet _ ih =>
    rw [List.append_cons] at bare
    have behind := ih bare.split.2 (not_infix_append absent).2 apart
    exact behind.prepend bare.split.1 (.inl (getLast?_ne_slash _ (by decide)))
  | @stray before css sheet quiet _ ih =>
    rw [List.append_cons] at bare
    have behind := ih bare.split.2 (not_infix_append absent).2 apart
    exact behind.prepend bare.split.1 (.inl (getLast?_ne_slash _ (by decide)))
  | @block prelude body css sheet quiet kind inside _ ih =>
    have text : ∀ keep, ((Sheet.block prelude body sheet).scope scope keep).text =
        prelude ++ '{' :: body ++ ['}'] ++ (sheet.scope scope keep).text := by
      simp [Sheet.scope, Sheet.text]
    rw [text] at absent
    rw [block_append] at bare
    have behind := ih bare.split.2 (not_infix_append absent).2 apart
    rw [text, text]
    exact behind.prepend bare.split.1 (.inl (getLast?_ne_slash _ (by decide)))
  | group quiet kind inside _ _ ihWithin ihBehind =>
    rw [Sheet.selectors, List.forall_mem_append] at apart
    have both := outlasts_group bare absent (fun inBody inInner => ihWithin inBody inInner apart.1)
      fun inCss inRest => ihBehind inCss inRest apart.2
    rw [Sheet.selectors]
    exact both.imp List.forall_mem_append.2
  | rule quiet margins kind inside _ ih =>
    rw [Sheet.selectors, List.forall_mem_cons, margins.trim] at apart
    have whole := outlasts_rule quoteless margins bare absent apart.1
      fun inCss inRest => ih inCss inRest apart.2
    rw [Sheet.selectors, margins.trim]
    exact whole.imp fun each => List.forall_mem_cons.2 each

/-! ## The text of a stylesheet -/

/-- A list and what it becomes stand in the stylesheets. -/
theorem Sheet.infix_selectors {sheet : Sheet} {selectors : List Char}
    (mem : selectors ∈ sheet.selectors) :
    selectors <:+: sheet.text ∧
      scopeList scope selectors <:+: (sheet.scope scope false).text := by
  have behind : ∀ {item rest s : List Char}, s <:+: rest → s <:+: item ++ rest :=
    fun inRest => inRest.trans (List.suffix_append _ _).isInfix
  have inside : ∀ {item rest s : List Char}, s <:+: item → s <:+: item ++ rest :=
    fun inItem => inItem.trans (List.prefix_append _ _).isInfix
  have next : ∀ {c : Char} {rest s : List Char}, s <:+: rest → s <:+: c :: rest :=
    fun inRest => inRest.trans (List.suffix_cons _ _).isInfix
  induction sheet with
  | tail => cases mem
  | comment _ _ ih | statement _ _ ih | stray _ _ ih => exact (ih mem).imp behind behind
  | block _ _ _ ih => exact (ih mem).imp (behind ∘ next) (behind ∘ next)
  | group _ _ _ ihBody ih =>
    rcases List.mem_append.1 mem with mem | mem
    · exact (ihBody mem).imp (inside ∘ behind ∘ next) (inside ∘ behind ∘ next)
    · exact (ih mem).imp (behind ∘ next) (behind ∘ next)
  | rule prelude _ _ ih =>
    rcases List.mem_cons.1 mem with rfl | mem
    · refine ⟨inside (inside (Text.infix_trim prelude)), inside (inside ?_)⟩
      rw [scopePrelude, if_neg Bool.false_ne_true, List.append_nil]
      exact ⟨_, _, rfl⟩
    · exact (ih mem).imp (behind ∘ next) (behind ∘ next)

/-- A stylesheet without comment signs, in which scoping makes none, also not where a list meets the
ends of its comment. -/
structure SignFree (scope css : List Char) (sheet : Sheet) : Prop where
  before : ¬ commentStart <:+: css
  behind : ¬ commentStart <:+: (sheet.scope scope false).text
  apart : ∀ selectors ∈ sheet.selectors,
    selectors.getLast? ≠ some '/' ∧ (scopeList scope selectors).head? ≠ some '*'

/-- Keeping the lists of a stylesheet without backslashes changes nothing about whether it is scoped,
nor, where they are sealed, what is left without the comments. Where the stylesheet has no comment
signs of its own, it changes what is left just where a list ends its comment. -/
theorem scopeText_kept {css scope : String} (plain : '\\' ∉ css.toList)
    (quoteless : Quoteless scope.toList) :
    (∀ fault, scopeText css scope true = .error fault ↔ scopeText css scope false = .error fault) ∧
      ∀ sheet, Sheet.parse css.toList = .ok sheet → ∃ kept bare,
        scopeText css scope true = .ok kept ∧ scopeText css scope false = .ok bare ∧
          ((∀ selectors ∈ sheet.selectors, Sealed scope.toList selectors) →
            withoutComments kept.toList = withoutComments bare.toList) ∧
          (SignFree scope.toList css.toList sheet →
            (withoutComments kept.toList = withoutComments bare.toList ↔
              ∀ selectors ∈ sheet.selectors, ¬ commentEnd <:+: selectors)) := by
  constructor
  · intro fault
    cases read : Sheet.parse css.toList <;> simp [scopeText, read]
  · intro sheet read
    have reads := reads_of_parse read
    have agree : (∀ selectors ∈ sheet.selectors, Sealed scope.toList selectors) →
        withoutComments (sheet.scope scope.toList true).text =
          withoutComments (sheet.scope scope.toList false).text := by
      intro sealing
      obtain ⟨whole, live, r, seen⟩ := reads.agree quoteless plain sealing
      have both := (seen [] (by simp) (by simp)).2
      simp only [List.append_nil] at both
      rw [withoutComments, withoutComments, both true, both false]
    refine ⟨String.ofList (sheet.scope scope.toList true).text,
      String.ofList (sheet.scope scope.toList false).text, by simp [scopeText, read],
      by simp [scopeText, read], ?_, fun free => ⟨fun same => ?_, fun unended => ?_⟩⟩
    · simpa using agree
    · rw [String.toList_ofList, String.toList_ofList] at same
      have outlasts := reads.outlasts quoteless ⟨plain, free.before⟩ free.behind free.apart
      obtain ⟨live, quote, seen, le, only⟩ := outlasts none [] (by simp)
      refine only (Nat.le_antisymm ?_ le)
      rw [List.append_nil, liveFrom_nil, List.append_nil] at seen
      rw [← seen, ← withoutComments, same]
      exact length_liveFrom_le _ _
    · rw [String.toList_ofList, String.toList_ofList]
      refine agree fun selectors mem => ⟨unended selectors mem, ?_⟩
      obtain ⟨inCss, inBare⟩ := Sheet.infix_selectors mem
      rw [Sheet.text_parse read] at inCss
      exact liveFrom_eq_self (backslash_not_mem_scopeList quoteless fun mem => plain (inCss.subset mem))
        fun opens => free.behind (opens.trans inBare)

/-- A comment that holds the end mark in a string is not all taken out again. -/
theorem scopeText_kept_string :
    '\\' ∉ "[a=\"*/\"]\x7b\x7d".toList ∧ Quoteless "sc-x".toList ∧ ∃ kept bare,
      scopeText "[a=\"*/\"]\x7b\x7d" "sc-x" true = .ok kept ∧
        scopeText "[a=\"*/\"]\x7b\x7d" "sc-x" false = .ok bare ∧
          withoutComments kept.toList ≠ withoutComments bare.toList := by
  have plain : '\\' ∉ "[a=\"*/\"]\x7b\x7d".toList := by decide
  have quoteless : Quoteless "sc-x".toList := by decide
  have read : Sheet.parse "[a=\"*/\"]\x7b\x7d".toList =
      .ok (.rule "[a=\"*/\"]".toList [] (.tail [])) := by
    have item : nextItem (lexemes "[a=\"*/\"]\x7b\x7d".toList) =
        .ok (some (.block "[a=\"*/\"]".toList [], [])) := rfl
    rw [Sheet.parse, Sheet.ofLexemes_eq, item]
    show (Sheet.ofLexemes []).map _ = _
    rw [Sheet.ofLexemes_nil]
    rfl
  have free : SignFree "sc-x".toList "[a=\"*/\"]\x7b\x7d".toList
      (.rule "[a=\"*/\"]".toList [] (.tail [])) :=
    ⟨by decide +kernel, by decide +kernel, by decide +kernel⟩
  obtain ⟨kept, bare, hasKept, hasBare, -, ends⟩ := (scopeText_kept plain quoteless).2 _ read
  have ended : commentEnd <:+: "[a=\"*/\"]".toList := by decide +kernel
  refine ⟨plain, quoteless, kept, bare, hasKept, hasBare, fun same => ?_⟩
  exact (ends free).1 same _ (by decide +kernel) ended

end StyleModule.Css
