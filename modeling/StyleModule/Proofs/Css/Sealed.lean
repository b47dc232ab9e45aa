import StyleModule.Proofs.Css.Quotes
import StyleModule.Proofs.Css.Scoped

/-!
# Sealed lists

A list of selectors is `Sealed` where a comment can hold it, so that the comment ends where it
should, and where scoping opens no comment in it. Of a prelude with a sealed list a reader of
comments sees the same whether the list is kept or not (`shows_prelude`), and of a stylesheet with
sealed lists too (`Reads.agree`): no string and no comment is then open behind an item that was not
open there before.
-/

namespace StyleModule.Css

/-! ## The lists of a stylesheet -/

/-- The lists of selectors of the style rules, at every depth of grouping. -/
def Sheet.selectors : Sheet → List (List Char)
  | .tail _ => []
  | .comment _ rest => rest.selectors
  | .statement _ rest => rest.selectors
  | .stray _ rest => rest.selectors
  | .block _ _ rest => rest.selectors
  | .group _ body rest => body.selectors ++ rest.selectors
  | .rule prelude _ rest => Text.trim prelude :: rest.selectors

/-- A list that a comment can hold, and in which scoping opens no comment. -/
def Sealed (scope selectors : List Char) : Prop :=
  ¬ commentEnd <:+: selectors ∧
    withoutComments (scopeList scope selectors) = scopeList scope selectors

instance (scope selectors : List Char) : Decidable (Sealed scope selectors) :=
  inferInstanceAs (Decidable (_ ∧ _))

/-- A scope that neither opens a string nor escapes anything. -/
def Quoteless (scope : List Char) : Prop := quotesOf scope = [] ∧ '\\' ∉ scope

instance (scope : List Char) : Decidable (Quoteless scope) :=
  inferInstanceAs (Decidable (_ ∧ _))

variable {scope : List Char}

/-! ## Sealed lists -/

theorem backslash_not_mem_scopeList (quoteless : Quoteless scope) {s : List Char}
    (plain : '\\' ∉ s) : '\\' ∉ scopeList scope s := by
  intro mem
  rcases mem_scopeList mem with inScope | sign | inList
  · exact quoteless.2 inScope
  · exact absurd sign (by decide)
  · exact plain inList

/-- Behind a scoped list no string is open where none is behind the list, and none of it is hidden
where scoping opens no comment in it. -/
theorem liveFrom_scopeList (quoteless : Quoteless scope) {selectors s : List Char}
    (plain : '\\' ∉ selectors) (closed : quoteThrough none selectors = none)
    (live : withoutComments (scopeList scope selectors) = scopeList scope selectors)
    (noStar : s.head? ≠ some '*') :
    liveFrom (.text none false) (scopeList scope selectors ++ s) =
      scopeList scope selectors ++ liveFrom (.text none false) s := by
  have same : quoteThrough none (scopeList scope selectors) = none := by
    rw [← quoteThrough_quotesOf, quotesOf_scopeList quoteless.1, quoteThrough_quotesOf, closed]
  have passed := liveFrom_append_of_live (backslash_not_mem_scopeList quoteless plain) live
    fun _ => noStar
  rwa [same] at passed

/-- A comment that holds a sealed list is one comment. -/
theorem isComment_keepComment {selectors : List Char} (whole : ¬ commentEnd <:+: selectors) :
    IsComment (keepComment selectors) := by
  have first : ¬ commentEnd <:+: '!' :: '@' :: selectors := by
    rw [List.infix_cons_iff, List.infix_cons_iff, not_or, not_or]
    refine ⟨?_, ?_, whole⟩ <;> rintro ⟨_, split⟩ <;> exact absurd (List.cons.inj split).1 (by decide)
  exact .closed first

/-! ## Items -/

theorem not_mem_block {c : Char} {prelude body css : List Char}
    (absent : c ∉ prelude ++ '{' :: (body ++ '}' :: css)) : c ∉ prelude ∧ c ∉ body ∧ c ∉ css := by
  simp only [List.mem_append, List.mem_cons, not_or] at absent
  exact ⟨absent.1, absent.2.2.1, absent.2.2.2.2⟩

/-- What a reader of comments sees of a text, outside strings and comments before and behind it. -/
def Shows (item live : List Char) : Prop :=
  ∀ s, liveFrom (.text none false) (item ++ s) = live ++ liveFrom (.text none false) s

theorem Quiet.shows {n m : Nat} {before : List Char} (quiet : Quiet n before m)
    (plain : '\\' ∉ before) {c : Char} (stops : c = '{' ∨ c = '}' ∨ c = ';') :
    Shows (before ++ [c]) (before ++ [c]) := by
  intro s
  have noStar : (c :: s).head? ≠ some '*' := by rcases stops with rfl | rfl | rfl <;> simp
  have passed : liveFrom (.text none false) (c :: s) = c :: liveFrom (.text none false) s := by
    rcases stops with rfl | rfl | rfl <;> rfl
  rw [List.append_assoc, List.singleton_append, quiet.live plain noStar, passed]
  simp

theorem Shows.append {a b live live' : List Char} (here : Shows a live) (behind : Shows b live') :
    Shows (a ++ b) (live ++ live') := by
  intro s
  rw [List.append_assoc, here, behind, List.append_assoc]

/-- What is seen of the inside of a block and the brace behind it. -/
theorem Inside.shows {body : List Char} (inside : Inside 0 body) (plain : '\\' ∉ body) :
    ∃ live, Shows (body ++ ['}']) live := by
  obtain ⟨live, seen⟩ := inside.live plain
  refine ⟨live ++ ['}'], fun s => ?_⟩
  rw [List.append_assoc, seen _ (by simp), List.append_assoc]
  rfl

/-- Neither blanks nor the brace behind them go on with a comment sign. -/
theorem head?_blanks {blanks : List Char} (blank : Text.allBlank blanks = true) (s : List Char) :
    (blanks ++ '{' :: s).head? ≠ some '*' := by
  cases blanks with
  | nil => simp
  | cons c rest =>
    rintro ⟨⟩
    exact Text.not_mem_of_allBlank blank rfl List.mem_cons_self

/-- What is seen of a scoped prelude is the same whether its list is kept or not. -/
theorem shows_prelude (quoteless : Quoteless scope) {leading selectors trailing : List Char}
    (quiet : Quiet 0 (leading ++ (selectors ++ trailing)) 0)
    (margins : Text.Margins leading selectors trailing)
    (plain : '\\' ∉ leading ++ (selectors ++ trailing)) (sealing : Sealed scope selectors)
    (keep : Bool) :
    Shows (scopePrelude scope keep (leading ++ (selectors ++ trailing)) ++ ['{'])
      (leading ++ (scopeList scope selectors ++ (trailing ++ ['{']))) := by
  intro s
  have closed : quoteThrough none selectors = none := by
    have same := quotesOf_trim (leading ++ (selectors ++ trailing))
    rw [margins.trim] at same
    rw [← quoteThrough_quotesOf, same, quoteThrough_quotesOf, quiet.quoteThrough plain]
  have noStar := head?_blanks margins.trailing_blank s
  have plain : '\\' ∉ selectors := fun mem =>
    plain (List.mem_append_right _ (List.mem_append_left _ mem))
  have list := liveFrom_scopeList quoteless plain closed sealing.2 noStar
  have opening : liveFrom (.text none false) ('{' :: s) =
      '{' :: liveFrom (.text none false) s := rfl
  rw [(idle_of_allBlank margins.trailing_blank).liveFrom, opening] at list
  rw [scopePrelude_eq margins, List.append_assoc, List.append_assoc, List.singleton_append,
    (idle_of_allBlank margins.leading_blank).liveFrom]
  cases keep with
  | false =>
    rw [if_neg Bool.false_ne_true, List.nil_append, List.append_assoc, list]
    simp
  | true =>
    have comment : IsComment ("/*!@".toList ++ selectors ++ "*/".toList) :=
      isComment_keepComment sealing.1
    rw [if_pos rfl, List.append_assoc _ _ ('{' :: s), comment.live, List.append_assoc, list]
    simp

/-! ## Stylesheets -/

/-- A text and another in two forms leave a reader of comments in one state, and the two forms show
it the same. -/
def Agree (css : List Char) (out : Bool → List Char) : Prop :=
  ∃ whole live r, ∀ s, s.head? ≠ some '*' → s.head? ≠ some '/' →
    liveFrom (.text none false) (css ++ s) = whole ++ liveFrom r s ∧
      ∀ keep, liveFrom (.text none false) (out keep ++ s) = live ++ liveFrom r s

section Agree

variable {css : List Char} {out : Bool → List Char}

theorem Agree.prepend {item whole live : List Char} {items : Bool → List Char}
    (here : Shows item whole) (each : ∀ keep, Shows (items keep) live) (agree : Agree css out) :
    Agree (item ++ css) fun keep => items keep ++ out keep := by
  obtain ⟨behind, seen, r, same⟩ := agree
  refine ⟨whole ++ behind, live ++ seen, r, fun s noStar noSlash => ?_⟩
  obtain ⟨inCss, inOut⟩ := same s noStar noSlash
  constructor
  · rw [List.append_assoc, here, inCss, List.append_assoc]
  · intro keep
    rw [List.append_assoc, each, inOut, List.append_assoc]

/-- Where a text is the inside of a block, what agrees with it is so too. -/
theorem Agree.shows (agree : Agree css out) (inside : Inside 0 css) (plain : '\\' ∉ css) :
    ∃ live, ∀ keep, Shows (out keep ++ ['}']) live := by
  obtain ⟨whole, live, r, same⟩ := agree
  obtain ⟨live', seen⟩ := inside.live plain
  have all : whole = live' := by
    have here := (same [] (by simp) (by simp)).1
    rw [seen [] (by simp), liveFrom_nil, liveFrom_nil, List.append_nil, List.append_nil] at here
    exact here.symm
  refine ⟨live ++ ['}'], fun keep s => ?_⟩
  obtain ⟨inCss, inOut⟩ := same ('}' :: s) (by simp) (by simp)
  rw [seen _ (by simp), all] at inCss
  rw [List.append_assoc, List.singleton_append, inOut keep, ← List.append_cancel_left inCss,
    List.append_assoc]
  rfl

end Agree

/-- What is read agrees with the same kept to a scope, where its lists are sealed. -/
theorem Reads.agree (quoteless : Quoteless scope) {css : List Char} {sheet : Sheet}
    (reads : Reads css sheet) (plain : '\\' ∉ css)
    (sealing : ∀ selectors ∈ sheet.selectors, Sealed scope selectors) :
    Agree css fun keep => (sheet.scope scope keep).text := by
  induction reads with
  | @tail text tail =>
    obtain ⟨r, seen⟩ := tail.live plain
    exact ⟨text, text, r, fun s noStar _ => ⟨seen s noStar, fun _ => seen s noStar⟩⟩
  | @comment before c css n sheet quiet closed rest ih =>
    simp only [List.mem_append, not_or] at plain
    have item : Shows (before ++ c) before := by
      intro s
      have noStar : (c ++ s).head? ≠ some '*' := (Stop.comment (n := 0) s closed).noStar
      rw [List.append_assoc, quiet.live plain.1 noStar, closed.live]
    rw [← List.append_assoc]
    exact (ih plain.2.2 sealing).prepend item fun _ => item
  | @openComment before c n quiet cut =>
    rw [List.mem_append, not_or] at plain
    refine ⟨before, before, .comment, fun s _ noSlash => ?_⟩
    have noStar : (c ++ s).head? ≠ some '*' := by
      obtain ⟨_⟩ := cut
      simp
    have seen : liveFrom (.text none false) (before ++ c ++ s) = before ++ liveFrom .comment s := by
      rw [List.append_assoc, quiet.live plain.1 noStar, cut.live noSlash]
    refine ⟨seen, fun keep => ?_⟩
    show liveFrom (.text none false) (before ++ c ++ [] ++ s) = _
    rw [List.append_nil, seen]
  | @statement before css sheet quiet rest ih =>
    simp only [List.mem_append, List.mem_cons, not_or] at plain
    have item := quiet.shows plain.1 (.inr (.inr rfl))
    rw [List.append_cons]
    exact (ih plain.2.2 sealing).prepend item fun _ => item
  | @stray before css sheet quiet rest ih =>
    simp only [List.mem_append, List.mem_cons, not_or] at plain
    have item := quiet.shows plain.1 (.inr (.inl rfl))
    rw [List.append_cons]
    exact (ih plain.2.2 sealing).prepend item fun _ => item
  | block quiet _ inside _ ih =>
    obtain ⟨inPrelude, inBody, inCss⟩ := not_mem_block plain
    obtain ⟨live, block⟩ := inside.shows inBody
    have item := (quiet.shows inPrelude (.inl rfl)).append block
    have agree := (ih inCss sealing).prepend item fun _ => item
    simpa [Sheet.scope, Sheet.text] using agree
  | group quiet _ inside _ _ ihw ih =>
    obtain ⟨inPrelude, inBody, inCss⟩ := not_mem_block plain
    rw [Sheet.selectors, List.forall_mem_append] at sealing
    obtain ⟨whole, block⟩ := inside.shows inBody
    obtain ⟨live, inners⟩ := (ihw inBody sealing.1).shows inside inBody
    have opening := quiet.shows inPrelude (.inl rfl)
    have agree := (ih inCss sealing.2).prepend (opening.append block) fun keep =>
      opening.append (inners keep)
    simpa [Sheet.scope, Sheet.text] using agree
  | rule quiet margins _ inside _ ih =>
    obtain ⟨inPrelude, inBody, inCss⟩ := not_mem_block plain
    rw [Sheet.selectors, List.forall_mem_cons, margins.trim] at sealing
    obtain ⟨whole, block⟩ := inside.shows inBody
    have opening := (quiet.shows inPrelude (.inl rfl)).append block
    have agree := (ih inCss sealing.2).prepend opening fun keep =>
      (shows_prelude quoteless quiet margins inPrelude sealing.1 keep).append block
    simpa [Sheet.scope, Sheet.text] using agree

end StyleModule.Css
