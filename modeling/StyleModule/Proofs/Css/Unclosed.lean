import StyleModule.Css.Scope
import StyleModule.Proofs.Css.Ends
import StyleModule.Proofs.Css.Idle

/-!
# Blocks that are not closed

Reading a stylesheet fails in one way only. A text is cut into `Items`, in which nothing is left
open, and what is behind the last of them (`exists_items`); where that is a prelude with an opening
brace that no brace closes, there is no stylesheet, and everywhere else there is one.

The body of a grouping at-rule is read on its own, by a reader that counts round brackets and stops
at comments, though the brace that closes it was found by one that does neither. That reading still
cannot fail: in the body of a block every brace that opens is closed, whichever of them the reader
of items takes for the beginning of a block (`exists_ofLexemes_of_closed`). So what is inside a
closed block never matters to a failure, nor do the scope and the comments that keep selectors
(`scopeText_eq_error_iff`).
-/

namespace StyleModule.Css

/-! ## Inside a closed block -/

theorem depthThrough_other {lexeme : Lexeme} (notOpen : lexeme ≠ .char '{')
    (notClose : lexeme ≠ .char '}') (depth : Nat) (lexemes : List Lexeme) :
    depthThrough depth (lexeme :: lexemes) = depthThrough depth lexemes :=
  depthThrough.eq_5 depth lexeme lexemes notOpen (fun _ => notClose) fun _ _ => notClose

/-- The blocks that are open after lexemes are those that are open after the first of them and then
after the others. -/
theorem depthThrough_append (depth : Nat) (a b : List Lexeme) :
    depthThrough depth (a ++ b) = (depthThrough depth a).bind (depthThrough · b) := by
  fun_induction depthThrough depth a with
  | case1 => rfl
  | case2 depth a ih => exact ih
  | case3 => rfl
  | case4 depth a ih => exact ih
  | case5 depth lexeme a notOpen notClose notClose' ih =>
    rw [List.cons_append, depthThrough.eq_5 _ _ _ notOpen notClose notClose', ih]

/-- Of the blocks that are open before lexemes and closed in them, each has its brace: what is before
it closes the blocks inside, and what is behind it the blocks around. -/
theorem exists_close {inner outer : Nat} {lexemes : List Lexeme}
    (closed : depthThrough (inner + (outer + 1)) lexemes = some 0) :
    ∃ body rest, lexemes = body ++ .char '}' :: rest ∧ depthThrough inner body = some 0 ∧
      depthThrough outer rest = some 0 := by
  generalize all : inner + (outer + 1) = depth at closed
  fun_induction depthThrough depth lexemes generalizing inner with
  | case1 =>
    cases closed
    omega
  | case2 depth lexemes ih =>
    have within : inner + 1 + (outer + 1) = depth + 1 := by omega
    obtain ⟨body, rest, rfl, within, behind⟩ := ih within closed
    exact ⟨.char '{' :: body, rest, rfl, within, behind⟩
  | case3 => cases closed
  | case4 depth lexemes ih =>
    cases inner with
    | zero =>
      obtain rfl : outer = depth := by omega
      exact ⟨[], lexemes, rfl, rfl, closed⟩
    | succ inner =>
      have within : inner + (outer + 1) = depth := by omega
      obtain ⟨body, rest, rfl, within, behind⟩ := ih within closed
      exact ⟨.char '}' :: body, rest, rfl, within, behind⟩
  | case5 depth lexeme lexemes notOpen notClose notClose' ih =>
    obtain ⟨body, rest, rfl, within, behind⟩ := ih all closed
    refine ⟨lexeme :: body, rest, rfl, ?_, behind⟩
    rwa [depthThrough_other notOpen (notClose' _ all.symm)]

/-- Where all blocks are closed that are open before lexemes or opened in them, the lexemes make up
items. The induction is on the number of lexemes, and what carries it is that from any of them on
the blocks open there are closed. -/
theorem exists_ofLexemes_of_closed {depth : Nat} {lexemes : List Lexeme}
    (closed : depthThrough depth lexemes = some 0) :
    ∃ sheet, Sheet.ofLexemes lexemes = .ok sheet := by
  induction length : lexemes.length using Nat.strongRecOn generalizing depth lexemes with
  | _ n ih =>
    subst length
    rcases nextEnd_cases 0 lexemes with ⟨after, quiet⟩ | ⟨text, after, stop, rest, rfl, quiet, ends⟩
    · exact ⟨_, Sheet.ofLexemes_tail quiet⟩
    · have shorter : ∀ {part : List Lexeme} {d : Nat}, part.length ≤ rest.length →
          depthThrough d part = some 0 → ∃ sheet, Sheet.ofLexemes part = .ok sheet := by
        intro part d short closed
        exact ih part.length (by simp only [List.length_append, List.length_cons]; omega) closed rfl
      rw [depthThrough_append] at closed
      obtain ⟨d, -, behind⟩ := Option.bind_eq_some_iff.1 closed
      cases stop with
      | quoted => cases ends
      | comment c =>
        obtain ⟨sheet, read⟩ := shorter (Nat.le_refl _) (d := d) behind
        exact ⟨_, by rw [Sheet.ofLexemes_comment quiet, read]; rfl⟩
      | char c =>
        obtain ⟨rfl, rfl | rfl | rfl⟩ := endsItem_char.1 ends
        · have opened : depthThrough (0 + (d + 1)) rest = some 0 := by rwa [Nat.zero_add]
          obtain ⟨body, rest, rfl, within, outside⟩ := exists_close opened
          obtain ⟨inner, readBody⟩ := shorter (by simp) within
          obtain ⟨sheet, read⟩ := shorter (by simp; omega) outside
          rw [Sheet.ofLexemes_block quiet within, readBody, read]
          cases BlockKind.of (Text.trim (textOf text)) <;> exact ⟨_, rfl⟩
        · cases d with
          | zero => cases behind
          | succ d =>
            obtain ⟨sheet, read⟩ := shorter (Nat.le_refl _) (d := d) behind
            exact ⟨_, by rw [Sheet.ofLexemes_stray quiet, read]; rfl⟩
        · obtain ⟨sheet, read⟩ := shorter (Nat.le_refl _) (d := d) behind
          exact ⟨_, by rw [Sheet.ofLexemes_statement quiet, read]; rfl⟩

theorem Inside.depthThrough {depth : Nat} {b : List Char} (inside : Inside depth b) :
    Css.depthThrough depth (lexemes b) = some 0 := by
  induction inside with
  | nil => rfl
  | opens _ ih =>
    rw [lexemes_stop (by simp)]
    exact ih
  | closes _ ih =>
    rw [lexemes_stop (by simp)]
    exact ih
  | string closed _ ih =>
    rw [lexemes_string closed, depthThrough_other (by simp) (by simp)]
    exact ih
  | comment closed _ ih =>
    rw [lexemes_comment closed, depthThrough_other (by simp) (by simp)]
    exact ih
  | char plain apart other _ ih =>
    rw [lexemes_char plain apart, depthThrough_other (fun same => other.1 (Lexeme.char.inj same))
      fun same => other.2 (Lexeme.char.inj same)]
    exact ih

/-- The inside of a block is a stylesheet. -/
theorem Inside.exists_parse {depth : Nat} {body : List Char} (inside : Inside depth body) :
    ∃ sheet, Sheet.parse body = .ok sheet :=
  exists_ofLexemes_of_closed inside.depthThrough

/-! ## Items and what is behind them -/

/-- An item of a stylesheet, as written, with nothing in it left open. -/
inductive IsItem : List Char → Prop
  | comment {before c : List Char} {n : Nat} (quiet : Quiet 0 before n) (closed : IsComment c) :
      IsItem (before ++ c)
  | statement {before : List Char} (quiet : Quiet 0 before 0) : IsItem (before ++ [';'])
  | stray {before : List Char} (quiet : Quiet 0 before 0) : IsItem (before ++ ['}'])
  | block {prelude body : List Char} (quiet : Quiet 0 prelude 0) (inside : Inside 0 body) :
      IsItem (prelude ++ '{' :: (body ++ ['}']))

/-- Items one behind the other, and nothing else. -/
inductive Items : List Char → Prop
  | nil : Items []
  | cons {item items : List Char} (first : IsItem item) (rest : Items items) :
      Items (item ++ items)

/-- What is behind the last item of a text: nothing that ends, a comment that is left open, or a
block that is. -/
inductive Remainder : List Char → Prop
  | tail {s : List Char} (tail : Tail 0 s) : Remainder s
  | openComment {before c : List Char} {n : Nat} (quiet : Quiet 0 before n)
      (cut : IsOpenComment c) : Remainder (before ++ c)
  | unclosed {prelude s : List Char} (quiet : Quiet 0 prelude 0) (unclosed : Unclosed s) :
      Remainder (prelude ++ '{' :: s)

theorem IsItem.ne_nil {item : List Char} (first : IsItem item) : item ≠ [] := by
  cases first with
  | comment _ closed =>
    obtain ⟨_⟩ := closed
    simp
  | _ => simp

/-- Every text is items and a remainder. -/
theorem exists_items (s : List Char) :
    ∃ items rest, s = items ++ rest ∧ Items items ∧ Remainder rest := by
  induction length : s.length using Nat.strongRecOn generalizing s with
  | _ n ih =>
    have step : ∀ {item} rest, IsItem item → s = item ++ rest →
        ∃ items rest, s = items ++ rest ∧ Items items ∧ Remainder rest := by
      rintro item rest first rfl
      have some := List.length_pos_iff.2 first.ne_nil
      rw [List.length_append] at length
      obtain ⟨items, last, rfl, all, remainder⟩ := ih rest.length (by omega) rest rfl
      exact ⟨item ++ items, last, (List.append_assoc ..).symm, .cons first all, remainder⟩
    cases itemView s with
    | tail ends => exact ⟨[], s, rfl, .nil, .tail ends⟩
    | openComment quiet cut => exact ⟨[], _, rfl, .nil, .openComment quiet cut⟩
    | unclosed quiet unclosed => exact ⟨[], _, rfl, .nil, .unclosed quiet unclosed⟩
    | comment rest quiet closed => exact step rest (.comment quiet closed) (by simp)
    | statement rest quiet => exact step rest (.statement quiet) (by simp)
    | stray rest quiet => exact step rest (.stray quiet) (by simp)
    | block rest quiet inside => exact step rest (.block quiet inside) (by simp)

/-! ## Reading behind items -/

/-- A text in front of a stylesheet that is read as `front` puts more items before it, and of which
scoping keeps a text of its own. -/
structure ReadsAs (text : List Char) (front : Sheet → Sheet) : Prop where
  parse : ∀ s, Sheet.parse (text ++ s) = (Sheet.parse s).map front
  scope : ∀ scope keep, ∃ out, ∀ sheet,
    ((front sheet).scope scope keep).text = out ++ (sheet.scope scope keep).text

/-- An item is read by itself, whatever is behind it. -/
theorem IsItem.exists_readsAs {item : List Char} (first : IsItem item) :
    ∃ front, ReadsAs item front := by
  cases first with
  | @comment before c _ quiet closed =>
    refine ⟨.comment (before ++ c), fun s => ?_, fun _ _ => ⟨before ++ c, fun _ => rfl⟩⟩
    rw [List.append_assoc, Sheet.parse_comment quiet closed]
  | @statement before quiet =>
    refine ⟨.statement (before ++ [';']), fun s => ?_, fun _ _ => ⟨before ++ [';'], fun _ => rfl⟩⟩
    rw [List.append_assoc, List.singleton_append, Sheet.parse_statement quiet]
  | @stray before quiet =>
    refine ⟨.stray (before ++ ['}']), fun s => ?_, fun _ _ => ⟨before ++ ['}'], fun _ => rfl⟩⟩
    rw [List.append_assoc, List.singleton_append, Sheet.parse_stray quiet]
  | @block prelude body quiet inside =>
    have read : ∀ s, Sheet.parse (prelude ++ '{' :: (body ++ ['}']) ++ s) =
        Sheet.parse (prelude ++ '{' :: (body ++ '}' :: s)) := by simp
    simp only [Sheet.parse_block quiet inside] at read
    cases kind : BlockKind.of (Text.trim prelude) with
    | rule =>
      rw [kind] at read
      refine ⟨_, read, fun scope keep => ⟨scopePrelude scope keep prelude ++ '{' :: body ++ ['}'], ?_⟩⟩
      intro sheet
      simp [Sheet.scope, Sheet.text]
    | other =>
      rw [kind] at read
      refine ⟨_, read, fun _ _ => ⟨prelude ++ '{' :: body ++ ['}'], ?_⟩⟩
      intro sheet
      simp [Sheet.scope, Sheet.text]
    | group =>
      obtain ⟨inner, readBody⟩ := inside.exists_parse
      rw [kind, readBody] at read
      refine ⟨_, read, fun scope keep =>
        ⟨prelude ++ '{' :: (inner.scope scope keep).text ++ ['}'], ?_⟩⟩
      intro sheet
      simp [Sheet.scope, Sheet.text]

/-- Items are read by themselves, whatever is behind them. -/
theorem Items.exists_readsAs {items : List Char} (all : Items items) :
    ∃ front, ReadsAs items front := by
  induction all with
  | nil =>
    refine ⟨id, fun s => ?_, fun _ _ => ⟨[], fun _ => rfl⟩⟩
    rw [List.nil_append]
    cases Sheet.parse s <;> rfl
  | @cons item items first _ ih =>
    obtain ⟨front, reads⟩ := first.exists_readsAs
    obtain ⟨later, readsLater⟩ := ih
    refine ⟨front ∘ later, fun s => ?_, fun scope keep => ?_⟩
    · rw [List.append_assoc, reads.parse, readsLater.parse]
      cases Sheet.parse s <;> rfl
    · obtain ⟨out, kept⟩ := reads.scope scope keep
      obtain ⟨outLater, keptLater⟩ := readsLater.scope scope keep
      refine ⟨out ++ outLater, fun sheet => ?_⟩
      rw [Function.comp_apply, kept, keptLater, List.append_assoc]

/-! ## Failing -/

/-- A text is no stylesheet just where an opening brace behind items is not closed. -/
theorem parse_eq_error_iff {s prelude : List Char} :
    Sheet.parse s = .error prelude ↔
      ∃ items rest, s = items ++ (prelude ++ '{' :: rest) ∧ Items items ∧ Quiet 0 prelude 0 ∧
        Unclosed rest := by
  constructor
  · intro failed
    obtain ⟨items, rest, rfl, all, remainder⟩ := exists_items s
    obtain ⟨front, reads⟩ := all.exists_readsAs
    rw [reads.parse] at failed
    cases remainder with
    | tail ends =>
      rw [Sheet.parse_tail ends] at failed
      cases failed
    | openComment quiet cut =>
      rw [Sheet.parse_openComment quiet cut] at failed
      cases failed
    | unclosed quiet unclosed =>
      rw [Sheet.parse_unclosed quiet unclosed] at failed
      cases failed
      exact ⟨items, _, rfl, all, quiet, unclosed⟩
  · rintro ⟨items, rest, rfl, all, quiet, unclosed⟩
    obtain ⟨front, reads⟩ := all.exists_readsAs
    rw [reads.parse, Sheet.parse_unclosed quiet unclosed]
    rfl

/-- Two stylesheets that are the same outside the blocks that are closed in them. -/
inductive SameOutside : List Char → List Char → Prop
  | refl (s : List Char) : SameOutside s s
  | item {item s t : List Char} (first : IsItem item) (rest : SameOutside s t) :
      SameOutside (item ++ s) (item ++ t)
  | block {prelude body other s t : List Char} (quiet : Quiet 0 prelude 0)
      (inside : Inside 0 body) (insideOther : Inside 0 other) (rest : SameOutside s t) :
      SameOutside (prelude ++ '{' :: (body ++ '}' :: s)) (prelude ++ '{' :: (other ++ '}' :: t))

theorem IsItem.parse_eq_error_iff {item s prelude : List Char} (first : IsItem item) :
    Sheet.parse (item ++ s) = .error prelude ↔ Sheet.parse s = .error prelude := by
  obtain ⟨front, reads⟩ := first.exists_readsAs
  rw [reads.parse]
  cases Sheet.parse s <;> simp [Except.map]

theorem SameOutside.parse_eq_error_iff {s t prelude : List Char} (same : SameOutside s t) :
    Sheet.parse s = .error prelude ↔ Sheet.parse t = .error prelude := by
  induction same with
  | refl s => exact Iff.rfl
  | item first _ ih => rw [first.parse_eq_error_iff, first.parse_eq_error_iff, ih]
  | @block front body other s t quiet inside insideOther _ ih =>
    have behind : ∀ {b : List Char} (u : List Char), Inside 0 b →
        (Sheet.parse (front ++ '{' :: (b ++ '}' :: u)) = .error prelude ↔
          Sheet.parse u = .error prelude) := by
      intro b u closed
      have whole : front ++ '{' :: (b ++ '}' :: u) = front ++ '{' :: (b ++ ['}']) ++ u := by simp
      rw [whole]
      exact (IsItem.block quiet closed).parse_eq_error_iff
    rw [behind s inside, behind t insideOther, ih]

theorem scopeText_eq_error {css scope : String} {keep : Bool} {fault : Fault} :
    scopeText css scope keep = .error fault ↔ ∃ prelude, Sheet.parse css.toList = .error prelude ∧
      fault = .unclosedBlock (String.ofList (Text.trim prelude)) := by
  rw [scopeText]
  cases Sheet.parse css.toList with
  | ok => simp
  | error prelude => simp [eq_comm]

/-- Scoping fails just where behind some items an opening brace is not closed, and names the prelude
in front of it. So it never fails for the inside of a block that is closed, whose text can be scoped
at every depth, and two stylesheets that differ nowhere else fail alike, whatever the scope and
whether or not selectors are kept. -/
theorem scopeText_eq_error_iff (css scope : String) (keep : Bool) :
    (∀ fault, scopeText css scope keep = .error fault ↔
      ∃ items prelude rest, css.toList = items ++ (prelude ++ '{' :: rest) ∧ Items items ∧
        Quiet 0 prelude 0 ∧ Unclosed rest ∧
          fault = .unclosedBlock (String.ofList (Text.trim prelude))) ∧
    (∀ body : String, Inside 0 body.toList → ∃ out, scopeText body scope keep = .ok out) ∧
    ∀ (other scopeOther : String) (keepOther : Bool), SameOutside css.toList other.toList →
      ∀ fault, scopeText css scope keep = .error fault ↔
        scopeText other scopeOther keepOther = .error fault := by
  refine ⟨fun fault => ?_, fun body inside => ?_, fun other scopeOther keepOther same fault => ?_⟩
  · rw [scopeText_eq_error]
    constructor
    · rintro ⟨prelude, failed, rfl⟩
      obtain ⟨items, rest, whole, all, quiet, unclosed⟩ := parse_eq_error_iff.1 failed
      exact ⟨items, prelude, rest, whole, all, quiet, unclosed, rfl⟩
    · rintro ⟨items, prelude, rest, whole, all, quiet, unclosed, rfl⟩
      exact ⟨prelude, parse_eq_error_iff.2 ⟨items, rest, whole, all, quiet, unclosed⟩, rfl⟩
  · obtain ⟨sheet, read⟩ := inside.exists_parse
    exact ⟨_, by rw [scopeText, read]⟩
  · simp only [scopeText_eq_error, same.parse_eq_error_iff]

/-- A group whose body can be scoped, and behind it a brace that is not closed. -/
theorem scopeText_eq_error_behind_group :
    let css := "@media x\x7b.a\x7b\x7d\x7d.b\x7b"
    let other := "@media x\x7b\x7d.b\x7b"
    scopeText css "s1" true = .error (.unclosedBlock ".b") ∧ Inside 0 ".a\x7b\x7d".toList ∧
      (∃ out, scopeText ".a\x7b\x7d" "s1" true = .ok out) ∧
      SameOutside css.toList other.toList ∧
      scopeText other "s2" false = .error (.unclosedBlock ".b") := by
  intro css other
  have group : Quiet 0 "@media x".toList 0 := Idle.quiet_self (by simp [Idle, signs]) 0
  have rule : Quiet 0 ".b".toList 0 := Idle.quiet_self (by simp [Idle, signs]) 0
  have inside : Inside 0 ".a\x7b\x7d".toList :=
    .char (by decide) (by decide) (by decide) (.char (by decide) (by decide) (by decide)
      (.opens (.closes .nil)))
  have unclosed : Unclosed [] := by
    rintro ⟨body, rest, -, split⟩
    exact List.append_ne_nil_of_right_ne_nil body (List.cons_ne_nil _ _) split.symm
  have whole : css.toList =
      "@media x".toList ++ '{' :: (".a\x7b\x7d".toList ++ '}' :: (".b".toList ++ ['{'])) := by
    decide +kernel
  have wholeOther : other.toList =
      "@media x".toList ++ '{' :: ([] ++ '}' :: (".b".toList ++ ['{'])) := by
    decide +kernel
  have same : SameOutside css.toList other.toList := by
    rw [whole, wholeOther]
    exact .block group inside .nil (.refl _)
  obtain ⟨fails, scopes, alike⟩ := scopeText_eq_error_iff css "s1" true
  have failed := (fails _).2
    ⟨_, _, [], by simp [whole], .cons (.block group inside) .nil, rule, unclosed, rfl⟩
  exact ⟨failed, inside, scopes _ inside, same, (alike other "s2" false same _).1 failed⟩

end StyleModule.Css
