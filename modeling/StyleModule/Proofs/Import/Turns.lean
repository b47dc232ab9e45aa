import StyleModule.Proofs.Css.Reading
import StyleModule.Proofs.Import.Parts
import StyleModule.Proofs.Text.Removal

/-!
# Statements taken out one after the other

The statements of a stylesheet are found in its text without comments, but each is taken out of the
text as written, at the first place where it stands there. A turn is what happens when one of them
is taken out:

* it is `taken` from the place where it was found;
* it is `missed`: it stands nowhere as it was found, because a comment stands inside of it, or it
  stands in a comment first, and is taken out of that;
* it goes `astray`: it stands first in another place that is in no comment;
* it is `disturbing`: it holds a comment sign itself, or what follows it is read otherwise without
  it, comment for text or text for comment.

`Removal.turn_cases` says what one turn does to the text that is in no comment: what goes astray
takes a copy of the statement out of that text, at another place than its own. Over a whole run,
`length_of_turns` weighs what is taken out against the statements, and `live_of_strays` says when
the text of the other parts is left.
-/

namespace StyleModule.Importer

open Statement (Part parts textOf textOf_cons)

inductive Turn where
  | taken
  | missed
  | astray
  | disturbing
  deriving DecidableEq, Repr

/-- How the turn of a statement goes in a text that should have `kept` in front of it, comments set
aside. -/
def turn (kept statement css : List Char) : Turn :=
  match Text.cut? statement css with
  | none => .missed
  | some (before, behind) =>
    match Css.readingAfter? (statement ++ behind).head? (.text none false) before with
    | none => .disturbing
    | some r =>
      match Css.readingAfter? behind.head? r statement with
      | none => .disturbing
      | some r' =>
        if Css.withoutComments (before ++ behind) ≠
            Css.withoutComments before ++ Css.liveFrom r' behind then .disturbing
        else if Css.liveFrom r statement = [] then .missed
        else if Css.liveFrom r statement ≠ statement then .disturbing
        else if Css.withoutComments before = kept then .taken
        else .astray

/-- A text without the local statements among some parts, taken out one after the other. -/
def removeLocal (parts : List Part) (css : List Char) : List Char :=
  parts.foldl (fun css part => if part.isLocal then Text.removeFirst part.text css else css) css

/-- How the turns of the local statements go. What is missed stays in front of those after it. -/
def turns (kept : List Char) : List Part → List Char → List Turn
  | [], _ => []
  | part :: parts, css =>
    if part.isLocal then
      turn kept part.text css ::
        turns (if turn kept part.text css = .missed then kept ++ part.text else kept) parts
          (Text.removeFirst part.text css)
    else turns (kept ++ part.text) parts css

/-- How the turns go when a stylesheet is scanned. -/
def turnsOf (css : List Char) : List Turn := turns [] (parts (Css.withoutComments css)) css

/-- A statement that is taken out of a text, which should have `kept` in front of it, comments set
aside. -/
structure Removal where
  kept : List Char
  statement : List Char
  css : List Char

namespace Removal

def turn (r : Removal) : Turn := Importer.turn r.kept r.statement r.css

/-- What is in front of the place where the statement is taken out, comments set aside. -/
def before (r : Removal) : List Char :=
  Css.withoutComments ((Text.cut? r.statement r.css).elim [] Prod.fst)

/-- The text that is left. -/
def left (r : Removal) : List Char := Text.removeFirst r.statement r.css

/-- It makes no difference that the statement is not taken out at its own place: it can change
places with what lies between, as where there are copies of it and nothing else. -/
def Neutral (r : Removal) : Prop :=
  ∃ between, (r.kept = r.before ++ between ∨ r.before = r.kept ++ between) ∧
    r.statement ++ between = between ++ r.statement

end Removal

/-- The removals when local statements are taken out one after the other, of the same texts as in
`turns`. -/
def removals (kept : List Char) : List Part → List Char → List Removal
  | [], _ => []
  | part :: parts, css =>
    if part.isLocal then
      ⟨kept, part.text, css⟩ ::
        removals (if turn kept part.text css = .missed then kept ++ part.text else kept) parts
          (Text.removeFirst part.text css)
    else removals (kept ++ part.text) parts css

/-- The removals that go astray. -/
def strays (kept : List Char) (parts : List Part) (css : List Char) : List Removal :=
  (removals kept parts css).filter fun r => r.turn = .astray

/-- The removals that go astray when a stylesheet is scanned. -/
def straysOf (css : List Char) : List Removal := strays [] (parts (Css.withoutComments css)) css

/-! ## One turn -/

namespace Removal

/-- What lies between the two places is what one of the texts in front has more than the other. -/
theorem neutral_iff {r : Removal} : r.Neutral ↔
    (r.before <+: r.kept ∧ r.statement ++ r.kept.drop r.before.length =
        r.kept.drop r.before.length ++ r.statement) ∨
      r.kept <+: r.before ∧ r.statement ++ r.before.drop r.kept.length =
        r.before.drop r.kept.length ++ r.statement := by
  rw [Neutral]
  generalize r.kept = kept
  generalize r.before = before
  constructor
  · rintro ⟨between, rfl | rfl, alike⟩
    · exact .inl ⟨List.prefix_append _ _, by rwa [List.drop_left]⟩
    · exact .inr ⟨List.prefix_append _ _, by rwa [List.drop_left]⟩
  · rintro (⟨⟨between, rfl⟩, alike⟩ | ⟨⟨between, rfl⟩, alike⟩)
    · exact ⟨between, .inl rfl, by rwa [List.drop_left] at alike⟩
    · exact ⟨between, .inr rfl, by rwa [List.drop_left] at alike⟩

instance (r : Removal) : Decidable r.Neutral := decidable_of_iff _ neutral_iff.symm

/-- What a turn does to the text that is in no comment. -/
theorem turn_cases (r : Removal) (calm : r.turn ≠ .disturbing) :
    (r.turn = .missed ∧ Css.withoutComments r.left = Css.withoutComments r.css) ∨
    ∃ behind, Css.withoutComments r.css = r.before ++ (r.statement ++ behind) ∧
      Css.withoutComments r.left = r.before ++ behind ∧
      (r.turn = .taken ∧ r.before = r.kept ∨ r.turn = .astray ∧ r.before ≠ r.kept) := by
  obtain ⟨kept, statement, css⟩ := r
  generalize h : turn ⟨kept, statement, css⟩ = t at calm ⊢
  unfold turn Importer.turn at h
  unfold before left Text.removeFirst
  dsimp only at h ⊢
  split at h
  next none =>
    rw [none]
    exact .inl ⟨h.symm, rfl⟩
  next front behind found =>
    rw [found, Option.elim_some]
    dsimp only
    split at h
    next => exact absurd h.symm calm
    next r read =>
      split at h
      next => exact absurd h.symm calm
      next r' read' =>
        have live : Css.withoutComments css = Css.withoutComments front ++
            (Css.liveFrom r statement ++ Css.liveFrom r' behind) := by
          rw [Text.cut?_append found, List.append_assoc, Css.withoutComments,
            Css.liveFrom_append read, Css.liveFrom_append read']
          rfl
        split at h
        next => exact absurd h.symm calm
        next alike =>
          rw [live, Decidable.not_not.1 alike]
          split at h
          next hidden =>
            rw [hidden, List.nil_append]
            exact .inl ⟨h.symm, rfl⟩
          next =>
            split at h
            next => exact absurd h.symm calm
            next shown =>
              refine .inr ⟨_, by rw [Decidable.not_not.1 shown], rfl, ?_⟩
              split at h
              next own => exact .inl ⟨h.symm, own⟩
              next other => exact .inr ⟨h.symm, other⟩

/-- A statement that is taken leaves what is before and behind it. -/
theorem live_of_taken {r : Removal} (taken : r.turn = .taken) :
    ∃ behind, Css.withoutComments r.css = r.kept ++ (r.statement ++ behind) ∧
      Css.withoutComments r.left = r.kept ++ behind := by
  rcases r.turn_cases (by rw [taken]; decide) with ⟨missed, _⟩ | ⟨behind, whole, left, own⟩
  · cases taken.symm.trans missed
  · rcases own with ⟨_, own⟩ | ⟨astray, _⟩
    · rw [own] at whole left
      exact ⟨behind, whole, left⟩
    · cases taken.symm.trans astray

/-- A statement that goes astray leaves what is before and behind another place. -/
theorem live_of_astray {r : Removal} (astray : r.turn = .astray) :
    r.before ≠ r.kept ∧ ∃ behind, Css.withoutComments r.css =
        r.before ++ (r.statement ++ behind) ∧ Css.withoutComments r.left = r.before ++ behind := by
  rcases r.turn_cases (by rw [astray]; decide) with ⟨missed, _⟩ | ⟨behind, whole, left, other⟩
  · cases astray.symm.trans missed
  · rcases other with ⟨taken, _⟩ | ⟨_, other⟩
    · cases astray.symm.trans taken
    · exact ⟨other, behind, whole, left⟩

/-- A statement that goes astray in a text that has it at its own place leaves the right text just
where that is neutral. -/
theorem neutral_iff_live {r : Removal} (astray : r.turn = .astray) {rest : List Char}
    (live : Css.withoutComments r.css = r.kept ++ (r.statement ++ rest)) :
    Css.withoutComments r.left = r.kept ++ rest ↔ r.Neutral := by
  obtain ⟨_, behind, whole, left⟩ := live_of_astray astray
  rw [left]
  exact Text.removed_eq_iff (live.symm.trans whole)

end Removal

/-! ## All turns -/

theorem removeLocal_of_local {part : Part} (here : part.isLocal = true) (parts : List Part)
    (css : List Char) :
    removeLocal (part :: parts) css = removeLocal parts (Text.removeFirst part.text css) := by
  rw [removeLocal, List.foldl_cons, if_pos here]
  rfl

theorem removeLocal_of_not_local {part : Part} (other : ¬ part.isLocal = true) (parts : List Part)
    (css : List Char) : removeLocal (part :: parts) css = removeLocal parts css := by
  rw [removeLocal, List.foldl_cons, if_neg other]
  rfl

theorem turns_eq_map (kept : List Char) (parts : List Part) (css : List Char) :
    turns kept parts css = (removals kept parts css).map Removal.turn := by
  induction parts generalizing kept css with
  | nil => rfl
  | cons part parts ih =>
    unfold turns removals
    split
    · rw [ih]
      rfl
    · exact ih _ css

/-- What is not missed leaves the text in front as it ought to be. -/
theorem removals_of_local {kept css : List Char} {part : Part} (here : part.isLocal = true)
    (found : turn kept part.text css ≠ .missed) (parts : List Part) :
    removals kept (part :: parts) css =
      ⟨kept, part.text, css⟩ :: removals kept parts (Text.removeFirst part.text css) := by
  rw [removals, if_pos here, if_neg found]

theorem strays_of_taken {kept css : List Char} {part : Part} (here : part.isLocal = true)
    (taken : turn kept part.text css = .taken) (parts : List Part) :
    strays kept (part :: parts) css = strays kept parts (Text.removeFirst part.text css) := by
  have own : ¬ (Removal.turn ⟨kept, part.text, css⟩ = .astray) := fun astray => by
    cases taken.symm.trans astray
  rw [strays, removals_of_local here (by rw [taken]; decide),
    List.filter_cons_of_neg (by simpa using own), strays]

theorem strays_of_astray {kept css : List Char} {part : Part} (here : part.isLocal = true)
    (astray : turn kept part.text css = .astray) (parts : List Part) :
    strays kept (part :: parts) css =
      ⟨kept, part.text, css⟩ :: strays kept parts (Text.removeFirst part.text css) := by
  have own : Removal.turn ⟨kept, part.text, css⟩ = .astray := astray
  rw [strays, removals_of_local here (by rw [astray]; decide),
    List.filter_cons_of_pos (by simpa using own), strays]

theorem taken_of_strays_eq_nil {kept css : List Char} {parts : List Part}
    (h : ∀ r ∈ removals kept parts css, r.turn = .taken ∨ r.turn = .astray)
    (none : strays kept parts css = []) : ∀ r ∈ removals kept parts css, r.turn = .taken := by
  intro r mem
  refine (h r mem).resolve_right fun astray => ?_
  exact List.filter_eq_nil_iff.1 none r mem (decide_eq_true astray)

/-- Where every statement is taken, the text of the other parts is left just where the text was that
of all parts. -/
theorem live_of_all_taken {kept css : List Char} {parts : List Part}
    (h : ∀ r ∈ removals kept parts css, r.turn = .taken) :
    Css.withoutComments (removeLocal parts css) =
        kept ++ textOf (parts.filter fun part => !part.isLocal) ↔
      Css.withoutComments css = kept ++ textOf parts := by
  induction parts generalizing kept css with
  | nil => exact Iff.rfl
  | cons part parts ih =>
    by_cases here : part.isLocal = true
    · have taken : turn kept part.text css = .taken := by
        rw [removals, if_pos here] at h
        exact h _ List.mem_cons_self
      rw [removals_of_local here (by rw [taken]; decide)] at h
      obtain ⟨behind, whole, left⟩ := Removal.live_of_taken (r := ⟨kept, part.text, css⟩) taken
      rw [Removal.left] at left
      rw [removeLocal_of_local here, List.filter_cons_of_neg (by simpa using here),
        ih (List.forall_mem_cons.1 h).2, whole, left, textOf_cons, List.append_right_inj,
        List.append_right_inj, List.append_right_inj]
    · rw [removals, if_neg here] at h
      rw [removeLocal_of_not_local here, List.filter_cons_of_pos (by simpa using here), textOf_cons,
        textOf_cons, ← List.append_assoc, ← List.append_assoc]
      exact ih h

theorem forall_mem_dropLast_cons_iff {α : Type} {P : α → Prop} {a : α} {l : List α} :
    (∀ b ∈ (a :: l).dropLast, P b) ↔ (l ≠ [] → P a) ∧ ∀ b ∈ l.dropLast, P b := by
  cases l with
  | nil => simp
  | cons b l => rw [List.dropLast_cons_cons, List.forall_mem_cons, forall_prop_of_true (by simp)]

/-- Where every statement is taken or goes astray, and the strays before the last are neutral, the
text of the other parts is left just where the last stray is neutral as well. -/
theorem live_of_strays {kept css : List Char} {parts : List Part}
    (h : ∀ r ∈ removals kept parts css, r.turn = .taken ∨ r.turn = .astray)
    (early : ∀ r ∈ (strays kept parts css).dropLast, r.Neutral)
    (live : Css.withoutComments css = kept ++ textOf parts) :
    Css.withoutComments (removeLocal parts css) =
        kept ++ textOf (parts.filter fun part => !part.isLocal) ↔
      ∀ r ∈ strays kept parts css, r.Neutral := by
  induction parts generalizing kept css with
  | nil => exact iff_of_true live (List.forall_mem_nil _)
  | cons part parts ih =>
    rw [textOf_cons] at live
    by_cases here : part.isLocal = true
    · have first : turn kept part.text css = .taken ∨ turn kept part.text css = .astray := by
        rw [removals, if_pos here] at h
        exact h _ List.mem_cons_self
      have found : turn kept part.text css ≠ .missed := by
        rcases first with t | t <;> rw [t] <;> decide
      rw [removals_of_local here found] at h
      have rest := (List.forall_mem_cons.1 h).2
      rw [removeLocal_of_local here, List.filter_cons_of_neg (by simpa using here)]
      rcases first with taken | astray
      · rw [strays_of_taken here taken] at early ⊢
        obtain ⟨behind, whole, left⟩ := Removal.live_of_taken (r := ⟨kept, part.text, css⟩) taken
        rw [whole, List.append_right_inj, List.append_right_inj] at live
        rw [live] at left
        exact ih rest early left
      · rw [strays_of_astray here astray] at early ⊢
        obtain ⟨alone, early⟩ := forall_mem_dropLast_cons_iff.1 early
        have own := Removal.neutral_iff_live (r := ⟨kept, part.text, css⟩) astray live
        rw [List.forall_mem_cons]
        by_cases neutral : Removal.Neutral ⟨kept, part.text, css⟩
        · rw [and_iff_right neutral]
          exact ih rest early (own.2 neutral)
        · -- then it is the last stray
          have last := Decidable.not_not.1 (mt alone neutral)
          have right := (live_of_all_taken (taken_of_strays_eq_nil rest last)).trans own
          exact iff_of_false (mt right.1 neutral) (mt And.left neutral)
    · rw [removals, if_neg here] at h
      rw [strays, removals, if_neg here] at early ⊢
      rw [removeLocal_of_not_local here, List.filter_cons_of_pos (by simpa using here), textOf_cons,
        ← List.append_assoc]
      exact ih h early (by rw [live, List.append_assoc])

/-- The characters of the local statements among parts. -/
def localLength (parts : List Part) : Nat := (textOf (parts.filter Part.isLocal)).length

theorem length_textOf (parts : List Part) :
    (textOf parts).length =
      (textOf (parts.filter fun part => !part.isLocal)).length + localLength parts := by
  unfold localLength
  induction parts with
  | nil => rfl
  | cons part parts ih =>
    by_cases localPart : part.isLocal = true
    · rw [List.filter_cons_of_neg (by simpa using localPart), List.filter_cons_of_pos localPart,
        textOf_cons, textOf_cons, List.length_append, List.length_append, ih]
      omega
    · rw [List.filter_cons_of_pos (by simpa using localPart), List.filter_cons_of_neg localPart,
        textOf_cons, textOf_cons, List.length_append, List.length_append, ih]
      omega

/-- One turn takes no more out of the text than the statement, and nothing if it is missed. -/
theorem length_of_turn {r : Removal} (calm : r.turn ≠ .disturbing) :
    (Css.withoutComments r.css).length ≤
        (Css.withoutComments r.left).length + r.statement.length ∧
      (r.turn = .missed → Css.withoutComments r.left = Css.withoutComments r.css) := by
  rcases r.turn_cases calm with ⟨_, same⟩ | ⟨behind, whole, left, other⟩
  · rw [same]
    exact ⟨Nat.le_add_right _ _, fun _ => rfl⟩
  · rw [whole, left]
    constructor
    · simp only [List.length_append]
      omega
    · intro missed
      rw [missed] at other
      rcases other with ⟨taken, _⟩ | ⟨astray, _⟩
      · cases taken
      · cases astray

/-- All turns together take no more out of the text than the statements, and less if one of them is
missed. -/
theorem length_of_turns {kept css : List Char} {parts : List Part}
    (calm : .disturbing ∉ turns kept parts css) (visible : ∀ part ∈ parts, part.text ≠ []) :
    (Css.withoutComments css).length ≤
        (Css.withoutComments (removeLocal parts css)).length + localLength parts ∧
      (.missed ∈ turns kept parts css → (Css.withoutComments css).length <
        (Css.withoutComments (removeLocal parts css)).length + localLength parts) := by
  induction parts generalizing kept css with
  | nil => exact ⟨Nat.le_refl _, fun missed => absurd missed List.not_mem_nil⟩
  | cons part parts ih =>
    have others : ∀ part ∈ parts, part.text ≠ [] := by
      intro other ho
      exact visible other (List.mem_cons_of_mem _ ho)
    unfold turns at calm ⊢
    by_cases localPart : part.isLocal = true
    · rw [if_pos localPart] at calm ⊢
      obtain ⟨first, rest⟩ := not_or.1 (mt List.mem_cons.2 calm)
      obtain ⟨bound, unchanged⟩ := length_of_turn (r := ⟨kept, part.text, css⟩) (Ne.symm first)
      dsimp only [Removal.left] at bound unchanged
      obtain ⟨most, less⟩ := ih rest others
      have some : 0 < part.text.length :=
        List.length_pos_iff.2 (visible part List.mem_cons_self)
      have whole : localLength (part :: parts) = part.text.length + localLength parts := by
        rw [localLength, List.filter_cons_of_pos localPart, textOf_cons, List.length_append]
        rfl
      rw [whole, removeLocal_of_local localPart]
      refine ⟨by omega, ?_⟩
      intro missed
      rcases List.mem_cons.1 missed with missed | missed
      · rw [unchanged missed.symm] at most
        omega
      · have fewer := less missed
        omega
    · rw [if_neg localPart] at calm ⊢
      rw [localLength, List.filter_cons_of_neg localPart, removeLocal_of_not_local localPart]
      exact ih calm others

end StyleModule.Importer
