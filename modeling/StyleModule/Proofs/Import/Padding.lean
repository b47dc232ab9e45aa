import StyleModule.Proofs.Import.Head
import StyleModule.Proofs.Text.Squeeze

/-!
# Blanks in a statement

Blanks may stand behind `@import`, behind the bracket that `url` opens, before the bracket that
closes it, and before the semicolon. `url_padded` says which of them become part of the address that
the statement names, and `isRemote_padded_iff` that none of them matters to whether the address is
one of the network. What a statement leads to is then told from its address and from the blanks in
front of that (`target_padded`).
-/

namespace StyleModule.Statement

/-- The blanks in a statement, by where they stand. Where no brackets are worded there is none at the
brackets. -/
structure Padding where
  behindWord : List Char
  behindOpening : List Char
  beforeClosing : List Char
  beforeEnd : List Char
  behindWord_blank : Text.allBlank behindWord = true
  behindOpening_blank : Text.allBlank behindOpening = true
  beforeClosing_blank : Text.allBlank beforeClosing = true
  beforeEnd_blank : Text.allBlank beforeEnd = true

/-- One blank behind the word, and no others. -/
def Padding.least : Padding := ⟨[' '], [], [], [], rfl, rfl, rfl, rfl⟩

namespace Wording

/-- Does the address stand in the brackets of `url`? -/
def bracketed : Wording → Bool
  | string _ => false
  | _ => true

/-- The brackets' opening, with what stands behind it. -/
def opened (wording : Wording) (padding : Padding) : List Char :=
  if wording.bracketed then urlWord ++ padding.behindOpening else []

/-- The brackets' closing, with what stands before it. -/
def closed (wording : Wording) (padding : Padding) : List Char :=
  if wording.bracketed then padding.beforeClosing ++ [')'] else []

/-- The quote that stands at either end of the address. -/
def mark (wording : Wording) : List Char := wording.quote?.toList

/-- A statement from its address on. -/
def ending (wording : Wording) (padding : Padding) (address : List Char) : List Char :=
  wording.mark ++ (address ++ (wording.mark ++ (wording.closed padding ++ padding.beforeEnd)))

/-- The statement that names an address, with blanks in it. -/
def padded (wording : Wording) (padding : Padding) (address : List Char) : Statement :=
  ⟨importWord ++ (padding.behindWord ++ (wording.opened padding ++
    (wording.ending padding address ++ [';'])))⟩

theorem padded_least (wording : Wording) (address : List Char) :
    wording.padded .least address = wording.statement address := by
  cases wording <;>
    simp [padded, statement, phrase, lead, opening, closing, opened, closed, ending, mark, quote?,
      bracketed, Padding.least]

end Wording

/-! ## The address -/

/-- What remains of a clause as an address. -/
def unquoted (s : List Char) : List Char := s.filter fun c => !Css.isQuote c && c != ')'

theorem unquoted_append (a b : List Char) : unquoted (a ++ b) = unquoted a ++ unquoted b :=
  List.filter_append ..

theorem unquoted_of_allBlank {blanks : List Char} (blank : Text.allBlank blanks = true) :
    unquoted blanks = blanks := by
  refine List.filter_eq_self.2 fun c mem => ?_
  have here := List.all_eq_true.1 blank c mem
  have apart : ∀ d, Text.isBlank d = false → c ≠ d := fun d dark => Text.ne_of_isBlank here dark
  simp [Css.isQuote, apart '"' rfl, apart '\'' rfl, apart ')' rfl]

theorem PlainAddress.unquoted {address : List Char} (plain : PlainAddress address) :
    Statement.unquoted address = address := by
  refine List.filter_eq_self.2 fun c mem => ?_
  have sign := plain.no_sign c mem
  simp only [List.mem_cons, List.not_mem_nil, or_false, not_or] at sign
  simp [Css.isQuote, sign]

theorem unquoted_mark (wording : Wording) : unquoted wording.mark = [] := by
  rcases wording with ⟨_, rfl | rfl⟩ | _ | ⟨_, rfl | rfl⟩ <;> rfl

/-- A closing bracket in front of a clause is no part of the address. -/
theorem unquoted_dropBracket (s : List Char) :
    unquoted ((dropBracket s).takeWhile (· ≠ ';')) = unquoted (s.takeWhile (· ≠ ';')) := by
  cases s with
  | nil => rfl
  | cons c s =>
    rw [dropBracket]
    split
    next bracket =>
      subst bracket
      rfl
    next => rfl

/-- Two blanks at most are dropped in front of a text that begins with none. -/
theorem dropBlank_dropBlank {blanks s : List Char} (blank : Text.allBlank blanks = true)
    (head : ∃ c ∈ s.head?, Text.isBlank c = false) :
    dropBlank (dropBlank (blanks ++ s)) = blanks.drop 2 ++ s := by
  obtain ⟨c, first, dark⟩ := head
  obtain ⟨t, rfl⟩ := List.head?_eq_some_iff.1 first
  have stays : dropBlank (c :: t) = c :: t := if_neg (by simp [dark])
  match blanks, List.all_eq_true.1 blank with
  | [], _ => rw [List.nil_append, stays, stays]; rfl
  | [d], here =>
    have drops : dropBlank (d :: c :: t) = c :: t := if_pos (here d (by simp))
    exact (congrArg dropBlank drops).trans stays
  | d :: e :: blanks, here =>
    have drops : dropBlank (d :: e :: (blanks ++ c :: t)) = e :: (blanks ++ c :: t) :=
      if_pos (here d (by simp))
    have dropsNext : dropBlank (e :: (blanks ++ c :: t)) = blanks ++ c :: t :=
      if_pos (here e (by simp))
    exact (congrArg dropBlank drops).trans dropsNext

namespace Wording

variable {address : List Char}

theorem exists_head_ending (wording : Wording) (padding : Padding) (plain : PlainAddress address)
    (some : address ≠ []) (s : List Char) :
    ∃ c ∈ (wording.ending padding address ++ s).head?, Text.isBlank c = false := by
  rcases wording with ⟨_, rfl | rfl⟩ | _ | ⟨_, rfl | rfl⟩
  · exact ⟨'"', rfl, rfl⟩
  · exact ⟨'\'', rfl, rfl⟩
  · obtain ⟨c, t, rfl⟩ := List.exists_cons_of_ne_nil some
    exact ⟨c, rfl, plain.no_blank c List.mem_cons_self⟩
  · exact ⟨'"', rfl, rfl⟩
  · exact ⟨'\'', rfl, rfl⟩

/-- Behind the address stand blanks, its quote and a bracket. -/
theorem not_mem_behind {c : Char} (wording : Wording) (padding : Padding)
    (dark : Text.isBlank c = false) (other : c ∉ ['"', '\'', ')']) :
    c ∉ wording.mark ++ (wording.closed padding ++ padding.beforeEnd) := by
  have closing := Text.not_mem_of_allBlank padding.beforeClosing_blank dark
  have ending := Text.not_mem_of_allBlank padding.beforeEnd_blank dark
  simp only [List.mem_cons, List.not_mem_nil, or_false, not_or] at other
  obtain ⟨double, single, bracket⟩ := other
  rcases wording with ⟨_, rfl | rfl⟩ | _ | ⟨_, rfl | rfl⟩ <;>
    simp [mark, quote?, closed, bracketed, double, single, bracket, closing, ending]

theorem semicolon_not_mem_opened (wording : Wording) (padding : Padding) :
    ';' ∉ wording.opened padding := by
  have behind := Text.not_mem_of_allBlank (c := ';') padding.behindOpening_blank rfl
  have word : ';' ∉ urlWord := by decide
  rw [opened]
  split <;> simp [word, behind]

theorem semicolon_not_mem_ending (wording : Wording) (padding : Padding)
    (plain : PlainAddress address) : ';' ∉ wording.ending padding address := by
  have within : ';' ∉ address := fun mem => plain.no_sign ';' mem (by decide)
  have behind := wording.not_mem_behind padding (c := ';') rfl (by decide)
  have mark : ';' ∉ wording.mark := fun mem => behind (List.mem_append_left _ mem)
  rw [ending, List.mem_append, List.mem_append]
  simp only [mark, within, behind, or_self, not_false_eq_true]

/-- Behind the word and its blanks stands a character that is no blank. -/
theorem exists_head_opened (wording : Wording) (padding : Padding) (plain : PlainAddress address)
    (some : address ≠ []) (s : List Char) :
    ∃ c ∈ (wording.opened padding ++ (wording.ending padding address ++ s)).head?,
      Text.isBlank c = false := by
  rw [opened]
  split
  · exact ⟨'u', rfl, rfl⟩
  · exact wording.exists_head_ending padding plain some s

/-- The blanks in front of an address that count as part of it. -/
def strayBefore (wording : Wording) (padding : Padding) : List Char :=
  if wording.bracketed then padding.behindOpening.drop 2 else []

/-- The blanks behind an address that count as part of it. -/
def strayBehind (wording : Wording) (padding : Padding) : List Char :=
  (if wording.bracketed then padding.beforeClosing else []) ++ padding.beforeEnd

@[simp]
theorem strayBefore_least (wording : Wording) : wording.strayBefore .least = [] := by
  rw [strayBefore]
  split <;> rfl

@[simp]
theorem strayBehind_least (wording : Wording) : wording.strayBehind .least = [] := by
  rw [strayBehind]
  split <;> rfl

theorem strayBefore_blank (wording : Wording) (padding : Padding) :
    Text.allBlank (wording.strayBefore padding) = true := by
  rw [strayBefore]
  split
  · exact List.all_eq_true.2 fun c mem =>
      List.all_eq_true.1 padding.behindOpening_blank c (List.mem_of_mem_drop mem)
  · rfl

theorem unquoted_ending (wording : Wording) (padding : Padding) (plain : PlainAddress address) :
    unquoted (wording.ending padding address) = address ++ wording.strayBehind padding := by
  have closing : unquoted (wording.closed padding) =
      if wording.bracketed then padding.beforeClosing else [] := by
    rw [closed]
    split
    · rw [unquoted_append, unquoted_of_allBlank padding.beforeClosing_blank]
      exact List.append_nil _
    · rfl
  simp only [ending, unquoted_append, unquoted_mark, plain.unquoted, closing,
    unquoted_of_allBlank padding.beforeEnd_blank, strayBehind, List.nil_append]

/-- What is looked at for the address: all behind the brackets' opening, but for two blanks. -/
theorem clause_padded (wording : Wording) (padding : Padding) (plain : PlainAddress address)
    (some : address ≠ []) : (wording.padded padding address).clause =
      (dropBracket (wording.strayBefore padding ++
        (wording.ending padding address ++ [';']))).takeWhile (· ≠ ';') := by
  have head := wording.exists_head_ending padding plain some [';']
  have dropped : Text.dropBlanks ((wording.padded padding address).text.drop importWord.length) =
      wording.opened padding ++ (wording.ending padding address ++ [';']) := by
    obtain ⟨c, first, dark⟩ := wording.exists_head_opened padding plain some [';']
    refine (Text.cut_blanks padding.behindWord_blank ?_).2
    intro d mem
    rw [first] at mem
    rwa [← Option.some.inj mem]
  rw [clause, dropped, opened, strayBefore]
  cases bracketed : wording.bracketed with
  | true =>
    have opens : Text.afterAnyCase? urlWord (urlWord ++ padding.behindOpening ++
        (wording.ending padding address ++ [';'])) =
          Option.some (padding.behindOpening ++ (wording.ending padding address ++ [';'])) := rfl
    simp only [if_true, opens, dropBlank_dropBlank padding.behindOpening_blank head]
  | false =>
    have plainString : Text.afterAnyCase? urlWord (wording.ending padding address ++ [';']) =
        none := by
      rcases wording with ⟨_, rfl | rfl⟩ | _ | _
      · rfl
      · rfl
      · cases bracketed
      · cases bracketed
    simp only [Bool.false_eq_true, if_false, List.nil_append, plainString]

/-- A statement names its address, with the blanks behind the second in front of it, and with all
blanks behind it. -/
theorem url_padded (wording : Wording) (padding : Padding) (plain : PlainAddress address)
    (some : address ≠ []) : (wording.padded padding address).url =
      wording.strayBefore padding ++ (address ++ wording.strayBehind padding) := by
  have blank := wording.strayBefore_blank padding
  have lacks : ';' ∉ wording.strayBefore padding ++ wording.ending padding address := by
    rw [List.mem_append, not_or]
    exact ⟨Text.not_mem_of_allBlank blank rfl, wording.semicolon_not_mem_ending padding plain⟩
  have cut : (wording.strayBefore padding ++ (wording.ending padding address ++
      [';'])).takeWhile (· ≠ ';') = wording.strayBefore padding ++ wording.ending padding address := by
    rw [← List.append_assoc, List.takeWhile_append_of_pos]
    · exact List.append_nil _
    · rintro c mem
      refine decide_eq_true ?_
      rintro rfl
      exact lacks mem
  show unquoted (wording.padded padding address).clause = _
  rw [wording.clause_padded padding plain some, unquoted_dropBracket, cut, unquoted_append,
    unquoted_of_allBlank blank, wording.unquoted_ending padding plain]

theorem url_statement (wording : Wording) (plain : PlainAddress address) (some : address ≠ []) :
    (wording.statement address).url = address := by
  rw [← wording.padded_least, wording.url_padded .least plain some, strayBefore_least,
    strayBehind_least, List.append_nil, List.nil_append]

end Wording

/-! ## Addresses of the network -/

/-- An address that begins with `http` or with two slashes, in any letter case. -/
def NetworkAddress (address : List Char) : Prop :=
  "http".toList <+: address.map Char.toLower ∨ "//".toList <+: address.map Char.toLower

instance (address : List Char) : Decidable (NetworkAddress address) :=
  inferInstanceAs (Decidable (_ ∨ _))

theorem isLower_of_isBlank {c : Char} (blank : Text.isBlank c = true) : c.isLower = false := by
  simp only [Text.isBlank, Bool.or_eq_true, Bool.and_eq_true, decide_eq_true_eq, beq_iff_eq] at blank
  rw [isLower_eq_false_iff]
  omega

theorem toLower_of_isBlank {c : Char} (blank : Text.isBlank c = true) : c.toLower = c := by
  simp only [Text.isBlank, Bool.or_eq_true, Bool.and_eq_true, decide_eq_true_eq, beq_iff_eq] at blank
  unfold Char.toLower
  split
  next capital =>
    simp [UInt32.le_iff_toNat_le] at capital
    omega
  next => rfl

/-- The characters of a statement that matter to what its address is one of. -/
def compactOf (s : List Char) : List Char :=
  (s.map Char.toLower).filter fun c => !Css.isQuote c && !Text.isBlank c

theorem isRemote_eq (s : List Char) : isRemote s =
    (Text.contains urlWord (s.map Char.toLower) &&
      (Text.contains "url(http".toList (compactOf s) ||
        Text.contains "url(//".toList (compactOf s))) := rfl

theorem compactOf_append (a b : List Char) : compactOf (a ++ b) = compactOf a ++ compactOf b := by
  rw [compactOf, List.map_append, List.filter_append]
  rfl

theorem compactOf_of_allBlank {blanks : List Char} (blank : Text.allBlank blanks = true) :
    compactOf blanks = [] := by
  refine List.filter_eq_nil_iff.2 fun d mem => ?_
  obtain ⟨c, here, rfl⟩ := List.mem_map.1 mem
  have here := List.all_eq_true.1 blank c here
  simp [toLower_of_isBlank here, here]

theorem PlainAddress.compactOf {address : List Char} (plain : PlainAddress address) :
    Statement.compactOf address = address.map Char.toLower := by
  refine List.filter_eq_self.2 fun d mem => ?_
  obtain ⟨c, here, rfl⟩ := List.mem_map.1 mem
  have sign := plain.no_sign c here
  simp only [List.mem_cons, List.not_mem_nil, or_false, not_or] at sign
  have noQuote : Css.isQuote c.toLower = false := by
    rw [Css.isQuote, Bool.or_eq_false_iff, beq_eq_false_iff_ne, beq_eq_false_iff_ne]
    exact ⟨fun same => sign.1 (eq_of_toLower_eq same rfl),
      fun same => sign.2.1 (eq_of_toLower_eq same rfl)⟩
  have noBlank : Text.isBlank c.toLower = false := by
    cases blank : Text.isBlank c.toLower with
    | false => rfl
    | true =>
      have same := eq_of_toLower_eq rfl (isLower_of_isBlank blank)
      rw [← same, plain.no_blank c here] at blank
      cases blank
  rw [noQuote, noBlank]
  rfl

theorem compactOf_mark (wording : Wording) : compactOf wording.mark = [] := by
  rcases wording with ⟨_, rfl | rfl⟩ | _ | ⟨_, rfl | rfl⟩ <;> rfl

/-- What is left in capitals or not is no sign, where the text had none. -/
theorem not_mem_map_toLower {sign : Char} {s : List Char} (fresh : sign ∉ s)
    (other : sign.isLower = false) : sign ∉ s.map Char.toLower := by
  intro mem
  obtain ⟨c, here, small⟩ := List.mem_map.1 mem
  rw [eq_of_toLower_eq small other] at here
  exact fresh here

namespace Wording

variable {address : List Char}

/-- Nothing that matters stands around an address but the word and the brackets. -/
theorem compactOf_padded (wording : Wording) (padding : Padding) (plain : PlainAddress address) :
    compactOf (wording.padded padding address).text = importWord ++
      ((if wording.bracketed then urlWord else []) ++ (address.map Char.toLower ++
        ((if wording.bracketed then [')'] else []) ++ [';']))) := by
  have word : compactOf importWord = importWord := rfl
  have url : compactOf urlWord = urlWord := rfl
  have bracket : compactOf [')'] = [')'] := rfl
  have semicolon : compactOf [';'] = [';'] := rfl
  have opening : compactOf (wording.opened padding) =
      if wording.bracketed then urlWord else [] := by
    rw [opened]
    split
    · rw [compactOf_append, compactOf_of_allBlank padding.behindOpening_blank, url,
        List.append_nil]
    · rfl
  have closing : compactOf (wording.closed padding) =
      if wording.bracketed then [')'] else [] := by
    rw [closed]
    split
    · rw [compactOf_append, compactOf_of_allBlank padding.beforeClosing_blank, bracket,
        List.nil_append]
    · rfl
  simp only [padded, ending, compactOf_append, word, opening, closing, semicolon, compactOf_mark,
    plain.compactOf, compactOf_of_allBlank padding.behindWord_blank,
    compactOf_of_allBlank padding.beforeEnd_blank, List.nil_append, List.append_assoc]

theorem bracket_not_mem_padded (wording : Wording) (padding : Padding)
    (plain : PlainAddress address) (bare : wording.bracketed = false) :
    '(' ∉ (wording.padded padding address).text := by
  have within : '(' ∉ address := fun mem => plain.no_sign '(' mem (by decide)
  have mark : '(' ∉ wording.mark := by
    rcases wording with ⟨_, rfl | rfl⟩ | _ | ⟨_, rfl | rfl⟩ <;> decide
  have word : '(' ∉ importWord := by decide
  have front := Text.not_mem_of_allBlank (c := '(') padding.behindWord_blank rfl
  have back := Text.not_mem_of_allBlank (c := '(') padding.beforeEnd_blank rfl
  simp [padded, ending, opened, closed, bare, within, mark, word, front, back]

/-- What a word with the bracket's opening in it says of a statement is told by its address. -/
theorem contains_compactOf_padded_iff (word : List Char) (wording : Wording) (padding : Padding)
    (plain : PlainAddress address) (bracketed : wording.bracketed = true) (fresh : ')' ∉ word) :
    Text.contains (urlWord ++ word) (compactOf (wording.padded padding address).text) = true ↔
      word <+: address.map Char.toLower := by
  have within : '(' ∉ address := fun mem => plain.no_sign '(' mem (by decide)
  have small := not_mem_map_toLower within rfl
  have behind : '(' ∉ address.map Char.toLower ++ ')' :: [';'] := by
    rw [List.mem_append, not_or]
    exact ⟨small, by decide⟩
  have whole : compactOf (wording.padded padding address).text =
      "@importurl".toList ++ '(' :: (address.map Char.toLower ++ ')' :: [';']) := by
    rw [wording.compactOf_padded padding plain, if_pos bracketed, if_pos bracketed]
    rfl
  have parts : urlWord ++ word = "url".toList ++ '(' :: word := rfl
  rw [Text.contains_iff_infix, whole, parts,
    Text.infix_around_iff (by decide) behind (by decide), Text.prefix_append_cons_iff fresh]
  exact and_iff_right (by decide)

/-- The address of a statement is one of the network just where it stands in brackets and begins like
one. -/
theorem isRemote_padded_iff (wording : Wording) (padding : Padding) (plain : PlainAddress address) :
    isRemote (wording.padded padding address).text = true ↔
      wording.bracketed = true ∧ NetworkAddress address := by
  rw [isRemote_eq, Bool.and_eq_true, Bool.or_eq_true]
  cases bracketed : wording.bracketed with
  | false =>
    have none := not_mem_map_toLower (wording.bracket_not_mem_padded padding plain bracketed) rfl
    simp only [Text.contains_iff_infix, Bool.false_eq_true, false_and, iff_false, not_and]
    intro within
    exact absurd (within.subset (by decide)) none
  | true =>
    have opens : urlWord <:+: (wording.padded padding address).text := by
      refine ⟨importWord ++ padding.behindWord, padding.behindOpening ++
        (wording.ending padding address ++ [';']), ?_⟩
      simp [padded, opened, bracketed]
    have small := opens.map Char.toLower
    have http := contains_compactOf_padded_iff "http".toList wording padding plain bracketed
      (by decide)
    have slashes := contains_compactOf_padded_iff "//".toList wording padding plain bracketed
      (by decide)
    have wordHttp : "url(http".toList = urlWord ++ "http".toList := rfl
    have wordSlashes : "url(//".toList = urlWord ++ "//".toList := rfl
    rw [wordHttp, wordSlashes, http, slashes, Text.contains_iff_infix]
    exact ⟨fun found => ⟨rfl, found.2⟩, fun found => ⟨small, found.2⟩⟩

/-! ## What a statement leads to -/

/-- Blanks in front of a tilde hide it, where they count as part of the address. -/
theorem head?_url_padded_iff (wording : Wording) (padding : Padding) (plain : PlainAddress address)
    (some : address ≠ []) : (wording.padded padding address).url.head? = Option.some '~' ↔
      wording.strayBefore padding = [] ∧ address.head? = Option.some '~' := by
  rw [wording.url_padded padding plain some]
  obtain ⟨c, address, rfl⟩ := List.exists_cons_of_ne_nil some
  have blank := wording.strayBefore_blank padding
  cases stray : wording.strayBefore padding with
  | nil => simp
  | cons d stray =>
    rw [stray] at blank
    have here := List.all_eq_true.1 blank d List.mem_cons_self
    simp [Text.ne_of_isBlank here (d := '~') rfl]

/-- What a statement with blanks in it leads to. -/
theorem target_padded (wording : Wording) (padding : Padding) (plain : PlainAddress address)
    (some : address ≠ []) :
    ImportTarget.of (wording.padded padding address).text (wording.padded padding address).url =
      if wording.bracketed = true ∧ NetworkAddress address then .remote
      else if wording.strayBefore padding = [] ∧ address.head? = Option.some '~' then .package
      else .file := by
  have remote := wording.isRemote_padded_iff padding plain
  have package := wording.head?_url_padded_iff padding plain some
  simp only [ImportTarget.of, remote, package]

end Wording

end StyleModule.Statement
