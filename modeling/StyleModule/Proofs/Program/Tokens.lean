import StyleModule.Proofs.Name.Legal
import StyleModule.Proofs.Program.Language

/-!
# The tokens of written pieces

A piece of a line is a text without line breaks that is cut into the same tokens whatever comes
after it. What a program is written with is shown to be made of pieces, a word together with the
character that ends it, and pieces put side by side are a piece (`Piece.append`).
-/

namespace StyleModule

/-! ## Words -/

theorem not_isBlank_of_opensWord {c : Char} (h : opensWord c = true) :
    Text.isBlank c = false := by
  by_cases small : c.toNat < 128
  · have table : ∀ n < 128, opensWord (Char.ofNat n) = true →
        Text.isBlank (Char.ofNat n) = false := by decide
    have image := table c.toNat small
    rw [Char.ofNat_toNat] at image
    exact image h
  · simp only [opensWord, Bool.or_eq_true, Bool.and_eq_true, Bool.not_eq_true'] at h
    rcases h with ((h | h) | h) | h
    · have := Name.toNat_lt_of_isAlphanum (c := c) (by rw [Char.isAlphanum, h, Bool.true_or])
      omega
    · rw [beq_iff_eq.1 h]; rfl
    · rw [beq_iff_eq.1 h]; rfl
    · exact h.2

theorem exists_cons_of_isWord {w : List Char} (h : isWord w = true) :
    ∃ c s, w = c :: s ∧ opensWord c = true ∧ ∀ d ∈ s, continuesWord d = true := by
  cases w with
  | nil => cases h
  | cons c s =>
    simp only [isWord, Bool.and_eq_true, List.all_eq_true] at h
    exact ⟨c, s, rfl, h.1, h.2⟩

/-- Every character of a word goes on with a word. -/
theorem continuesWord_of_mem {w : List Char} (h : isWord w = true) {c : Char} (hc : c ∈ w) :
    continuesWord c = true := by
  obtain ⟨d, s, rfl, opens, rest⟩ := exists_cons_of_isWord h
  rcases List.mem_cons.1 hc with rfl | hc
  · rw [continuesWord, opens, Bool.true_or]
  · exact rest c hc

namespace Token

theorem all_blank {c : Char} (h : Text.isBlank c = true) (s : List Char) :
    all (c :: s) = all s := by
  rw [all, if_pos h]

theorem all_of_next? {c : Char} {s rest : List Char} {token : Token}
    (visible : Text.isBlank c = false) (h : next? c s = some (token, rest)) :
    all (c :: s) = (all rest).map (token :: ·) := by
  rw [all, if_neg (by rw [visible]; exact Bool.false_ne_true)]
  split
  next token' rest' h' => rw [h] at h'; cases h'; rfl
  next h' => rw [h] at h'; cases h'

/-- A word ends where a character comes that no word goes on with. -/
theorem all_word {w : List Char} (word : isWord w = true) {d : Char}
    (ends : continuesWord d = false) (rest : List Char) :
    all (w ++ d :: rest) = (all (d :: rest)).map (Token.word (String.ofList w) :: ·) := by
  obtain ⟨c, s, rfl, opens, goes⟩ := exists_cons_of_isWord word
  refine all_of_next? (not_isBlank_of_opensWord opens) ?_
  have stops : ¬ continuesWord d = true := by rw [ends]; exact Bool.false_ne_true
  rw [List.append_eq, next?, if_pos opens, List.takeWhile_append_of_pos goes,
    List.dropWhile_append_of_pos goes, List.takeWhile_cons_of_neg stops,
    List.dropWhile_cons_of_neg stops, List.append_nil]

end Token

/-! ## Pieces -/

/-- A piece of a line: whatever comes after it, it is cut into the given tokens. -/
structure Piece (text : List Char) (tokens : List Token) : Prop where
  lexes : ∀ rest, Token.all (text ++ rest) = (Token.all rest).map (tokens ++ ·)
  unbroken : '\n' ∉ text

namespace Piece

theorem nil : Piece [] [] := by
  constructor
  · intro rest
    cases h : Token.all rest <;> simp [h]
  · exact List.not_mem_nil

theorem append {a b : List Char} {s t : List Token} (ha : Piece a s) (hb : Piece b t) :
    Piece (a ++ b) (s ++ t) := by
  constructor
  · intro rest
    rw [List.append_assoc, ha.lexes, hb.lexes, Option.map_map]
    congr 1
    funext tokens
    exact (List.append_assoc s t tokens).symm
  · rw [List.mem_append, not_or]
    exact ⟨ha.unbroken, hb.unbroken⟩

/-- A piece that stands alone is cut into its tokens. -/
theorem all_eq {text : List Char} {tokens : List Token} (h : Piece text tokens) :
    Token.all text = some tokens := by
  have alone := h.lexes []
  rw [List.append_nil, Token.all, Option.map_some, List.append_nil] at alone
  exact alone

theorem space : Piece [' '] [] := by
  constructor
  · intro rest
    rw [List.singleton_append, Token.all_blank rfl]
    exact nil.lexes rest
  · decide

/-- What the marks are not: blanks, line breaks, and parts of words. -/
theorem of_isMark {c : Char} (h : Token.isMark c = true) :
    Text.isBlank c = false ∧ opensWord c = false ∧ continuesWord c = false ∧ '\n' ∉ [c] := by
  simp only [Token.isMark, Bool.or_eq_true, beq_iff_eq] at h
  rcases h with ((((rfl | rfl) | rfl) | rfl) | rfl) | rfl <;> decide

theorem mark {c : Char} (h : Token.isMark c = true) : Piece [c] [.mark c] := by
  obtain ⟨visible, noWord, _, unbroken⟩ := of_isMark h
  constructor
  · intro rest
    apply Token.all_of_next? visible
    rw [List.append_eq, List.nil_append, Token.next?, if_neg (by simp [noWord]), if_pos h]
  · exact unbroken

theorem unbroken_of_isWord {w : List Char} (word : isWord w = true) : '\n' ∉ w := by
  intro h
  exact absurd (continuesWord_of_mem word h) (by decide)

theorem wordSpace {w : String} (word : isWord w.toList = true) :
    Piece (w.toList ++ [' ']) [.word w] := by
  constructor
  · intro rest
    rw [List.append_assoc, List.singleton_append, Token.all_word word rfl,
      Token.all_blank rfl, String.ofList_toList]
    rfl
  · rw [List.mem_append, not_or]
    exact ⟨unbroken_of_isWord word, by decide⟩

theorem wordMark {w : String} (word : isWord w.toList = true) {c : Char}
    (h : Token.isMark c = true) : Piece (w.toList ++ [c]) [.word w, .mark c] := by
  obtain ⟨_, _, ends, unbroken⟩ := of_isMark h
  constructor
  · intro rest
    rw [List.append_assoc, List.singleton_append, Token.all_word word ends, String.ofList_toList,
      ← List.singleton_append, (mark h).lexes, Option.map_map]
    rfl
  · rw [List.mem_append, not_or]
    exact ⟨unbroken_of_isWord word, unbroken⟩

theorem quoted {text : String} (plain : ∀ c ∈ text.toList, Token.needsEscape c = false) :
    Piece ('\'' :: text.toList ++ ['\'']) [.quoted text] := by
  have goes : ∀ c ∈ text.toList, (!Token.needsEscape c) = true := by
    intro c hc
    rw [plain c hc]; rfl
  constructor
  · intro rest
    rw [List.append_assoc, List.cons_append, List.singleton_append]
    apply Token.all_of_next? rfl
    rw [Token.next?, if_neg (by decide), if_neg (by decide), if_pos rfl,
      List.dropWhile_append_of_pos goes, List.dropWhile_cons_of_neg (by decide),
      List.takeWhile_append_of_pos goes, List.takeWhile_cons_of_neg (by decide), List.append_nil,
      String.ofList_toList]
    rfl
  · simp only [List.cons_append, List.mem_cons, List.mem_append, List.not_mem_nil, or_false,
      not_or]
    exact ⟨by decide, fun h => absurd (plain _ h) (by decide), by decide⟩

theorem literal (text : String) : Piece (Json.quote text.toList) [.literal text] := by
  constructor
  · intro rest
    rw [Json.quote, List.append_assoc, List.cons_append, List.singleton_append]
    apply Token.all_of_next? rfl
    rw [Token.next?, if_neg (by decide), if_neg (by decide), if_neg (by decide), if_pos rfl,
      Json.readBody_escape]
    simp only [Option.bind_eq_bind, Option.bind_some, Json.unescape?_escape, String.ofList_toList]
  · simp only [Json.quote, List.cons_append, List.mem_cons, List.mem_append, List.not_mem_nil,
      or_false, not_or]
    exact ⟨by decide, Json.not_mem_escape_of_lt (by decide), by decide⟩

end Piece

end StyleModule
