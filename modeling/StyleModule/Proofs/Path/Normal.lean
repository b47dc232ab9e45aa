import StyleModule.Proofs.Path.Canonical

/-!
# Normal forms of paths

What a canonical path looks like, told without settling anything: `.`, or the root and entries below
it, or steps up followed by entries, with one slash between two of them and none behind the last
(`NormalForm`). Such texts are read back as the steps that they were written for
(`stepsOf_intercalate`), which is why the paths in normal form are exactly those that are their own
canonical forms, and why a path may be replaced by its canonical form before another is joined to it
(`canonical_normal_join`).
-/

namespace StyleModule.Path

/-! ## Settled steps -/

/-- Steps up, and entries behind them. -/
def Climbs (steps : List Step) : Prop :=
  ∃ climbs down, Descends down ∧ steps = List.replicate climbs .up ++ down

theorem Climbs.wanders {steps : List Step} (h : Climbs steps) : Wanders steps := by
  obtain ⟨climbs, down, below, rfl⟩ := h
  intro step mem
  rcases List.mem_append.1 mem with mem | mem
  · exact .inl (List.eq_of_mem_replicate mem)
  · exact below.wanders step mem

/-- Away from the root, what is taken goes down last: a step up either takes back an entry or comes
behind steps up only. -/
theorem Wanders.foldl_takeStep_climbs {steps : List Step} (h : Wanders steps) {taken : List Step}
    (before : Climbs taken.reverse) : Climbs (steps.foldl takeStep taken).reverse := by
  induction steps generalizing taken with
  | nil => exact before
  | cons step steps ih =>
    obtain ⟨climbs, down, below, split⟩ := before
    apply ih h.tail
    have stack : taken = down.reverse ++ List.replicate climbs .up := by
      rw [← List.reverse_reverse taken, split, List.reverse_append, List.reverse_replicate]
    rcases h step List.mem_cons_self with rfl | ⟨entry, isEntry, rfl⟩
    · cases ends : down.reverse with
      | nil =>
        have upward : takeStep taken .up = List.replicate (climbs + 1) .up := by
          rw [stack, ends, List.nil_append]
          cases climbs <;> rfl
        rw [upward]
        exact ⟨climbs + 1, [], descends_nil, by rw [List.reverse_replicate, List.append_nil]⟩
      | cons last rest =>
        have within : Descends (last :: rest) := ends ▸ below.reverse
        obtain ⟨entry, _, rfl⟩ := within last List.mem_cons_self
        have back : takeStep taken .up = rest ++ List.replicate climbs .up := by
          rw [stack, ends]
          rfl
        rw [back, List.reverse_append, List.reverse_replicate]
        exact ⟨climbs, rest.reverse, within.tail.reverse, rfl⟩
    · have more : takeStep taken (.name entry) = .name entry :: taken := rfl
      rw [more, List.reverse_cons, split, List.append_assoc]
      refine ⟨climbs, down ++ [.name entry], ?_, rfl⟩
      intro other mem
      rcases List.mem_append.1 mem with mem | mem
      · exact below other mem
      · exact ⟨entry, isEntry, List.mem_singleton.1 mem⟩

theorem climbs_settle {p : Path} (h : p.isAbsolute = false) : Climbs (settle p.moves) := by
  rw [settle, moves_relative h]
  exact (wanders_segmentMoves _).foldl_takeStep_climbs ⟨0, [], descends_nil, rfl⟩

/-- Steps up and entries behind them are settled. -/
theorem Climbs.settle {steps : List Step} (h : Climbs steps) : Path.settle steps = steps := by
  obtain ⟨climbs, down, below, rfl⟩ := h
  have upward : ∀ more : Nat, (List.replicate climbs Step.up).foldl takeStep
      (List.replicate more .up) = List.replicate (climbs + more) .up := by
    intro more
    induction climbs generalizing more with
    | zero => rw [Nat.zero_add]; rfl
    | succ climbs ih =>
      have first : takeStep (List.replicate more .up) .up = List.replicate (more + 1) .up := by
        cases more <;> rfl
      rw [List.replicate_succ, List.foldl_cons, first, ih, Nat.add_right_comm, Nat.add_assoc]
  have climbed : (List.replicate climbs Step.up).foldl takeStep [] = List.replicate climbs .up :=
    upward 0
  rw [Path.settle, List.foldl_append, climbed, below.foldl_takeStep, List.reverse_append,
    List.reverse_reverse, List.reverse_replicate]

/-! ## What is written -/

theorem Wanders.text {step : Step} {steps : List Step} (h : Wanders (step :: steps)) :
    step.text ≠ [] ∧ '/' ∉ step.text := by
  rcases h step List.mem_cons_self with rfl | ⟨entry, isEntry, rfl⟩
  · exact ⟨List.cons_ne_nil _ _, by decide⟩
  · refine ⟨?_, isEntry.unbroken⟩
    rintro none
    have idle : entry = [] := none
    have busy := isEntry.busy
    rw [idle] at busy
    cases busy

/-- Steps are written behind a text with a slash in front of each. -/
theorem Wanders.foldl_push {steps : List Step} (h : Wanders steps) {base : List Char}
    (some : base ≠ []) (unclosed : base.getLast? ≠ Option.some '/') :
    steps.foldl (fun written step => push written step.text) base =
      base ++ steps.flatMap fun step => '/' :: step.text := by
  induction steps generalizing base with
  | nil => exact (List.append_nil base).symm
  | cons step steps ih =>
    obtain ⟨written, unbroken⟩ := h.text
    have relative : step.text.head? ≠ Option.some '/' :=
      fun slash => unbroken (List.mem_of_mem_head? slash)
    have first : push base step.text = base ++ '/' :: step.text := by
      rw [push, if_neg relative, if_neg (not_or.2 ⟨some, unclosed⟩)]
    have last : (base ++ '/' :: step.text).getLast? ≠ Option.some '/' := by
      rw [List.append_cons, List.getLast?_append, List.getLast?_eq_some_getLast written]
      exact fun slash => unbroken (Option.some.inj slash ▸ List.getLast_mem written)
    rw [List.foldl_cons, first, ih h.tail (by simp) last, List.flatMap_cons, List.append_assoc]

theorem intercalate_cons (first : List Char) (rest : List (List Char)) :
    ['/'].intercalate (first :: rest) = first ++ rest.flatMap ('/' :: ·) := by
  induction rest generalizing first with
  | nil => rw [List.intercalate_singleton, List.flatMap_nil, List.append_nil]
  | cons next rest ih =>
    rw [List.intercalate_cons_cons, ih, List.flatMap_cons, List.append_assoc, List.singleton_append,
      List.cons_append]

/-- What is written for steps that do not begin at the root, with what stands in front. -/
theorem Wanders.foldl_push_open {steps : List Step} (h : Wanders steps) {base : List Char}
    (openEnd : base = [] ∨ base.getLast? = some '/') :
    steps.foldl (fun written step => push written step.text) base =
      base ++ ['/'].intercalate (steps.map Step.text) := by
  cases steps with
  | nil => exact (List.append_nil base).symm
  | cons step steps =>
    obtain ⟨written, unbroken⟩ := h.text
    have relative : step.text.head? ≠ some '/' :=
      fun slash => unbroken (List.mem_of_mem_head? slash)
    have first : push base step.text = base ++ step.text := by
      rw [push, if_neg relative, if_pos openEnd]
    have last : (base ++ step.text).getLast? ≠ some '/' := by
      rw [List.getLast?_append, List.getLast?_eq_some_getLast written]
      exact fun slash => unbroken (Option.some.inj slash ▸ List.getLast_mem written)
    rw [List.foldl_cons, first, h.tail.foldl_push (by simp [written]) last, List.map_cons,
      intercalate_cons, List.append_assoc, List.flatMap_map]

theorem writeSteps_wanders {steps : List Step} (h : Wanders steps) :
    writeSteps steps = ['/'].intercalate (steps.map Step.text) :=
  h.foldl_push_open (.inl rfl)

theorem writeSteps_root {steps : List Step} (h : Wanders steps) :
    writeSteps (.root :: steps) = '/' :: ['/'].intercalate (steps.map Step.text) := by
  have root : ['/'].getLast? = some '/' := rfl
  exact h.foldl_push_open (.inr root)

theorem Wanders.text_ne_here {step : Step} {steps : List Step} (h : Wanders (step :: steps)) :
    step.text ≠ ['.'] := by
  rcases h step List.mem_cons_self with rfl | ⟨entry, isEntry, rfl⟩
  · decide
  · intro stays
    have idle : entry = ['.'] := stays
    have busy := isEntry.busy
    rw [idle] at busy
    cases busy

/-- Steps that are written with one slash between two of them are read back. -/
theorem stepsOf_intercalate {steps : List Step} (h : Wanders steps) (some : steps ≠ []) :
    stepsOf (['/'].intercalate (steps.map Step.text)) = steps := by
  have relative := head?_writeSteps h
  have taken := movesOf_writeSteps h
  rw [movesOf_relative relative] at taken
  rw [writeSteps_wanders h] at relative taken
  have apart : ∀ text ∈ steps.map Step.text, '/' ∉ text := by
    intro text mem
    obtain ⟨step, inside, rfl⟩ := List.mem_map.1 mem
    exact (Wanders.text fun other only => h other (List.mem_singleton.1 only ▸ inside)).2
  have segments := List.splitOn_intercalate '/' apart (by simpa using some)
  unfold stepsOf
  split
  next rest text =>
    rw [text] at relative
    exact absurd List.head?_cons relative
  next =>
    split
    next later first =>
      -- no step that is written is written as the segment that stays
      rw [segments] at first
      cases steps with
      | nil => exact absurd rfl some
      | cons step steps => exact absurd (List.cons.inj first).1 h.text_ne_here
    next => exact taken

theorem steps_ofSteps {steps : List Step} (h : Wanders steps) (some : steps ≠ []) :
    (ofSteps steps).steps = steps := by
  rw [Path.steps, ofSteps, String.toList_ofList, writeSteps_wanders h, stepsOf_intercalate h some]

/-! ## Normal forms -/

/-- The normal forms of paths, each with the steps that it takes: `.`; the root and entries below
it; steps up and entries behind them. One slash stands between two steps, and none at the end. -/
inductive NormalForm : (absolute : Bool) → (text : List Char) → (steps : List Step) → Prop
  | here : NormalForm false ['.'] [.here]
  | below {entries : List (List Char)} (isEntry : ∀ entry ∈ entries, IsEntry entry) :
      NormalForm true ('/' :: ['/'].intercalate entries) (.root :: entries.map .name)
  | away (climbs : Nat) {entries : List (List Char)} (isEntry : ∀ entry ∈ entries, IsEntry entry)
      (some : List.replicate climbs ['.', '.'] ++ entries ≠ []) :
      NormalForm false (['/'].intercalate (List.replicate climbs ['.', '.'] ++ entries))
        (List.replicate climbs .up ++ entries.map .name)

theorem Descends.exists_entries {steps : List Step} (h : Descends steps) :
    ∃ entries : List (List Char), (∀ entry ∈ entries, IsEntry entry) ∧
      steps = entries.map .name := by
  induction steps with
  | nil => exact ⟨[], nofun, rfl⟩
  | cons step steps ih =>
    obtain ⟨entry, isEntry, rfl⟩ := h step List.mem_cons_self
    obtain ⟨entries, all, rfl⟩ := ih h.tail
    exact ⟨entry :: entries, List.forall_mem_cons.2 ⟨isEntry, all⟩, rfl⟩

theorem descends_map_name {entries : List (List Char)}
    (isEntry : ∀ entry ∈ entries, IsEntry entry) : Descends (entries.map .name) := by
  intro step mem
  obtain ⟨entry, inside, rfl⟩ := List.mem_map.1 mem
  exact ⟨entry, isEntry entry inside, rfl⟩

theorem climbs_append (climbs : Nat) {entries : List (List Char)}
    (isEntry : ∀ entry ∈ entries, IsEntry entry) :
    Climbs (List.replicate climbs .up ++ entries.map .name) :=
  ⟨climbs, _, descends_map_name isEntry, rfl⟩

theorem map_text_climbs (climbs : Nat) (entries : List (List Char)) :
    (List.replicate climbs Step.up ++ entries.map Step.name).map Step.text =
      List.replicate climbs ['.', '.'] ++ entries := by
  rw [List.map_append, List.map_replicate, List.map_map]
  exact congrArg (_ ++ ·) (List.map_id entries)

theorem text_ofSteps_climbs (climbs : Nat) {entries : List (List Char)}
    (isEntry : ∀ entry ∈ entries, IsEntry entry) :
    (ofSteps (List.replicate climbs .up ++ entries.map .name)).text.toList =
      ['/'].intercalate (List.replicate climbs ['.', '.'] ++ entries) := by
  rw [ofSteps, String.toList_ofList, writeSteps_wanders (climbs_append climbs isEntry).wanders,
    map_text_climbs]

theorem text_ofSteps_root {entries : List (List Char)}
    (isEntry : ∀ entry ∈ entries, IsEntry entry) :
    (ofSteps (.root :: entries.map .name)).text.toList = '/' :: ['/'].intercalate entries := by
  rw [ofSteps, String.toList_ofList, writeSteps_root (descends_map_name isEntry).wanders,
    List.map_map]
  exact congrArg (fun texts => '/' :: ['/'].intercalate texts) (List.map_id entries)

/-- The path that is written for steps up and entries behind them is in normal form. -/
theorem Climbs.normalForm {steps : List Step} (h : Climbs steps) {p : Path}
    (written : p = if steps = [] then current else ofSteps steps) :
    NormalForm false p.text.toList p.steps := by
  obtain rfl := written
  split
  next => exact .here
  next some =>
    have wanders := h.wanders
    obtain ⟨climbs, down, below, rfl⟩ := h
    obtain ⟨entries, isEntry, rfl⟩ := below.exists_entries
    rw [steps_ofSteps wanders some, text_ofSteps_climbs climbs isEntry]
    apply NormalForm.away climbs isEntry
    rw [← map_text_climbs]
    simpa using some

/-- Canonical forms are in normal form. -/
theorem normalForm_canonical (p : Path) :
    NormalForm p.isAbsolute p.canonical.text.toList p.canonical.steps := by
  cases absolute : p.isAbsolute with
  | false => exact (climbs_settle absolute).normalForm (canonical_eq p)
  | true =>
    obtain ⟨down, below, settled⟩ := settle_absolute absolute
    obtain ⟨entries, isEntry, rfl⟩ := below.exists_entries
    have text : p.canonical.text.toList = '/' :: ['/'].intercalate entries := by
      rw [canonical_eq, settled, if_neg (List.cons_ne_nil _ _), text_ofSteps_root isEntry]
    rw [steps_eq_moves (isAbsolute_canonical absolute), moves_canonical, settled, text]
    exact .below isEntry

/-- A path in normal form is its own canonical form. -/
theorem NormalForm.canonical_eq_self {absolute : Bool} {p : Path}
    (h : NormalForm absolute p.text.toList p.steps) : p.canonical = p := by
  generalize text : p.text.toList = written, taken : p.steps = steps at h
  have same : ∀ {q : Path}, q.text.toList = written → q = p := fun h =>
    ext_toList (h.trans text.symm)
  have moves : p.moves = steps.filter (· ≠ .here) := by
    rw [← taken]
    rfl
  rw [canonical_eq, moves]
  cases h with
  | here => exact same rfl
  | @below entries isEntry =>
    have below := descends_map_name isEntry
    have settled : settle ((.root :: entries.map .name).filter (· ≠ .here)) =
        .root :: entries.map .name := by
      rw [List.filter_cons_of_pos (by decide), below.wanders.filter_here, settle_root below]
    rw [settled, if_neg (List.cons_ne_nil _ _)]
    exact same (text_ofSteps_root isEntry)
  | @away climbs entries isEntry some =>
    have upward := climbs_append climbs isEntry
    have nonempty : List.replicate climbs Step.up ++ entries.map .name ≠ [] := by
      simpa using some
    rw [upward.wanders.filter_here, upward.settle, if_neg nonempty]
    exact same (text_ofSteps_climbs climbs isEntry)

/-! ## Joining to canonical forms -/

theorem isAbsolute_canonical_eq (p : Path) : p.canonical.isAbsolute = p.isAbsolute := by
  cases absolute : p.isAbsolute with
  | true => exact isAbsolute_canonical absolute
  | false =>
    apply eq_false_of_ne_true
    intro root
    obtain ⟨s, text⟩ := isAbsolute_iff.1 root
    have taken := moves_canonical p
    rw [moves, text, movesOf_root] at taken
    apply (wanders_settle absolute).root_not_mem
    rw [← taken]
    exact List.mem_cons_self

theorem settle_settle_append (before after : List Step) :
    settle (settle before ++ after) = settle (before ++ after) := by
  rw [settle_append, settle_append, settle_settle]

theorem settle_append_settle (before after : List Step) :
    settle (before ++ settle after) = settle (before ++ after) := by
  rw [settle_append, settle_append, foldl_takeStep_settle]

/-- What is joined to a path is joined to its canonical form. -/
theorem canonical_join (base target : Path) :
    (base.canonical.join target).canonical = (base.join target).canonical := by
  cases absolute : target.isAbsolute with
  | true => rw [join_absolute _ absolute, join_absolute _ absolute]
  | false =>
    rw [canonical_eq_iff, moves_join _ absolute, moves_join _ absolute, moves_canonical,
      settle_settle_append]

/-- To join a path is to join its canonical form. -/
theorem join_canonical (base target : Path) :
    (base.join target.canonical).canonical = (base.join target).canonical := by
  cases absolute : target.isAbsolute with
  | true =>
    rw [join_absolute _ absolute, join_absolute _ (isAbsolute_canonical absolute),
      canonical_canonical]
  | false =>
    have canonical := (isAbsolute_canonical_eq target).trans absolute
    rw [canonical_eq_iff, moves_join _ absolute, moves_join _ canonical, ← moves_relative absolute,
      ← moves_relative canonical, moves_canonical, settle_append_settle]

/-- What is found from a directory is found from its canonical form. -/
theorem resolve_canonical (here : Location) (base target : Path) :
    resolve here base.canonical target = resolve here base target := by
  have joined := canonical_join base target
  have anchored : ∀ dir : Path, (dir.join (base.canonical.join target)).canonical =
      (dir.join (base.join target)).canonical := by
    intro dir
    rw [← join_canonical, joined, join_canonical]
  simp only [resolve, isAbsolute_join_eq, isAbsolute_canonical_eq, joined, anchored]

/-- Going into an entry and up again is staying. -/
theorem canonical_join_up (p : Path) {entry : String} (isEntry : IsEntry entry.toList) :
    ((p.join ⟨entry⟩).join ⟨".."⟩).canonical = p.canonical := by
  have relative : (⟨entry⟩ : Path).isAbsolute = false := isAbsolute_eq_false_iff.2 isEntry.head?
  have up : (⟨".."⟩ : Path).isAbsolute = false := rfl
  have upward : segmentMoves "..".toList = [.up] := rfl
  rw [canonical_eq_iff, moves_join _ up, moves_join _ relative, isEntry.segmentMoves, upward,
    settle_append, settle_append, List.reverse_reverse]
  exact List.reverse_reverse _

/-- The canonical form of a path is in normal form, and paths in normal form are left as they are; a
path may be replaced by its canonical form before another is joined to it or found from it; and
going into an entry and up again is staying. -/
theorem canonical_normal_join (a b : Path) (here : Location) :
    NormalForm a.isAbsolute a.canonical.text.toList a.canonical.steps ∧
      (a.canonical = a ↔ NormalForm a.isAbsolute a.text.toList a.steps) ∧
      (a.canonical.join b).canonical = (a.join b).canonical ∧
      a.canonical.canonical = a.canonical ∧
      resolve here a.canonical b = resolve here a b ∧
      ∀ entry : String, IsEntry entry.toList →
        ((a.join ⟨entry⟩).join ⟨".."⟩).canonical = a.canonical := by
  have form := normalForm_canonical a
  refine ⟨form, ⟨?_, NormalForm.canonical_eq_self⟩, canonical_join a b, canonical_canonical a,
    resolve_canonical here a b, fun entry isEntry => canonical_join_up a isEntry⟩
  intro same
  rwa [same] at form

/-- A relative path with steps that stay and slashes to spare: an entry is gone into below it, and
left again. -/
theorem canonical_normal_join_climbing :
    IsEntry "b".toList ∧
      (((⟨"../a/.//"⟩ : Path).join ⟨"b"⟩).join ⟨".."⟩).canonical = ⟨"../a"⟩ := by
  have isEntry : IsEntry "b".toList := ⟨rfl, by decide, by decide⟩
  obtain ⟨_, _, _, _, _, up⟩ := canonical_normal_join ⟨"../a/.//"⟩ current (.ok current)
  refine ⟨isEntry, (up "b" isEntry).trans ?_⟩
  decide +kernel

end StyleModule.Path
