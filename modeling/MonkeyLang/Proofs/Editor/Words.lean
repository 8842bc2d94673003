import MonkeyLang.Proofs.Editor.Lookup

/-!
# The word at the cursor

The cursor stands between two characters of a line. If one of them could be part of a word, the word at
the cursor is the longest stretch of such characters that the cursor is in or beside. The same word is
found from every place between the two ends of the stretch, both ends included.

* `Editor.Bounded` says that a stretch, which may be empty, cannot be made longer, `Editor.Stretch` that
  it is a word besides.
* `Editor.exists_bounded` finds a stretch for every place, `Editor.Stretch.unique` says that there is
  only one.
* `word_at_cursor_is_maximal` is the result.
-/

namespace MonkeyLang

namespace Editor

/-- A character of a word: a letter, a digit or the underscore, all of ASCII. -/
def WordPart (c : CodePoint) : Prop :=
  ∃ d : Char, c = d ∧ ('A' ≤ d ∧ d ≤ 'Z' ∨ 'a' ≤ d ∧ d ≤ 'z' ∨ '0' ≤ d ∧ d ≤ '9' ∨ d = '_')

theorem isWordChar_iff {c : CodePoint} : isWordChar c = true ↔ WordPart c := by
  cases c with
  | char d =>
      simp only [isWordChar, WordPart, CodePoint.isAlphanum, CodePoint.isAlpha, CodePoint.isDigit,
        Char.isAlpha, Char.isUpper, Char.isLower, Char.isDigit, Char.le_def, CodePoint.char.injEq,
        exists_eq_left', Bool.or_eq_true, Bool.and_eq_true, decide_eq_true_eq, ge_iff_le, or_assoc]
  | surrogate number => simp [isWordChar, WordPart, CodePoint.isAlphanum, CodePoint.isAlpha,
      CodePoint.isDigit]

/-- A character of a word stands in the line behind so many others. -/
def PartAt (row : List CodePoint) (i : Nat) : Prop := ∃ c, row[i]? = some c ∧ WordPart c

/-- On one side of the cursor at least stands a character of a word. -/
def Touches (row : List CodePoint) (cursor : Nat) : Prop :=
  PartAt row cursor ∨ ∃ i, i + 1 = cursor ∧ PartAt row i

/-- There are none but characters of words from `start` up to `stop`, and none of them right before or
right behind. -/
structure Bounded (row : List CodePoint) (start stop : Nat) : Prop where
  parts : ∀ i, start ≤ i → i < stop → PartAt row i
  left : ∀ i, i + 1 = start → ¬ PartAt row i
  right : ¬ PartAt row stop

/-- The characters from `start` up to `stop` are a word that cannot be made longer. -/
structure Stretch (row : List CodePoint) (start stop : Nat) : Prop extends Bounded row start stop where
  filled : start < stop

variable {row : List CodePoint} {start stop start' stop' cursor : Nat}

theorem PartAt.lt_length {i : Nat} (part : PartAt row i) : i < row.length := by
  obtain ⟨c, at_, -⟩ := part
  exact (List.getElem?_eq_some_iff.1 at_).1

/-! ## The ends of a stretch -/

/-- Going to the left from a place, one comes to the start of a stretch. -/
theorem exists_start (row : List CodePoint) (cursor : Nat) :
    ∃ start, start ≤ cursor ∧ (∀ i, start ≤ i → i < cursor → PartAt row i) ∧
      ∀ i, i + 1 = start → ¬ PartAt row i := by
  induction cursor with
  | zero => exact ⟨0, Nat.le_refl _, fun i _ before => absurd before (Nat.not_lt_zero i), nofun⟩
  | succ cursor ih =>
      by_cases part : PartAt row cursor
      · obtain ⟨start, before, parts, left⟩ := ih
        refine ⟨start, Nat.le_succ_of_le before, fun i from_ upTo => ?_, left⟩
        rcases Nat.lt_succ_iff_lt_or_eq.1 upTo with earlier | rfl
        · exact parts i from_ earlier
        · exact part
      · refine ⟨cursor + 1, Nat.le_refl _, fun i from_ upTo => by omega, fun i next => ?_⟩
        obtain rfl := Nat.succ.inj next
        exact part

/-- Going to the right from a place, one comes to the end of a stretch. -/
theorem exists_stop (row : List CodePoint) (cursor : Nat) :
    ∃ stop, cursor ≤ stop ∧ (∀ i, cursor ≤ i → i < stop → PartAt row i) ∧
      ¬ PartAt row stop := by
  -- The induction is on how much of the line is left.
  induction left : row.length - cursor generalizing cursor with
  | zero =>
      refine ⟨cursor, Nat.le_refl _, fun i from_ upTo => by omega, fun part => ?_⟩
      have inside := part.lt_length
      omega
  | succ n ih =>
      by_cases part : PartAt row cursor
      · obtain ⟨stop, behind, parts, right⟩ := ih (cursor + 1) (by omega)
        refine ⟨stop, by omega, fun i from_ upTo => ?_, right⟩
        rcases Nat.eq_or_lt_of_le from_ with rfl | later
        · exact part
        · exact parts i later upTo
      · exact ⟨cursor, Nat.le_refl _, fun i from_ upTo => by omega, part⟩

/-- Every place is in or beside a stretch, which may be empty. -/
theorem exists_bounded (row : List CodePoint) (cursor : Nat) :
    ∃ start stop, Bounded row start stop ∧ start ≤ cursor ∧ cursor ≤ stop := by
  obtain ⟨start, before, partsBefore, left⟩ := exists_start row cursor
  obtain ⟨stop, behind, partsBehind, right⟩ := exists_stop row cursor
  refine ⟨start, stop, ⟨fun i from_ upTo => ?_, left, right⟩, before, behind⟩
  rcases Nat.lt_or_ge i cursor with earlier | later
  · exact partsBefore i from_ earlier
  · exact partsBehind i later upTo

/-- The stretch at a place is a word if the place touches one. -/
theorem Bounded.stretch (bounded : Bounded row start stop) (before : start ≤ cursor)
    (behind : cursor ≤ stop) (touches : Touches row cursor) : Stretch row start stop := by
  refine ⟨bounded, ?_⟩
  rcases touches with part | ⟨i, next, part⟩
  · -- The stretch goes on behind the cursor.
    have further : cursor ≠ stop := by
      rintro rfl
      exact bounded.right part
    omega
  · have earlier : start ≠ cursor := by
      rintro rfl
      exact bounded.left i next part
    omega

theorem Bounded.start_le (bounded : Bounded row start stop) (bounded' : Bounded row start' stop')
    (before' : start' ≤ cursor) (behind : cursor ≤ stop) : start' ≤ start := by
  by_contra later
  exact bounded'.left (start' - 1) (by omega) (bounded.parts _ (by omega) (by omega))

theorem Bounded.le_stop (bounded : Bounded row start stop) (bounded' : Bounded row start' stop')
    (before' : start' ≤ cursor) (behind : cursor ≤ stop) : stop' ≤ stop := by
  by_contra later
  exact bounded.right (bounded'.parts _ (by omega) (by omega))

/-- There is only one stretch at a place. -/
theorem Bounded.unique (bounded : Bounded row start stop) (bounded' : Bounded row start' stop')
    (at_ : start ≤ cursor ∧ cursor ≤ stop) (at_' : start' ≤ cursor ∧ cursor ≤ stop') :
    start' = start ∧ stop' = stop :=
  ⟨Nat.le_antisymm (bounded.start_le bounded' at_'.1 at_.2) (bounded'.start_le bounded at_.1 at_'.2),
    Nat.le_antisymm (bounded.le_stop bounded' at_'.1 at_.2) (bounded'.le_stop bounded at_.1 at_'.2)⟩

theorem Stretch.stop_le_length (stretch : Stretch row start stop) : stop ≤ row.length := by
  have filled := stretch.filled
  have inside := (stretch.parts (stop - 1) (by omega) (by omega)).lt_length
  omega

/-! ## Words in a line -/

/-- A place behind the line counts as its end. -/
theorem wordInLine_min (row : List CodePoint) (character : Nat) :
    wordInLine row (min character row.length) = wordInLine row character := by
  rcases Nat.le_total character row.length with inside | behind
  · rw [Nat.min_eq_left inside]
  · rw [Nat.min_eq_right behind, wordInLine, wordInLine, List.take_of_length_le behind,
      List.drop_of_length_le behind, List.take_length, List.drop_length]

/-- The word at a place in the line is what stands in the stretch there. -/
theorem Bounded.wordInLine_eq (bounded : Bounded row start stop) (before : start ≤ cursor)
    (behind : cursor ≤ stop) (inside : cursor ≤ row.length) :
    wordInLine row cursor = row.extract start stop := by
  have whole : row.take start ++ (row.extract start stop ++ row.drop stop) = row := by
    have rest : row.drop stop = (row.drop start).drop (stop - start) := by
      rw [List.drop_drop, Nat.add_sub_cancel' (Nat.le_trans before behind)]
    rw [rest, List.take_append_drop, List.take_append_drop]
  have length : (row.take start).length = start :=
    List.length_take_of_le (Nat.le_trans before inside)
  have parts : ∀ c ∈ row.extract start stop, isIdentPart c := by
    intro c mem
    obtain ⟨i, at_⟩ := List.getElem?_of_mem mem
    rw [List.getElem?_take, List.getElem?_drop] at at_
    split at at_
    · next shorter =>
      obtain ⟨d, here, part⟩ := bounded.parts (start + i) (by omega) (by omega)
      cases at_.symm.trans here
      exact isWordChar_iff.2 part
    · cases at_
  have ended : ∀ c ∈ (row.take start).getLast?, isIdentPart c = false := by
    intro c last
    refine Bool.eq_false_iff.2 fun part => ?_
    rw [List.getLast?_eq_getElem?, length, Option.mem_def, List.getElem?_take] at last
    split at last
    · exact bounded.left (start - 1) (by omega) ⟨c, last, isWordChar_iff.1 part⟩
    · cases last
  have apart : Lexeme.Apart (row.drop stop) := by
    intro c first
    rw [List.head?_drop] at first
    exact Bool.eq_false_iff.2 fun part => bounded.right ⟨c, first, isWordChar_iff.1 part⟩
  have within : cursor - start ≤ (row.extract start stop).length := by
    rw [List.length_take, List.length_drop]
    omega
  have found := wordInLine_name parts ended apart within
  rwa [whole, length, Nat.add_sub_cancel' before] at found

variable {text : Text} {line character : Nat}

theorem wordAt_of_row (here : (Text.editorLines text.toList)[line]? = some row)
    (filled : wordInLine row character ≠ []) :
    wordAt text line character = some (Text.ofList (wordInLine row character)) := by
  unfold wordAt
  rw [here]
  dsimp only
  split
  · next none => exact absurd none filled
  · rfl

/-- The word at every place in or beside a stretch of a line is what stands in the stretch. -/
theorem Stretch.wordAt_eq (stretch : Stretch row start stop)
    (here : (Text.editorLines text.toList)[line]? = some row)
    (before : start ≤ min character row.length) (behind : min character row.length ≤ stop) :
    wordAt text line character = some (Text.ofList (row.extract start stop)) := by
  have found : wordInLine row character = row.extract start stop := by
    rw [← wordInLine_min]
    exact stretch.wordInLine_eq before behind (Nat.min_le_right _ _)
  have filled : row.extract start stop ≠ [] := by
    refine List.ne_nil_of_length_pos ?_
    rw [List.length_take, List.length_drop]
    have := stretch.filled
    have := stretch.stop_le_length
    omega
  rw [wordAt_of_row here (found ▸ filled), found]

/-- There is no word at a place that touches none. -/
theorem wordAt_eq_none_of_not_touches (here : (Text.editorLines text.toList)[line]? = some row)
    (apart : ¬ Touches row (min character row.length)) : wordAt text line character = none := by
  have empty : Bounded row (min character row.length) (min character row.length) :=
    ⟨fun i from_ upTo => by omega, fun i next part => apart (.inr ⟨i, next, part⟩),
      fun part => apart (.inl part)⟩
  have found := empty.wordInLine_eq (Nat.le_refl _) (Nat.le_refl _) (Nat.min_le_right _ _)
  rw [wordInLine_min, List.extract_eq_take_drop, Nat.sub_self, List.take_zero] at found
  unfold wordAt
  rw [here]
  dsimp only
  rw [found]

end Editor

open Editor

/-- If the cursor touches a character of a word, where a place behind the line counts as its end, then it
is in or beside exactly one stretch of such characters that cannot be made longer. This is the word at
the cursor, and it is the word at every place from the start of the stretch to its end, both included. If
there is no such line, or the cursor touches no character of a word, there is no word at the cursor. -/
theorem word_at_cursor_is_maximal (text : Text) (line character : Nat) :
    (∀ row, (Text.editorLines text.toList)[line]? = some row →
      Touches row (min character row.length) →
      ∃ start stop, Stretch row start stop ∧
        start ≤ min character row.length ∧ min character row.length ≤ stop ∧
        (∀ start' stop', Stretch row start' stop' → start' ≤ min character row.length →
          min character row.length ≤ stop' → start' = start ∧ stop' = stop) ∧
        wordAt text line character = some (Text.ofList (row.extract start stop)) ∧
        ∀ place, start ≤ place → place ≤ stop →
          wordAt text line place = wordAt text line character) ∧
    (wordAt text line character = none ↔
      ∀ row, (Text.editorLines text.toList)[line]? = some row →
        ¬ Touches row (min character row.length)) := by
  constructor
  · intro row here touches
    obtain ⟨start, stop, bounded, before, behind⟩ :=
      exists_bounded row (min character row.length)
    have stretch := bounded.stretch before behind touches
    have found := stretch.wordAt_eq here before behind
    refine ⟨start, stop, stretch, before, behind, fun start' stop' stretch' before' behind' =>
      bounded.unique stretch'.toBounded ⟨before, behind⟩ ⟨before', behind'⟩, found,
      fun place from_ upTo => ?_⟩
    -- The end of the stretch is in the line, and so is every place in front of it.
    have inside : min place row.length = place :=
      Nat.min_eq_left (Nat.le_trans upTo stretch.stop_le_length)
    rw [found]
    exact stretch.wordAt_eq here (inside.symm ▸ from_) (inside.symm ▸ upTo)
  · constructor
    · intro none row here touches
      obtain ⟨start, stop, bounded, before, behind⟩ :=
        exists_bounded row (min character row.length)
      have found := (bounded.stretch before behind touches).wordAt_eq here before behind
      cases none.symm.trans found
    · intro apart
      cases here : (Text.editorLines text.toList)[line]? with
      | none =>
          unfold wordAt
          rw [here]
      | some row => exact wordAt_eq_none_of_not_touches here (apart row here)

/-- A cursor right behind a word, in front of an operator, in the second line. -/
theorem word_at_cursor_is_maximal_behind :
    let text : Text := "let a;\r\n  x_1+y"
    let row := ("  x_1+y" : Text).toList
    (Text.editorLines text.toList)[1]? = some row ∧ Touches row (min 5 row.length) ∧
      ∃ start stop, Stretch row start stop ∧ start ≤ 5 ∧ 5 ≤ stop ∧
        Text.ofList (row.extract start stop) = "x_1" ∧
          wordAt text 1 start = some (Text.ofString "x_1") := by
  intro text row
  have here : (Text.editorLines text.toList)[1]? = some row := by decide
  have touches : Touches row (min 5 row.length) :=
    .inr ⟨4, rfl, '1', rfl, isWordChar_iff.1 rfl⟩
  obtain ⟨start, stop, stretch, before, behind, -, found, same⟩ :=
    (word_at_cursor_is_maximal text 1 5).1 row here touches
  have word : wordAt text 1 5 = some (Text.ofString "x_1") := by decide
  refine ⟨here, touches, start, stop, stretch, before, behind, ?_, ?_⟩
  · exact Option.some.inj (found.symm.trans word)
  · rw [same start (Nat.le_refl _) stretch.filled.le, word]

end MonkeyLang
