import MonkeyLang.Proofs.Session.Halts

/-!
# Requests in a stream of bytes

A connection delivers its bytes in chunks, and a chunk may end anywhere: inside a character, inside
a request, between the two bytes of a line end. What has no newline behind it yet waits for the next
chunk. So the requests are the lines of the whole stream, however it is cut. An empty chunk is none: it
is the end of the connection.

* `Server.requests` are the requests in a stream.
* `Text.piecesEndingIn_append`: pieces can be split off as the row comes in.
* `connection_answers_whole_lines` is the result.
-/

namespace MonkeyLang

namespace Text

variable {α : Type} [DecidableEq α] (stop : α)

/-! ## Pieces -/

theorem piecesEndingIn_of_not_mem {row : List α} (none : stop ∉ row) :
    piecesEndingIn stop row = ([], row) := by
  induction row with
  | nil => rfl
  | cons c row ih =>
      have other : c ≠ stop := fun same => none (same ▸ .head _)
      rw [piecesEndingIn, ih fun mem => none (.tail _ mem)]
      simp only [other, if_false]

theorem stop_not_mem_left (row : List α) : stop ∉ (piecesEndingIn stop row).2 := by
  induction row with
  | nil => exact nofun
  | cons c row ih =>
      rw [piecesEndingIn]
      dsimp only
      split
      · exact ih
      · next other =>
        split
        · rintro (_ | ⟨_, mem⟩)
          · exact other rfl
          · exact ih mem
        · exact ih

/-- What is left of a row comes before the next part of it. -/
theorem piecesEndingIn_append (row more : List α) :
    piecesEndingIn stop (row ++ more) =
      ((piecesEndingIn stop row).1 ++ (piecesEndingIn stop ((piecesEndingIn stop row).2 ++ more)).1,
        (piecesEndingIn stop ((piecesEndingIn stop row).2 ++ more)).2) := by
  induction row with
  | nil => rfl
  | cons c row ih =>
      rw [List.cons_append, piecesEndingIn, ih, piecesEndingIn]
      by_cases last : c = stop
      · simp only [if_pos last, List.cons_append]
      · simp only [if_neg last]
        -- A row without a whole piece grows by `c` at its front, whatever comes behind it.
        cases (piecesEndingIn stop row).1 with
        | cons piece pieces => simp only [List.cons_append]
        | nil =>
            rw [List.cons_append, piecesEndingIn]
            simp only [if_neg last, List.nil_append]

/-- The pieces are what stands between one end and the next. -/
theorem piecesEndingIn_eq_splitOn (row : List α) :
    (piecesEndingIn stop row).1 = (row.splitOn stop).dropLast.map (· ++ [stop]) ∧
      (row.splitOn stop).getLast? = some (piecesEndingIn stop row).2 := by
  induction row with
  | nil => exact ⟨rfl, rfl⟩
  | cons c row ih =>
      obtain ⟨pieces, left⟩ := ih
      have some_ := List.splitOn_ne_nil stop row
      rw [List.splitOn_cons_eq_if_modifyHead, piecesEndingIn]
      generalize row.splitOn stop = split, piecesEndingIn stop row = result at *
      obtain ⟨_, rest⟩ := result
      dsimp only at pieces left ⊢
      subst pieces
      match split with
      | [] => exact absurd rfl some_
      | [only] => by_cases last : c = stop <;> simpa [last] using left
      | first :: second :: others => by_cases last : c = stop <;> simpa [last] using left

omit [DecidableEq α] in
/-- An end that is to be stripped can be taken off first. -/
theorem stripOf_append_singleton {p : α → Bool} {c : α} (stripped : p c = true) (row : List α) :
    stripOf p (row ++ [c]) = stripOf p row := by
  unfold stripOf
  rw [List.dropWhile_append]
  split
  · next empty => simp [List.isEmpty_iff.1 empty, stripped]
  · simp [stripped]

end Text

namespace Server

open Text (piecesEndingIn)

/-! ## Requests -/

variable {reason : List UInt8 → Text}

/-- The requests in a stream: what stands between its newlines, without white space at the ends,
unless there is nothing else. What stands behind the last newline is none. -/
def requests (stream : List UInt8) : List (List UInt8) :=
  ((stream.splitOn newline).dropLast.map stripLine).filter fun request => ! request.isEmpty

theorem stripLine_append_newline (line : List UInt8) :
    stripLine (line ++ [newline]) = stripLine line :=
  Text.stripOf_append_singleton (by decide) line

theorem handleAll_eq_mapM (lines : List (List UInt8)) :
    handleAll reason lines =
      ((lines.map stripLine).filter fun request => ! request.isEmpty).mapM (handle reason) := by
  induction lines with
  | nil => rfl
  | cons line lines ih =>
      rw [List.map_cons]
      by_cases blank : stripLine line = []
      · rw [handleAll_cons_of_blank blank, ih, List.filter_cons_of_neg (by simp [blank])]
      · rw [handleAll_cons blank, ih, List.filter_cons_of_pos (by simp [blank]), List.mapM_cons]

theorem handleAll_pieces (stream : List UInt8) :
    handleAll reason (piecesEndingIn newline stream).1 = (requests stream).mapM (handle reason) := by
  rw [handleAll_eq_mapM, (Text.piecesEndingIn_eq_splitOn newline stream).1, List.map_map]
  simp only [Function.comp_def, stripLine_append_newline]
  rfl

/-! ## Chunks -/

theorem handleAll_append (lines more : List (List UInt8)) :
    handleAll reason (lines ++ more) =
      (do return (← handleAll reason lines) ++ (← handleAll reason more)) := by
  simp only [handleAll_eq_mapM, List.map_append, List.filter_append, List.mapM_append]

/-- Bytes that wait for the end of their line hold no request. -/
theorem handleAll_of_unfinished {waiting : List UInt8} (unfinished : newline ∉ waiting) :
    handleAll reason (piecesEndingIn newline (waiting ++ [])).1 = pure [] := by
  rw [List.append_nil, Text.piecesEndingIn_of_not_mem newline unfinished]
  rfl

theorem receiveAll_cons {chunk : List UInt8} (filled : chunk ≠ []) (waiting : List UInt8)
    (chunks : List (List UInt8)) :
    receiveAll reason waiting (chunk :: chunks) = do
      let (responses, left) ← receive reason waiting chunk
      let others ← receiveAll reason left chunks
      return responses ++ others := by
  rw [receiveAll]
  exact filled

/-- Bytes that wait for the end of their line are bytes of the next chunk. -/
theorem receiveAll_eq_handleAll {waiting : List UInt8} (unfinished : newline ∉ waiting)
    (chunks : List (List UInt8)) :
    receiveAll reason waiting chunks =
      handleAll reason
        (piecesEndingIn newline (waiting ++ (chunks.takeWhile (· ≠ [])).flatten)).1 := by
  induction chunks generalizing waiting with
  | nil => exact (handleAll_of_unfinished unfinished).symm
  | cons chunk chunks ih =>
      by_cases ended : chunk = []
      · rw [ended]
        exact (handleAll_of_unfinished unfinished).symm
      · have left := Text.stop_not_mem_left newline (waiting ++ chunk)
        rw [receiveAll_cons ended, receive, List.takeWhile_cons_of_pos (by simp [ended]),
          List.flatten_cons, ← List.append_assoc,
          Text.piecesEndingIn_append newline (waiting ++ chunk), handleAll_append, ← ih left]
        simp only [bind_assoc, pure_bind]

end Server

/-- Whatever the chunks are in which a connection delivers its bytes until it ends, its responses are
those to the requests in the whole stream, answered in order and in one session; so is the session they
lead to, and so is the halt, if there is one. -/
theorem connection_answers_whole_lines (reason : List UInt8 → Text) (chunks : List (List UInt8)) :
    Server.connection reason chunks =
      (Server.requests (chunks.takeWhile (· ≠ [])).flatten).mapM (Server.handle reason) := by
  rw [← Server.handleAll_pieces]
  exact Server.receiveAll_eq_handleAll List.not_mem_nil chunks

end MonkeyLang
