import Mathlib.Data.List.Basic

/-!
# Reading lines from pieces

A reader that gets its input in pieces, keeps the unfinished line in a buffer
and handles the finished ones in order reads the same from any two ways to cut
the input (`readChunks_eq`), and so does a decoder before it that goes through
the input symbol by symbol.

Both results are one: a fold over pieces that is a fold over their symbols does
not depend on the cuts. For the reader that is `readPiece_eq`, which says that
appending a piece to the buffer and taking the finished lines off is the same as
going through the piece symbol by symbol.
-/

namespace Eidetic.Lib

/-! ## Decoding -/

section

variable {β δ α : Type} (step : δ → β → δ × List α)

/-- What a decoder makes of its input. -/
def decode (d : δ) : List β → δ × List α
  | [] => (d, [])
  | b :: rest =>
    let (d, out) := step d b
    let (d, more) := decode d rest
    (d, out ++ more)

theorem decode_append (d : δ) (xs ys : List β) :
    decode step d (xs ++ ys) =
      ((decode step (decode step d xs).1 ys).1,
        (decode step d xs).2 ++ (decode step (decode step d xs).1 ys).2) := by
  induction xs generalizing d with
  | nil => rfl
  | cons x xs ih =>
    rw [List.cons_append, decode, decode]
    dsimp only
    rw [ih, List.append_assoc]

end

/-! ## Lines -/

section

variable {α σ : Type} [BEq α] [LawfulBEq α] (sep : α) (handle : σ → List α → σ)

/-- A piece of input: the buffer and the piece are split at the separators, the
last part is kept. -/
def readPiece (s : List α × σ) (piece : List α) : List α × σ :=
  let lines := (s.1 ++ piece).splitOn sep
  (lines.getLastD [], lines.dropLast.foldl handle s.2)

/-- One symbol: a separator ends the line. -/
def readSymbol (s : List α × σ) (x : α) : List α × σ :=
  if x == sep then ([], handle s.2 s.1) else (s.1 ++ [x], s.2)

theorem splitOn_line {line : List α} (h : sep ∉ line) : line.splitOn sep = [line] := by
  rw [List.splitOn_eq_splitOnP]
  refine List.splitOnP_eq_singleton fun x hx => ?_
  have hne : x ≠ sep := fun heq => h (heq ▸ hx)
  simpa using hne

theorem splitOn_first {line rest : List α} (h : sep ∉ line) :
    (line ++ sep :: rest).splitOn sep = line :: rest.splitOn sep := by
  rw [List.splitOn_eq_splitOnP, List.splitOn_eq_splitOnP]
  refine List.splitOnP_append_cons_of_forall_mem (fun x hx => ?_) sep (by simp) rest
  have hne : x ≠ sep := fun heq => h (heq ▸ hx)
  simpa using hne

/-- A piece is read symbol by symbol. -/
theorem readPiece_eq (s : List α × σ) (h : sep ∉ s.1) (piece : List α) :
    readPiece sep handle s piece = piece.foldl (readSymbol sep handle) s := by
  obtain ⟨buffer, t⟩ := s
  induction piece generalizing buffer t with
  | nil =>
    rw [readPiece, List.append_nil, splitOn_line sep h]
    rfl
  | cons x piece ih =>
    rw [List.foldl_cons, readSymbol]
    split
    next hsep =>
      obtain rfl := eq_of_beq hsep
      rw [← ih [] (handle t buffer) (by simp), readPiece, readPiece, splitOn_first x h]
      dsimp only
      rw [List.nil_append]
      cases hlines : piece.splitOn x with
      | nil => exact absurd hlines (List.splitOn_ne_nil x piece)
      | cons line lines => rfl
    next hne =>
      have hbuffer : sep ∉ buffer ++ [x] := by
        intro hmem
        rcases List.mem_append.mp hmem with hmem | hmem
        · exact h hmem
        · exact hne (by rw [List.mem_singleton.mp hmem]; exact BEq.rfl)
      rw [← ih (buffer ++ [x]) t hbuffer, readPiece, readPiece]
      dsimp only
      rw [List.append_assoc, List.singleton_append]

/-- What is kept is part of a line. -/
theorem readSymbols_buffer (s : List α × σ) (h : sep ∉ s.1) (xs : List α) :
    sep ∉ (xs.foldl (readSymbol sep handle) s).1 := by
  induction xs generalizing s with
  | nil => exact h
  | cons x xs ih =>
    refine ih _ ?_
    rw [readSymbol]
    split
    next => exact List.not_mem_nil
    next hne =>
      intro hmem
      rcases List.mem_append.mp hmem with hmem | hmem
      · exact h hmem
      · exact hne (by rw [List.mem_singleton.mp hmem]; exact BEq.rfl)

/-- A chunk of input is decoded and read on. -/
def readChunk {β δ : Type} (step : δ → β → δ × List α) (s : δ × List α × σ) (chunk : List β) :
    δ × List α × σ :=
  ((decode step s.1 chunk).1, readPiece sep handle s.2 (decode step s.1 chunk).2)

/-- However the input is cut, it is decoded and read symbol by symbol. -/
theorem readChunks_eq {β δ : Type} (step : δ → β → δ × List α) (chunks : List (List β))
    (s : δ × List α × σ) (h : sep ∉ s.2.1) :
    chunks.foldl (readChunk sep handle step) s =
      ((decode step s.1 chunks.flatten).1,
        (decode step s.1 chunks.flatten).2.foldl (readSymbol sep handle) s.2) := by
  induction chunks generalizing s with
  | nil => rfl
  | cons chunk chunks ih =>
    have hbuffer : sep ∉ (readChunk sep handle step s chunk).2.1 := by
      rw [readChunk, readPiece_eq sep handle s.2 h]
      exact readSymbols_buffer sep handle s.2 h _
    rw [List.foldl_cons, ih _ hbuffer, List.flatten_cons, decode_append, List.foldl_append,
      ← readPiece_eq sep handle s.2 h]
    rfl

/-- A line of the input is handled. -/
theorem readSymbols_line (t : σ) {line : List α} (h : sep ∉ line) (rest : List α) :
    (line ++ sep :: rest).foldl (readSymbol sep handle) ([], t)
      = rest.foldl (readSymbol sep handle) ([], handle t line) := by
  have hline : ∀ buffer, line.foldl (readSymbol sep handle) (buffer, t) = (buffer ++ line, t) := by
    induction line with
    | nil => intro buffer; rw [List.append_nil]; rfl
    | cons x line ih =>
      intro buffer
      have hx : (x == sep) = false := by
        simpa using fun heq : x = sep => h (heq ▸ List.mem_cons_self ..)
      rw [List.foldl_cons, readSymbol, hx, if_neg (by simp),
        ih (fun hmem => h (List.mem_cons_of_mem _ hmem)), List.append_assoc, List.singleton_append]
  rw [List.foldl_append, hline, List.foldl_cons, List.nil_append, readSymbol, if_pos BEq.rfl]

end

end Eidetic.Lib
