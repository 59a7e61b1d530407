/-
The position of the input sequence: `update_position_seq` after consuming
text and `undo_position_seq` after sending it back.  The undo restores the
line and the byte, but leaves the column where the consumed text put it, as
the `FIXME` in the source says.
-/
import Colm.Input.Seq

namespace Colm

/-- `'\n'`. -/
def newline : UInt8 := 10

/-- One byte of the loop of `update_position_seq`. -/
def updatePositionByte (is : InputImplSeq) (c : UInt8) : InputImplSeq :=
  if c ≠ newline then { is with column := is.column + 1 }
  else { is with line := is.line + 1, column := 1 }

/-- `update_position_seq( is, data, length )`. -/
def updatePositionSeq (is : InputImplSeq) (data : List UInt8) : InputImplSeq :=
  let is := data.foldl updatePositionByte is
  { is with byte := is.byte + data.length }

/-- One byte of the loop of `undo_position_seq`. -/
def undoPositionByte (is : InputImplSeq) (c : UInt8) : InputImplSeq :=
  if c = newline then { is with line := is.line - 1 } else is

/-- `undo_position_seq( is, data, length )`. -/
def undoPositionSeq (is : InputImplSeq) (data : List UInt8) : InputImplSeq :=
  let is := data.foldl undoPositionByte is
  { is with byte := is.byte - data.length }

section Folds

variable (data : List UInt8)

/-- The update loop moves the line by the newlines of the text and touches
only the line and the column. -/
theorem foldl_updatePositionByte (is : InputImplSeq) :
    (data.foldl updatePositionByte is).line = is.line + data.count newline ∧
      (data.foldl updatePositionByte is).byte = is.byte ∧
      (data.foldl updatePositionByte is).queue = is.queue ∧
      (data.foldl updatePositionByte is).stash = is.stash ∧
      (data.foldl updatePositionByte is).eofMark = is.eofMark := by
  induction data generalizing is with
  | nil => simp
  | cons c rest ih =>
    obtain ⟨h1, h2, h3, h4, h5⟩ := ih (updatePositionByte is c)
    rw [List.foldl_cons, h1, h2, h3, h4, h5, List.count_cons]
    by_cases hc : c = newline
    · simp [updatePositionByte, hc]
      omega
    · simp [updatePositionByte, hc]

/-- The undo loop moves the line back by the newlines of the text and
touches nothing else. -/
theorem foldl_undoPositionByte (is : InputImplSeq) :
    data.foldl undoPositionByte is = { is with line := is.line - data.count newline } := by
  induction data generalizing is with
  | nil => simp
  | cons c rest ih =>
    rw [List.foldl_cons, ih, List.count_cons]
    by_cases hc : c = newline
    · simp [undoPositionByte, hc]
      omega
    · simp [undoPositionByte, hc]

end Folds

/-- Sending back text just consumed restores the line and the byte, and
everything but the position. -/
theorem undoPositionSeq_updatePositionSeq (is : InputImplSeq) (data : List UInt8) :
    (undoPositionSeq (updatePositionSeq is data) data).line = is.line ∧
      (undoPositionSeq (updatePositionSeq is data) data).byte = is.byte ∧
      (undoPositionSeq (updatePositionSeq is data) data).queue = is.queue ∧
      (undoPositionSeq (updatePositionSeq is data) data).stash = is.stash ∧
      (undoPositionSeq (updatePositionSeq is data) data).eofMark = is.eofMark := by
  obtain ⟨h1, h2, h3, h4, h5⟩ := foldl_updatePositionByte data is
  simp only [undoPositionSeq, updatePositionSeq, foldl_undoPositionByte, h1, h2, h3, h4, h5,
    and_true]
  omega

/-- The column is not restored: consuming `a` from the start of the text and
sending it back leaves the column at 2. -/
theorem undoPositionSeq_column_not_restored :
    initInputImplSeq.column = 1 ∧
      (undoPositionSeq (updatePositionSeq initInputImplSeq [97]) [97]).column = 2 :=
  ⟨rfl, rfl⟩

end Colm
