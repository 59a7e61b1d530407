/-
Runs of the input sequence as a parser makes them: forward operations, and
undos that take back the latest forward operation not yet taken back, each
called with what that operation took or returned.  `input_consume_tree`
stashes the streams in front of the tree together with it, but
`input_undo_consume_tree` brings back only the tree buffer.  A stream that
no consume of data took bytes from, such as an empty one, stays in the stash,
and the undo of the append that added it then pops the tail of an empty
queue.
-/
import Colm.Input.Content

namespace Colm

/-- An undo of `input_funcs_seq` with the arguments its caller passes: the
bytes and the count a consume of data took, the tree a consume of a tree
returned.  The lengths passed to the other undos are not read. -/
inductive InputUndo
  | consumeData (data : List UInt8) (length : Nat)
  | consumeTree (tree : Nat)
  | prependData | prependTree | prependStream
  | appendData | appendTree | appendStream
deriving DecidableEq, Repr

/-- The undo, run on the input sequence; `none` where it dereferences a null
pointer or fails an assertion. -/
def InputUndo.run : InputUndo → InputImplSeq → Option InputImplSeq
  | consumeData data length, si => (inputUndoConsumeData si data length).map Prod.snd
  | consumeTree tree, si => inputUndoConsumeTree si tree
  | prependData, si => inputUndoPrependData si
  | prependTree, si => (inputUndoPrependTree si).map Prod.snd
  | prependStream, si => inputUndoPrependStream si
  | appendData, si => inputUndoAppendData si
  | appendTree, si => (inputUndoAppendTree si).map Prod.snd
  | appendStream, si => inputUndoAppendStream si

/-- The undo a caller owes for a forward operation applied to `si` that
returned `r`; `input_set_eof_mark` has none. -/
def InputOp.undoOf : InputOp → InputImplSeq → Option Nat → Option InputUndo
  | .consumeData length, si, r => some (.consumeData (inputGetData si length).2 (r.getD 0))
  | .consumeTree, _, r => some (.consumeTree (r.getD 0))
  | .prependData _, _, _ => some .prependData
  | .prependTree _ _, _, _ => some .prependTree
  | .prependStream _, _, _ => some .prependStream
  | .appendData _, _, _ => some .appendData
  | .appendTree _, _, _ => some .appendTree
  | .appendStream _, _, _ => some .appendStream
  | .setEofMark _, _, _ => none

/-- A step of a run: a forward operation, or the undo of the latest forward
operation not yet undone. -/
inductive RunStep
  | forward (op : InputOp)
  | undo
deriving Repr

/-- The state of a run: the input sequence and the undos still owed, the
latest first. -/
structure RunState where
  si : InputImplSeq
  owed : List InputUndo
deriving DecidableEq, Repr

/-- One step of a run; `none` where the operation fails, or at an undo with
nothing owed. -/
def RunStep.run : RunStep → RunState → Option RunState
  | .forward op, ⟨si, owed⟩ =>
    (op.run si).map fun (r, si') => ⟨si', (op.undoOf si r).toList ++ owed⟩
  | .undo, ⟨_, []⟩ => none
  | .undo, ⟨si, u :: owed⟩ => (u.run si).map fun si' => ⟨si', owed⟩

/-- A run of steps. -/
def runSteps : List RunStep → RunState → Option RunState
  | [], st => some st
  | step :: steps, st => (step.run st).bind (runSteps steps)

/-- A call of `input_funcs_seq`: a forward operation, or an undo with the
arguments its caller passes, in any order. -/
inductive InputCall
  | forward (op : InputOp)
  | undo (u : InputUndo)
deriving Repr

/-- The call, run on the input sequence. -/
def InputCall.run : InputCall → InputImplSeq → Option InputImplSeq
  | forward op, si => (op.run si).map Prod.snd
  | undo u, si => u.run si

/-- A sequence of calls. -/
def runCalls : List InputCall → InputImplSeq → Option InputImplSeq
  | [], si => some si
  | c :: cs, si => (c.run si).bind (runCalls cs)

/-- The call a step makes: its forward operation, or the undo owed latest;
`none` at an undo with nothing owed. -/
def RunStep.call : RunStep → RunState → Option InputCall
  | .forward op, _ => some (.forward op)
  | .undo, ⟨_, owed⟩ => owed.head?.map .undo

/-- The calls a run of steps makes, up to the first step that fails. -/
def runStepsCalls : List RunStep → RunState → List InputCall
  | [], _ => []
  | step :: steps, st =>
    match step.call st, step.run st with
    | some c, some st' => c :: runStepsCalls steps st'
    | _, _ => []

/-- A step of a run that does not fail makes its call. -/
theorem RunStep.run_call {step : RunStep} {st st' : RunState} (h : step.run st = some st') :
    ∃ c : InputCall, step.call st = some c ∧ c.run st.si = some st'.si := by
  match step, st, h with
  | .forward op, ⟨si, owed⟩, h =>
    obtain ⟨⟨r, si'⟩, hop, rfl⟩ := Option.map_eq_some'.mp h
    exact ⟨.forward op, rfl, by simp [InputCall.run, hop]⟩
  | .undo, ⟨si, u :: owed⟩, h =>
    obtain ⟨si', hu, rfl⟩ := Option.map_eq_some'.mp h
    exact ⟨.undo u, rfl, hu⟩

/-- A run of steps that does not fail makes its calls, and they leave the
sequence the run leaves. -/
theorem runSteps_calls : ∀ (steps : List RunStep) {st st' : RunState},
    runSteps steps st = some st' → runCalls (runStepsCalls steps st) st.si = some st'.si
  | [], _, _, h => by cases h; rfl
  | step :: steps, st, _, h => by
    obtain ⟨st1, h1, hrest⟩ := Option.bind_eq_some.mp h
    obtain ⟨c, hcall, hc⟩ := RunStep.run_call h1
    simp only [runStepsCalls, hcall, h1, runCalls, hc, Option.some_bind]
    exact runSteps_calls steps hrest

/-- An empty text appended by `input_append_data( si, "", 0 )`. -/
def emptyText : SeqBuf :=
  { type := .accum, si := colmImplNewText [], ownSi := true }

/-- An empty text and a token appended, the token consumed, then the consume
and the append of the token undone: the queue is empty and the empty text
is left in the stash, so the undo still owed, that of the first append, pops
the tail of an empty queue (`input_stream_seq_pop_tail` reads
`queue_tail->prev` with `queue_tail` null). -/
theorem undoAppendData_pops_empty_queue :
    runSteps [.forward (.appendData []), .forward (.appendTree 1), .forward .consumeTree, .undo,
        .undo] ⟨initInputImplSeq, []⟩ =
      some ⟨{ initInputImplSeq with stash := [emptyText] }, [.appendData]⟩ ∧
    { initInputImplSeq with stash := [emptyText] }.seqPopTail = none :=
  ⟨rfl, rfl⟩

end Colm
