/-
What the input sequence is for: a list of items that the parser reads from
the front and that operations extend at either end.  The view of a sequence
is its content and its end-of-file mark.  Every forward operation of
`input_funcs_seq` acts on the view as the list operation it stands for, and
so does every run of them, from any state.
-/
import Colm.Input.Undo

namespace Colm

/-- The bytes at the front of a content, before its first tree. -/
def leadingBytes : List Item → List UInt8
  | .byte b :: rest => b :: leadingBytes rest
  | _ => []

/-- A content without the bytes at its front. -/
def dropBytes : List Item → List Item
  | .byte _ :: rest => dropBytes rest
  | l => l

/-- What a parser sees of an input sequence. -/
structure InputView where
  content : List Item
  eofMark : Bool
deriving DecidableEq, Repr

/-- The view of an input sequence. -/
def InputImplSeq.view (si : InputImplSeq) : InputView :=
  ⟨si.content, si.eofMark⟩

/-- The forward operations of `input_funcs_seq` on an input sequence. -/
inductive InputOp
  | prependData (data : List UInt8)
  | prependTree (tree : Nat) (ignore : Bool)
  | prependStream (stream : StreamImpl)
  | appendData (data : List UInt8)
  | appendTree (tree : Nat)
  | appendStream (stream : StreamImpl)
  | consumeData (length : Nat)
  | consumeTree
  | setEofMark (eofMark : Bool)
deriving Repr

namespace InputOp

/-- An operation on the input sequence, with the count or the tree it
returns; `none` where it fails an assertion. -/
def run : InputOp → InputImplSeq → Option (Option Nat × InputImplSeq)
  | prependData data, si => some (none, inputPrependData si data)
  | prependTree tree ignore, si => some (none, inputPrependTree si tree ignore)
  | prependStream stream, si => some (none, inputPrependStream si stream)
  | appendData data, si => some (none, inputAppendData si data)
  | appendTree tree, si => some (none, inputAppendTree si tree)
  | appendStream stream, si => some (none, inputAppendStream si stream)
  | consumeData length, si =>
    let (consumed, si) := inputConsumeData si length
    some (some consumed, si)
  | consumeTree, si => (inputConsumeTree si).map fun (tree, si) => (some tree, si)
  | setEofMark eofMark, si => some (none, si.setEofMark eofMark)

/-- The list operation each operation stands for. -/
def onView : InputOp → InputView → Option (Option Nat × InputView)
  | prependData data, v => some (none, { v with content := data.map .byte ++ v.content })
  | prependTree tree _, v => some (none, { v with content := .tree tree :: v.content })
  | prependStream stream, v =>
    some (none, { v with content := stream.pending.map .byte ++ v.content })
  | appendData data, v => some (none, { v with content := v.content ++ data.map .byte })
  | appendTree tree, v => some (none, { v with content := v.content ++ [.tree tree] })
  | appendStream stream, v =>
    some (none, { v with content := v.content ++ stream.pending.map .byte })
  | consumeData length, v =>
    let k := min length (leadingBytes v.content).length
    some (some k, { v with content := v.content.drop k })
  | consumeTree, v =>
    match dropBytes v.content with
    | .tree tree :: rest => some (some tree, { v with content := rest })
    | _ => none
  | setEofMark eofMark, v => some (none, { v with eofMark := eofMark })

end InputOp

/-- A run of operations, with what each returns. -/
def runOps {σ : Type} (step : InputOp → σ → Option (Option Nat × σ)) :
    List InputOp → σ → Option (List (Option Nat) × σ)
  | [], s => some ([], s)
  | op :: ops, s =>
    (step op s).bind fun (r, s) => (runOps step ops s).map fun (rs, s) => (r :: rs, s)

/-- A run of steps that each commute with `f` commutes with `f`. -/
theorem runOps_map {σ τ : Type} {step : InputOp → σ → Option (Option Nat × σ)}
    {step' : InputOp → τ → Option (Option Nat × τ)} (f : σ → τ)
    (hstep : ∀ op s, (step op s).map (Prod.map id f) = step' op (f s)) (ops : List InputOp) (s : σ) :
    (runOps step ops s).map (Prod.map id f) = runOps step' ops (f s) := by
  induction ops generalizing s with
  | nil => rfl
  | cons op ops ih =>
    rw [runOps, runOps, ← hstep]
    cases step op s with
    | none => rfl
    | some rs =>
      obtain ⟨r, s'⟩ := rs
      simp only [Option.some_bind, Option.map_some', Prod.map_fst, Prod.map_snd, ← ih s']
      cases runOps step ops s' <;> rfl

section Content

variable {si : InputImplSeq} {b : SeqBuf} {q : List SeqBuf}

@[simp] theorem leadingBytes_map_byte_append (data : List UInt8) (l : List Item) :
    leadingBytes (data.map .byte ++ l) = data ++ leadingBytes l := by
  induction data with
  | nil => rfl
  | cons c data ih => simp [leadingBytes, ih]

@[simp] theorem dropBytes_map_byte_append (data : List UInt8) (l : List Item) :
    dropBytes (data.map .byte ++ l) = dropBytes l := by
  induction data with
  | nil => rfl
  | cons c data ih => simp [dropBytes, ih]

/-- The leading bytes of the content are the bytes before the first tree
buffer. -/
theorem leadingBytes_bufsContent (q : List SeqBuf) : leadingBytes (bufsContent q) = bytesBefore q := by
  induction q with
  | nil => rfl
  | cons b rest ih =>
    rcases isStream_or_isTree b with hs | ⟨hs, -⟩
    · rw [bufsContent_cons, content_of_isStream hs, leadingBytes_map_byte_append, ih,
        bytesBefore_of_isStream hs]
    · simp [SeqBuf.content, hs, leadingBytes, bytesBefore_of_not_isStream hs]

/-- Past its leading bytes the content is that of the buffers from the first
tree buffer on. -/
theorem dropBytes_bufsContent (q : List SeqBuf) :
    dropBytes (bufsContent q) = bufsContent (q.dropWhile isStream) := by
  induction q with
  | nil => rfl
  | cons b rest ih =>
    rcases isStream_or_isTree b with hs | ⟨hs, -⟩
    · rw [bufsContent_cons, content_of_isStream hs, dropBytes_map_byte_append, ih,
        List.dropWhile_cons_of_pos hs]
    · simp [SeqBuf.content, hs, dropBytes, List.dropWhile_cons_of_neg]

@[simp] theorem content_seqPrepend : (si.seqPrepend b).content = b.content ++ si.content :=
  bufsContent_cons

@[simp] theorem content_seqAppend : (si.seqAppend b).content = si.content ++ b.content := by
  simp [InputImplSeq.content, InputImplSeq.seqAppend, bufsContent]

@[simp] theorem eofMark_seqPrepend : (si.seqPrepend b).eofMark = si.eofMark :=
  rfl

@[simp] theorem eofMark_seqAppend : (si.seqAppend b).eofMark = si.eofMark :=
  rfl

@[simp] theorem eofMark_maybeSplit : si.maybeSplit.eofMark = si.eofMark := by
  unfold InputImplSeq.maybeSplit
  split
  · split <;> rfl
  · rfl

end Content

/-- Each operation acts on the view of the input sequence as the list
operation it stands for, returns what that returns, and fails exactly where
it fails. -/
theorem InputOp.run_view (op : InputOp) (si : InputImplSeq) :
    (op.run si).map (Prod.map id InputImplSeq.view) = op.onView si.view := by
  cases op with
  | prependData data =>
    simp [run, onView, inputPrependData, InputImplSeq.view, content_maybeSplit si, SeqBuf.content,
      isStream, colmImplNewText]
  | prependTree tree ignore =>
    cases ignore <;> simp [run, onView, inputPrependTree, InputImplSeq.view, content_maybeSplit si,
      SeqBuf.content, isStream]
  | prependStream stream =>
    simp [run, onView, inputPrependStream, InputImplSeq.view, content_maybeSplit si,
      SeqBuf.content, isStream]
  | appendData data =>
    simp [run, onView, inputAppendData, InputImplSeq.view, SeqBuf.content, isStream, colmImplNewText]
  | appendTree tree => simp [run, onView, inputAppendTree, InputImplSeq.view, SeqBuf.content, isStream]
  | appendStream stream =>
    simp [run, onView, inputAppendStream, InputImplSeq.view, SeqBuf.content, isStream]
  | consumeData length =>
    obtain ⟨h1, h2, -⟩ := consumeDataFrom_spec si.queue length 0 si.stash
    simp [run, onView, inputConsumeData, InputImplSeq.view, InputImplSeq.content,
      leadingBytes_bufsContent, h1, h2]
  | consumeTree =>
    simp only [run, onView, inputConsumeTree, InputImplSeq.view, InputImplSeq.content,
      dropBytes_bufsContent, consumeTreeFrom_eq]
    cases hq : si.queue.dropWhile isStream with
    | nil => rfl
    | cons b rest =>
      simp [SeqBuf.content, isStream_of_dropWhile_eq_cons hq, InputImplSeq.view,
        InputImplSeq.content]
  | setEofMark eofMark =>
    simp [run, onView, InputImplSeq.view, InputImplSeq.setEofMark, InputImplSeq.content]

/-- Every run of forward operations, from any state, acts on the view of the
input sequence as the run of the list operations: it returns the same
counts and trees, and fails exactly where that fails. -/
theorem runOps_view (ops : List InputOp) (si : InputImplSeq) :
    (runOps InputOp.run ops si).map (Prod.map id InputImplSeq.view) =
      runOps InputOp.onView ops si.view :=
  runOps_map InputImplSeq.view InputOp.run_view ops si

end Colm
