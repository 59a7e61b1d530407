/-
The functions of `input_funcs` for the input sequence: reading ahead
(`input_get_parse_block`, `input_get_data`), consuming and its undo, and
prepending and appending data, trees and streams with their undos.  Every
loop of `input.c` over the queue or the stash is a recursion on that list.
-/
import Colm.Input.Seq

namespace Colm

open InputImplSeq

section Read

variable (len : List UInt8 → Nat → Nat)

/-- The walk of `input_get_parse_block` from a buffer of the queue on: skip
`skip` bytes of the streams, then answer with a block of data, a tree, or the
end of the queue. -/
def getParseBlockFrom (eofMark : Bool) : List SeqBuf → Nat → InputResult × List UInt8
  | [], _ => (if eofMark then .eof else .eod, [])
  | b :: rest, skip =>
    if isStream b then
      match b.si.getParseBlock len skip with
      | .eod skip' => getParseBlockFrom eofMark rest skip'
      | .data block => (.data, block)
    else if b.type = .token then (.tree, [])
    else if b.type = .ignore then (.ignore, [])
    else getParseBlockFrom eofMark rest skip

/-- `input_get_parse_block( is, pskip, pdp, copied )`: the result and the
block `*pdp` points to, `*copied` bytes long (none unless `INPUT_DATA`). -/
def inputGetParseBlock (is : InputImplSeq) (skip : Nat) : InputResult × List UInt8 :=
  getParseBlockFrom len is.eofMark is.queue skip

end Read

/-- The walk of `input_get_data` from a buffer of the queue on: the bytes
copied to `dest`, at most `length`. -/
def getDataFrom : List SeqBuf → Nat → List UInt8
  | [], _ => []
  | b :: rest, length =>
    if isStream b then
      let out := b.si.getData length
      if out.length = 0 then getDataFrom rest length
      else if length - out.length = 0 then out
      else out ++ getDataFrom rest (length - out.length)
    else if b.type = .token then []
    else if b.type = .ignore then []
    else if length = 0 then []
    else getDataFrom rest length

/-- `input_get_data( is, dest, length )`: the count returned and the bytes
written to `dest`. -/
def inputGetData (is : InputImplSeq) (length : Nat) : Nat × List UInt8 :=
  let out := getDataFrom is.queue length
  (out.length, out)

/-- The loop of `input_consume_data` over the queue, with the count consumed
so far: consume from each stream and stash it, until `length` runs out (the
stream it runs out in stays) or a tree is reached.  The location the last
branch records is left out: it is taken only for a buffer of a type this
file never creates. -/
def consumeDataFrom : Nat → Nat → List SeqBuf → List SeqBuf → Nat × List SeqBuf × List SeqBuf
  | _, consumed, [], stash => (consumed, [], stash)
  | length, consumed, b :: rest, stash =>
    if isStream b then
      let (slen, sub) := b.si.consumeData length
      if length - slen = 0 then (consumed + slen, { b with si := sub } :: rest, stash)
      else consumeDataFrom (length - slen) (consumed + slen) rest ({ b with si := sub } :: stash)
    else if isTree b then (consumed, b :: rest, stash)
    else if length = 0 then (consumed, b :: rest, stash)
    else consumeDataFrom length consumed rest (b :: stash)

/-- `input_consume_data( si, length, loc )`: the count consumed and the new
state. -/
def inputConsumeData (si : InputImplSeq) (length : Nat) : Nat × InputImplSeq :=
  let (consumed, queue, stash) := consumeDataFrom length 0 si.queue si.stash
  (consumed, { si with queue := queue, stash := stash })

/-- The loop of `input_undo_consume_data`: push back into the stream at the
head of the queue, and while bytes remain, bring the last stashed buffer
back to the head.  It recurses on the stash, which every turn pops. -/
def undoConsumeDataFrom (data : List UInt8) :
    List SeqBuf → Nat → List SeqBuf → Option (List SeqBuf × List SeqBuf)
  | _, _, [] => none
  | stash, remaining, b :: rest =>
    if isStream b then
      let (pushed, sub) := b.si.undoConsumeData data remaining
      if remaining - pushed = 0 then some ({ b with si := sub } :: rest, stash)
      else
        match stash with
        | [] => none
        | s :: stash' =>
          undoConsumeDataFrom data stash' (remaining - pushed) (s :: { b with si := sub } :: rest)
    else
      match stash with
      | [] => none
      | s :: stash' => undoConsumeDataFrom data stash' remaining (s :: b :: rest)

/-- `input_undo_consume_data( si, data, length )`, which asserts
`length > 0`. -/
def inputUndoConsumeData (si : InputImplSeq) (data : List UInt8) (length : Nat) :
    Option (Nat × InputImplSeq) :=
  if length > 0 then
    (undoConsumeDataFrom data si.stash length si.queue).map fun (queue, stash) =>
      (length, { si with queue := queue, stash := stash })
  else none

/-- The loop of `input_consume_tree`: stash the streams at the head of the
queue, then stash the tree buffer that must follow and return its tree. -/
def consumeTreeFrom : List SeqBuf → List SeqBuf → Option (Nat × List SeqBuf × List SeqBuf)
  | [], _ => none
  | b :: rest, stash =>
    if isStream b then consumeTreeFrom rest (b :: stash)
    else if b.type = .token ∨ b.type = .ignore then some (b.tree, rest, b :: stash)
    else none

/-- `input_consume_tree( si )`. -/
def inputConsumeTree (si : InputImplSeq) : Option (Nat × InputImplSeq) :=
  (consumeTreeFrom si.queue si.stash).map fun (tree, queue, stash) =>
    (tree, { si with queue := queue, stash := stash })

/-- The loop of `input_undo_consume_tree`: bring stashed buffers back to the
head of the queue up to the tree buffer, whose tree must be `tree`. -/
def undoConsumeTreeFrom (tree : Nat) : List SeqBuf → List SeqBuf → Option (List SeqBuf × List SeqBuf)
  | [], _ => none
  | b :: stash, queue =>
    if isTree b then (if b.tree = tree then some (b :: queue, stash) else none)
    else undoConsumeTreeFrom tree stash (b :: queue)

/-- `input_undo_consume_tree( si, tree, ignore )`. -/
def inputUndoConsumeTree (si : InputImplSeq) (tree : Nat) : Option InputImplSeq :=
  (undoConsumeTreeFrom tree si.stash si.queue).map fun (queue, stash) =>
    { si with queue := queue, stash := stash }

/-- `input_prepend_data( si, data, length )`. -/
def inputPrependData (si : InputImplSeq) (data : List UInt8) : InputImplSeq :=
  si.maybeSplit.seqPrepend { type := .accum, si := colmImplNewText data, ownSi := true }

/-- `input_undo_prepend_data( si, length )`. -/
def inputUndoPrependData (si : InputImplSeq) : Option InputImplSeq :=
  si.seqPopHead.map Prod.snd

/-- `input_prepend_tree( si, tree, ignore )`. -/
def inputPrependTree (si : InputImplSeq) (tree : Nat) (ignore : Bool) : InputImplSeq :=
  si.maybeSplit.seqPrepend { type := if ignore then .ignore else .token, tree := tree }

/-- `input_undo_prepend_tree( si )`, which asserts a tree buffer at the head. -/
def inputUndoPrependTree (si : InputImplSeq) : Option (Nat × InputImplSeq) :=
  match si.queue with
  | b :: _ =>
    if b.type = .token ∨ b.type = .ignore then
      si.seqPopHead.map fun (b, si) => (b.tree, si)
    else none
  | [] => none

/-- `input_prepend_stream( si, stream )`. -/
def inputPrependStream (si : InputImplSeq) (stream : StreamImpl) : InputImplSeq :=
  si.maybeSplit.seqPrepend { type := .source, si := stream }

/-- `input_undo_prepend_stream( is )`. -/
def inputUndoPrependStream (si : InputImplSeq) : Option InputImplSeq :=
  si.seqPopHead.map Prod.snd

/-- `input_append_data( si, data, length )`, without `OPTIM_APPEND`. -/
def inputAppendData (si : InputImplSeq) (data : List UInt8) : InputImplSeq :=
  si.seqAppend { type := .accum, si := colmImplNewText data, ownSi := true }

/-- `input_undo_append_data( si, length )`, without `OPTIM_APPEND`. -/
def inputUndoAppendData (si : InputImplSeq) : Option InputImplSeq :=
  si.seqPopTail.map Prod.snd

/-- `input_append_tree( si, tree )`. -/
def inputAppendTree (si : InputImplSeq) (tree : Nat) : InputImplSeq :=
  si.seqAppend { type := .token, tree := tree }

/-- `input_undo_append_tree( si )`. -/
def inputUndoAppendTree (si : InputImplSeq) : Option (Nat × InputImplSeq) :=
  si.seqPopTail.map fun (b, si) => (b.tree, si)

/-- `input_append_stream( si, stream )`. -/
def inputAppendStream (si : InputImplSeq) (stream : StreamImpl) : InputImplSeq :=
  si.seqAppend { type := .source, si := stream }

/-- `input_undo_append_stream( si )`. -/
def inputUndoAppendStream (si : InputImplSeq) : Option InputImplSeq :=
  si.seqPopTail.map Prod.snd

end Colm
