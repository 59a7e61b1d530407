/-
The input sequence `input_impl_seq` of `input.c`: a queue of buffers, each a
sub-stream of bytes or a tree, and a stash of the buffers consumed from it so
that a parse can be undone.  The doubly linked queue and the singly linked
stash are modelled as lists, head first; a step that would dereference a
null pointer or fail an `assert` returns `none`.
-/
import Mathlib.Order.Basic
import Mathlib.Data.Nat.Defs

namespace Colm

/-- Modelled from the spec: a sub-stream (`struct stream_impl`), whose code
is not in `input.c`, as its pending bytes and the count of bytes consumed
from it. -/
structure StreamImpl where
  pending : List UInt8
  consumed : Nat
deriving DecidableEq, Repr

/-- Modelled from the spec: `colm_impl_new_text( name, data, len )`, a stream
of `data`. -/
def colmImplNewText (data : List UInt8) : StreamImpl :=
  ⟨data, 0⟩

/-- Modelled from the spec: `colm_impl_consumed( name, len )`, a stream that
has consumed `len` bytes and holds none. -/
def colmImplConsumed (len : Nat) : StreamImpl :=
  ⟨[], len⟩

namespace StreamImpl

/-- Modelled from the spec: `consume_data( length )`, which takes up to
`length` bytes from the front. -/
def consumeData (s : StreamImpl) (length : Nat) : Nat × StreamImpl :=
  let k := min length s.pending.length
  (k, ⟨s.pending.drop k, s.consumed + k⟩)

/-- Modelled from the spec: `undo_consume_data( data, length )`, which puts
back in front the last bytes of `data[0, length)`, as many as were
consumed. -/
def undoConsumeData (s : StreamImpl) (data : List UInt8) (length : Nat) : Nat × StreamImpl :=
  let m := min length s.consumed
  (m, ⟨(data.take length).drop (length - m) ++ s.pending, s.consumed - m⟩)

/-- Modelled from the spec: `get_data( dest, length )`, the bytes copied to
`dest`, at most `length` from the front, without consuming them. -/
def getData (s : StreamImpl) (length : Nat) : List UInt8 :=
  s.pending.take length

end StreamImpl

/-- The `type` of a `seq_buf`. -/
inductive SeqBufType
  | token | ignore | source | accum
deriving DecidableEq, Repr

/-- `struct seq_buf` without its links: its type, its sub-stream (for
`SB_SOURCE` and `SB_ACCUM`), its tree (for `SB_TOKEN` and `SB_IGNORE`, a tree
identified by its `id`) and whether it owns its sub-stream.  `new_seq_buf`
zeroes all of them. -/
structure SeqBuf where
  type : SeqBufType
  si : StreamImpl := ⟨[], 0⟩
  tree : Nat := 0
  ownSi : Bool := false
deriving DecidableEq, Repr

/-- `is_tree( b )`. -/
def isTree (b : SeqBuf) : Bool :=
  b.type == .token || b.type == .ignore

/-- `is_stream( b )`. -/
def isStream (b : SeqBuf) : Bool :=
  b.type == .source || b.type == .accum

/-- `struct input_impl_seq` as `input.c` uses it: the queue and the stash,
head first, the end-of-file mark and the position.  The name, the type tag
and the function table are never read here and are left out. -/
structure InputImplSeq where
  queue : List SeqBuf
  stash : List SeqBuf
  eofMark : Bool
  line : Int
  column : Int
  byte : Int
deriving DecidableEq, Repr

/-- `init_input_impl_seq( is, name )`. -/
def initInputImplSeq : InputImplSeq :=
  ⟨[], [], false, 1, 1, 0⟩

/-- The results of `get_parse_block`. -/
inductive InputResult
  | data | eod | eof | tree | ignore
deriving DecidableEq, Repr

/-- What a sub-stream's `get_parse_block` answers: a block of its bytes, or
`INPUT_EOD` with the skip still to go past it. -/
inductive SubBlock
  | data (block : List UInt8)
  | eod (skip : Nat)
deriving DecidableEq, Repr

/-- Modelled from the spec: a sub-stream's `get_parse_block( pskip, pdp,
copied )`, at offset `skip` of the pending bytes a block of `len` bytes (cut
at the end of the pending bytes), or `INPUT_EOD` with `skip` less the pending
length. -/
def StreamImpl.getParseBlock (len : List UInt8 → Nat → Nat) (s : StreamImpl) (skip : Nat) :
    SubBlock :=
  if skip < s.pending.length then .data ((s.pending.drop skip).take (len s.pending skip))
  else .eod (skip - s.pending.length)

namespace InputImplSeq

variable (si : InputImplSeq)

/-- `input_stream_stash_head`. -/
def stashHead (b : SeqBuf) : InputImplSeq :=
  { si with stash := b :: si.stash }

/-- `input_stream_pop_stash`: reads `si->stash->next`, so the stash must not
be empty. -/
def popStash : Option (SeqBuf × InputImplSeq) :=
  match si.stash with
  | [] => none
  | b :: rest => some (b, { si with stash := rest })

/-- `input_stream_seq_pop_head`: reads `is->queue->next`. -/
def seqPopHead : Option (SeqBuf × InputImplSeq) :=
  match si.queue with
  | [] => none
  | b :: rest => some (b, { si with queue := rest })

/-- `input_stream_seq_append`. -/
def seqAppend (b : SeqBuf) : InputImplSeq :=
  { si with queue := si.queue ++ [b] }

/-- `input_stream_seq_pop_tail`: reads `is->queue_tail->prev`. -/
def seqPopTail : Option (SeqBuf × InputImplSeq) :=
  match si.queue.getLast? with
  | none => none
  | some b => some (b, { si with queue := si.queue.dropLast })

/-- `input_stream_seq_prepend`. -/
def seqPrepend (b : SeqBuf) : InputImplSeq :=
  { si with queue := b :: si.queue }

/-- `maybe_split`: before something goes in front of a partly consumed
stream, move its consumed count to a new `SB_ACCUM` buffer on the stash. -/
def maybeSplit : InputImplSeq :=
  match si.queue with
  | b :: rest =>
    if isStream b ∧ b.si.consumed > 0 then
      { si with queue := { b with si := { b.si with consumed := 0 } } :: rest }.stashHead
        { type := .accum, si := colmImplConsumed b.si.consumed, ownSi := true }
    else si
  | [] => si

/-- `input_set_eof_mark`. -/
def setEofMark (eofMark : Bool) : InputImplSeq :=
  { si with eofMark := eofMark }

end InputImplSeq

end Colm
