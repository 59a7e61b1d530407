/-
The read-ahead walks of `input.c` on the input sequence in memory:
`input_get_data` and `input_get_parse_block` follow the `next` pointers from
`queue` and write nothing.  From every memory that holds the list model's
queue, each returns what the list walk returns, within one turn more than
there are buffers.  So at every memory that calls from `init_input_impl_seq`
reach, `input_get_data` copies the bytes at the front of the content of the
sequence, and `input_get_parse_block` answers as the list model does.
-/
import Colm.Input.LinkedFuncs

namespace Colm

namespace SeqMem

variable (m : SeqMem) (len : List UInt8 → Nat → Nat)

/-- The loop of `input_get_data` from the buffer at `buf`, for at most
`fuel` turns: the bytes copied to `dest`. -/
def getDataLoop : Nat → Nat → Nat → Option (List UInt8)
  | 0, _, _ => none
  | fuel + 1, buf, length =>
    if buf = 0 then some []
    else
      let b := m.buf buf
      if isStream b then
        let out := b.si.getData length
        if out.length = 0 then getDataLoop fuel (m.links.next buf) length
        else if length - out.length = 0 then some out
        else (getDataLoop fuel (m.links.next buf) (length - out.length)).map (out ++ ·)
      else if b.type = .token then some []
      else if b.type = .ignore then some []
      else if length = 0 then some []
      else getDataLoop fuel (m.links.next buf) length

/-- `input_get_data( is, dest, length )`: the count returned and the bytes
written to `dest`. -/
def inputGetData (length : Nat) : Option (Nat × List UInt8) :=
  (m.getDataLoop (m.live.length + 1) m.links.queue length).map fun out => (out.length, out)

/-- The loop of `input_get_parse_block` from the buffer at `buf`, for at most
`fuel` turns, with `is->eof_mark`, a field outside the buffers, given as
`eofMark`. -/
def getParseBlockLoop (eofMark : Bool) : Nat → Nat → Nat → Option (InputResult × List UInt8)
  | 0, _, _ => none
  | fuel + 1, buf, skip =>
    if buf = 0 then some (if eofMark then .eof else .eod, [])
    else
      let b := m.buf buf
      if isStream b then
        match b.si.getParseBlock len skip with
        | .eod skip' => getParseBlockLoop eofMark fuel (m.links.next buf) skip'
        | .data block => some (.data, block)
      else if b.type = .token then some (.tree, [])
      else if b.type = .ignore then some (.ignore, [])
      else getParseBlockLoop eofMark fuel (m.links.next buf) skip

/-- `input_get_parse_block( is, pskip, pdp, copied )`: the result and the
block `*pdp` points to. -/
def inputGetParseBlock (eofMark : Bool) (skip : Nat) : Option (InputResult × List UInt8) :=
  m.getParseBlockLoop len eofMark (m.live.length + 1) m.links.queue skip

variable {m} {a fuel : Nat} {qa : List Nat}

/-- The loop of `input_get_data` walks the chain from `a` as the list walk
walks the buffers of the chain. -/
theorem getDataLoop_chain (hseg : NextSeg m.links.next a qa 0) (hfuel : qa.length < fuel)
    (length : Nat) : m.getDataLoop fuel a length = some (getDataFrom (qa.map m.buf) length) := by
  induction qa generalizing a fuel length with
  | nil =>
    obtain ⟨fuel, rfl⟩ := Nat.exists_eq_add_one_of_ne_zero (by omega : fuel ≠ 0)
    simp [getDataLoop, show a = 0 from hseg, getDataFrom]
  | cons x qa ih =>
    obtain ⟨fuel, rfl⟩ := Nat.exists_eq_add_one_of_ne_zero (by omega : fuel ≠ 0)
    obtain ⟨rfl, hx, hseg⟩ := hseg
    have ih' := fun length => ih hseg (Nat.lt_of_succ_lt_succ hfuel) length
    simp only [getDataLoop, if_neg hx, List.map_cons, getDataFrom]
    split_ifs <;> simp [ih']

/-- The loop of `input_get_parse_block` walks the chain from `a` as the list
walk walks the buffers of the chain. -/
theorem getParseBlockLoop_chain (eofMark : Bool) (hseg : NextSeg m.links.next a qa 0)
    (hfuel : qa.length < fuel) (skip : Nat) :
    m.getParseBlockLoop len eofMark fuel a skip =
      some (getParseBlockFrom len eofMark (qa.map m.buf) skip) := by
  induction qa generalizing a fuel skip with
  | nil =>
    obtain ⟨fuel, rfl⟩ := Nat.exists_eq_add_one_of_ne_zero (by omega : fuel ≠ 0)
    simp [getParseBlockLoop, show a = 0 from hseg, getParseBlockFrom]
  | cons x qa ih =>
    obtain ⟨fuel, rfl⟩ := Nat.exists_eq_add_one_of_ne_zero (by omega : fuel ≠ 0)
    obtain ⟨rfl, hx, hseg⟩ := hseg
    have ih' := fun skip => ih hseg (Nat.lt_of_succ_lt_succ hfuel) skip
    simp only [getParseBlockLoop, if_neg hx, List.map_cons, getParseBlockFrom]
    split_ifs
    · cases StreamImpl.getParseBlock len (m.buf a).si skip <;> simp [ih']
    all_goals simp [ih']

variable {si : InputImplSeq}

/-- The walks' fuel covers the queue. -/
theorem Holds.length_queue_lt {sa : List Nat} (hh : m.Holds qa sa) : qa.length < m.live.length + 1 := by
  have := hh.live.length_eq
  simp only [List.length_append] at this
  omega

/-- `input_get_data` in memory copies what the list model's copies. -/
theorem Represents.inputGetData (h : m.Represents si.queue si.stash) (length : Nat) :
    m.inputGetData length = some (Colm.inputGetData si length) := by
  obtain ⟨qa, sa, hh, hq, -⟩ := h
  simp [SeqMem.inputGetData, getDataLoop_chain hh.linked.queue hh.length_queue_lt,
    Colm.inputGetData, hq]

/-- `input_get_parse_block` in memory answers what the list model's answers. -/
theorem Represents.inputGetParseBlock (h : m.Represents si.queue si.stash) (skip : Nat) :
    m.inputGetParseBlock len si.eofMark skip = some (Colm.inputGetParseBlock len si skip) := by
  obtain ⟨qa, sa, hh, hq, -⟩ := h
  rw [SeqMem.inputGetParseBlock,
    getParseBlockLoop_chain len si.eofMark hh.linked.queue hh.length_queue_lt, hq]
  rfl

end SeqMem

/-- At every memory that a sequence of calls from `init_input_impl_seq`
reaches, the read-ahead walks along the `next` pointers see the sequence the
list model holds.  `input_get_data( n )` copies the first `min n |B|` bytes
of the bytes `B` at the front of its content, before the first tree, and
returns their count.  `input_get_parse_block` answers as the list model
does, for every sub-stream block length and every skip. -/
theorem runCallsMem_reads {calls : List InputCall} {m : SeqMem}
    (h : runCallsMem calls SeqMem.init = some m) :
    ∃ si, runCalls calls initInputImplSeq = some si ∧
      (∀ n, m.inputGetData n =
        some (min n (leadingBytes si.content).length, (leadingBytes si.content).take n)) ∧
      ∀ len skip, m.inputGetParseBlock len si.eofMark skip = some (inputGetParseBlock len si skip) := by
  obtain ⟨si, hsi, hrep⟩ :=
    optionRel_some_left (h ▸ runCallsMem_refines_of calls represents_initInputImplSeq)
  refine ⟨si, hsi, fun n => ?_, fun len skip => hrep.inputGetParseBlock len skip⟩
  rw [hrep.inputGetData, inputGetData, getDataFrom_eq, InputImplSeq.content,
    leadingBytes_bufsContent, List.length_take]

/-- Two bytes and a token appended: the reads see the sequence. -/
theorem runCallsMem_reads_appends :
    ∃ m, runCallsMem [.forward (.appendData [1, 2]), .forward (.appendTree 3)] SeqMem.init = some m ∧
      ∃ si, runCalls [.forward (.appendData [1, 2]), .forward (.appendTree 3)] initInputImplSeq =
          some si ∧
        (∀ n, m.inputGetData n =
          some (min n (leadingBytes si.content).length, (leadingBytes si.content).take n)) ∧
        ∀ len skip, m.inputGetParseBlock len si.eofMark skip =
          some (inputGetParseBlock len si skip) :=
  ⟨_, rfl, @runCallsMem_reads [.forward (.appendData [1, 2]), .forward (.appendTree 3)] _ rfl⟩

end Colm
