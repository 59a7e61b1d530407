/-
Undoing operations on the input sequence.  Each forward operation has an
undo, and a parser undoes them last in, first out.  Undone at once, every
operation gives the content back, from any state (a consumed tree, when no
bytes were before it, as the parser ensures).  `maybe_split` breaks the
longer runs when it splits a buffer that an append added: the undo of the
consume then restores the bytes in the new buffer, and the undo of the
append pops only the emptied original.
-/
import Mathlib.Algebra.BigOperators.Group.List
import Mathlib.Algebra.Order.Ring.Nat
import Colm.Input.Read

namespace Colm

section Immediate

variable (si : InputImplSeq)

/-- `maybe_split` moves only a consumed count to the stash, so the content
stays. -/
theorem content_maybeSplit : si.maybeSplit.content = si.content := by
  unfold InputImplSeq.maybeSplit
  split
  · next b rest hq =>
    split
    · simp [InputImplSeq.content, InputImplSeq.stashHead, hq, SeqBuf.content, isStream]
    · rfl
  · rfl

/-- Every prepend and append, undone at once, gives back the content; an
append gives back the whole state. -/
theorem undo_restores_after_prepend_append (data : List UInt8) (tree : Nat) (ignore : Bool)
    (stream : StreamImpl) :
    (inputUndoPrependData (inputPrependData si data)).map InputImplSeq.content = some si.content ∧
      (inputUndoPrependTree (inputPrependTree si tree ignore)).map (fun r => (r.1, r.2.content)) =
        some (tree, si.content) ∧
      (inputUndoPrependStream (inputPrependStream si stream)).map InputImplSeq.content =
        some si.content ∧
      inputUndoAppendData (inputAppendData si data) = some si ∧
      inputUndoAppendTree (inputAppendTree si tree) = some (tree, si) ∧
      inputUndoAppendStream (inputAppendStream si stream) = some si := by
  have hsplit := content_maybeSplit si
  refine ⟨by simpa [inputUndoPrependData, inputPrependData, InputImplSeq.seqPopHead,
      InputImplSeq.seqPrepend] using hsplit, ?_, by simpa [inputUndoPrependStream,
      inputPrependStream, InputImplSeq.seqPopHead, InputImplSeq.seqPrepend] using hsplit, ?_, ?_, ?_⟩
  · cases ignore <;> simpa [inputUndoPrependTree, inputPrependTree, InputImplSeq.seqPopHead,
      InputImplSeq.seqPrepend] using hsplit
  all_goals simp [inputUndoAppendData, inputAppendData, inputUndoAppendTree, inputAppendTree,
    inputUndoAppendStream, inputAppendStream, InputImplSeq.seqPopTail, InputImplSeq.seqAppend]

/-- The loop of `input_consume_data`, for a positive count that the bytes
before the first tree cover: it stops at a stream, it stashes only streams it
emptied, and the stream it stops at and those it stashed have between them
consumed at least the count. -/
theorem consumeDataFrom_stops_at_stream (q : List SeqBuf) :
    ∀ (length consumed : Nat) (stash : List SeqBuf), 0 < length →
      length ≤ (bytesBefore q).length →
      ∃ b rest front, (consumeDataFrom length consumed q stash).2 = (b :: rest, front ++ stash) ∧
        isStream b = true ∧ (∀ s ∈ front, isStream s = true ∧ s.si.pending = []) ∧
        length ≤ b.si.consumed + (front.map fun s => s.si.consumed).sum := by
  induction q with
  | nil =>
    intro length _ _ hpos hlen
    simp [bytesBefore] at hlen
    omega
  | cons b rest ih =>
    intro length consumed stash hpos hlen
    rcases isStream_or_isTree b with hs | ⟨hs, -⟩
    · rw [bytesBefore_of_isStream hs, List.length_append] at hlen
      by_cases hle : length ≤ b.si.pending.length
      · refine ⟨{ b with si := (b.si.consumeData length).2 }, rest, [], ?_, hs, by simp, ?_⟩
        · simp only [consumeDataFrom, hs, ↓reduceIte, StreamImpl.consumeData, Nat.min_eq_left hle,
            Nat.sub_self, List.nil_append]
        · simp [StreamImpl.consumeData, Nat.min_eq_left hle]
      · have hlt : b.si.pending.length < length := by omega
        obtain ⟨b', rest', front, hrun, hs', hfront, hcount⟩ :=
          ih (length - b.si.pending.length) (consumed + b.si.pending.length)
            ({ b with si := (b.si.consumeData length).2 } :: stash) (by omega) (by omega)
        have hsub : (b.si.consumeData length).2 = ⟨[], b.si.consumed + b.si.pending.length⟩ := by
          simp [StreamImpl.consumeData, Nat.min_eq_right (Nat.le_of_lt hlt)]
        refine ⟨b', rest', front ++ [{ b with si := (b.si.consumeData length).2 }], ?_, hs', ?_, ?_⟩
        · simpa [consumeDataFrom, hs, StreamImpl.consumeData, Nat.min_eq_right (Nat.le_of_lt hlt),
            Nat.sub_ne_zero_of_lt hlt] using hrun
        · intro s hs'
          rcases List.mem_append.mp hs' with h | h
          · exact hfront s h
          · rw [List.mem_singleton.mp h, hsub]
            exact ⟨hs, rfl⟩
        · simp only [List.map_append, List.map_singleton, List.sum_append, List.sum_cons,
            List.sum_nil, hsub]
          omega
    · simp [bytesBefore_of_not_isStream hs] at hlen
      omega

/-- What is left of the first `r` bytes after the last `m` of them are put
back. -/
theorem take_sub_append_drop (data : List UInt8) (m r : Nat) :
    data.take (r - m) ++ (data.take r).drop (r - m) = data.take r := by
  conv_rhs => rw [← List.take_append_drop (r - m) (data.take r)]
  rw [List.take_take, Nat.min_eq_left (Nat.sub_le r m)]

/-- The loop of `input_undo_consume_data` stops in the stream at the head
when that stream has consumed at least `remaining` bytes: they come back in
front of the content. -/
theorem undoConsumeDataFrom_head (data : List UInt8) (stash : List SeqBuf) {b : SeqBuf}
    (rest : List SeqBuf) {remaining : Nat} (hs : isStream b = true)
    (hr : remaining ≤ b.si.consumed) :
    ∃ q', undoConsumeDataFrom data stash remaining (b :: rest) = some (q', stash) ∧
      bufsContent q' = (data.take remaining).map .byte ++ bufsContent (b :: rest) :=
  ⟨{ b with si := (b.si.undoConsumeData data remaining).2 } :: rest,
    by cases stash <;> simp [undoConsumeDataFrom, hs, StreamImpl.undoConsumeData, Nat.min_eq_left hr],
    by simp [content_setSi hs, content_of_isStream hs, StreamImpl.undoConsumeData,
      Nat.min_eq_left hr]⟩

/-- The loop of `input_undo_consume_data` from a stream at the head, when
the stash begins with streams that hold no bytes and that, with the head,
have consumed at least `remaining`: it succeeds, and the first `remaining`
bytes of `data` come back in front of the content. -/
theorem undoConsumeDataFrom_content (data : List UInt8) (back : List SeqBuf) :
    ∀ (front : List SeqBuf) (b : SeqBuf) (rest : List SeqBuf) (remaining : Nat),
      isStream b = true → (∀ s ∈ front, isStream s = true ∧ s.si.pending = []) →
      remaining ≤ b.si.consumed + (front.map fun s => s.si.consumed).sum →
      ∃ q' stash', undoConsumeDataFrom data (front ++ back) remaining (b :: rest) = some (q', stash') ∧
        bufsContent q' = (data.take remaining).map .byte ++ bufsContent (b :: rest) := by
  intro front
  induction front with
  | nil =>
    intro b rest remaining hs _ hle
    obtain ⟨q', hrun, hcont⟩ := undoConsumeDataFrom_head data back rest hs (by simpa using hle)
    exact ⟨q', back, hrun, hcont⟩
  | cons s front ih =>
    intro b rest remaining hs hfront hle
    simp only [List.mem_cons, forall_eq_or_imp] at hfront
    by_cases hr : remaining ≤ b.si.consumed
    · obtain ⟨q', hrun, hcont⟩ := undoConsumeDataFrom_head data (s :: front ++ back) rest hs hr
      exact ⟨q', _, hrun, hcont⟩
    have hlt : b.si.consumed < remaining := by omega
    obtain ⟨q', stash', hrun, hcont⟩ := ih s ({ b with si := (b.si.undoConsumeData data remaining).2 } ::
      rest) (remaining - b.si.consumed) hfront.1.1 hfront.2 (by simp at hle; omega)
    refine ⟨q', stash', ?_, ?_⟩
    · simpa [undoConsumeDataFrom, hs, StreamImpl.undoConsumeData,
        Nat.min_eq_right (Nat.le_of_lt hlt), Nat.sub_ne_zero_of_lt hlt] using hrun
    · have hback := congrArg (List.map Item.byte) (take_sub_append_drop data b.si.consumed remaining)
      rw [List.map_append] at hback
      rw [hcont, bufsContent_cons, content_of_isStream hfront.1.1, hfront.1.2, bufsContent_cons,
        content_setSi hs, bufsContent_cons, content_of_isStream hs, ← hback]
      simp [StreamImpl.undoConsumeData, Nat.min_eq_right (Nat.le_of_lt hlt)]

/-- Consuming `n` bytes and at once sending back the `n` bytes read before,
from any state: the undo succeeds and the content is what it was.  The undo
walks back over exactly the streams the consume emptied. -/
theorem inputUndoConsumeData_inputConsumeData (si : InputImplSeq) (n : Nat) (hn : 0 < n)
    (hle : n ≤ (bytesBefore si.queue).length) :
    ∃ si', inputUndoConsumeData (inputConsumeData si n).2 (inputGetData si n).2 n = some (n, si') ∧
      si'.content = si.content := by
  obtain ⟨b, rest, front, hrun, hs, hfront, hcount⟩ :=
    consumeDataFrom_stops_at_stream si.queue n 0 si.stash hn hle
  obtain ⟨q', stash', hundo, hcont⟩ :=
    undoConsumeDataFrom_content (inputGetData si n).2 si.stash front b rest n hs hfront hcount
  have hdrop := (consumeDataFrom_spec si.queue n 0 si.stash).2.1
  rw [hrun, Nat.min_eq_left hle] at hdrop
  refine ⟨{ (inputConsumeData si n).2 with queue := q', stash := stash' }, ?_, ?_⟩
  · simp [inputUndoConsumeData, hn, inputConsumeData, hrun, hundo]
  · have htake : (bufsContent si.queue).take n = ((bytesBefore si.queue).take n).map .byte := by
      rw [bufsContent_eq_bytesBefore, List.take_append_of_le_length (by simpa using hle),
        List.map_take]
    simp only [InputImplSeq.content, hcont, hdrop, inputGetData, getDataFrom_eq, List.take_take,
      Nat.min_self, ← htake, List.take_append_drop]

/-- A queue whose first stream has consumed part of its bytes, then an
exhausted stream, a stream and a token, over a stashed token. -/
def crossingSeq : InputImplSeq :=
  ⟨[{ type := .accum, si := ⟨[1, 2], 4⟩ }, { type := .source }, { type := .source, si := ⟨[3], 0⟩ },
    { type := .token, tree := 5 }], [{ type := .token, tree := 9 }], false, 1, 1, 0⟩

/-- Consuming the three bytes before the token, across the three streams,
and sending them back. -/
theorem inputUndoConsumeData_inputConsumeData_crossing :
    0 < 3 ∧ 3 ≤ (bytesBefore crossingSeq.queue).length ∧
      ∃ si', inputUndoConsumeData (inputConsumeData crossingSeq 3).2 (inputGetData crossingSeq 3).2 3 =
        some (3, si') ∧ si'.content = crossingSeq.content :=
  ⟨by decide, by decide, inputUndoConsumeData_inputConsumeData crossingSeq 3 (by decide) (by decide)⟩

/-- The loop of `input_consume_tree`, when it passes its assertion: it
removes from the content the bytes before the first tree and that tree, and
leaves the tree's buffer on top of the stash. -/
theorem consumeTreeFrom_some {q stash q' stash' : List SeqBuf} {tree : Nat}
    (h : consumeTreeFrom q stash = some (tree, q', stash')) :
    bufsContent q = (bytesBefore q).map .byte ++ .tree tree :: bufsContent q' ∧
      ∃ b rest, stash' = b :: rest ∧ isTree b = true ∧ b.tree = tree := by
  rw [consumeTreeFrom_eq] at h
  cases hq : q.dropWhile isStream with
  | nil => rw [hq] at h; cases h
  | cons b rest =>
    rw [hq] at h
    simp only [Option.some.injEq, Prod.mk.injEq] at h
    obtain ⟨rfl, rfl, rfl⟩ := h
    have hs := isStream_of_dropWhile_eq_cons hq
    refine ⟨?_, b, _, rfl, ((isStream_or_isTree b).resolve_left (by simp [hs])).2, rfl⟩
    rw [bufsContent_eq_bytesBefore, hq, bufsContent_cons]
    simp [SeqBuf.content, hs]

/-- Consuming a tree and at once undoing it: the undo passes its assertion
and gives back just the tree.  The bytes before the tree, stashed with their
streams, do not come back, so the content is what it was exactly when there
were none, as when `input_get_parse_block` answered with the tree. -/
theorem inputUndoConsumeTree_inputConsumeTree {si si' : InputImplSeq} {tree : Nat}
    (h : inputConsumeTree si = some (tree, si')) :
    ∃ si'', inputUndoConsumeTree si' tree = some si'' ∧ si''.content = .tree tree :: si'.content ∧
      si.content = (bytesBefore si.queue).map .byte ++ si''.content := by
  obtain ⟨⟨tree', q', stash'⟩, hrun, hsi⟩ := Option.map_eq_some'.mp h
  simp only [Option.some.injEq, Prod.mk.injEq] at hsi
  obtain ⟨rfl, rfl⟩ := hsi
  obtain ⟨hc, b, rest, rfl, ht, hb⟩ := consumeTreeFrom_some hrun
  have hs : isStream b = false := by cases hty : b.type <;> simp_all [isStream, isTree]
  refine ⟨{ si with queue := b :: q', stash := rest }, ?_, ?_, ?_⟩
  · simp [inputUndoConsumeTree, undoConsumeTreeFrom, ht, hb]
  · simp [InputImplSeq.content, SeqBuf.content, hs, hb]
  · simp [InputImplSeq.content, hc, SeqBuf.content, hs, hb]

/-- A token after an exhausted stream, consumed and given back. -/
theorem inputUndoConsumeTree_inputConsumeTree_token :
    ∃ si', inputConsumeTree
        ⟨[{ type := .source, si := ⟨[], 2⟩ }, { type := .token, tree := 5 }], [], false, 1, 1, 0⟩ =
        some (5, si') ∧
      ∃ si'', inputUndoConsumeTree si' 5 = some si'' ∧ si''.content = .tree 5 :: si'.content ∧
        InputImplSeq.content
            ⟨[{ type := .source, si := ⟨[], 2⟩ }, { type := .token, tree := 5 }], [], false, 1, 1, 0⟩ =
          (bytesBefore [{ type := .source, si := ⟨[], 2⟩ }, { type := .token, tree := 5 }]).map .byte ++
            si''.content :=
  ⟨_, rfl, inputUndoConsumeTree_inputConsumeTree rfl⟩

end Immediate

/-- A well-bracketed run that does not restore the content: append `7`,
consume it, prepend `9`, then undo the three in reverse order.  The content
was empty before the run and holds `7` after it. -/
theorem inputUndoAppendData_after_split :
    initInputImplSeq.content = [] ∧
      (do
        let (_, si) := inputConsumeData (inputAppendData initInputImplSeq [7]) 1
        let si ← inputUndoPrependData (inputPrependData si [9])
        let (_, si) ← inputUndoConsumeData si [7] 1
        inputUndoAppendData si).map InputImplSeq.content = some [.byte 7] :=
  ⟨rfl, rfl⟩

end Colm
