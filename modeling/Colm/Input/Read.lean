/-
What the read-ahead and consuming walks of the input sequence see.  The
content of a sequence is the list of its items, the bytes of its streams and
its trees in queue order; the bytes a walk can reach are those of the streams
before the first tree buffer.  `input_get_data` and `input_consume_data`
cover the same bytes, and `input_get_parse_block` classifies the head of the
content the way `input_consume_tree` then consumes it.
-/
import Colm.Input.Funcs

namespace Colm

/-- One item of the content of an input sequence. -/
inductive Item
  | byte (b : UInt8)
  | tree (t : Nat)
deriving DecidableEq, Repr

/-- The items a buffer holds: the pending bytes of a stream, or its tree. -/
def SeqBuf.content (b : SeqBuf) : List Item :=
  if isStream b then b.si.pending.map .byte else [.tree b.tree]

/-- The content of a list of buffers. -/
def bufsContent (q : List SeqBuf) : List Item :=
  q.flatMap SeqBuf.content

/-- The content of the input sequence: the items of its queue. -/
def InputImplSeq.content (si : InputImplSeq) : List Item :=
  bufsContent si.queue

/-- The bytes of the streams before the first tree buffer. -/
def bytesBefore : List SeqBuf → List UInt8
  | [] => []
  | b :: rest => if isStream b then b.si.pending ++ bytesBefore rest else []

/-- The first buffer that is not a stream. -/
def firstTree : List SeqBuf → Option SeqBuf
  | [] => none
  | b :: rest => if isStream b then firstTree rest else some b

section Buffers

variable {b : SeqBuf} {rest : List SeqBuf}

theorem isStream_or_isTree (b : SeqBuf) : isStream b = true ∨ (isStream b = false ∧ isTree b = true) := by
  cases hb : b.type <;> simp [isStream, isTree, hb]

@[simp] theorem bufsContent_nil : bufsContent [] = [] :=
  rfl

@[simp] theorem bufsContent_cons : bufsContent (b :: rest) = b.content ++ bufsContent rest :=
  List.flatMap_cons _ _ _

theorem content_of_isStream (h : isStream b = true) : b.content = b.si.pending.map .byte := by
  simp [SeqBuf.content, h]

theorem bytesBefore_of_isStream (h : isStream b = true) :
    bytesBefore (b :: rest) = b.si.pending ++ bytesBefore rest := by
  simp [bytesBefore, h]

theorem bytesBefore_of_not_isStream (h : isStream b = false) : bytesBefore (b :: rest) = [] := by
  simp [bytesBefore, h]

theorem content_setSi (hs : isStream b = true) (s : StreamImpl) :
    ({ b with si := s } : SeqBuf).content = s.pending.map .byte :=
  content_of_isStream hs

theorem bytesBefore_setSi (hs : isStream b = true) (s : StreamImpl) :
    bytesBefore ({ b with si := s } :: rest) = s.pending ++ bytesBefore rest :=
  bytesBefore_of_isStream hs

end Buffers

/-- The content is the bytes before the first tree buffer, then the content
of the buffers from that one on. -/
theorem bufsContent_eq_bytesBefore (q : List SeqBuf) :
    bufsContent q = (bytesBefore q).map .byte ++ bufsContent (q.dropWhile isStream) := by
  induction q with
  | nil => rfl
  | cons b rest ih =>
    rcases isStream_or_isTree b with hs | ⟨hs, -⟩
    · rw [bufsContent_cons, content_of_isStream hs, ih, bytesBefore_of_isStream hs,
        List.dropWhile_cons_of_pos hs, List.map_append, List.append_assoc]
    · rw [bytesBefore_of_not_isStream hs, List.dropWhile_cons_of_neg (by simp [hs])]
      rfl

theorem firstTree_eq (q : List SeqBuf) : firstTree q = (q.dropWhile isStream).head? := by
  induction q with
  | nil => rfl
  | cons b rest ih =>
    by_cases hs : isStream b = true
    · simp [firstTree, hs, ih, List.dropWhile_cons_of_pos hs]
    · simp [firstTree, hs, List.dropWhile_cons_of_neg hs]

/-- The buffer the streams at the head of the queue end at is not a stream. -/
theorem isStream_of_dropWhile_eq_cons {q rest : List SeqBuf} {b : SeqBuf}
    (h : q.dropWhile isStream = b :: rest) : isStream b = false := by
  simpa [h] using List.head_dropWhile_not isStream q

/-- `input_consume_tree` stashes the streams at the head of the queue, then
the first tree buffer, whose tree it returns; without one it fails its
assertion. -/
theorem consumeTreeFrom_eq (q stash : List SeqBuf) :
    consumeTreeFrom q stash =
      match q.dropWhile isStream with
      | [] => none
      | b :: rest => some (b.tree, rest, b :: (q.takeWhile isStream).reverse ++ stash) := by
  induction q generalizing stash with
  | nil => rfl
  | cons b rest ih =>
    rcases isStream_or_isTree b with hs | ⟨hs, ht⟩
    · rw [consumeTreeFrom, if_pos hs, ih, List.dropWhile_cons_of_pos hs,
        List.takeWhile_cons_of_pos hs]
      cases rest.dropWhile isStream <;> simp
    · have htype : b.type = .token ∨ b.type = .ignore := by simpa [isTree] using ht
      simp [consumeTreeFrom, hs, htype, List.dropWhile_cons_of_neg, List.takeWhile_cons_of_neg]

/-- `input_get_data` copies the bytes before the first tree, up to `length`. -/
theorem getDataFrom_eq (q : List SeqBuf) (length : Nat) :
    getDataFrom q length = (bytesBefore q).take length := by
  induction q generalizing length with
  | nil => simp [getDataFrom, bytesBefore]
  | cons b rest ih =>
    rcases isStream_or_isTree b with hs | ⟨hs, ht⟩
    · rw [bytesBefore_of_isStream hs, List.take_append_eq_append_take]
      simp only [getDataFrom, hs, ↓reduceIte, StreamImpl.getData, ih]
      by_cases hp : b.si.pending = []
      · simp [hp]
      by_cases h0 : length = 0
      · simp [h0]
      by_cases hle : length ≤ b.si.pending.length
      · simp [List.length_take_of_le hle, h0, Nat.sub_eq_zero_of_le hle]
      · have hlt : b.si.pending.length < length := by omega
        rw [List.take_of_length_le (Nat.le_of_lt hlt)]
        simp [hp, Nat.sub_ne_zero_of_lt hlt]
    · rw [bytesBefore_of_not_isStream hs]
      cases hb : b.type <;> simp_all [getDataFrom, isStream, isTree]

/-- The loop of `input_consume_data`: it consumes as much of the count as the
bytes before the first tree cover, removes exactly those bytes from the
content, and leaves the rest of them before the first tree. -/
theorem consumeDataFrom_spec (q : List SeqBuf) :
    ∀ (length consumed : Nat) (stash : List SeqBuf),
      (consumeDataFrom length consumed q stash).1 = consumed + min length (bytesBefore q).length ∧
        bufsContent (consumeDataFrom length consumed q stash).2.1 =
          (bufsContent q).drop (min length (bytesBefore q).length) ∧
        bytesBefore (consumeDataFrom length consumed q stash).2.1 =
          (bytesBefore q).drop (min length (bytesBefore q).length) := by
  induction q with
  | nil => simp [consumeDataFrom, bytesBefore]
  | cons b rest ih =>
    intro length consumed stash
    rcases isStream_or_isTree b with hs | ⟨hs, ht⟩
    · rw [bytesBefore_of_isStream hs, List.length_append, bufsContent_cons, content_of_isStream hs]
      by_cases hle : length ≤ b.si.pending.length
      · rw [Nat.min_eq_left (by omega)]
        simp only [consumeDataFrom, hs, ↓reduceIte, StreamImpl.consumeData, Nat.min_eq_left hle,
          Nat.sub_self, bufsContent_cons, content_setSi hs, bytesBefore_setSi hs]
        refine ⟨trivial, ?_, ?_⟩
        · rw [List.drop_append_of_le_length (by simpa using hle), List.map_drop]
        · rw [List.drop_append_of_le_length hle]
      · have hlt : b.si.pending.length < length := by omega
        have h := fun st => ih (length - b.si.pending.length) (consumed + b.si.pending.length) st
        have hk : min length (b.si.pending.length + (bytesBefore rest).length) =
            b.si.pending.length + min (length - b.si.pending.length) (bytesBefore rest).length := by
          omega
        simp only [consumeDataFrom, hs, ↓reduceIte, StreamImpl.consumeData,
          Nat.min_eq_right (Nat.le_of_lt hlt), Nat.sub_ne_zero_of_lt hlt, hk]
        generalize min (length - b.si.pending.length) (bytesBefore rest).length = k at h
        refine ⟨by rw [(h _).1]; omega, ?_, ?_⟩
        · rw [(h _).2.1, List.drop_append_eq_append_drop, List.drop_of_length_le
            (show (b.si.pending.map Item.byte).length ≤ b.si.pending.length + k by simp),
            List.nil_append, List.length_map, Nat.add_sub_cancel_left]
        · rw [(h _).2.2, List.drop_append_eq_append_drop,
            List.drop_of_length_le (Nat.le_add_right b.si.pending.length k), List.nil_append,
            Nat.add_sub_cancel_left]
    · simp [consumeDataFrom, hs, ht, bytesBefore_of_not_isStream hs]

/-- The read-only walk and the consuming walk of the input sequence agree.
`input_get_data( dest, n )` writes the first `min n |B|` bytes of the bytes
`B` before the first tree and returns their count; `input_consume_data( n )`
for `n ≤ |B|` returns `n` and removes exactly the first `n` bytes of the
content, so that `input_get_data` then sees `B` without them. -/
theorem inputGetData_inputConsumeData (si : InputImplSeq) :
    (∀ n, inputGetData si n =
      (min n (bytesBefore si.queue).length, (bytesBefore si.queue).take n)) ∧
    ∀ n ≤ (bytesBefore si.queue).length,
      (inputConsumeData si n).1 = n ∧
        (inputConsumeData si n).2.content = si.content.drop n ∧
        ∀ m, inputGetData (inputConsumeData si n).2 m =
          (min m ((bytesBefore si.queue).length - n), ((bytesBefore si.queue).drop n).take m) := by
  refine ⟨fun n => by simp [inputGetData, getDataFrom_eq], fun n hn => ?_⟩
  obtain ⟨h1, h2, h3⟩ := consumeDataFrom_spec si.queue n 0 si.stash
  rw [Nat.min_eq_left hn] at h1 h2 h3
  refine ⟨by simpa [inputConsumeData] using h1, h2, fun m => ?_⟩
  simp only [inputGetData, getDataFrom_eq, List.length_take, List.length_drop]
  simp only [inputConsumeData] at h3 ⊢
  rw [h3, List.length_drop]

/-- What `input_get_parse_block` answers past the bytes before the first
tree: the type of the first tree buffer, or the end of the queue. -/
def treeResult (eofMark : Bool) : Option SeqBuf → InputResult
  | none => if eofMark then .eof else .eod
  | some b => if b.type = .token then .tree else .ignore

section ParseBlock

variable {len : List UInt8 → Nat → Nat}

/-- The walk of `input_get_parse_block`: a non-empty block of the bytes
before the first tree at offset `skip` when they reach past it, the first
tree buffer or the end of the queue otherwise. -/
theorem getParseBlockFrom_spec (hlen : ∀ p skip, skip < p.length → 0 < len p skip)
    (eofMark : Bool) (q : List SeqBuf) (skip : Nat) :
    (skip < (bytesBefore q).length → ∃ block, getParseBlockFrom len eofMark q skip = (.data, block) ∧
      block ≠ [] ∧ block = ((bytesBefore q).drop skip).take block.length) ∧
    ((bytesBefore q).length ≤ skip →
      getParseBlockFrom len eofMark q skip = (treeResult eofMark (firstTree q), [])) := by
  induction q generalizing skip with
  | nil => exact ⟨fun h => absurd h (Nat.not_lt_zero _), fun _ => rfl⟩
  | cons b rest ih =>
    rcases isStream_or_isTree b with hs | ⟨hs, ht⟩
    · rw [bytesBefore_of_isStream hs, List.length_append]
      by_cases hskip : skip < b.si.pending.length
      · have hblock : (b.si.pending.drop skip).take (len b.si.pending skip) ≠ [] := by
          simp only [ne_eq, List.take_eq_nil_iff, List.drop_eq_nil_iff, not_or]
          exact ⟨Nat.ne_of_gt (hlen _ _ hskip), by omega⟩
        simp only [getParseBlockFrom, hs, ↓reduceIte, StreamImpl.getParseBlock, hskip]
        refine ⟨fun _ => ⟨_, rfl, hblock, ?_⟩, fun h => absurd h (by omega)⟩
        rw [List.drop_append_of_le_length (Nat.le_of_lt hskip), ← List.prefix_iff_eq_take]
        exact List.IsPrefix.trans ⟨_, List.take_append_drop _ _⟩ (List.prefix_append _ _)
      · have hd : b.si.pending.drop skip = [] := List.drop_of_length_le (by omega)
        simp only [getParseBlockFrom, hs, ↓reduceIte, StreamImpl.getParseBlock, hskip,
          firstTree, List.drop_append_eq_append_drop, hd, List.nil_append]
        obtain ⟨ih1, ih2⟩ := ih (skip - b.si.pending.length)
        exact ⟨fun h => ih1 (by omega), fun h => ih2 (by omega)⟩
    · rw [bytesBefore_of_not_isStream hs]
      refine ⟨fun h => absurd h (Nat.not_lt_zero _), fun _ => ?_⟩
      cases hb : b.type <;> simp_all [getParseBlockFrom, firstTree, treeResult, isStream, isTree]

/-- `input_consume_tree` on a queue whose streams before the first tree buffer
are empty: it returns the tree of that buffer and removes just that item. -/
theorem consumeTreeFrom_spec (q : List SeqBuf) :
    ∀ (stash : List SeqBuf) (b : SeqBuf), bytesBefore q = [] → firstTree q = some b →
      ∃ q' stash', consumeTreeFrom q stash = some (b.tree, q', stash') ∧
        bufsContent q = .tree b.tree :: bufsContent q' := by
  intro stash b hb hfirst
  rw [firstTree_eq] at hfirst
  cases hq : q.dropWhile isStream with
  | nil => rw [hq] at hfirst; cases hfirst
  | cons b' rest =>
    rw [hq, List.head?_cons, Option.some.injEq] at hfirst
    subst hfirst
    refine ⟨rest, _, by rw [consumeTreeFrom_eq, hq], ?_⟩
    rw [bufsContent_eq_bytesBefore, hb, hq, bufsContent_cons]
    simp [SeqBuf.content, isStream_of_dropWhile_eq_cons hq]

/-- `input_get_parse_block` classifies the content exactly.  Skipping `s`
bytes, it returns a non-empty block of the bytes `B` before the first tree,
taken at offset `s`, exactly when `s < |B|`; otherwise the type of the first
tree buffer, or `INPUT_EOF` or `INPUT_EOD` after the last buffer as the end
of file is marked or not.  And when it answers with a tree for `s = 0`,
`input_consume_tree` passes its assertion, returns that tree and removes just
that item from the content. -/
theorem inputGetParseBlock_inputConsumeTree (hlen : ∀ p skip, skip < p.length → 0 < len p skip)
    (si : InputImplSeq) (skip : Nat) :
    (skip < (bytesBefore si.queue).length → ∃ block, inputGetParseBlock len si skip = (.data, block) ∧
      block ≠ [] ∧ block = ((bytesBefore si.queue).drop skip).take block.length) ∧
    ((bytesBefore si.queue).length ≤ skip →
      inputGetParseBlock len si skip = (treeResult si.eofMark (firstTree si.queue), [])) ∧
    ((inputGetParseBlock len si 0).1 = .tree ∨ (inputGetParseBlock len si 0).1 = .ignore →
      ∃ b si', firstTree si.queue = some b ∧ inputConsumeTree si = some (b.tree, si') ∧
        si.content = .tree b.tree :: si'.content) := by
  obtain ⟨h1, h2⟩ := getParseBlockFrom_spec hlen si.eofMark si.queue skip
  refine ⟨h1, h2, fun htree => ?_⟩
  obtain ⟨h1', h2'⟩ := getParseBlockFrom_spec hlen si.eofMark si.queue 0
  have hB : bytesBefore si.queue = [] := by
    rw [← List.length_eq_zero]
    by_contra hne
    obtain ⟨block, hblock, -⟩ := h1' (Nat.pos_of_ne_zero hne)
    simp [inputGetParseBlock, hblock] at htree
  rw [inputGetParseBlock, h2' (by simp [hB])] at htree
  cases hfirst : firstTree si.queue with
  | none =>
    rw [hfirst] at htree
    rcases htree with h | h <;> (simp only [treeResult] at h; split at h <;> cases h)
  | some b =>
    obtain ⟨q', stash', hrun, hcont⟩ := consumeTreeFrom_spec si.queue si.stash b hB hfirst
    exact ⟨b, { si with queue := q', stash := stash' }, rfl, by simp [inputConsumeTree, hrun], hcont⟩

end ParseBlock

/-- `input_get_parse_block` and `input_consume_tree` at an exhausted stream
followed by a token, for sub-streams that hand out all their bytes past the
skip. -/
theorem inputGetParseBlock_inputConsumeTree_exhausted :
    (∀ (p : List UInt8) (skip : Nat), skip < p.length → 0 < p.length - skip) ∧
    (0 < (bytesBefore [{ type := .accum, si := ⟨[], 3⟩ }, { type := .token, tree := 5 }]).length →
      ∃ block, inputGetParseBlock (fun p skip => p.length - skip)
          ⟨[{ type := .accum, si := ⟨[], 3⟩ }, { type := .token, tree := 5 }], [], false, 1, 1, 0⟩ 0 =
          (.data, block) ∧ block ≠ [] ∧
        block = ((bytesBefore [{ type := .accum, si := ⟨[], 3⟩ }, { type := .token, tree := 5 }]).drop
          0).take block.length) ∧
    ((bytesBefore [{ type := .accum, si := ⟨[], 3⟩ }, { type := .token, tree := 5 }]).length ≤ 0 →
      inputGetParseBlock (fun p skip => p.length - skip)
          ⟨[{ type := .accum, si := ⟨[], 3⟩ }, { type := .token, tree := 5 }], [], false, 1, 1, 0⟩ 0 =
        (treeResult false (firstTree [{ type := .accum, si := ⟨[], 3⟩ }, { type := .token, tree := 5 }]),
          [])) ∧
    ((inputGetParseBlock (fun p skip => p.length - skip)
          ⟨[{ type := .accum, si := ⟨[], 3⟩ }, { type := .token, tree := 5 }], [], false, 1, 1, 0⟩ 0).1 =
        .tree ∨
      (inputGetParseBlock (fun p skip => p.length - skip)
          ⟨[{ type := .accum, si := ⟨[], 3⟩ }, { type := .token, tree := 5 }], [], false, 1, 1, 0⟩ 0).1 =
        .ignore →
      ∃ b si', firstTree [{ type := .accum, si := ⟨[], 3⟩ }, { type := .token, tree := 5 }] = some b ∧
        inputConsumeTree ⟨[{ type := .accum, si := ⟨[], 3⟩ }, { type := .token, tree := 5 }], [], false,
          1, 1, 0⟩ = some (b.tree, si') ∧
        InputImplSeq.content ⟨[{ type := .accum, si := ⟨[], 3⟩ }, { type := .token, tree := 5 }], [],
          false, 1, 1, 0⟩ = .tree b.tree :: si'.content) :=
  ⟨fun _ _ h => Nat.sub_pos_of_lt h,
    inputGetParseBlock_inputConsumeTree (fun _ _ h => Nat.sub_pos_of_lt h)
      ⟨[{ type := .accum, si := ⟨[], 3⟩ }, { type := .token, tree := 5 }], [], false, 1, 1, 0⟩ 0⟩

end Colm
