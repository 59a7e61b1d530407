/-
The operations of `input_funcs_seq` on the input sequence in memory, as
`input.c` writes them with its linked queue and stash.  The loops run for at
most as many turns as there are buffers; each turn moves one buffer between
the queue and the stash.  Every operation, and every run of operations from
`init_input_impl_seq`, does to the memory what the list model does to the
lists: it fails exactly where the list model fails, returns what the list
model returns, and leaves a memory that holds the list model's queue and
stash, linked as `input.c` links them.
-/
import Colm.Input.Memory
import Colm.Input.Runs

namespace Colm

namespace SeqMem

variable (m : SeqMem)

/-- `maybe_split`. -/
def maybeSplit : SeqMem :=
  let q := m.links.queue
  if q ≠ 0 ∧ isStream (m.buf q) then
    let b := m.buf q
    if b.si.consumed > 0 then
      (m.setBuf q { b with si := { b.si with consumed := 0 } }).stashNew
        { type := .accum, si := colmImplConsumed b.si.consumed, ownSi := true }
    else m
  else m

/-- `input_prepend_data( si, data, length )`. -/
def inputPrependData (data : List UInt8) : SeqMem :=
  m.maybeSplit.prependNew { type := .accum, si := colmImplNewText data, ownSi := true }

/-- `input_undo_prepend_data( si, length )`. -/
def inputUndoPrependData : Option SeqMem :=
  m.popHeadFree.map Prod.snd

/-- `input_prepend_tree( si, tree, ignore )`. -/
def inputPrependTree (tree : Nat) (ignore : Bool) : SeqMem :=
  m.maybeSplit.prependNew { type := if ignore then .ignore else .token, tree := tree }

/-- `input_undo_prepend_tree( si )`, which asserts a tree buffer at the
head. -/
def inputUndoPrependTree : Option (Nat × SeqMem) :=
  let q := m.links.queue
  if q ≠ 0 ∧ ((m.buf q).type = .token ∨ (m.buf q).type = .ignore) then
    m.popHeadFree.map fun (b, m) => (b.tree, m)
  else none

/-- `input_prepend_stream( si, stream )`. -/
def inputPrependStream (stream : StreamImpl) : SeqMem :=
  m.maybeSplit.prependNew { type := .source, si := stream }

/-- `input_undo_prepend_stream( is )`. -/
def inputUndoPrependStream : Option SeqMem :=
  m.popHeadFree.map Prod.snd

/-- `input_append_data( si, data, length )`, without `OPTIM_APPEND`. -/
def inputAppendData (data : List UInt8) : SeqMem :=
  m.appendNew { type := .accum, si := colmImplNewText data, ownSi := true }

/-- `input_undo_append_data( si, length )`, without `OPTIM_APPEND`. -/
def inputUndoAppendData : Option SeqMem :=
  m.popTailFree.map Prod.snd

/-- `input_append_tree( si, tree )`. -/
def inputAppendTree (tree : Nat) : SeqMem :=
  m.appendNew { type := .token, tree := tree }

/-- `input_undo_append_tree( si )`. -/
def inputUndoAppendTree : Option (Nat × SeqMem) :=
  m.popTailFree.map fun (b, m) => (b.tree, m)

/-- `input_append_stream( si, stream )`. -/
def inputAppendStream (stream : StreamImpl) : SeqMem :=
  m.appendNew { type := .source, si := stream }

/-- `input_undo_append_stream( si )`. -/
def inputUndoAppendStream : Option SeqMem :=
  m.popTailFree.map Prod.snd

end SeqMem

/-- The loop of `input_consume_data` with the count consumed so far, for at
most `fuel` turns. -/
def SeqMem.consumeDataLoop : Nat → Nat → Nat → SeqMem → Option (Nat × SeqMem)
  | 0, _, _, _ => none
  | fuel + 1, length, consumed, m =>
    let a := m.links.queue
    if a = 0 then some (consumed, m)
    else
      let b := m.buf a
      if isStream b then
        let (slen, sub) := b.si.consumeData length
        let m := m.setBuf a { b with si := sub }
        if length - slen = 0 then some (consumed + slen, m)
        else m.moveHeadToStash.bind (consumeDataLoop fuel (length - slen) (consumed + slen))
      else if isTree b then some (consumed, m)
      else if length = 0 then some (consumed, m)
      else m.moveHeadToStash.bind (consumeDataLoop fuel length consumed)

/-- The loop of `input_undo_consume_data`, for at most `fuel` turns;
`none` where `is_stream( si->queue )` reads a null queue. -/
def SeqMem.undoConsumeDataLoop (data : List UInt8) : Nat → Nat → SeqMem → Option SeqMem
  | 0, _, _ => none
  | fuel + 1, remaining, m =>
    let a := m.links.queue
    if a = 0 then none
    else
      let b := m.buf a
      if isStream b then
        let (pushed, sub) := b.si.undoConsumeData data remaining
        let m := m.setBuf a { b with si := sub }
        if remaining - pushed = 0 then some m
        else m.moveStashToHead.bind (undoConsumeDataLoop data fuel (remaining - pushed))
      else m.moveStashToHead.bind (undoConsumeDataLoop data fuel remaining)

/-- The loop of `input_consume_tree`, for at most `fuel` turns: stash the
streams at the head, then the tree buffer that its assertion requires. -/
def SeqMem.consumeTreeLoop : Nat → SeqMem → Option (Nat × SeqMem)
  | 0, _ => none
  | fuel + 1, m =>
    let a := m.links.queue
    if a ≠ 0 ∧ isStream (m.buf a) then m.moveHeadToStash.bind (consumeTreeLoop fuel)
    else if a ≠ 0 ∧ ((m.buf a).type = .token ∨ (m.buf a).type = .ignore) then
      m.moveHeadToStash.map ((m.buf a).tree, ·)
    else none

/-- The loop of `input_undo_consume_tree`, for at most `fuel` turns: bring
back stashed buffers up to the tree buffer, whose tree must be `tree`. -/
def SeqMem.undoConsumeTreeLoop (tree : Nat) : Nat → SeqMem → Option SeqMem
  | 0, _ => none
  | fuel + 1, m =>
    m.moveStashToHead.bind fun m =>
      let b := m.buf m.links.queue
      if isTree b then (if b.tree = tree then some m else none)
      else undoConsumeTreeLoop tree fuel m

namespace SeqMem

variable (m : SeqMem)

/-- `input_consume_data( si, length, loc )`. -/
def inputConsumeData (length : Nat) : Option (Nat × SeqMem) :=
  m.consumeDataLoop (m.live.length + 1) length 0

/-- `input_undo_consume_data( si, data, length )`, which asserts
`length > 0`. -/
def inputUndoConsumeData (data : List UInt8) (length : Nat) : Option (Nat × SeqMem) :=
  if length > 0 then (m.undoConsumeDataLoop data (m.live.length + 1) length).map (length, ·)
  else none

/-- `input_consume_tree( si )`. -/
def inputConsumeTree : Option (Nat × SeqMem) :=
  m.consumeTreeLoop (m.live.length + 1)

/-- `input_undo_consume_tree( si, tree, ignore )`. -/
def inputUndoConsumeTree (tree : Nat) : Option SeqMem :=
  m.undoConsumeTreeLoop tree (m.live.length + 1)

end SeqMem

namespace SeqMem

variable {m : SeqMem} {queue stash : List SeqBuf}

theorem Represents.maybeSplit {si : InputImplSeq} (h : m.Represents si.queue si.stash) :
    m.maybeSplit.Represents si.maybeSplit.queue si.maybeSplit.stash := by
  cases hq : si.queue with
  | nil =>
    have hl : si.maybeSplit = si := by simp [InputImplSeq.maybeSplit, hq]
    have hm : m.maybeSplit = m := by simp [SeqMem.maybeSplit, (hq ▸ h).queue_eq_zero]
    rw [hl, hm]
    exact h
  | cons b rest =>
    obtain ⟨hq0, hb⟩ := (hq ▸ h).head
    by_cases hsplit : isStream b = true ∧ b.si.consumed > 0
    · have hm : m.maybeSplit = (m.setBuf m.links.queue { b with si := { b.si with consumed := 0 } }).stashNew
          { type := .accum, si := colmImplConsumed b.si.consumed, ownSi := true } := by
        simp [SeqMem.maybeSplit, hq0, hb, hsplit]
      rw [hm]
      simpa [InputImplSeq.maybeSplit, hq, hsplit, InputImplSeq.stashHead] using
        ((hq ▸ h).setHead { b with si := { b.si with consumed := 0 } }).stashNew
          { type := .accum, si := colmImplConsumed b.si.consumed, ownSi := true }
    · have hl : si.maybeSplit = si := by simp [InputImplSeq.maybeSplit, hq, hsplit]
      have hm : m.maybeSplit = m := by
        unfold SeqMem.maybeSplit
        dsimp only
        split_ifs with h1 h2
        · exact absurd ⟨hb ▸ h1.2, hb ▸ h2⟩ hsplit
        all_goals rfl
      rw [hl, hm]
      exact h

/-- The loop of `input_consume_data` in memory does what the list loop does,
within one turn more than the queue is long. -/
theorem Represents.consumeDataLoop (h : m.Represents queue stash) {fuel : Nat}
    (hfuel : queue.length < fuel) (length consumed : Nat) :
    ∃ m', m.consumeDataLoop fuel length consumed =
        some ((consumeDataFrom length consumed queue stash).1, m') ∧
      m'.Represents (consumeDataFrom length consumed queue stash).2.1
        (consumeDataFrom length consumed queue stash).2.2 := by
  induction queue generalizing m stash fuel length consumed with
  | nil =>
    obtain ⟨fuel, rfl⟩ := Nat.exists_eq_add_one_of_ne_zero (by omega : fuel ≠ 0)
    exact ⟨m, by simp [SeqMem.consumeDataLoop, h.queue_eq_zero, consumeDataFrom],
      by simpa [consumeDataFrom] using h⟩
  | cons b rest ih =>
    obtain ⟨fuel, rfl⟩ := Nat.exists_eq_add_one_of_ne_zero (by omega : fuel ≠ 0)
    obtain ⟨hq0, hb⟩ := h.head
    simp only [SeqMem.consumeDataLoop, if_neg hq0, hb, consumeDataFrom]
    split_ifs with hs hz ht hl
    · exact ⟨_, rfl, h.setHead _⟩
    · obtain ⟨m2, hmove, h2⟩ := (h.setHead { b with si := (b.si.consumeData length).2 }).moveHeadToStash
      rw [hmove, Option.some_bind]
      exact ih h2 (Nat.lt_of_succ_lt_succ hfuel) _ _
    · exact ⟨_, rfl, h⟩
    · exact ⟨_, rfl, h⟩
    · obtain ⟨m2, hmove, h2⟩ := h.moveHeadToStash
      rw [hmove, Option.some_bind]
      exact ih h2 (Nat.lt_of_succ_lt_succ hfuel) _ _

/-- A turn of the list loop of `input_undo_consume_data` from a buffer at the
head, whatever the stash. -/
theorem undoConsumeDataFrom_cons (data : List UInt8) (stash : List SeqBuf) (remaining : Nat)
    (b : SeqBuf) (rest : List SeqBuf) :
    undoConsumeDataFrom data stash remaining (b :: rest) =
      if isStream b then
        let (pushed, sub) := b.si.undoConsumeData data remaining
        if remaining - pushed = 0 then some ({ b with si := sub } :: rest, stash)
        else
          match stash with
          | [] => none
          | s :: stash' =>
            undoConsumeDataFrom data stash' (remaining - pushed) (s :: { b with si := sub } :: rest)
      else
        match stash with
        | [] => none
        | s :: stash' => undoConsumeDataFrom data stash' remaining (s :: b :: rest) := by
  cases stash <;> rfl

/-- The loop of `input_undo_consume_data` in memory does what the list loop
does, within one turn more than the stash is long: it fails exactly where
the list loop does, and otherwise holds the same queue and stash. -/
theorem Represents.undoConsumeDataLoop (data : List UInt8) {fuel : Nat} :
    ∀ {m : SeqMem} {queue stash : List SeqBuf} (remaining : Nat), m.Represents queue stash →
      stash.length < fuel →
      Option.Rel (fun m' (r : List SeqBuf × List SeqBuf) => m'.Represents r.1 r.2)
        (m.undoConsumeDataLoop data fuel remaining) (undoConsumeDataFrom data stash remaining queue) := by
  induction fuel with
  | zero => intros; omega
  | succ fuel ih =>
    intro m queue stash remaining h hfuel
    -- A turn that brings the top of the stash back and goes round again.
    have move : ∀ {m1 : SeqMem} {q1 st : List SeqBuf} (r : Nat), m1.Represents q1 st →
        st.length < fuel + 1 →
        Option.Rel (fun m' (r : List SeqBuf × List SeqBuf) => m'.Represents r.1 r.2)
          (m1.moveStashToHead.bind (SeqMem.undoConsumeDataLoop data fuel r))
          (match st with
            | [] => none
            | s :: stash' => undoConsumeDataFrom data stash' r (s :: q1)) := by
      intro m1 q1 st r h1 hst
      cases st with
      | nil => rw [h1.moveStashToHead_nil]; exact Option.Rel.none
      | cons s stash' =>
        obtain ⟨m2, hmove, h2⟩ := h1.moveStashToHead
        rw [hmove, Option.some_bind]
        exact ih r h2 (by simpa using hst)
    cases queue with
    | nil =>
      simp only [SeqMem.undoConsumeDataLoop, h.queue_eq_zero, undoConsumeDataFrom, if_pos]
      exact Option.Rel.none
    | cons b rest =>
      obtain ⟨hq0, hb⟩ := h.head
      rw [undoConsumeDataFrom_cons]
      simp only [SeqMem.undoConsumeDataLoop, if_neg hq0, hb]
      split_ifs
      · exact Option.Rel.some (h.setHead _)
      · exact move _ (h.setHead _) hfuel
      · exact move _ h hfuel

/-- The loop of `input_consume_tree` in memory does what the list loop does:
it fails its assertion exactly where the list loop does, and otherwise
returns the same tree and holds the same queue and stash. -/
theorem Represents.consumeTreeLoop (h : m.Represents queue stash) {fuel : Nat}
    (hfuel : queue.length < fuel) :
    Option.Rel (fun (r : Nat × SeqMem) (r' : Nat × List SeqBuf × List SeqBuf) =>
        r.1 = r'.1 ∧ r.2.Represents r'.2.1 r'.2.2)
      (m.consumeTreeLoop fuel) (consumeTreeFrom queue stash) := by
  induction queue generalizing m stash fuel with
  | nil =>
    obtain ⟨fuel, rfl⟩ := Nat.exists_eq_add_one_of_ne_zero (by omega : fuel ≠ 0)
    simp only [SeqMem.consumeTreeLoop, h.queue_eq_zero, ne_eq, not_true_eq_false, false_and,
      if_false, consumeTreeFrom]
    exact Option.Rel.none
  | cons b rest ih =>
    obtain ⟨fuel, rfl⟩ := Nat.exists_eq_add_one_of_ne_zero (by omega : fuel ≠ 0)
    obtain ⟨hq0, hb⟩ := h.head
    obtain ⟨m2, hmove, h2⟩ := h.moveHeadToStash
    simp only [SeqMem.consumeTreeLoop, hq0, hb, ne_eq, not_false_eq_true, true_and, consumeTreeFrom,
      hmove, Option.some_bind, Option.map_some']
    split_ifs
    · exact ih h2 (Nat.lt_of_succ_lt_succ hfuel)
    · exact Option.Rel.some ⟨rfl, h2⟩
    · exact Option.Rel.none

/-- The loop of `input_undo_consume_tree` in memory does what the list loop
does: it fails exactly where the list loop does, and otherwise holds the
same queue and stash. -/
theorem Represents.undoConsumeTreeLoop (tree : Nat) (h : m.Represents queue stash) {fuel : Nat}
    (hfuel : stash.length < fuel) :
    Option.Rel (fun m' (r : List SeqBuf × List SeqBuf) => m'.Represents r.1 r.2)
      (m.undoConsumeTreeLoop tree fuel) (undoConsumeTreeFrom tree stash queue) := by
  induction stash generalizing m queue fuel with
  | nil =>
    obtain ⟨fuel, rfl⟩ := Nat.exists_eq_add_one_of_ne_zero (by omega : fuel ≠ 0)
    simp only [SeqMem.undoConsumeTreeLoop, h.moveStashToHead_nil, Option.none_bind, undoConsumeTreeFrom]
    exact Option.Rel.none
  | cons b stash ih =>
    obtain ⟨fuel, rfl⟩ := Nat.exists_eq_add_one_of_ne_zero (by omega : fuel ≠ 0)
    obtain ⟨m2, hmove, h2⟩ := h.moveStashToHead
    obtain ⟨-, hb⟩ := h2.head
    simp only [SeqMem.undoConsumeTreeLoop, hmove, Option.some_bind, hb, undoConsumeTreeFrom]
    split_ifs
    · exact Option.Rel.some h2
    · exact Option.Rel.none
    · exact ih h2 (Nat.lt_of_succ_lt_succ hfuel)

end SeqMem

/-- A forward operation on the input sequence in memory; the end-of-file
mark is not in the memory of the buffers. -/
def InputOp.runMem : InputOp → SeqMem → Option (Option Nat × SeqMem)
  | prependData data, m => some (none, m.inputPrependData data)
  | prependTree tree ignore, m => some (none, m.inputPrependTree tree ignore)
  | prependStream stream, m => some (none, m.inputPrependStream stream)
  | appendData data, m => some (none, m.inputAppendData data)
  | appendTree tree, m => some (none, m.inputAppendTree tree)
  | appendStream stream, m => some (none, m.inputAppendStream stream)
  | consumeData length, m => (m.inputConsumeData length).map fun (consumed, m) => (some consumed, m)
  | consumeTree, m => m.inputConsumeTree.map fun (tree, m) => (some tree, m)
  | setEofMark _, m => some (none, m)

/-- An undo on the input sequence in memory. -/
def InputUndo.runMem : InputUndo → SeqMem → Option SeqMem
  | consumeData data length, m => (m.inputUndoConsumeData data length).map Prod.snd
  | consumeTree tree, m => m.inputUndoConsumeTree tree
  | prependData, m => m.inputUndoPrependData
  | prependTree, m => m.inputUndoPrependTree.map Prod.snd
  | prependStream, m => m.inputUndoPrependStream
  | appendData, m => m.inputUndoAppendData
  | appendTree, m => m.inputUndoAppendTree.map Prod.snd
  | appendStream, m => m.inputUndoAppendStream

/-- A call in memory. -/
def InputCall.runMem : InputCall → SeqMem → Option SeqMem
  | forward op, m => (op.runMem m).map Prod.snd
  | undo u, m => u.runMem m

/-- A sequence of calls in memory. -/
def runCallsMem : List InputCall → SeqMem → Option SeqMem
  | [], m => some m
  | c :: cs, m => (c.runMem m).bind (runCallsMem cs)

/-- Related results stay related under maps that respect the relation. -/
theorem optionRel_map {α β γ δ : Type} {r : α → β → Prop} {s : γ → δ → Prop} {f : α → γ}
    {g : β → δ} (hfg : ∀ a b, r a b → s (f a) (g b)) {x : Option α} {y : Option β}
    (h : Option.Rel r x y) : Option.Rel s (x.map f) (y.map g) := by
  cases h with
  | some hab => exact .some (hfg _ _ hab)
  | none => exact .none

/-- Related results stay related under binds that respect the relation. -/
theorem optionRel_bind {α β γ δ : Type} {r : α → β → Prop} {s : γ → δ → Prop}
    {f : α → Option γ} {g : β → Option δ} {x : Option α} {y : Option β} (h : Option.Rel r x y)
    (hfg : ∀ a b, r a b → Option.Rel s (f a) (g b)) : Option.Rel s (x.bind f) (y.bind g) := by
  cases h with
  | some hab => exact hfg _ _ hab
  | none => exact .none

theorem optionRel_map_right {α β δ : Type} {r : α → β → Prop} {s : α → δ → Prop} {g : β → δ}
    (hg : ∀ a b, r a b → s a (g b)) {x : Option α} {y : Option β} (h : Option.Rel r x y) :
    Option.Rel s x (y.map g) := by
  cases h with
  | some hab => exact .some (hg _ _ hab)
  | none => exact .none

/-- Where one side of a relation of results succeeds, so does the other. -/
theorem optionRel_some_left {α β : Type} {r : α → β → Prop} {a : α} {y : Option β}
    (h : Option.Rel r (some a) y) : ∃ b, y = some b ∧ r a b := by
  cases h with
  | some hab => exact ⟨_, rfl, hab⟩

theorem optionRel_some_right {α β : Type} {r : α → β → Prop} {x : Option α} {b : β}
    (h : Option.Rel r x (some b)) : ∃ a, x = some a ∧ r a b := by
  cases h with
  | some hab => exact ⟨_, rfl, hab⟩

namespace SeqMem

variable {m : SeqMem} {si : InputImplSeq}

/-- Popping and freeing the head in memory pops the head of the list model. -/
theorem Represents.popHeadFree_rel (h : m.Represents si.queue si.stash) :
    Option.Rel (fun (r : SeqBuf × SeqMem) (r' : SeqBuf × InputImplSeq) =>
      r.1 = r'.1 ∧ r.2.Represents r'.2.queue r'.2.stash) m.popHeadFree si.seqPopHead := by
  cases hq : si.queue with
  | nil =>
    simp only [(hq ▸ h).popHeadFree_nil, InputImplSeq.seqPopHead, hq]
    exact .none
  | cons b rest =>
    obtain ⟨m', hpop, h'⟩ := (hq ▸ h).popHeadFree
    simp only [hpop, InputImplSeq.seqPopHead, hq]
    exact .some ⟨rfl, h'⟩

/-- Popping and freeing the tail in memory pops the tail of the list model. -/
theorem Represents.popTailFree_rel (h : m.Represents si.queue si.stash) :
    Option.Rel (fun (r : SeqBuf × SeqMem) (r' : SeqBuf × InputImplSeq) =>
      r.1 = r'.1 ∧ r.2.Represents r'.2.queue r'.2.stash) m.popTailFree si.seqPopTail := by
  rcases List.eq_nil_or_concat si.queue with hq | ⟨rest, b, hq⟩
  · rw [hq] at h
    simp only [h.popTailFree_nil, InputImplSeq.seqPopTail, hq, List.getLast?_nil]
    exact .none
  · rw [hq, List.concat_eq_append] at h
    obtain ⟨m', hpop, h'⟩ := h.popTailFree
    simp only [hpop, InputImplSeq.seqPopTail, hq, List.concat_eq_append, List.getLast?_append,
      List.getLast?_singleton, Option.or_some, List.dropLast_concat]
    exact .some ⟨rfl, h'⟩

end SeqMem

section Refines

variable {m : SeqMem} {si : InputImplSeq}

/-- Every forward operation in memory does what the list model does: it
fails exactly where the list model fails, returns the same count or tree,
and holds the same queue and stash. -/
theorem InputOp.runMem_refines (op : InputOp) (h : m.Represents si.queue si.stash) :
    Option.Rel (fun (r : Option Nat × SeqMem) (r' : Option Nat × InputImplSeq) =>
        r.1 = r'.1 ∧ r.2.Represents r'.2.queue r'.2.stash) (op.runMem m) (op.run si) := by
  have hlen := h.length_eq
  cases op with
  | prependData data => exact .some ⟨rfl, h.maybeSplit.prependNew _⟩
  | prependTree tree ignore => exact .some ⟨rfl, h.maybeSplit.prependNew _⟩
  | prependStream stream => exact .some ⟨rfl, h.maybeSplit.prependNew _⟩
  | appendData data => exact .some ⟨rfl, h.appendNew _⟩
  | appendTree tree => exact .some ⟨rfl, h.appendNew _⟩
  | appendStream stream => exact .some ⟨rfl, h.appendNew _⟩
  | consumeData length =>
    obtain ⟨m', hrun, h'⟩ := h.consumeDataLoop (show si.queue.length < m.live.length + 1 by omega) length 0
    simp only [InputOp.runMem, SeqMem.inputConsumeData, hrun, InputOp.run, inputConsumeData,
      Option.map_some']
    exact .some ⟨rfl, h'⟩
  | consumeTree =>
    simp only [InputOp.runMem, SeqMem.inputConsumeTree, InputOp.run, inputConsumeTree, Option.map_map]
    refine optionRel_map ?_ (h.consumeTreeLoop (show si.queue.length < m.live.length + 1 by omega))
    rintro ⟨t, m'⟩ ⟨t', q', st'⟩ ⟨rfl, hr⟩
    exact ⟨rfl, hr⟩
  | setEofMark eofMark => exact .some ⟨rfl, h⟩

/-- Every undo in memory does what the list model does: it fails exactly
where the list model fails, and otherwise holds the same queue and stash. -/
theorem InputUndo.runMem_refines (u : InputUndo) (h : m.Represents si.queue si.stash) :
    Option.Rel (fun m' si' => m'.Represents si'.queue si'.stash) (u.runMem m) (u.run si) := by
  have hlen := h.length_eq
  cases u with
  | consumeData data length =>
    simp only [InputUndo.runMem, SeqMem.inputUndoConsumeData, InputUndo.run, inputUndoConsumeData]
    split_ifs
    · simp only [Option.map_map]
      refine optionRel_map ?_
        (SeqMem.Represents.undoConsumeDataLoop data length h
          (show si.stash.length < m.live.length + 1 by omega))
      exact fun _ _ hr => hr
    · exact .none
  | consumeTree tree =>
    simp only [InputUndo.runMem, SeqMem.inputUndoConsumeTree, InputUndo.run, inputUndoConsumeTree]
    refine optionRel_map_right ?_
      (h.undoConsumeTreeLoop tree (show si.stash.length < m.live.length + 1 by omega))
    exact fun _ _ hr => hr
  | prependData | prependStream => exact optionRel_map (fun _ _ hr => hr.2) h.popHeadFree_rel
  | prependTree =>
    simp only [InputUndo.runMem, SeqMem.inputUndoPrependTree, InputUndo.run, inputUndoPrependTree]
    cases hq : si.queue with
    | nil =>
      rw [hq] at h
      simp only [h.queue_eq_zero, ne_eq, not_true_eq_false, false_and, if_false]
      exact .none
    | cons b rest =>
      obtain ⟨hq0, hb⟩ := (hq ▸ h).head
      simp only [hq0, hb, ne_eq, not_false_eq_true, true_and]
      split_ifs
      · simp only [Option.map_map]
        exact optionRel_map (fun _ _ hr => hr.2) h.popHeadFree_rel
      · exact .none
  | appendData | appendStream => exact optionRel_map (fun _ _ hr => hr.2) h.popTailFree_rel
  | appendTree =>
    simp only [InputUndo.runMem, SeqMem.inputUndoAppendTree, InputUndo.run, inputUndoAppendTree,
      Option.map_map]
    exact optionRel_map (fun _ _ hr => hr.2) h.popTailFree_rel

/-- Every call in memory does what the list model does. -/
theorem InputCall.runMem_refines (c : InputCall) (h : m.Represents si.queue si.stash) :
    Option.Rel (fun m' si' => m'.Represents si'.queue si'.stash) (c.runMem m) (c.run si) := by
  cases c with
  | forward op => exact optionRel_map (fun _ _ hr => hr.2) (op.runMem_refines h)
  | undo u => exact u.runMem_refines h

/-- Every sequence of calls in memory does what the list model does, from
any memory that holds the list model's queue and stash. -/
theorem runCallsMem_refines_of : ∀ (calls : List InputCall) {m : SeqMem} {si : InputImplSeq},
    m.Represents si.queue si.stash →
      Option.Rel (fun m' si' => m'.Represents si'.queue si'.stash)
        (runCallsMem calls m) (runCalls calls si)
  | [], _, _, h => .some h
  | c :: calls, _, _, h =>
    optionRel_bind (c.runMem_refines h) fun _ _ h' => runCallsMem_refines_of calls h'

end Refines

/-- `init_input_impl_seq` in memory holds the list model's first state. -/
theorem represents_initInputImplSeq :
    SeqMem.init.Represents initInputImplSeq.queue initInputImplSeq.stash :=
  SeqMem.represents_init

/-- Every sequence of calls of `input_funcs_seq` from `init_input_impl_seq`,
in any order, does in memory what the list model does: the memory run fails
exactly where the list run fails (a null pointer read, a failed assertion),
and otherwise the queue and the stash in memory are lists linked as
`input.c` links them (null-terminated, the queue also linked backwards, its
tail pointer at its last buffer) that hold the list model's buffers in
order, and every buffer allocated and not freed is on exactly one of them. -/
theorem runCallsMem_refines (calls : List InputCall) :
    Option.Rel (fun m si => m.Represents si.queue si.stash)
      (runCallsMem calls SeqMem.init) (runCalls calls initInputImplSeq) :=
  runCallsMem_refines_of calls represents_initInputImplSeq

/- The run of the empty text and the token in memory: the last undo reads
the tail of a null queue there too. -/
example : runCallsMem [.forward (.appendData []), .forward (.appendTree 1), .forward .consumeTree,
    .undo (.consumeTree 1), .undo .appendTree, .undo .appendData] SeqMem.init = none := by rfl

/-- After every sequence of calls from `init_input_impl_seq` that does not
fail, the queue and the stash in memory are the chains of buffers reached by
`next` from `queue` and from `stash` to a null pointer, the queue also linked
backwards by `prev` and ending at `queue_tail`, and every buffer allocated
and not freed is on exactly one of them.  So the links keep what `input.c`
relies on: `queue` is null exactly when `queue_tail` is, the head has a null
`prev` and the tail a null `next`, and every buffer of the queue but the
tail is the `prev` of its `next`. -/
theorem runCallsMem_links {calls : List InputCall} {m : SeqMem}
    (h : runCallsMem calls SeqMem.init = some m) :
    ∃ qa sa, m.links.Linked qa sa ∧ m.live.Perm (qa ++ sa) ∧
      (m.links.queue = 0 ↔ m.links.queueTail = 0) ∧
      (m.links.queue ≠ 0 → m.links.prev m.links.queue = 0) ∧
      (m.links.queueTail ≠ 0 → m.links.next m.links.queueTail = 0) ∧
      ∀ b ∈ qa, b ≠ m.links.queueTail → m.links.prev (m.links.next b) = b := by
  obtain ⟨si, -, qa, sa, hh, -, -⟩ :=
    optionRel_some_left (h ▸ runCallsMem_refines_of calls represents_initInputImplSeq)
  obtain ⟨h1, h2, h3, h4, -⟩ := hh.linked.shape
  exact ⟨qa, sa, hh.linked, hh.live, h1, h2, h3, h4⟩

/-- An empty text and a token appended: the memory keeps its links. -/
theorem runCallsMem_links_appends :
    ∃ m, runCallsMem [.forward (.appendData []), .forward (.appendTree 1)] SeqMem.init = some m ∧
      ∃ qa sa, m.links.Linked qa sa ∧ m.live.Perm (qa ++ sa) ∧
        (m.links.queue = 0 ↔ m.links.queueTail = 0) ∧
        (m.links.queue ≠ 0 → m.links.prev m.links.queue = 0) ∧
        (m.links.queueTail ≠ 0 → m.links.next m.links.queueTail = 0) ∧
        ∀ b ∈ qa, b ≠ m.links.queueTail → m.links.prev (m.links.next b) = b :=
  ⟨_, rfl, @runCallsMem_links [.forward (.appendData []), .forward (.appendTree 1)] _ rfl⟩

/-- After every run of steps from `init_input_impl_seq` that does not fail,
the calls that run makes (`runStepsCalls`), run in memory, leave a memory
that holds the run's queue and stash as linked lists; in particular every
buffer allocated and not freed is on exactly one of them. -/
theorem runSteps_represents {steps : List RunStep} {st : RunState}
    (h : runSteps steps ⟨initInputImplSeq, []⟩ = some st) :
    ∃ m, runCallsMem (runStepsCalls steps ⟨initInputImplSeq, []⟩) SeqMem.init = some m ∧
      m.Represents st.si.queue st.si.stash := by
  have hrel := runCallsMem_refines_of (runStepsCalls steps ⟨initInputImplSeq, []⟩)
    represents_initInputImplSeq
  rw [runSteps_calls steps h] at hrel
  obtain ⟨m, hm, hrep⟩ := optionRel_some_right hrel
  exact ⟨m, hm, hrep⟩

/-- The empty text left in the stash by the run of the empty text and the
token is a buffer of the stash in memory too. -/
theorem runSteps_represents_emptyText :
    runSteps [.forward (.appendData []), .forward (.appendTree 1), .forward .consumeTree, .undo,
        .undo] ⟨initInputImplSeq, []⟩ =
      some ⟨{ initInputImplSeq with stash := [emptyText] }, [.appendData]⟩ ∧
    ∃ m, runCallsMem (runStepsCalls [.forward (.appendData []), .forward (.appendTree 1),
        .forward .consumeTree, .undo, .undo] ⟨initInputImplSeq, []⟩) SeqMem.init = some m ∧
      m.Represents [] [emptyText] :=
  ⟨rfl, @runSteps_represents [.forward (.appendData []), .forward (.appendTree 1),
    .forward .consumeTree, .undo, .undo] ⟨{ initInputImplSeq with stash := [emptyText] },
    [.appendData]⟩ rfl⟩

/- The calls of that run: each forward operation, and each undo with the
arguments of the operation it takes back. -/
example : runStepsCalls [.forward (.appendData []), .forward (.appendTree 1), .forward .consumeTree,
    .undo, .undo] ⟨initInputImplSeq, []⟩ =
      [.forward (.appendData []), .forward (.appendTree 1), .forward .consumeTree,
        .undo (.consumeTree 1), .undo .appendTree] := by rfl

end Colm
