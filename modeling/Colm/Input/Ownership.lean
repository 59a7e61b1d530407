/-
The sub-streams that buffers own, over whole runs.  In the model an address
names one buffer for good: `new_seq_buf` hands out a fresh one and nothing
hands one out again, so from a memory to any memory that later calls reach,
every buffer allocated was allocated before or is new (`Grows`).  `input_undo_prepend_data` and `input_undo_append_data`
free the buffer their forward operation made, which owns the text stream
made for the data, with a bare `free( seq_buf )`: the stream's destructor is
not called, and since the address is never allocated again,
`input_destructor` never reaches it either.
-/
import Colm.Input.Destructor

namespace Colm

namespace SeqMem

/-- From `m` to `m'` no address is handed out twice: `top` only grows, and
every buffer allocated in `m'` was allocated in `m` or lies above `m.top`. -/
def Grows (m m' : SeqMem) : Prop :=
  m.top ≤ m'.top ∧ ∀ x ∈ m'.live, x ∈ m.live ∨ m.top < x

namespace Grows

variable {m m' m1 m2 m3 : SeqMem}

theorem refl (m : SeqMem) : Grows m m := ⟨le_rfl, fun _ hx => .inl hx⟩

theorem trans (h12 : Grows m1 m2) (h23 : Grows m2 m3) : Grows m1 m3 :=
  ⟨h12.1.trans h23.1, fun x hx =>
    (h23.2 x hx).elim (h12.2 x) fun hlt => .inr (lt_of_le_of_lt h12.1 hlt)⟩

/-- A step that leaves the allocation alone: only links or contents change. -/
theorem of_eq (hlive : m'.live = m.live) (htop : m'.top = m.top) : Grows m m' :=
  ⟨htop.ge, fun _ hx => .inl (hlive ▸ hx)⟩

/-- An address freed for good stays free. -/
theorem not_mem_live {a : Nat} (h : Grows m m') (hlive : a ∉ m.live) (htop : a ≤ m.top) :
    a ∉ m'.live ∧ a ≤ m'.top :=
  ⟨fun ha => (h.2 a ha).elim hlive (Nat.not_lt.mpr htop), htop.trans h.1⟩

end Grows

variable {m m' : SeqMem}

theorem grows_alloc (b : SeqBuf) : Grows m (m.alloc b).2 :=
  ⟨Nat.le_succ _, fun _ hx =>
    (List.mem_cons.mp hx).elim (fun h => .inr (h ▸ Nat.lt_succ_self _)) .inl⟩

/-- A free: one address fewer allocated. -/
theorem grows_of_erase {a : Nat} (hlive : m'.live = m.live.erase a) (htop : m'.top = m.top) :
    Grows m m' :=
  ⟨htop.ge, fun _ hx => .inl (List.mem_of_mem_erase (hlive ▸ hx))⟩

theorem grows_setBuf (a : Nat) (b : SeqBuf) : Grows m (m.setBuf a b) := Grows.of_eq rfl rfl

theorem grows_prependNew (b : SeqBuf) : Grows m (m.prependNew b) := grows_alloc b

theorem grows_appendNew (b : SeqBuf) : Grows m (m.appendNew b) := grows_alloc b

theorem grows_stashNew (b : SeqBuf) : Grows m (m.stashNew b) := grows_alloc b

theorem grows_moveHeadToStash (h : m.moveHeadToStash = some m') : Grows m m' := by
  obtain ⟨_, -, rfl⟩ := Option.map_eq_some'.mp h
  exact Grows.of_eq rfl rfl

theorem grows_moveStashToHead (h : m.moveStashToHead = some m') : Grows m m' := by
  obtain ⟨_, -, rfl⟩ := Option.map_eq_some'.mp h
  exact Grows.of_eq rfl rfl

/-- `input_stream_seq_pop_head` and `free`: the head is no longer allocated. -/
theorem popHeadFree_live {b : SeqBuf} (h : m.popHeadFree = some (b, m')) :
    m'.live = m.live.erase m.links.queue ∧ m'.top = m.top := by
  obtain ⟨⟨a, l⟩, hpop, h⟩ := Option.map_eq_some'.mp h
  obtain ⟨-, rfl⟩ := Prod.mk.inj h
  have ha : a = m.links.queue := by
    unfold SeqLinks.seqPopHead at hpop
    split_ifs at hpop
    exact (Prod.mk.inj (Option.some.inj hpop)).1.symm
  exact ⟨ha ▸ rfl, rfl⟩

/-- `input_stream_seq_pop_tail` and `free`: the tail is no longer allocated. -/
theorem popTailFree_live {b : SeqBuf} (h : m.popTailFree = some (b, m')) :
    m'.live = m.live.erase m.links.queueTail ∧ m'.top = m.top := by
  obtain ⟨⟨a, l⟩, hpop, h⟩ := Option.map_eq_some'.mp h
  obtain ⟨-, rfl⟩ := Prod.mk.inj h
  have ha : a = m.links.queueTail := by
    unfold SeqLinks.seqPopTail at hpop
    split_ifs at hpop
    exact (Prod.mk.inj (Option.some.inj hpop)).1.symm
  exact ⟨ha ▸ rfl, rfl⟩

theorem grows_popHeadFree {b : SeqBuf} (h : m.popHeadFree = some (b, m')) : Grows m m' :=
  grows_of_erase (popHeadFree_live h).1 (popHeadFree_live h).2

theorem grows_popTailFree {b : SeqBuf} (h : m.popTailFree = some (b, m')) : Grows m m' :=
  grows_of_erase (popTailFree_live h).1 (popTailFree_live h).2

theorem grows_maybeSplit : Grows m m.maybeSplit := by
  unfold maybeSplit
  dsimp only
  split_ifs
  · exact (grows_setBuf _ _).trans (grows_stashNew _)
  all_goals exact Grows.refl m

theorem grows_consumeDataLoop :
    ∀ {fuel length consumed : Nat} {m m' : SeqMem} {r : Nat},
      m.consumeDataLoop fuel length consumed = some (r, m') → Grows m m'
  | 0, _, _, _, _, _, h => nomatch h
  | fuel + 1, length, consumed, m, m', r, h => by
    simp only [consumeDataLoop] at h
    split_ifs at h
    · obtain ⟨-, rfl⟩ := Prod.mk.inj (Option.some.inj h)
      exact Grows.refl m
    · obtain ⟨-, rfl⟩ := Prod.mk.inj (Option.some.inj h)
      exact grows_setBuf _ _
    · obtain ⟨m1, hmove, hloop⟩ := Option.bind_eq_some.mp h
      exact (grows_setBuf _ _).trans
        ((grows_moveHeadToStash hmove).trans (grows_consumeDataLoop hloop))
    · obtain ⟨-, rfl⟩ := Prod.mk.inj (Option.some.inj h)
      exact Grows.refl m
    · obtain ⟨-, rfl⟩ := Prod.mk.inj (Option.some.inj h)
      exact Grows.refl m
    · obtain ⟨m1, hmove, hloop⟩ := Option.bind_eq_some.mp h
      exact (grows_moveHeadToStash hmove).trans (grows_consumeDataLoop hloop)

theorem grows_undoConsumeDataLoop (data : List UInt8) :
    ∀ {fuel remaining : Nat} {m m' : SeqMem},
      m.undoConsumeDataLoop data fuel remaining = some m' → Grows m m'
  | 0, _, _, _, h => nomatch h
  | fuel + 1, remaining, m, m', h => by
    simp only [undoConsumeDataLoop] at h
    split_ifs at h
    · obtain rfl := Option.some.inj h
      exact grows_setBuf _ _
    · obtain ⟨m1, hmove, hloop⟩ := Option.bind_eq_some.mp h
      exact (grows_setBuf _ _).trans
        ((grows_moveStashToHead hmove).trans (grows_undoConsumeDataLoop data hloop))
    · obtain ⟨m1, hmove, hloop⟩ := Option.bind_eq_some.mp h
      exact (grows_moveStashToHead hmove).trans (grows_undoConsumeDataLoop data hloop)

theorem grows_consumeTreeLoop :
    ∀ {fuel : Nat} {m m' : SeqMem} {tree : Nat}, m.consumeTreeLoop fuel = some (tree, m') → Grows m m'
  | 0, _, _, _, h => nomatch h
  | fuel + 1, m, m', tree, h => by
    simp only [consumeTreeLoop] at h
    split_ifs at h
    · obtain ⟨m1, hmove, hloop⟩ := Option.bind_eq_some.mp h
      exact (grows_moveHeadToStash hmove).trans (grows_consumeTreeLoop hloop)
    · obtain ⟨m1, hmove, h⟩ := Option.map_eq_some'.mp h
      obtain ⟨-, rfl⟩ := Prod.mk.inj h
      exact grows_moveHeadToStash hmove

theorem grows_undoConsumeTreeLoop (tree : Nat) :
    ∀ {fuel : Nat} {m m' : SeqMem}, m.undoConsumeTreeLoop tree fuel = some m' → Grows m m'
  | 0, _, _, h => nomatch h
  | fuel + 1, m, m', h => by
    obtain ⟨m1, hmove, h⟩ := Option.bind_eq_some.mp h
    refine (grows_moveStashToHead hmove).trans ?_
    dsimp only at h
    split_ifs at h
    · exact Option.some.inj h ▸ Grows.refl m1
    · exact grows_undoConsumeTreeLoop tree h

end SeqMem

open SeqMem

/-- A forward operation hands out only fresh addresses. -/
theorem InputOp.runMem_grows {op : InputOp} {m m' : SeqMem} {r : Option Nat}
    (h : op.runMem m = some (r, m')) : Grows m m' := by
  cases op with
  | consumeData length =>
    obtain ⟨⟨n, m1⟩, hloop, h⟩ := Option.map_eq_some'.mp h
    obtain ⟨-, rfl⟩ := Prod.mk.inj h
    exact grows_consumeDataLoop hloop
  | consumeTree =>
    obtain ⟨⟨n, m1⟩, hloop, h⟩ := Option.map_eq_some'.mp h
    obtain ⟨-, rfl⟩ := Prod.mk.inj h
    exact grows_consumeTreeLoop hloop
  | _ =>
    obtain ⟨-, rfl⟩ := Prod.mk.inj (Option.some.inj h)
    first
      | exact grows_maybeSplit.trans (grows_prependNew _)
      | exact grows_appendNew _
      | exact Grows.refl m

/-- An undo hands out no address. -/
theorem InputUndo.runMem_grows {u : InputUndo} {m m' : SeqMem} (h : u.runMem m = some m') :
    Grows m m' := by
  cases u with
  | consumeData data length =>
    simp only [InputUndo.runMem, SeqMem.inputUndoConsumeData] at h
    split_ifs at h
    · obtain ⟨⟨n, m1⟩, h1, rfl⟩ := Option.map_eq_some'.mp h
      obtain ⟨m2, hloop, h1⟩ := Option.map_eq_some'.mp h1
      obtain ⟨-, rfl⟩ := Prod.mk.inj h1
      exact grows_undoConsumeDataLoop data hloop
    · simp at h
  | consumeTree tree => exact grows_undoConsumeTreeLoop tree h
  | prependTree =>
    simp only [InputUndo.runMem, SeqMem.inputUndoPrependTree] at h
    split_ifs at h
    · obtain ⟨⟨n, m1⟩, h1, rfl⟩ := Option.map_eq_some'.mp h
      obtain ⟨⟨b, m2⟩, hpop, h1⟩ := Option.map_eq_some'.mp h1
      obtain ⟨-, rfl⟩ := Prod.mk.inj h1
      exact grows_popHeadFree hpop
    · simp at h
  | appendTree =>
    obtain ⟨⟨n, m1⟩, h1, rfl⟩ := Option.map_eq_some'.mp h
    obtain ⟨⟨b, m2⟩, hpop, h1⟩ := Option.map_eq_some'.mp h1
    obtain ⟨-, rfl⟩ := Prod.mk.inj h1
    exact grows_popTailFree hpop
  | _ =>
    obtain ⟨⟨b, m1⟩, hpop, rfl⟩ := Option.map_eq_some'.mp h
    first
      | exact grows_popHeadFree hpop
      | exact grows_popTailFree hpop

/-- A call hands out only fresh addresses. -/
theorem InputCall.runMem_grows {c : InputCall} {m m' : SeqMem} (h : c.runMem m = some m') :
    Grows m m' := by
  cases c with
  | forward op =>
    obtain ⟨⟨r, m1⟩, hop, rfl⟩ := Option.map_eq_some'.mp h
    exact InputOp.runMem_grows hop
  | undo u => exact InputUndo.runMem_grows h

/-- A sequence of calls hands out only fresh addresses: an address once freed
is never allocated again. -/
theorem runCallsMem_grows : ∀ {calls : List InputCall} {m m' : SeqMem},
    runCallsMem calls m = some m' → Grows m m'
  | [], _, _, h => Option.some.inj h ▸ Grows.refl _
  | c :: calls, m, m', h => by
    obtain ⟨m1, hc, hrest⟩ := Option.bind_eq_some.mp h
    exact (InputCall.runMem_grows hc).trans (runCallsMem_grows hrest)

namespace SeqMem

variable {m m' : SeqMem} {b : SeqBuf}

theorem prependNew_queue : (m.prependNew b).links.queue = m.top + 1 := by
  simp only [prependNew, alloc, SeqLinks.seqPrepend]
  split_ifs <;> rfl

theorem appendNew_queueTail : (m.appendNew b).links.queueTail = m.top + 1 := by
  simp only [appendNew, alloc, SeqLinks.seqAppend]
  split_ifs <;> rfl

section Events

variable (f : Nat → SeqBuf) (qa : List Nat)

/-- The first loop destroys the sub-streams of the buffers it walks that own
theirs. -/
theorem destroyedAddr_queueBufEvents :
    (qa.flatMap fun x => queueBufEvents x (f x)).filterMap DestroyEvent.destroyedAddr =
      qa.filter fun x => callDestructor (f x) := by
  induction qa with
  | nil => rfl
  | cons x qa ih =>
    rw [List.flatMap_cons, List.filterMap_append, ih, List.filter_cons]
    unfold queueBufEvents
    split_ifs <;> rfl

/-- The second loop destroys the sub-streams of the buffers it walks that own
theirs. -/
theorem destroyedAddr_stashBufEvents :
    (qa.flatMap fun x => stashBufEvents x (f x)).filterMap DestroyEvent.destroyedAddr =
      qa.filter fun x => callDestructor (f x) := by
  induction qa with
  | nil => rfl
  | cons x qa ih =>
    rw [List.flatMap_cons, List.filterMap_append, ih, List.filter_cons]
    unfold stashBufEvents
    split_ifs <;> rfl

end Events

/-- `input_destructor` destroys only sub-streams of allocated buffers. -/
theorem Holds.destroyedAddr_mem_live {qa sa : List Nat} (h : m.Holds qa sa) :
    ∃ evs m'', m.inputDestructor = some (evs, m'') ∧
      ∀ a ∈ evs.filterMap DestroyEvent.destroyedAddr, a ∈ m.live := by
  obtain ⟨m'', hd, -, -⟩ := h.inputDestructor
  refine ⟨_, m'', hd, fun a ha => h.live.symm.subset ?_⟩
  rw [List.filterMap_append, destroyedAddr_queueBufEvents, destroyedAddr_stashBufEvents] at ha
  rcases List.mem_append.mp ha with ha | ha
  · exact List.mem_append_left _ (List.mem_of_mem_filter ha)
  · exact List.mem_append_right _ (List.mem_of_mem_filter ha)

/-- The buffer at `a` of `m1` owns its sub-stream, and `undo` frees it for
good: from the memory the undo leaves, no sequence of calls allocates `a`
again, and `input_destructor` after them does not destroy the stream. -/
def StreamLeaked (undo : SeqMem → Option SeqMem) (m1 : SeqMem) (a : Nat) : Prop :=
  callDestructor (m1.buf a) = true ∧ a ∈ m1.live ∧
    ∃ m2, undo m1 = some m2 ∧ ∀ rest m', runCallsMem rest m2 = some m' →
      a ∉ m'.live ∧ ∃ evs m'', m'.inputDestructor = some (evs, m'') ∧
        a ∉ evs.filterMap DestroyEvent.destroyedAddr

variable {si : InputImplSeq}

/-- An address freed for good in a memory that holds a list model stays
free under every sequence of calls, and `input_destructor` never destroys a
stream at it. -/
theorem freed_not_destroyed {m2 : SeqMem} (hrep : m2.Represents si.queue si.stash) {a : Nat}
    (hlive : a ∉ m2.live) (htop : a ≤ m2.top) {rest : List InputCall} {m' : SeqMem}
    (h : runCallsMem rest m2 = some m') :
    a ∉ m'.live ∧ ∃ evs m'', m'.inputDestructor = some (evs, m'') ∧
      a ∉ evs.filterMap DestroyEvent.destroyedAddr := by
  have hfree := ((runCallsMem_grows h).not_mem_live hlive htop).1
  obtain ⟨si', -, qa, sa, hh, -⟩ := optionRel_some_left (h ▸ runCallsMem_refines_of rest hrep)
  obtain ⟨evs, m'', hd, hmem⟩ := hh.destroyedAddr_mem_live
  exact ⟨hfree, evs, m'', hd, fun ha => hfree (hmem a ha)⟩

/-- A new buffer that owns its stream, at a fresh address, popped and freed
by `undo` at once: the stream is leaked. -/
theorem streamLeaked_of_fresh {undo : SeqMem → Option SeqMem} {m0 m1 m2 : SeqMem}
    (hrep : m2.Represents si.queue si.stash) (hfresh : m0.top + 1 ∉ m0.live)
    (hm1 : m1.live = (m0.top + 1) :: m0.live) (htop : m1.top = m0.top + 1)
    (hbuf : callDestructor (m1.buf (m0.top + 1)) = true) (hundo : undo m1 = some m2)
    (hlive : m2.live = m1.live.erase (m0.top + 1) ∧ m2.top = m1.top) :
    StreamLeaked undo m1 (m0.top + 1) := by
  have h2 : m2.live = m0.live := by rw [hlive.1, hm1, List.erase_cons_head]
  refine ⟨hbuf, hm1 ▸ List.mem_cons_self _ _, m2, hundo, fun rest m' h => ?_⟩
  exact freed_not_destroyed hrep (h2 ▸ hfresh) (by omega) h

end SeqMem

/-- `input_undo_prepend_data` frees the buffer `input_prepend_data` put at
the head of the queue, which owns the text stream made for the data, with a
bare `free`; `input_undo_append_data` does the same with the buffer
`input_append_data` put at the tail.  At every memory that calls from
`init_input_impl_seq` reach, the undo succeeds, and whatever calls follow,
the buffer is never allocated again and `input_destructor` never destroys
its stream: the stream is leaked. -/
theorem undoData_leaks_stream {calls : List InputCall} {m : SeqMem}
    (h : runCallsMem calls SeqMem.init = some m) (data : List UInt8) :
    SeqMem.StreamLeaked SeqMem.inputUndoPrependData (m.inputPrependData data)
        (m.inputPrependData data).links.queue ∧
      SeqMem.StreamLeaked SeqMem.inputUndoAppendData (m.inputAppendData data)
        (m.inputAppendData data).links.queueTail := by
  obtain ⟨si, -, hrep⟩ :=
    optionRel_some_left (h ▸ runCallsMem_refines_of calls represents_initInputImplSeq)
  have hfresh {m0 : SeqMem} {q s : List SeqBuf} (h0 : m0.Represents q s) : m0.top + 1 ∉ m0.live :=
    fun ha => by
      obtain ⟨qa, sa, hh, -⟩ := h0
      exact hh.fresh.2 (hh.live.subset ha)
  constructor
  · let b : SeqBuf := { type := .accum, si := colmImplNewText data, ownSi := true }
    obtain ⟨m2, hpop, hrep2⟩ := (hrep.maybeSplit.prependNew b).popHeadFree
    rw [show m.inputPrependData data = m.maybeSplit.prependNew b from rfl, SeqMem.prependNew_queue]
    exact SeqMem.streamLeaked_of_fresh hrep2 (hfresh hrep.maybeSplit) rfl rfl
      (by simp [SeqMem.prependNew, SeqMem.alloc, b, callDestructor, isStream])
      (by simp [SeqMem.inputUndoPrependData, hpop])
      (SeqMem.prependNew_queue ▸ SeqMem.popHeadFree_live hpop)
  · let b : SeqBuf := { type := .accum, si := colmImplNewText data, ownSi := true }
    obtain ⟨m2, hpop, hrep2⟩ := (hrep.appendNew b).popTailFree
    rw [show m.inputAppendData data = m.appendNew b from rfl, SeqMem.appendNew_queueTail]
    exact SeqMem.streamLeaked_of_fresh hrep2 (hfresh hrep) rfl rfl
      (by simp [SeqMem.appendNew, SeqMem.alloc, b, callDestructor, isStream])
      (by simp [SeqMem.inputUndoAppendData, hpop])
      (SeqMem.appendNew_queueTail ▸ SeqMem.popTailFree_live hpop)

/-- After a text is appended, the streams of a second text prepended or
appended and then undone are leaked. -/
theorem undoData_leaks_stream_after_append :
    ∃ m, runCallsMem [.forward (.appendData [7])] SeqMem.init = some m ∧
      SeqMem.StreamLeaked SeqMem.inputUndoPrependData (m.inputPrependData [1, 2])
          (m.inputPrependData [1, 2]).links.queue ∧
        SeqMem.StreamLeaked SeqMem.inputUndoAppendData (m.inputAppendData [1, 2])
          (m.inputAppendData [1, 2]).links.queueTail :=
  ⟨_, rfl, @undoData_leaks_stream [.forward (.appendData [7])] _ rfl [1, 2]⟩

/- The same run, evaluated: the stream of the first text, at 1, is destroyed
with its buffer; the buffer at 2 was freed by the undo and its stream is
destroyed nowhere. -/
example : (runCallsMem [.forward (.appendData [7]), .forward (.prependData [1, 2]),
    .undo .prependData] SeqMem.init).bind (fun m => m.inputDestructor.map Prod.fst) =
      some [.destroyStream 1, .free 1] := by rfl

end Colm
