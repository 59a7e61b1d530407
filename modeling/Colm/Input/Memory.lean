/-
The input sequence in memory: its links, the contents of its buffers, and the
buffers allocated and not freed.  The memory holds the queue and the stash of
the list model when its chains run through buffers with those contents and
every buffer allocated and not freed lies on exactly one of the two chains.
Each way `input.c` moves a buffer keeps that: from the head of the queue to
the stash, from the stash back to the head, a new buffer at either end of the
queue or on the stash, and a buffer popped from either end and freed.
-/
import Colm.Input.Links

namespace Colm

open Function (update)

/-- The input sequence in memory: the links of its queue and stash, the
contents of the buffer at each address, the addresses allocated and not
freed, and the highest address handed out so far. -/
structure SeqMem where
  links : SeqLinks
  buf : Nat → SeqBuf
  live : List Nat
  top : Nat

namespace SeqMem

variable (m : SeqMem)

/-- `init_input_impl_seq`: no buffers, null pointers. -/
def init : SeqMem :=
  ⟨⟨fun _ => 0, fun _ => 0, 0, 0, 0⟩, fun _ => { type := .token }, [], 0⟩

/-- `new_seq_buf`, its contents then filled in: a fresh address.  Its links
are set by the primitive that puts it on a list. -/
def alloc (b : SeqBuf) : Nat × SeqMem :=
  (m.top + 1, { m with
    buf := update m.buf (m.top + 1) b
    live := (m.top + 1) :: m.live
    top := m.top + 1 })

/-- `free( seq_buf )`. -/
def free (a : Nat) : SeqMem :=
  { m with live := m.live.erase a }

/-- A write to the contents of the buffer at `a`. -/
def setBuf (a : Nat) (b : SeqBuf) : SeqMem :=
  { m with buf := update m.buf a b }

/-- `seq_buf = input_stream_seq_pop_head( si ); input_stream_stash_head( prg,
si, seq_buf )`, as the consumes do it. -/
def moveHeadToStash : Option SeqMem :=
  m.links.seqPopHead.map fun (a, l) => { m with links := l.stashHead a }

/-- `b = input_stream_pop_stash( prg, si ); input_stream_seq_prepend( si,
b )`, as the undos of the consumes do it. -/
def moveStashToHead : Option SeqMem :=
  m.links.popStash.map fun (a, l) => { m with links := l.seqPrepend a }

/-- A new buffer put at the head of the queue. -/
def prependNew (b : SeqBuf) : SeqMem :=
  let (a, m) := m.alloc b
  { m with links := m.links.seqPrepend a }

/-- A new buffer put at the tail of the queue. -/
def appendNew (b : SeqBuf) : SeqMem :=
  let (a, m) := m.alloc b
  { m with links := m.links.seqAppend a }

/-- A new buffer put on top of the stash. -/
def stashNew (b : SeqBuf) : SeqMem :=
  let (a, m) := m.alloc b
  { m with links := m.links.stashHead a }

/-- The head of the queue popped and freed, with its contents. -/
def popHeadFree : Option (SeqBuf × SeqMem) :=
  m.links.seqPopHead.map fun (a, l) => (m.buf a, { m with links := l }.free a)

/-- The tail of the queue popped and freed, with its contents. -/
def popTailFree : Option (SeqBuf × SeqMem) :=
  m.links.seqPopTail.map fun (a, l) => (m.buf a, { m with links := l }.free a)

/-- The memory holds the queue `qa` and the stash `sa`, as lists of
addresses: linked as `input.c` links them, every address allocated and not
freed on exactly one of them, and all of them handed out. -/
structure Holds (qa sa : List Nat) : Prop where
  linked : m.links.Linked qa sa
  live : m.live.Perm (qa ++ sa)
  top : ∀ a ∈ qa ++ sa, a ≤ m.top

/-- The memory holds the queue `queue` and the stash `stash` of the list
model: chains of addresses whose buffers have those contents. -/
def Represents (queue stash : List SeqBuf) : Prop :=
  ∃ qa sa, m.Holds qa sa ∧ qa.map m.buf = queue ∧ sa.map m.buf = stash

theorem map_update_of_not_mem {f : Nat → SeqBuf} {a : Nat} {v : SeqBuf} {as : List Nat}
    (h : a ∉ as) : as.map (update f a v) = as.map f :=
  List.map_congr_left fun _ hx => Function.update_noteq (by rintro rfl; exact h hx) v f

variable {m} {qa sa : List Nat} {queue stash : List SeqBuf} {b : SeqBuf}

/-- The address `alloc` hands out is on neither list. -/
theorem Holds.fresh (h : m.Holds qa sa) : m.top + 1 ≠ 0 ∧ m.top + 1 ∉ qa ++ sa :=
  ⟨Nat.succ_ne_zero _, fun hm => Nat.not_succ_le_self _ (h.top _ hm)⟩

theorem represents_init : init.Represents [] [] :=
  ⟨[], [], ⟨⟨rfl, trivial, rfl, rfl, List.nodup_nil⟩, List.Perm.nil, by simp⟩, rfl, rfl⟩

/-- The memory has as many buffers allocated and not freed as the two lists
hold. -/
theorem Represents.length_eq (h : m.Represents queue stash) :
    queue.length + stash.length = m.live.length := by
  obtain ⟨qa, sa, hh, rfl, rfl⟩ := h
  simp [hh.live.length_eq]

theorem Represents.queue_eq_zero (h : m.Represents [] stash) : m.links.queue = 0 := by
  obtain ⟨qa, sa, hh, hq, -⟩ := h
  rw [List.map_eq_nil_iff.mp hq] at hh
  exact hh.linked.queue

theorem Represents.head (h : m.Represents (b :: queue) stash) :
    m.links.queue ≠ 0 ∧ m.buf m.links.queue = b := by
  obtain ⟨qa, sa, hh, hq, -⟩ := h
  obtain ⟨a, qa, rfl, rfl, -⟩ := List.map_eq_cons_iff.mp hq
  obtain ⟨ha, ha0, -⟩ := hh.linked.queue
  exact ⟨ha ▸ ha0, ha ▸ rfl⟩

/-- A write to the head buffer of the queue changes only its contents. -/
theorem Represents.setHead (h : m.Represents (b :: queue) stash) (b' : SeqBuf) :
    (m.setBuf m.links.queue b').Represents (b' :: queue) stash := by
  obtain ⟨qa, sa, hh, hq, hs⟩ := h
  obtain ⟨a, qa, rfl, rfl, hq'⟩ := List.map_eq_cons_iff.mp hq
  obtain ⟨haq, has⟩ : a ∉ qa ∧ a ∉ sa := by simpa using (List.nodup_cons.mp hh.linked.nodup).1
  refine ⟨a :: qa, sa, ⟨hh.1, hh.2, hh.3⟩, ?_, ?_⟩ <;> rw [hh.linked.queue.1]
  · simp [setBuf, map_update_of_not_mem haq, hq']
  · simp [setBuf, map_update_of_not_mem has, hs]

/-- The consumes' move of the head of the queue to the top of the stash. -/
theorem Represents.moveHeadToStash (h : m.Represents (b :: queue) stash) :
    ∃ m', m.moveHeadToStash = some m' ∧ m'.Represents queue (b :: stash) := by
  obtain ⟨qa, sa, hh, hq, hs⟩ := h
  obtain ⟨a, qa, rfl, rfl, hq'⟩ := List.map_eq_cons_iff.mp hq
  obtain ⟨l, hpop, hl⟩ := hh.linked.seqPopHead
  have ha := hh.linked.queue.ne_zero (List.mem_cons_self a qa)
  refine ⟨{ m with links := l.stashHead a }, by simp [SeqMem.moveHeadToStash, hpop], qa, a :: sa,
    ⟨hl.stashHead ha (List.nodup_cons.mp hh.linked.nodup).1, hh.live.trans List.perm_middle.symm,
      fun x hx => hh.top x (List.perm_middle.subset hx)⟩, hq', by simp [hs]⟩

/-- The undos' move of the top of the stash back to the head of the queue. -/
theorem Represents.moveStashToHead (h : m.Represents queue (b :: stash)) :
    ∃ m', m.moveStashToHead = some m' ∧ m'.Represents (b :: queue) stash := by
  obtain ⟨qa, sa, hh, hq, hs⟩ := h
  obtain ⟨a, sa, rfl, rfl, hs'⟩ := List.map_eq_cons_iff.mp hs
  obtain ⟨hpop, hl⟩ := hh.linked.popStash
  have ha := hh.linked.stash.ne_zero (List.mem_cons_self a sa)
  have hnd := List.nodup_middle.mp hh.linked.nodup
  refine ⟨{ m with links := { m.links with stash := m.links.next a }.seqPrepend a },
    by simp [SeqMem.moveStashToHead, hpop], a :: qa, sa,
    ⟨hl.seqPrepend ha (List.nodup_cons.mp hnd).1, hh.live.trans List.perm_middle,
      fun x hx => hh.top x (List.perm_middle.symm.subset hx)⟩, by simp [hq], hs'⟩

theorem Represents.moveStashToHead_nil (h : m.Represents queue []) : m.moveStashToHead = none := by
  obtain ⟨qa, sa, hh, -, hs⟩ := h
  rw [List.map_eq_nil_iff.mp hs] at hh
  simp [SeqMem.moveStashToHead, hh.linked.popStash_nil]

theorem Holds.top_succ (h : m.Holds qa sa) : ∀ x ∈ (m.top + 1) :: (qa ++ sa), x ≤ m.top + 1 := by
  intro x hx
  rcases List.mem_cons.mp hx with rfl | hx
  · exact le_rfl
  · exact Nat.le_succ_of_le (h.top x hx)

/-- A new buffer at the head of the queue. -/
theorem Represents.prependNew (h : m.Represents queue stash) (b : SeqBuf) :
    (m.prependNew b).Represents (b :: queue) stash := by
  obtain ⟨qa, sa, hh, hq, hs⟩ := h
  obtain ⟨ha, hfresh⟩ := hh.fresh
  refine ⟨(m.top + 1) :: qa, sa, ⟨hh.linked.seqPrepend ha hfresh, hh.live.cons _, hh.top_succ⟩, ?_, ?_⟩
  · simp [SeqMem.prependNew, alloc, map_update_of_not_mem (SeqLinks.Linked.not_mem_queue hfresh), hq]
  · simp [SeqMem.prependNew, alloc, map_update_of_not_mem (SeqLinks.Linked.not_mem_stash hfresh), hs]

/-- A new buffer at the tail of the queue. -/
theorem Represents.appendNew (h : m.Represents queue stash) (b : SeqBuf) :
    (m.appendNew b).Represents (queue ++ [b]) stash := by
  obtain ⟨qa, sa, hh, hq, hs⟩ := h
  obtain ⟨ha, hfresh⟩ := hh.fresh
  refine ⟨qa ++ [m.top + 1], sa, ⟨hh.linked.seqAppend ha hfresh, ?_,
    fun x hx => hh.top_succ x (by simp at hx ⊢; tauto)⟩, ?_, ?_⟩
  · rw [List.append_assoc, List.singleton_append]
    exact (hh.live.cons _).trans List.perm_middle.symm
  · simp [SeqMem.appendNew, alloc, map_update_of_not_mem (SeqLinks.Linked.not_mem_queue hfresh), hq]
  · simp [SeqMem.appendNew, alloc, map_update_of_not_mem (SeqLinks.Linked.not_mem_stash hfresh), hs]

/-- A new buffer on top of the stash. -/
theorem Represents.stashNew (h : m.Represents queue stash) (b : SeqBuf) :
    (m.stashNew b).Represents queue (b :: stash) := by
  obtain ⟨qa, sa, hh, hq, hs⟩ := h
  obtain ⟨ha, hfresh⟩ := hh.fresh
  refine ⟨qa, (m.top + 1) :: sa, ⟨hh.linked.stashHead ha hfresh, (hh.live.cons _).trans
    List.perm_middle.symm, fun x hx => hh.top_succ x (List.perm_middle.subset hx)⟩, ?_, ?_⟩
  · simp [SeqMem.stashNew, alloc, map_update_of_not_mem (SeqLinks.Linked.not_mem_queue hfresh), hq]
  · simp [SeqMem.stashNew, alloc, map_update_of_not_mem (SeqLinks.Linked.not_mem_stash hfresh), hs]

/-- The head of a non-empty queue popped and freed. -/
theorem Represents.popHeadFree (h : m.Represents (b :: queue) stash) :
    ∃ m', m.popHeadFree = some (b, m') ∧ m'.Represents queue stash := by
  obtain ⟨qa, sa, hh, hq, hs⟩ := h
  obtain ⟨a, qa, rfl, rfl, hq'⟩ := List.map_eq_cons_iff.mp hq
  obtain ⟨l, hpop, hl⟩ := hh.linked.seqPopHead
  refine ⟨{ m with links := l }.free a, by simp [SeqMem.popHeadFree, hpop], qa, sa,
    ⟨hl, by simpa using hh.live.erase a, fun x hx => hh.top x (List.mem_cons_of_mem a hx)⟩, hq', hs⟩

theorem Represents.popHeadFree_nil (h : m.Represents [] stash) : m.popHeadFree = none := by
  obtain ⟨qa, sa, hh, hq, -⟩ := h
  rw [List.map_eq_nil_iff.mp hq] at hh
  simp [SeqMem.popHeadFree, hh.linked.seqPopHead_nil]

/-- The tail of a non-empty queue popped and freed. -/
theorem Represents.popTailFree (h : m.Represents (queue ++ [b]) stash) :
    ∃ m', m.popTailFree = some (b, m') ∧ m'.Represents queue stash := by
  obtain ⟨qa, sa, hh, hq, hs⟩ := h
  obtain ⟨qa, ta, rfl, hq', ht⟩ := List.map_eq_append_iff.mp hq
  obtain ⟨a, _, rfl, rfl, hnil⟩ := List.map_eq_cons_iff.mp ht
  rw [List.map_eq_nil_iff] at hnil
  subst hnil
  obtain ⟨l, hpop, hl⟩ := hh.linked.seqPopTail
  have hlive : m.live.Perm (a :: (qa ++ sa)) := by
    have hl := hh.live
    rw [List.append_assoc, List.singleton_append] at hl
    exact hl.trans List.perm_middle
  refine ⟨{ m with links := l }.free a, by simp [SeqMem.popTailFree, hpop], qa, sa,
    ⟨hl, by simpa using hlive.erase a, fun x hx =>
      hh.top x (((List.sublist_append_left qa [a]).append_right sa).subset hx)⟩, hq', hs⟩

theorem Represents.popTailFree_nil (h : m.Represents [] stash) : m.popTailFree = none := by
  obtain ⟨qa, sa, hh, hq, -⟩ := h
  rw [List.map_eq_nil_iff.mp hq] at hh
  simp [SeqMem.popTailFree, hh.linked.seqPopTail_nil]

end SeqMem

end Colm
