/-
The links of the input sequence as `input.c` keeps them.  Every `seq_buf`
has a `next` and a `prev` pointer; the queue is doubly linked from `queue`
to `queue_tail`, and the stash singly linked from `stash` through the same
`next` field.  Memory is one map per field of a buffer, with `0` for the null
pointer.  The list primitives are written as the pointer updates they make.
Where the memory holds the queue and the stash as chains of addresses, each
primitive keeps the chains and does to them what the list primitive of
`Colm.Input.Seq` does to the lists.
-/
import Mathlib.Data.List.Basic
import Mathlib.Data.List.Nodup
import Colm.Input.Seq

namespace Colm

open Function (update)

/-- The pointer fields of `input_impl_seq` and the links of the buffers in
memory: the `next` and `prev` of the buffer at each address, `queue`,
`queue_tail` and `stash`. -/
structure SeqLinks where
  next : Nat → Nat
  prev : Nat → Nat
  queue : Nat
  queueTail : Nat
  stash : Nat

namespace SeqLinks

variable (s : SeqLinks)

/-- `input_stream_stash_head`. -/
def stashHead (b : Nat) : SeqLinks :=
  { s with next := update s.next b s.stash, stash := b }

/-- `input_stream_pop_stash`; `none` where it reads `stash->next` with
`stash` null. -/
def popStash : Option (Nat × SeqLinks) :=
  if s.stash = 0 then none else some (s.stash, { s with stash := s.next s.stash })

/-- `input_stream_seq_pop_head`; `none` where it reads `queue->next` with
`queue` null. -/
def seqPopHead : Option (Nat × SeqLinks) :=
  if s.queue = 0 then none
  else
    let queue := s.next s.queue
    some (s.queue, if queue = 0 then { s with queue := 0, queueTail := 0 }
      else { s with queue := queue, prev := update s.prev queue 0 })

/-- `input_stream_seq_append`. -/
def seqAppend (b : Nat) : SeqLinks :=
  if s.queue = 0 then
    { s with prev := update s.prev b 0, next := update s.next b 0, queue := b, queueTail := b }
  else
    { s with
      next := update (update s.next s.queueTail b) b 0
      prev := update s.prev b s.queueTail
      queueTail := b }

/-- `input_stream_seq_pop_tail`; `none` where it reads `queue_tail->prev`
with `queue_tail` null. -/
def seqPopTail : Option (Nat × SeqLinks) :=
  if s.queueTail = 0 then none
  else
    let tail := s.prev s.queueTail
    some (s.queueTail, if tail = 0 then { s with queueTail := 0, queue := 0 }
      else { s with queueTail := tail, next := update s.next tail 0 })

/-- `input_stream_seq_prepend`. -/
def seqPrepend (b : Nat) : SeqLinks :=
  if s.queue = 0 then
    { s with prev := update s.prev b 0, next := update s.next b 0, queue := b, queueTail := b }
  else
    { s with
      prev := update (update s.prev s.queue b) b 0
      next := update s.next b s.queue
      queue := b }

end SeqLinks

/-- `as` is the chain of `next` links from `p`, and its last address links
to `q`. -/
def NextSeg (next : Nat → Nat) : Nat → List Nat → Nat → Prop
  | p, [], q => p = q
  | p, a :: as, q => p = a ∧ a ≠ 0 ∧ NextSeg next (next a) as q

/-- Every address of `as` has the one before it as its `prev`, and the first
has `p`. -/
def PrevSeg (prev : Nat → Nat) : Nat → List Nat → Prop
  | _, [] => True
  | p, a :: as => prev a = p ∧ PrevSeg prev a as

/-- The memory holds the queue `qa` and the stash `sa` as lists of
addresses: the queue doubly linked from `queue` to `queue_tail`, the stash
singly linked from `stash`, both ending in a null pointer, and no address
twice in them. -/
structure SeqLinks.Linked (s : SeqLinks) (qa sa : List Nat) : Prop where
  queue : NextSeg s.next s.queue qa 0
  prev : PrevSeg s.prev 0 qa
  tail : s.queueTail = qa.getLast?.getD 0
  stash : NextSeg s.next s.stash sa 0
  nodup : (qa ++ sa).Nodup

section Segments

variable {next prev : Nat → Nat} {p q b v : Nat} {as bs : List Nat}

theorem NextSeg.append :
    NextSeg next p (as ++ bs) q ↔ ∃ m, NextSeg next p as m ∧ NextSeg next m bs q := by
  induction as generalizing p with
  | nil => simp [NextSeg]
  | cons a as ih => simp [NextSeg, ih, and_assoc]

@[simp] theorem NextSeg.singleton : NextSeg next p [b] q ↔ p = b ∧ b ≠ 0 ∧ next b = q := by
  simp [NextSeg]

theorem NextSeg.ne_zero (h : NextSeg next p as q) (hb : b ∈ as) : b ≠ 0 := by
  induction as generalizing p with
  | nil => cases hb
  | cons a as ih =>
    rcases List.mem_cons.mp hb with rfl | hb
    · exact h.2.1
    · exact ih h.2.2 hb

/-- A chain to the null pointer starts at it exactly when it is empty. -/
theorem NextSeg.eq_zero_iff (h : NextSeg next p as 0) : p = 0 ↔ as = [] := by
  cases as with
  | nil => exact iff_of_true h rfl
  | cons a as => exact iff_of_false (h.1 ▸ h.2.1) (List.cons_ne_nil a as)

/-- A write to the `next` of an address outside a chain leaves the chain. -/
theorem NextSeg.update_of_not_mem (hb : b ∉ as) :
    NextSeg (update next b v) p as q ↔ NextSeg next p as q := by
  induction as generalizing p with
  | nil => rfl
  | cons a as ih =>
    simp only [List.mem_cons, not_or] at hb
    simp only [NextSeg, Function.update_noteq (Ne.symm hb.1), ih hb.2]

theorem PrevSeg.append :
    PrevSeg prev p (as ++ bs) ↔ PrevSeg prev p as ∧ PrevSeg prev (as.getLast?.getD p) bs := by
  induction as generalizing p with
  | nil => simp [PrevSeg]
  | cons a as ih => simp [PrevSeg, ih, List.getLast?_cons, and_assoc]

/-- A write to the `prev` of an address outside a chain leaves the chain. -/
theorem PrevSeg.update_of_not_mem (hb : b ∉ as) :
    PrevSeg (update prev b v) p as ↔ PrevSeg prev p as := by
  induction as generalizing p with
  | nil => rfl
  | cons a as ih =>
    simp only [List.mem_cons, not_or] at hb
    simp only [PrevSeg, Function.update_noteq (Ne.symm hb.1), ih hb.2]

/-- The last address of a chain is null exactly when the chain is empty. -/
theorem NextSeg.getLast_eq_zero_iff (h : NextSeg next p as q) :
    as.getLast?.getD 0 = 0 ↔ as = [] := by
  induction as using List.reverseRecOn with
  | nil => simp
  | append_singleton as t _ => simpa using h.ne_zero (List.mem_append_right _ (List.mem_singleton_self t))

/-- Following `next` along a chain as many times as it is long leads to
where its last address links. -/
theorem NextSeg.iterate (h : NextSeg next p as q) : next^[as.length] p = q := by
  induction as generalizing p with
  | nil => exact h
  | cons a as ih =>
    obtain ⟨rfl, -, h⟩ := h
    exact ih h

/-- In a doubly linked chain every address but the last is the `prev` of its
`next`. -/
theorem NextSeg.prev_next (hn : NextSeg next p as q) (hp : PrevSeg prev r as) (hb : b ∈ as)
    (hlast : b ≠ as.getLast?.getD 0) : prev (next b) = b := by
  induction as generalizing p r with
  | nil => cases hb
  | cons a as ih =>
    cases as with
    | nil => simp_all
    | cons c as =>
      obtain ⟨-, -, hnext, hc, hn⟩ := hn
      rcases List.mem_cons.mp hb with rfl | hb
      · exact hnext ▸ hp.2.1
      · exact ih ⟨hnext, hc, hn⟩ hp.2 hb (by simpa [List.getLast?_cons] using hlast)

end Segments

namespace SeqLinks.Linked

variable {s : SeqLinks} {qa sa : List Nat} {a b : Nat}

theorem not_mem_queue (hb : b ∉ qa ++ sa) : b ∉ qa := fun h => hb (List.mem_append_left _ h)

theorem not_mem_stash (hb : b ∉ qa ++ sa) : b ∉ sa := fun h => hb (List.mem_append_right _ h)

theorem not_mem_of_nodup_snoc (h : (qa ++ [b] ++ sa).Nodup) : b ∉ qa ∧ b ∉ sa := by
  rw [List.append_assoc, List.singleton_append, List.nodup_middle, List.nodup_cons,
    List.mem_append, not_or] at h
  exact h.1

/-- `input_stream_stash_head` of a buffer in neither list puts it on top of
the stash. -/
theorem stashHead (h : s.Linked qa sa) (hb : b ≠ 0) (hfresh : b ∉ qa ++ sa) :
    (s.stashHead b).Linked qa (b :: sa) := by
  refine ⟨(NextSeg.update_of_not_mem (not_mem_queue hfresh)).mpr h.queue, h.prev, h.tail,
    ⟨rfl, hb, ?_⟩, List.nodup_middle.mpr (List.nodup_cons.mpr ⟨hfresh, h.nodup⟩)⟩
  simpa [SeqLinks.stashHead, NextSeg.update_of_not_mem (not_mem_stash hfresh)] using h.stash

/-- `input_stream_pop_stash` takes the top of a non-empty stash. -/
theorem popStash (h : s.Linked qa (a :: sa)) :
    s.popStash = some (a, { s with stash := s.next a }) ∧
      { s with stash := s.next a }.Linked qa sa := by
  obtain ⟨rfl, ha, hrest⟩ := h.stash
  exact ⟨if_neg ha, ⟨h.queue, h.prev, h.tail, hrest, (List.nodup_middle.mp h.nodup).of_cons⟩⟩

/-- On an empty stash `input_stream_pop_stash` dereferences null. -/
theorem popStash_nil (h : s.Linked qa []) : s.popStash = none :=
  if_pos h.stash

/-- `input_stream_seq_pop_head` takes the head of a non-empty queue. -/
theorem seqPopHead (h : s.Linked (a :: qa) sa) :
    ∃ s', s.seqPopHead = some (a, s') ∧ s'.Linked qa sa := by
  obtain ⟨rfl, ha, hrest⟩ := h.queue
  obtain ⟨-, hprev⟩ := h.prev
  have hnd : (qa ++ sa).Nodup := (List.nodup_cons.mp h.nodup).2
  refine ⟨_, if_neg ha, ?_⟩
  cases qa with
  | nil =>
    have h0 : s.next s.queue = 0 := hrest
    rw [if_pos h0]
    exact ⟨rfl, trivial, rfl, h.stash, hnd⟩
  | cons a' qa =>
    obtain ⟨hnext, ha', hrest'⟩ := hrest
    have ha'q : a' ∉ qa := (List.nodup_cons.mp (List.nodup_append.mp hnd).1).1
    rw [if_neg (hnext ▸ ha')]
    refine ⟨⟨hnext, ha', hrest'⟩, ⟨?_, ?_⟩, ?_, h.stash, hnd⟩
    · show update s.prev (s.next s.queue) 0 a' = 0
      rw [hnext, Function.update_same]
    · simpa only [hnext, PrevSeg.update_of_not_mem ha'q] using hprev.2
    · simpa [List.getLast?_cons] using h.tail

/-- On an empty queue `input_stream_seq_pop_head` dereferences null. -/
theorem seqPopHead_nil (h : s.Linked [] sa) : s.seqPopHead = none :=
  if_pos h.queue

/-- `input_stream_seq_prepend` of a buffer in neither list puts it at the
head of the queue. -/
theorem seqPrepend (h : s.Linked qa sa) (hb : b ≠ 0) (hfresh : b ∉ qa ++ sa) :
    (s.seqPrepend b).Linked (b :: qa) sa := by
  have hq := not_mem_queue hfresh
  have hnd : (b :: qa ++ sa).Nodup := List.nodup_cons.mpr ⟨hfresh, h.nodup⟩
  unfold SeqLinks.seqPrepend
  cases qa with
  | nil =>
    have h0 : s.queue = 0 := h.queue
    rw [if_pos h0]
    exact ⟨⟨rfl, hb, by simp [NextSeg]⟩, ⟨by simp, trivial⟩, rfl,
      (NextSeg.update_of_not_mem (not_mem_stash hfresh)).mpr h.stash, hnd⟩
  | cons a qa =>
    obtain ⟨rfl, ha, hrest⟩ := h.queue
    obtain ⟨-, hprev⟩ := h.prev
    have ⟨hba, hbq⟩ : b ≠ s.queue ∧ b ∉ qa := by simpa using hq
    have haq : s.queue ∉ qa := (List.nodup_cons.mp (List.nodup_append.mp h.nodup).1).1
    rw [if_neg ha]
    refine ⟨⟨rfl, hb, ?_⟩, ⟨by simp, by simp [PrevSeg, Function.update_noteq (Ne.symm hba), hprev,
      PrevSeg.update_of_not_mem haq, PrevSeg.update_of_not_mem hbq]⟩, ?_,
      (NextSeg.update_of_not_mem (not_mem_stash hfresh)).mpr h.stash, hnd⟩
    · show NextSeg (update s.next b s.queue) (update s.next b s.queue b) (s.queue :: qa) 0
      rw [Function.update_same, NextSeg.update_of_not_mem hq]
      exact ⟨rfl, ha, hrest⟩
    · simpa [List.getLast?_cons] using h.tail

/-- `input_stream_seq_append` of a buffer in neither list puts it at the
tail of the queue. -/
theorem seqAppend (h : s.Linked qa sa) (hb : b ≠ 0) (hfresh : b ∉ qa ++ sa) :
    (s.seqAppend b).Linked (qa ++ [b]) sa := by
  have hs := not_mem_stash hfresh
  have hnd : (qa ++ [b] ++ sa).Nodup := by
    rw [List.append_assoc, List.singleton_append]
    exact List.nodup_middle.mpr (List.nodup_cons.mpr ⟨hfresh, h.nodup⟩)
  unfold SeqLinks.seqAppend
  induction qa using List.reverseRecOn with
  | nil =>
    have h0 : s.queue = 0 := h.queue
    rw [if_pos h0]
    exact ⟨⟨rfl, hb, by simp [NextSeg]⟩, ⟨by simp, trivial⟩, rfl,
      (NextSeg.update_of_not_mem hs).mpr h.stash, hnd⟩
  | append_singleton qa t _ =>
    obtain ⟨m, hseg, hm⟩ := NextSeg.append.mp h.queue
    obtain ⟨hmt, ht, -⟩ := NextSeg.singleton.mp hm
    subst m
    have htail : s.queueTail = t := by simpa using h.tail
    obtain ⟨hbq, hbt, hbs⟩ : b ∉ qa ∧ b ≠ t ∧ b ∉ sa := by simpa using hfresh
    obtain ⟨htq, hts⟩ := not_mem_of_nodup_snoc h.nodup
    rw [if_neg (mt (NextSeg.eq_zero_iff h.queue).mp (by simp)), htail]
    refine ⟨NextSeg.append.mpr ⟨b, NextSeg.append.mpr ⟨t, ?_, ?_⟩, ?_⟩,
      PrevSeg.append.mpr ⟨(PrevSeg.update_of_not_mem (by simpa using And.intro hbq hbt)).mpr h.prev,
        by simp [PrevSeg]⟩, by simp, ?_, hnd⟩
    · simpa [NextSeg.update_of_not_mem hbq, NextSeg.update_of_not_mem htq] using hseg
    · simp [Function.update_noteq (Ne.symm hbt), ht]
    · simp [hb]
    · simpa [NextSeg.update_of_not_mem hbs, NextSeg.update_of_not_mem hts] using h.stash

/-- `input_stream_seq_pop_tail` takes the tail of a non-empty queue. -/
theorem seqPopTail (h : s.Linked (qa ++ [a]) sa) :
    ∃ s', s.seqPopTail = some (a, s') ∧ s'.Linked qa sa := by
  obtain ⟨m, hseg, hm⟩ := NextSeg.append.mp h.queue
  obtain ⟨hma, ha, -⟩ := NextSeg.singleton.mp hm
  subst m
  have ⟨hprev, hpa⟩ : PrevSeg s.prev 0 qa ∧ s.prev a = qa.getLast?.getD 0 := by
    simpa [PrevSeg] using PrevSeg.append.mp h.prev
  have htail : s.queueTail = a := by simpa using h.tail
  have hnd : (qa ++ sa).Nodup :=
    h.nodup.sublist (List.sublist_append_left qa [a] |>.append_right sa)
  refine ⟨_, by simp only [SeqLinks.seqPopTail, htail, if_neg ha]; rfl, ?_⟩
  induction qa using List.reverseRecOn with
  | nil =>
    rw [if_pos (by simpa using hpa)]
    exact ⟨rfl, trivial, rfl, h.stash, hnd⟩
  | append_singleton qa t _ =>
    have hpt : s.prev a = t := by simpa using hpa
    obtain ⟨m, hseg', hm⟩ := NextSeg.append.mp hseg
    obtain ⟨hmt, ht, -⟩ := NextSeg.singleton.mp hm
    subst m
    obtain ⟨htq, hts⟩ := not_mem_of_nodup_snoc hnd
    rw [if_neg (hpt ▸ ht), hpt]
    refine ⟨NextSeg.append.mpr ⟨t, by simpa [NextSeg.update_of_not_mem htq] using hseg', by simp [ht]⟩,
      hprev, by simp, by simpa [NextSeg.update_of_not_mem hts] using h.stash, hnd⟩

/-- On an empty queue `input_stream_seq_pop_tail` dereferences null. -/
theorem seqPopTail_nil (h : s.Linked [] sa) : s.seqPopTail = none :=
  if_pos h.tail

/-- The links of a held queue and stash, in the words of `input.c`: `queue`
is null exactly when `queue_tail` is, the head has a null `prev` and the tail
a null `next`, every buffer of the queue but the tail is the `prev` of its
`next`, and `next` followed from `queue` or from `stash` reaches the null
pointer after as many steps as the list is long, through buffers that are
all distinct. -/
theorem shape (h : s.Linked qa sa) :
    (s.queue = 0 ↔ s.queueTail = 0) ∧ (s.queue ≠ 0 → s.prev s.queue = 0) ∧
      (s.queueTail ≠ 0 → s.next s.queueTail = 0) ∧
      (∀ b ∈ qa, b ≠ s.queueTail → s.prev (s.next b) = b) ∧
      s.next^[qa.length] s.queue = 0 ∧ s.next^[sa.length] s.stash = 0 ∧ (qa ++ sa).Nodup := by
  refine ⟨by rw [h.queue.eq_zero_iff, h.tail, h.queue.getLast_eq_zero_iff], fun hq => ?_, fun ht => ?_,
    fun b hb hne => h.queue.prev_next h.prev hb (h.tail ▸ hne), h.queue.iterate, h.stash.iterate,
    h.nodup⟩
  · cases qa with
    | nil => exact absurd ((h.queue.eq_zero_iff).mpr rfl) hq
    | cons a qa => exact h.queue.1 ▸ h.prev.1
  · induction qa using List.reverseRecOn with
    | nil => exact absurd h.tail ht
    | append_singleton qa t _ =>
      obtain ⟨m, -, hm⟩ := NextSeg.append.mp h.queue
      obtain ⟨rfl, -, hnext⟩ := NextSeg.singleton.mp hm
      simpa [h.tail] using hnext

end SeqLinks.Linked

end Colm
