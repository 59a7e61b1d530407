/-
`input_destructor` on the input sequence in memory.  It walks the queue and
then the stash by their `next` links, and frees every buffer on the way.  It
also releases the tree of each queue buffer and each sub-stream a buffer owns.
From every memory that holds the list model's queue and stash, the walk reads
only buffers still allocated.  It frees each allocated buffer exactly once and
leaves none allocated.  It releases the trees of the queue but not those of
the stash: a consume of a tree hands the tree to its caller and keeps only the
buffer for an undo.
-/
import Colm.Input.LinkedFuncs

namespace Colm

/-- What `input_destructor` does outside the sequence, in order. -/
inductive DestroyEvent
  /-- `colm_tree_downref( prg, sp, buf->tree )`. -/
  | downref (tree : Nat)
  /-- `buf->si->funcs->destructor( prg, sp, buf->si )`, for the buffer at `a`. -/
  | destroyStream (a : Nat)
  /-- `free( buf )`, for the buffer at `a`. -/
  | free (a : Nat)
deriving DecidableEq, Repr

namespace DestroyEvent

/-- The tree a `colm_tree_downref` releases. -/
def downrefTree : DestroyEvent → Option Nat
  | downref t => some t
  | _ => none

/-- The buffer whose sub-stream a destructor call releases. -/
def destroyedAddr : DestroyEvent → Option Nat
  | destroyStream a => some a
  | _ => none

/-- The buffer a `free` releases. -/
def freedAddr : DestroyEvent → Option Nat
  | free a => some a
  | _ => none

end DestroyEvent

/-- `call_destructor( buf )`. -/
def callDestructor (b : SeqBuf) : Bool :=
  isStream b && b.ownSi

namespace SeqMem

/-- A turn of the first loop of `input_destructor`, on the queue buffer `b`
at `a`. -/
def queueBufEvents (a : Nat) (b : SeqBuf) : List DestroyEvent :=
  (if isTree b then [.downref b.tree] else []) ++
    (if callDestructor b then [.destroyStream a] else []) ++ [.free a]

/-- A turn of the second loop of `input_destructor`, on the stash buffer `b`
at `a`: it has no tree to release. -/
def stashBufEvents (a : Nat) (b : SeqBuf) : List DestroyEvent :=
  (if callDestructor b then [.destroyStream a] else []) ++ [.free a]

/-- A loop of `input_destructor` from the buffer at `a`, for at most `fuel`
turns: at each buffer it does `turn`, which ends with the `free`, and goes on
from the buffer's `next`; `none` where it reads a buffer that is not
allocated.  The two loops differ only in their turn. -/
def destroyChain (turn : Nat → SeqBuf → List DestroyEvent) :
    Nat → Nat → SeqMem → Option (List DestroyEvent × SeqMem)
  | 0, _, _ => none
  | fuel + 1, a, m =>
    if a = 0 then some ([], m)
    else if a ∈ m.live then
      (destroyChain turn fuel (m.links.next a) (m.free a)).map fun (evs, m') =>
        (turn a (m.buf a) ++ evs, m')
    else none

/-- The first loop of `input_destructor`, over the queue. -/
def destroyQueue : Nat → Nat → SeqMem → Option (List DestroyEvent × SeqMem) :=
  destroyChain queueBufEvents

/-- The second loop of `input_destructor`, over the stash. -/
def destroyStash : Nat → Nat → SeqMem → Option (List DestroyEvent × SeqMem) :=
  destroyChain stashBufEvents

/-- `input_destructor( prg, sp, si )`: what it does outside the sequence, and
the memory it leaves, with `si->queue` null; `none` where it reads a buffer
that is not allocated. -/
def inputDestructor (m : SeqMem) : Option (List DestroyEvent × SeqMem) :=
  (m.destroyQueue (m.live.length + 1) m.links.queue).bind fun (evs1, m1) =>
    (m1.destroyStash (m1.live.length + 1) m1.links.stash).map fun (evs2, m2) =>
      (evs1 ++ evs2, { m2 with links := { m2.links with queue := 0 } })

section Events

variable (f : Nat → SeqBuf) (qa : List Nat)

/-- The first loop frees the buffers it walks, in order. -/
theorem freed_queueBufEvents :
    (qa.flatMap fun x => queueBufEvents x (f x)).filterMap DestroyEvent.freedAddr = qa := by
  induction qa with
  | nil => rfl
  | cons x qa ih =>
    rw [List.flatMap_cons, List.filterMap_append, ih]
    unfold queueBufEvents
    split_ifs <;> rfl

/-- The second loop frees the buffers it walks, in order. -/
theorem freed_stashBufEvents :
    (qa.flatMap fun x => stashBufEvents x (f x)).filterMap DestroyEvent.freedAddr = qa := by
  induction qa with
  | nil => rfl
  | cons x qa ih =>
    rw [List.flatMap_cons, List.filterMap_append, ih]
    unfold stashBufEvents
    split_ifs <;> rfl

/-- The first loop releases the trees of the tree buffers it walks. -/
theorem downrefs_queueBufEvents :
    (qa.flatMap fun x => queueBufEvents x (f x)).filterMap DestroyEvent.downrefTree =
      ((qa.map f).filter isTree).map SeqBuf.tree := by
  induction qa with
  | nil => rfl
  | cons x qa ih =>
    rw [List.flatMap_cons, List.filterMap_append, ih, List.map_cons, List.filter_cons]
    unfold queueBufEvents
    split_ifs <;> rfl

/-- The second loop releases no tree. -/
theorem downrefs_stashBufEvents :
    (qa.flatMap fun x => stashBufEvents x (f x)).filterMap DestroyEvent.downrefTree = [] := by
  induction qa with
  | nil => rfl
  | cons x qa ih =>
    rw [List.flatMap_cons, List.filterMap_append, ih]
    unfold stashBufEvents
    split_ifs <;> rfl

/-- The first loop releases the sub-streams of the buffers that own theirs. -/
theorem destroyed_queueBufEvents :
    ((qa.flatMap fun x => queueBufEvents x (f x)).filterMap DestroyEvent.destroyedAddr).map f =
      (qa.map f).filter callDestructor := by
  induction qa with
  | nil => rfl
  | cons x qa ih =>
    rw [List.flatMap_cons, List.filterMap_append, List.map_append, ih, List.map_cons,
      List.filter_cons]
    unfold queueBufEvents
    split_ifs <;> rfl

/-- The second loop releases the sub-streams of the buffers that own theirs. -/
theorem destroyed_stashBufEvents :
    ((qa.flatMap fun x => stashBufEvents x (f x)).filterMap DestroyEvent.destroyedAddr).map f =
      (qa.map f).filter callDestructor := by
  induction qa with
  | nil => rfl
  | cons x qa ih =>
    rw [List.flatMap_cons, List.filterMap_append, List.map_append, ih, List.map_cons,
      List.filter_cons]
    unfold stashBufEvents
    split_ifs <;> rfl

end Events

variable {m : SeqMem} {a fuel : Nat} {qa sa rest : List Nat}

/-- A loop of `input_destructor` walks the chain from `a` through allocated
buffers: it does its turn at each, in order, frees them, and leaves the links
and the contents. -/
theorem destroyChain_chain (turn : Nat → SeqBuf → List DestroyEvent)
    (hseg : NextSeg m.links.next a qa 0) (hlive : m.live.Perm (qa ++ rest))
    (hnd : (qa ++ rest).Nodup) (hfuel : qa.length < fuel) :
    ∃ m', m.destroyChain turn fuel a = some (qa.flatMap fun x => turn x (m.buf x), m') ∧
      m'.live.Perm rest ∧ m'.links = m.links ∧ m'.buf = m.buf := by
  induction qa generalizing a m fuel with
  | nil =>
    obtain ⟨fuel, rfl⟩ := Nat.exists_eq_add_one_of_ne_zero (by omega : fuel ≠ 0)
    exact ⟨m, by simp [destroyChain, show a = 0 from hseg], hlive, rfl, rfl⟩
  | cons x qa ih =>
    obtain ⟨fuel, rfl⟩ := Nat.exists_eq_add_one_of_ne_zero (by omega : fuel ≠ 0)
    obtain ⟨rfl, hx, hseg⟩ := hseg
    have hmem : a ∈ m.live := hlive.symm.subset (List.mem_cons_self a _)
    obtain ⟨m', hrun, hlive', hlinks, hbuf⟩ := ih (show NextSeg (m.free a).links.next _ _ 0 from hseg)
      (by simpa [free] using hlive.erase a) (List.nodup_cons.mp hnd).2
      (Nat.lt_of_succ_lt_succ hfuel)
    refine ⟨m', ?_, hlive', hlinks, hbuf⟩
    simp only [destroyChain, if_neg hx, if_pos hmem, hrun, Option.map_some', List.flatMap_cons]
    rfl

/-- On a memory that holds the queue `qa` and the stash `sa`,
`input_destructor` reads only allocated buffers, does a turn of its first
loop for each buffer of the queue and one of its second loop for each buffer
of the stash, in order, and leaves nothing allocated. -/
theorem Holds.inputDestructor (h : m.Holds qa sa) :
    ∃ m', m.inputDestructor =
        some ((qa.flatMap fun x => queueBufEvents x (m.buf x)) ++
          sa.flatMap fun x => stashBufEvents x (m.buf x), m') ∧
      m'.live = [] ∧ m'.links.queue = 0 := by
  have hl := h.live.length_eq
  rw [List.length_append] at hl
  obtain ⟨m1, hrun1, hlive1, hlinks1, hbuf1⟩ :=
    destroyChain_chain queueBufEvents h.linked.queue h.live h.linked.nodup
      (show qa.length < m.live.length + 1 by omega)
  have hsnd : (sa ++ []).Nodup := by simpa using (List.nodup_append.mp h.linked.nodup).2.1
  obtain ⟨m2, hrun2, hlive2, -, -⟩ :=
    destroyChain_chain stashBufEvents (show NextSeg m1.links.next m1.links.stash sa 0 from hlinks1 ▸ h.linked.stash)
      (by simpa using hlive1) hsnd
      (show sa.length < m1.live.length + 1 by rw [hlive1.length_eq]; omega)
  refine ⟨{ m2 with links := { m2.links with queue := 0 } }, ?_, hlive2.eq_nil, rfl⟩
  simp only [SeqMem.inputDestructor, destroyQueue, destroyStash, hrun1, Option.some_bind, hrun2,
    Option.map_some', hbuf1]

end SeqMem

/-- After every sequence of calls of `input_funcs_seq` from
`init_input_impl_seq` that does not fail, `input_destructor` reads only
buffers still allocated and leaves none allocated.  It frees every allocated
buffer exactly once.  It releases the trees of the list model's queue, and
not those of its stash.  It releases the sub-streams of exactly the buffers
of the queue and the stash that own theirs. -/
theorem inputDestructor_frees_all {calls : List InputCall} {m : SeqMem}
    (h : runCallsMem calls SeqMem.init = some m) :
    ∃ si evs m', runCalls calls initInputImplSeq = some si ∧ m.inputDestructor = some (evs, m') ∧
      m'.live = [] ∧ (evs.filterMap DestroyEvent.freedAddr).Perm m.live ∧
      (evs.filterMap DestroyEvent.freedAddr).Nodup ∧
      evs.filterMap DestroyEvent.downrefTree = (si.queue.filter isTree).map SeqBuf.tree ∧
      (evs.filterMap DestroyEvent.destroyedAddr).map m.buf =
        (si.queue ++ si.stash).filter callDestructor := by
  obtain ⟨si, hsi, qa, sa, hh, hq, hs⟩ :=
    optionRel_some_left (h ▸ runCallsMem_refines_of calls represents_initInputImplSeq)
  obtain ⟨m', hd, hlive, -⟩ := hh.inputDestructor
  refine ⟨si, _, m', hsi, hd, hlive, ?_, ?_, ?_, ?_⟩
  · rw [List.filterMap_append, SeqMem.freed_queueBufEvents, SeqMem.freed_stashBufEvents]
    exact hh.live.symm
  · rw [List.filterMap_append, SeqMem.freed_queueBufEvents, SeqMem.freed_stashBufEvents]
    exact hh.linked.nodup
  · rw [List.filterMap_append, SeqMem.downrefs_queueBufEvents, SeqMem.downrefs_stashBufEvents,
      List.append_nil, hq]
  · rw [List.filterMap_append, List.map_append, SeqMem.destroyed_queueBufEvents,
      SeqMem.destroyed_stashBufEvents, ← List.filter_append, hq, hs]

/-- A token appended and consumed: its buffer is in the stash, and
`input_destructor` frees it without releasing the tree. -/
theorem inputDestructor_frees_consumed_token :
    ∃ m, runCallsMem [.forward (.appendTree 7), .forward .consumeTree] SeqMem.init = some m ∧
      ∃ si evs m', runCalls [.forward (.appendTree 7), .forward .consumeTree] initInputImplSeq =
          some si ∧ m.inputDestructor = some (evs, m') ∧
        m'.live = [] ∧ (evs.filterMap DestroyEvent.freedAddr).Perm m.live ∧
        (evs.filterMap DestroyEvent.freedAddr).Nodup ∧
        evs.filterMap DestroyEvent.downrefTree = (si.queue.filter isTree).map SeqBuf.tree ∧
        (evs.filterMap DestroyEvent.destroyedAddr).map m.buf =
          (si.queue ++ si.stash).filter callDestructor :=
  ⟨_, rfl, @inputDestructor_frees_all [.forward (.appendTree 7), .forward .consumeTree] _ rfl⟩

/- The same run, evaluated: one buffer freed, no tree released. -/
example : (runCallsMem [.forward (.appendTree 7), .forward .consumeTree] SeqMem.init).bind
    (fun m => m.inputDestructor.map Prod.fst) = some [.free 1] := by rfl

end Colm
