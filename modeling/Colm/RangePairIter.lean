/-
`RangePairIter` of `fsmgraph.h`: the coroutine that walks two sorted lists of
key ranges and reports, one event per call, the segments found in only one
list or in both, announcing with a break event every range it is about to
split.  `findNext` is the resumable body of the C++ iterator, one case per
resume label; `drive` is a caller's loop over it that answers every break.
-/
import Colm.Key

namespace Colm

/-- A list element as the iterators read it: the key range of a transition
and the rest of the transition, which they only hand back to the caller. -/
structure RangeEl (α : Type) where
  lowKey : Int
  highKey : Int
  value : α
deriving DecidableEq, Repr

namespace RangePairIter

/-- `RangePairIter::NextTrans`: the iterator's own copy of the keys of the
range being walked, the transition it belongs to (`none` when the list is
exhausted) and the rest of the list after it. -/
structure NextTrans (α : Type) where
  lowKey : Int
  highKey : Int
  trans : Option (RangeEl α)
  next : List (RangeEl α)

namespace NextTrans

variable {α : Type}

/-- `NextTrans()`: zero keys and no transition. -/
def init : NextTrans α :=
  ⟨0, 0, none, []⟩

/-- `set` followed by `load`: walk the list from its head.  At the end of the
list only the iterators are cleared; the keys keep their old values. -/
def set (t : NextTrans α) : List (RangeEl α) → NextTrans α
  | [] => { t with trans := none, next := [] }
  | e :: rest => ⟨e.lowKey, e.highKey, some e, rest⟩

/-- `increment`: `trans = next; load()`. -/
def increment (t : NextTrans α) : NextTrans α :=
  t.set t.next

end NextTrans

/-- The resume labels of `findNext`. -/
inductive IterState
  | begin
  | consumeS1Range | consumeS2Range
  | onlyInS1Range | onlyInS2Range
  | s1SticksOut | s1SticksOutBreak
  | s2SticksOut | s2SticksOutBreak
  | s1DragsBehind | s1DragsBehindBreak
  | s2DragsBehind | s2DragsBehindBreak
  | exactOverlap | «end»
deriving DecidableEq, Repr

/-- The events reported to the caller. -/
inductive UserState
  | rangeInS1 | rangeInS2
  | rangeOverlap
  | breakS1 | breakS2
deriving DecidableEq, Repr

end RangePairIter

open RangePairIter

/-- The state of `RangePairIter<ItemIter1, ItemIter2>`.  The `ctx` member is
only read for its key operations, which `findNext` takes as an argument. -/
structure RangePairIter (α β : Type) where
  list1 : List (RangeEl α)
  list2 : List (RangeEl β)
  itState : IterState
  userState : UserState
  s1Tel : NextTrans α
  s2Tel : NextTrans β
  bottomLow : Int
  bottomHigh : Int
  bottomTrans1 : Option (RangeEl α)
  bottomTrans2 : Option (RangeEl β)

namespace RangePairIter

variable {α β : Type} (ops : KeyOps)

/-- `lte()`: the iterator has not reached `End`. -/
def lte (it : RangePairIter α β) : Bool :=
  it.itState != .«end»

/-- `CO_RETURN2( label, uState )`: record where to resume and what to report. -/
def coReturn2 (it : RangePairIter α β) (label : IterState) (uState : UserState) :
    RangePairIter α β :=
  { it with itState := label, userState := uState }

/-- `while ( !s1Tel.trans.end() ) { CO_RETURN2( ConsumeS1Range, RangeInS1 ); ... }`
and, past the loop, `CO_RETURN( End )`. -/
def drainS1 (it : RangePairIter α β) : RangePairIter α β :=
  match it.s1Tel.trans with
  | some _ => it.coReturn2 .consumeS1Range .rangeInS1
  | none => { it with itState := .«end» }

/-- The loop draining the ranges of state 2 once state 1 is exhausted. -/
def drainS2 (it : RangePairIter α β) : RangePairIter α β :=
  match it.s2Tel.trans with
  | some _ => it.coReturn2 .consumeS2Range .rangeInS2
  | none => { it with itState := .«end» }

/-- The body of the `while ( true )` loop of `findNext`, from the top of the
loop to the next `CO_RETURN`: compare the two current ranges and either report
one of them whole or cut off the part of one that the other does not share. -/
def scan (it : RangePairIter α β) : RangePairIter α β :=
  match it.s1Tel.trans, it.s2Tel.trans with
  | none, _ => it.drainS2
  | some _, none => it.drainS1
  | some _, some _ =>
    if ops.lt it.s1Tel.highKey it.s2Tel.lowKey then
      it.coReturn2 .onlyInS1Range .rangeInS1
    else if ops.lt it.s2Tel.highKey it.s1Tel.lowKey then
      it.coReturn2 .onlyInS2Range .rangeInS2
    else if ops.lt it.s1Tel.lowKey it.s2Tel.lowKey then
      -- Range from state1 sticks out front.
      { it with
        bottomLow := it.s2Tel.lowKey
        bottomHigh := it.s1Tel.highKey
        s1Tel := { it.s1Tel with highKey := ops.decrement it.s2Tel.lowKey }
        bottomTrans1 := it.s1Tel.trans }.coReturn2 .s1SticksOutBreak .breakS1
    else if ops.lt it.s2Tel.lowKey it.s1Tel.lowKey then
      -- Range from state2 sticks out front.
      { it with
        bottomLow := it.s1Tel.lowKey
        bottomHigh := it.s2Tel.highKey
        s2Tel := { it.s2Tel with highKey := ops.decrement it.s1Tel.lowKey }
        bottomTrans2 := it.s2Tel.trans }.coReturn2 .s2SticksOutBreak .breakS2
    else if ops.lt it.s1Tel.highKey it.s2Tel.highKey then
      -- Low ends are even; range from state2 goes longer.
      { it with
        bottomLow := ops.increment it.s1Tel.highKey
        bottomHigh := it.s2Tel.highKey
        s2Tel := { it.s2Tel with highKey := it.s1Tel.highKey }
        bottomTrans2 := it.s2Tel.trans }.coReturn2 .s2DragsBehindBreak .breakS2
    else if ops.lt it.s2Tel.highKey it.s1Tel.highKey then
      -- Low ends are even; range from state1 goes longer.
      { it with
        bottomLow := ops.increment it.s2Tel.highKey
        bottomHigh := it.s1Tel.highKey
        s1Tel := { it.s1Tel with highKey := it.s2Tel.highKey }
        bottomTrans1 := it.s1Tel.trans }.coReturn2 .s1DragsBehindBreak .breakS1
    else
      it.coReturn2 .exactOverlap .rangeOverlap

/-- `findNext`: resume after the label the last event was reported from, run
to the next `CO_RETURN`. -/
def findNext (it : RangePairIter α β) : RangePairIter α β :=
  match it.itState with
  | .begin => scan ops { it with s1Tel := it.s1Tel.set it.list1, s2Tel := it.s2Tel.set it.list2 }
  | .consumeS1Range => drainS1 { it with s1Tel := it.s1Tel.increment }
  | .consumeS2Range => drainS2 { it with s2Tel := it.s2Tel.increment }
  | .onlyInS1Range => scan ops { it with s1Tel := it.s1Tel.increment }
  | .onlyInS2Range => scan ops { it with s2Tel := it.s2Tel.increment }
  | .s1SticksOutBreak => it.coReturn2 .s1SticksOut .rangeInS1
  | .s1SticksOut => scan ops { it with
      s1Tel := { it.s1Tel with
        lowKey := it.bottomLow
        highKey := it.bottomHigh
        trans := it.bottomTrans1 } }
  | .s2SticksOutBreak => it.coReturn2 .s2SticksOut .rangeInS2
  | .s2SticksOut => scan ops { it with
      s2Tel := { it.s2Tel with
        lowKey := it.bottomLow
        highKey := it.bottomHigh
        trans := it.bottomTrans2 } }
  | .s2DragsBehindBreak => it.coReturn2 .s2DragsBehind .rangeOverlap
  | .s2DragsBehind => scan ops { it with
      s1Tel := it.s1Tel.increment
      s2Tel := { it.s2Tel with
        lowKey := it.bottomLow
        highKey := it.bottomHigh
        trans := it.bottomTrans2 } }
  | .s1DragsBehindBreak => it.coReturn2 .s1DragsBehind .rangeOverlap
  | .s1DragsBehind => scan ops { it with
      s1Tel := { it.s1Tel with
        lowKey := it.bottomLow
        highKey := it.bottomHigh
        trans := it.bottomTrans1 }
      s2Tel := it.s2Tel.increment }
  | .exactOverlap => scan ops { it with s1Tel := it.s1Tel.increment, s2Tel := it.s2Tel.increment }
  | .«end» => it

/-- `RangePairIter( ctx, list1, list2 )`: state `Begin`, zero bottom keys, then
`findNext` to the first event.  `userState` is left unset by the C++
constructor; any value will do, as `findNext` sets it before it is read. -/
def new (list1 : List (RangeEl α)) (list2 : List (RangeEl β)) : RangePairIter α β :=
  findNext ops ⟨list1, list2, .begin, .rangeInS1, .init, .init, 0, 0, none, none⟩

/-- The caller's answer to the event it has just read: at a `BreakS1` it may
install in `s1Tel.trans` a transition of its choosing, computed from the one
being split (`dup1`), at a `BreakS2` likewise in `s2Tel.trans`; any other event
it only reads. -/
def answerBreak (dup1 : Option (RangeEl α) → Option (RangeEl α))
    (dup2 : Option (RangeEl β) → Option (RangeEl β)) (it : RangePairIter α β) :
    RangePairIter α β :=
  match it.userState with
  | .breakS1 => { it with s1Tel := { it.s1Tel with trans := dup1 it.s1Tel.trans } }
  | .breakS2 => { it with s2Tel := { it.s2Tel with trans := dup2 it.s2Tel.trans } }
  | _ => it

/-- The caller's loop `for ( ...; it.lte(); it++ )` for at most `fuel` events,
numbered from `i`: the iterator as the caller reads it at every event, or
`none` when `End` is not reached within the fuel.  At event `n` the caller
answers a break with `dup1 n` or `dup2 n`. -/
def drive (dup1 : Nat → Option (RangeEl α) → Option (RangeEl α))
    (dup2 : Nat → Option (RangeEl β) → Option (RangeEl β)) :
    Nat → Nat → RangePairIter α β → Option (List (RangePairIter α β))
  | 0, _, _ => none
  | fuel + 1, i, it =>
    if it.lte then
      (drive dup1 dup2 fuel (i + 1) (findNext ops (answerBreak (dup1 i) (dup2 i) it))).map
        (it :: ·)
    else some []

/-- What the caller reads at an event: the keys and transition of `s1Tel` for
a range of state 1, of `s2Tel` for a range of state 2, both for an overlap. -/
inductive Report (α β : Type)
  | inS1 (lowKey highKey : Int) (trans : Option (RangeEl α))
  | inS2 (lowKey highKey : Int) (trans : Option (RangeEl β))
  | overlap (low1 high1 : Int) (trans1 : Option (RangeEl α))
      (low2 high2 : Int) (trans2 : Option (RangeEl β))
  | break1 (trans : Option (RangeEl α))
  | break2 (trans : Option (RangeEl β))
deriving DecidableEq, Repr

/-- The report of the event the iterator is at. -/
def report (it : RangePairIter α β) : Report α β :=
  match it.userState with
  | .rangeInS1 => .inS1 it.s1Tel.lowKey it.s1Tel.highKey it.s1Tel.trans
  | .rangeInS2 => .inS2 it.s2Tel.lowKey it.s2Tel.highKey it.s2Tel.trans
  | .rangeOverlap => .overlap it.s1Tel.lowKey it.s1Tel.highKey it.s1Tel.trans
      it.s2Tel.lowKey it.s2Tel.highKey it.s2Tel.trans
  | .breakS1 => .break1 it.s1Tel.trans
  | .breakS2 => .break2 it.s2Tel.trans

end RangePairIter

end Colm
