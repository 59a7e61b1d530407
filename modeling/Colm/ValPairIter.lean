/-
`ValPairIter` of `fsmgraph.h`: the coroutine that walks two lists of single
keys (the cond lists) in step and reports every key as found in the first
list only, in the second only, or in both.  It is `RangePairIter` without the
split states; `findNext` has one case per resume label.
-/
import Mathlib.Order.Basic

namespace Colm

/-- A list item as `ValPairIter` reads it: its `CondKey`, compared with `<`,
and the rest of the item, which the iterator only hands back. -/
structure ValEl (α : Type) where
  key : Int
  value : α
deriving DecidableEq, Repr

namespace ValPairIter

/-- `ValPairIter::NextTrans`: the key of the current item, the item (`none`
when the list is exhausted) and the rest of the list after it. -/
structure NextTrans (α : Type) where
  key : Int
  trans : Option (ValEl α)
  next : List (ValEl α)

namespace NextTrans

variable {α : Type}

/-- `NextTrans()`: key zero and no item. -/
def init : NextTrans α :=
  ⟨0, none, []⟩

/-- `set` followed by `load`.  At the end of the list only the iterators are
cleared; the key keeps its old value. -/
def set (t : NextTrans α) : List (ValEl α) → NextTrans α
  | [] => { t with trans := none, next := [] }
  | e :: rest => ⟨e.key, some e, rest⟩

/-- `increment`: `trans = next; load()`. -/
def increment (t : NextTrans α) : NextTrans α :=
  t.set t.next

end NextTrans

/-- The resume labels of `findNext`. -/
inductive IterState
  | begin
  | consumeS1Range | consumeS2Range
  | onlyInS1Range | onlyInS2Range
  | exactOverlap | «end»
deriving DecidableEq, Repr

/-- The events reported to the caller. -/
inductive UserState
  | rangeInS1 | rangeInS2
  | rangeOverlap
deriving DecidableEq, Repr

end ValPairIter

open ValPairIter

/-- The state of `ValPairIter<ItemIter1, ItemIter2>`; its `bottom` members
are never read and are left out. -/
structure ValPairIter (α β : Type) where
  list1 : List (ValEl α)
  list2 : List (ValEl β)
  itState : IterState
  userState : UserState
  s1Tel : NextTrans α
  s2Tel : NextTrans β

namespace ValPairIter

variable {α β : Type}

/-- `lte()`: the iterator has not reached `End`. -/
def lte (it : ValPairIter α β) : Bool :=
  it.itState != .«end»

/-- `CO_RETURN2( label, uState )`. -/
def coReturn2 (it : ValPairIter α β) (label : IterState) (uState : UserState) :
    ValPairIter α β :=
  { it with itState := label, userState := uState }

/-- The loop draining the items of list 1 once list 2 is exhausted, and
`CO_RETURN( End )` past it. -/
def drainS1 (it : ValPairIter α β) : ValPairIter α β :=
  match it.s1Tel.trans with
  | some _ => it.coReturn2 .consumeS1Range .rangeInS1
  | none => { it with itState := .«end» }

/-- The loop draining the items of list 2 once list 1 is exhausted. -/
def drainS2 (it : ValPairIter α β) : ValPairIter α β :=
  match it.s2Tel.trans with
  | some _ => it.coReturn2 .consumeS2Range .rangeInS2
  | none => { it with itState := .«end» }

/-- The body of the `while ( true )` loop of `findNext`, from its top to the
next `CO_RETURN`. -/
def scan (it : ValPairIter α β) : ValPairIter α β :=
  match it.s1Tel.trans, it.s2Tel.trans with
  | none, _ => it.drainS2
  | some _, none => it.drainS1
  | some _, some _ =>
    if it.s1Tel.key < it.s2Tel.key then
      it.coReturn2 .onlyInS1Range .rangeInS1
    else if it.s2Tel.key < it.s1Tel.key then
      it.coReturn2 .onlyInS2Range .rangeInS2
    else
      it.coReturn2 .exactOverlap .rangeOverlap

/-- `findNext`: resume after the label the last event was reported from, run
to the next `CO_RETURN`. -/
def findNext (it : ValPairIter α β) : ValPairIter α β :=
  match it.itState with
  | .begin => scan { it with s1Tel := it.s1Tel.set it.list1, s2Tel := it.s2Tel.set it.list2 }
  | .consumeS1Range => drainS1 { it with s1Tel := it.s1Tel.increment }
  | .consumeS2Range => drainS2 { it with s2Tel := it.s2Tel.increment }
  | .onlyInS1Range => scan { it with s1Tel := it.s1Tel.increment }
  | .onlyInS2Range => scan { it with s2Tel := it.s2Tel.increment }
  | .exactOverlap => scan { it with s1Tel := it.s1Tel.increment, s2Tel := it.s2Tel.increment }
  | .«end» => it

/-- `ValPairIter( list1, list2 )`: state `Begin`, then `findNext` to the first
event.  `userState` is left unset by the C++ constructor; any value will do,
as `findNext` sets it before it is read. -/
def new (list1 : List (ValEl α)) (list2 : List (ValEl β)) : ValPairIter α β :=
  findNext ⟨list1, list2, .begin, .rangeInS1, .init, .init⟩

/-- The caller's loop `for ( ...; it.lte(); it++ )` for at most `fuel` events:
the iterator at every event, or `none` when `End` is not reached. -/
def drive : Nat → ValPairIter α β → Option (List (ValPairIter α β))
  | 0, _ => none
  | fuel + 1, it => if it.lte then (drive fuel (findNext it)).map (it :: ·) else some []

/-- What the caller reads at an event: the key and item of `s1Tel` for a key
of list 1, of `s2Tel` for a key of list 2, both for an overlap. -/
inductive Report (α β : Type)
  | inS1 (key : Int) (trans : Option (ValEl α))
  | inS2 (key : Int) (trans : Option (ValEl β))
  | overlap (key1 : Int) (trans1 : Option (ValEl α)) (key2 : Int) (trans2 : Option (ValEl β))
deriving DecidableEq, Repr

/-- The report of the event the iterator is at. -/
def report (it : ValPairIter α β) : Report α β :=
  match it.userState with
  | .rangeInS1 => .inS1 it.s1Tel.key it.s1Tel.trans
  | .rangeInS2 => .inS2 it.s2Tel.key it.s2Tel.trans
  | .rangeOverlap => .overlap it.s1Tel.key it.s1Tel.trans it.s2Tel.key it.s2Tel.trans

end ValPairIter

end Colm
