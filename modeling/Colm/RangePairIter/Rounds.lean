/-
The walk of `RangePairIter` with the coroutine taken out: `rounds` runs the
`while ( true )` loop of `findNext` over two lists of pieces of ranges and
returns what every turn of the loop cut off and reported.  `reportsFrom` is
the stream of events a caller reads from those rounds, breaks included, with
its own answers to the breaks in the pieces they announce.
-/
import Colm.RangePairIter

namespace Colm

namespace RangePairIter

/-- A key range cut from the range of a list element: the iterator's
`lowKey`, `highKey` and `trans` at the top of its loop. -/
structure Piece (α : Type) where
  lo : Int
  hi : Int
  el : RangeEl α
deriving DecidableEq, Repr

/-- The whole range of an element. -/
def Piece.whole {α : Type} (e : RangeEl α) : Piece α :=
  ⟨e.lowKey, e.highKey, e⟩

/-- One turn of the loop of `findNext` and the pieces it reports. -/
inductive Round (α β : Type)
  /-- `OnlyInS1Range` or `ConsumeS1Range`: a whole piece of list 1. -/
  | only1 (p : Piece α)
  | only2 (p : Piece β)
  /-- `S1SticksOut`: the part of the piece of list 1 below the piece of list 2. -/
  | stick1 (p : Piece α)
  | stick2 (p : Piece β)
  /-- `S1DragsBehind`: the piece of list 1 cut at the end of the piece of list 2. -/
  | drag1 (p1 : Piece α) (p2 : Piece β)
  | drag2 (p1 : Piece α) (p2 : Piece β)
  /-- `ExactOverlap`: two pieces with the same keys. -/
  | exact (p1 : Piece α) (p2 : Piece β)
deriving DecidableEq, Repr

variable {α β : Type} (ops : KeyOps)

/-- Whether the first pieces of two lists start at different keys. -/
def lowsDiffer : List (Piece α) → List (Piece β) → Bool
  | p1 :: _, p2 :: _ => p1.lo != p2.lo
  | _, _ => false

/-- The loop of `findNext` over the pieces still to walk in each list.  A
split leaves both lists as long as they were, but makes their first pieces
start together, so the measure counts that as well. -/
def rounds : List (Piece α) → List (Piece β) → List (Round α β)
  | [], ps2 => ps2.map .only2
  | p1 :: ps1, [] => (p1 :: ps1).map .only1
  | p1 :: ps1, p2 :: ps2 =>
    if ops.lt p1.hi p2.lo then
      .only1 p1 :: rounds ps1 (p2 :: ps2)
    else if ops.lt p2.hi p1.lo then
      .only2 p2 :: rounds (p1 :: ps1) ps2
    else if ops.lt p1.lo p2.lo then
      .stick1 ⟨p1.lo, ops.decrement p2.lo, p1.el⟩ ::
        rounds (⟨p2.lo, p1.hi, p1.el⟩ :: ps1) (p2 :: ps2)
    else if ops.lt p2.lo p1.lo then
      .stick2 ⟨p2.lo, ops.decrement p1.lo, p2.el⟩ ::
        rounds (p1 :: ps1) (⟨p1.lo, p2.hi, p2.el⟩ :: ps2)
    else if ops.lt p1.hi p2.hi then
      .drag2 p1 ⟨p2.lo, p1.hi, p2.el⟩ ::
        rounds ps1 (⟨ops.increment p1.hi, p2.hi, p2.el⟩ :: ps2)
    else if ops.lt p2.hi p1.hi then
      .drag1 ⟨p1.lo, p2.hi, p1.el⟩ p2 ::
        rounds (⟨ops.increment p2.hi, p1.hi, p1.el⟩ :: ps1) ps2
    else
      .exact p1 p2 :: rounds ps1 ps2
termination_by ps1 ps2 =>
  2 * (ps1.length + ps2.length) + if lowsDiffer ps1 ps2 then 1 else 0
decreasing_by
  all_goals simp_wf
  all_goals simp only [lowsDiffer, List.length_cons, KeyOps.lt_eq, decide_eq_true_eq,
    bne_self_eq_false, Bool.false_eq_true, ↓reduceIte, bne_iff_ne, ne_eq] at *
  all_goals split_ifs <;> omega

/-- The events of one round, numbered from `i`, with the caller's answers
`dup1 i` and `dup2 i` to its break. -/
def Round.reports (dup1 : Nat → Option (RangeEl α) → Option (RangeEl α))
    (dup2 : Nat → Option (RangeEl β) → Option (RangeEl β)) (i : Nat) :
    Round α β → List (Report α β)
  | .only1 p => [.inS1 p.lo p.hi (some p.el)]
  | .only2 p => [.inS2 p.lo p.hi (some p.el)]
  | .stick1 p => [.break1 (some p.el), .inS1 p.lo p.hi (dup1 i (some p.el))]
  | .stick2 p => [.break2 (some p.el), .inS2 p.lo p.hi (dup2 i (some p.el))]
  | .drag1 p1 p2 =>
    [.break1 (some p1.el), .overlap p1.lo p1.hi (dup1 i (some p1.el)) p2.lo p2.hi (some p2.el)]
  | .drag2 p1 p2 =>
    [.break2 (some p2.el), .overlap p1.lo p1.hi (some p1.el) p2.lo p2.hi (dup2 i (some p2.el))]
  | .exact p1 p2 => [.overlap p1.lo p1.hi (some p1.el) p2.lo p2.hi (some p2.el)]

/-- The number of events of a round. -/
def Round.size : Round α β → Nat
  | .only1 _ | .only2 _ | .exact _ _ => 1
  | _ => 2

/-- The events of a list of rounds, numbered from `i`. -/
def reportsFrom (dup1 : Nat → Option (RangeEl α) → Option (RangeEl α))
    (dup2 : Nat → Option (RangeEl β) → Option (RangeEl β)) :
    Nat → List (Round α β) → List (Report α β)
  | _, [] => []
  | i, r :: rs => r.reports dup1 dup2 i ++ reportsFrom dup1 dup2 (i + r.size) rs

end RangePairIter

end Colm
