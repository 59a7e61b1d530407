/-
`RangePairIter` stops on any two finite lists, sorted or not, with well-formed
ranges or not.  A split round of `findNext` advances neither list: it cuts the
current range of one list so that the current ranges of both start at the same
key.  So the measure counts every range still to walk twice, and one more
while the current ranges start at different keys; every round of the loop
lowers it, and the drains at the end walk one range per call.
-/
import Mathlib.Data.Nat.Defs
import Mathlib.Logic.Function.Iterate
import Colm.RangePairIter.Simulation

namespace Colm

namespace RangePairIter

variable {α β : Type} (ops : KeyOps)

/-- Twice the number of ranges the two lists have still to walk, the current
ones included, and one more while the current ranges start at different
keys. -/
def loopMeasure (it : RangePairIter α β) : Nat :=
  2 * (it.s1Tel.pieces.length + it.s2Tel.pieces.length) +
    if it.s1Tel.lowKey ≠ it.s2Tel.lowKey then 1 else 0

section Pieces

variable {t : NextTrans α} {e : RangeEl α}

theorem NextTrans.length_pieces_of_trans (h : t.trans = some e) :
    t.pieces.length = t.next.length + 1 := by
  simp [NextTrans.pieces, h]

@[simp] theorem NextTrans.length_pieces_increment : t.increment.pieces.length = t.next.length := by
  simp [NextTrans.increment]

/-- Putting back a range cut off by a split: the list keeps its length. -/
@[simp] theorem NextTrans.length_pieces_restore (lowKey highKey : Int) :
    { t with lowKey := lowKey, highKey := highKey, trans := some e }.pieces.length =
      t.next.length + 1 := by
  simp [NextTrans.pieces]

end Pieces

/-- Each round of the loop of `findNext`, from the comparison at its top to
the next one, takes one or two calls and lowers the measure. -/
theorem findNext_round (it : RangePairIter α β) (h1 : it.s1Tel.trans.isSome)
    (h2 : it.s2Tel.trans.isSome) :
    ∃ k it', 0 < k ∧ k ≤ 2 ∧ (findNext ops)^[k] (scan ops it) = scan ops it' ∧
      loopMeasure it' < loopMeasure it := by
  obtain ⟨e1, he1⟩ := Option.isSome_iff_exists.mp h1
  obtain ⟨e2, he2⟩ := Option.isSome_iff_exists.mp h2
  have hn1 := NextTrans.length_pieces_of_trans he1
  have hn2 := NextTrans.length_pieces_of_trans he2
  generalize hX : scan ops it = X
  simp only [scan, he1, he2, KeyOps.lt_eq, decide_eq_true_eq] at hX
  split_ifs at hX <;> subst hX
  -- A round that reports a range whole takes one call; a split round takes
  -- two, the break and then the part cut off.
  all_goals first
    | refine ⟨1, _, by decide, by decide, rfl, ?_⟩
    | refine ⟨2, _, by decide, by decide, rfl, ?_⟩
  all_goals
    simp only [loopMeasure, findNext, coReturn2, NextTrans.length_pieces_increment,
      NextTrans.length_pieces_restore, hn1, hn2]
    split_ifs <;> omega

/-- Once list 1 is exhausted, the drain walks what is left of list 2, one
range per call, and stops. -/
theorem iterate_findNext_drainS2 (it : RangePairIter α β) :
    ((findNext ops)^[it.s2Tel.pieces.length] it.drainS2).itState = .«end» := by
  generalize hps : it.s2Tel.pieces = ps
  induction ps generalizing it with
  | nil => simp [drainS2, NextTrans.pieces_eq_nil hps]
  | cons p ps ih =>
    obtain ⟨htrans, -, -, hnext⟩ := NextTrans.pieces_eq_cons hps
    rw [List.length_cons, Function.iterate_succ_apply, drainS2, htrans]
    simp only [coReturn2, findNext]
    apply ih
    exact (NextTrans.pieces_increment htrans).trans hnext

/-- Once list 2 is exhausted, the drain walks what is left of list 1. -/
theorem iterate_findNext_drainS1 (it : RangePairIter α β) :
    ((findNext ops)^[it.s1Tel.pieces.length] it.drainS1).itState = .«end» := by
  generalize hps : it.s1Tel.pieces = ps
  induction ps generalizing it with
  | nil => simp [drainS1, NextTrans.pieces_eq_nil hps]
  | cons p ps ih =>
    obtain ⟨htrans, -, -, hnext⟩ := NextTrans.pieces_eq_cons hps
    rw [List.length_cons, Function.iterate_succ_apply, drainS1, htrans]
    simp only [coReturn2, findNext]
    apply ih
    exact (NextTrans.pieces_increment htrans).trans hnext

/-- From the top of the loop, `findNext` reaches `End` within twice the
measure of calls: a round takes at most two calls and lowers the measure, a
drain one call per range. -/
theorem iterate_findNext_scan (it : RangePairIter α β) :
    ∃ n ≤ 2 * loopMeasure it, ((findNext ops)^[n] (scan ops it)).itState = .«end» := by
  obtain ⟨m, hm⟩ : ∃ m, loopMeasure it = m := ⟨_, rfl⟩
  induction m using Nat.strong_induction_on generalizing it with
  | _ m ih =>
  cases h1 : it.s1Tel.trans with
  | none =>
    have hscan : scan ops it = it.drainS2 := by simp [scan, h1]
    exact ⟨_, by unfold loopMeasure; omega, hscan ▸ iterate_findNext_drainS2 ops it⟩
  | some e1 =>
    cases h2 : it.s2Tel.trans with
    | none =>
      have hscan : scan ops it = it.drainS1 := by simp [scan, h1, h2]
      exact ⟨_, by unfold loopMeasure; omega, hscan ▸ iterate_findNext_drainS1 ops it⟩
    | some e2 =>
      obtain ⟨k, it', -, hk, hround, hlt⟩ := findNext_round ops it (by simp [h1]) (by simp [h2])
      obtain ⟨n, hn, hend⟩ := ih _ (hm ▸ hlt) it' rfl
      refine ⟨n + k, by omega, ?_⟩
      rwa [Function.iterate_add_apply, hround]

/-- `RangePairIter` stops on any two finite lists, sorted or not and with
well-formed ranges or not: from the constructor, repeated `findNext` reaches
`End` within `4 * (|list1| + |list2|) + 2` calls.  Every round of the loop,
split rounds included, lowers the measure `loopMeasure`. -/
theorem rangePairIter_terminates (l1 : List (RangeEl α)) (l2 : List (RangeEl β)) :
    (∃ n ≤ 4 * (l1.length + l2.length) + 2,
        ((findNext ops)^[n] (new ops l1 l2)).itState = .«end») ∧
      ∀ it : RangePairIter α β, it.s1Tel.trans.isSome → it.s2Tel.trans.isSome →
        ∃ k it', 0 < k ∧ k ≤ 2 ∧ (findNext ops)^[k] (scan ops it) = scan ops it' ∧
          loopMeasure it' < loopMeasure it := by
  refine ⟨?_, findNext_round ops⟩
  obtain ⟨n, hn, hend⟩ := iterate_findNext_scan ops
    ⟨l1, l2, .begin, .rangeInS1, NextTrans.init.set l1, NextTrans.init.set l2, 0, 0, none, none⟩
  refine ⟨n, ?_, hend⟩
  simp only [loopMeasure, NextTrans.pieces_set, List.length_map] at hn
  split_ifs at hn <;> omega

end RangePairIter

end Colm
