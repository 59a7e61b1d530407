/-
The overlay theorem of `RangePairIter`: from the constructor, a caller that
answers no break reads, within an explicit number of events, a stream whose
segment events are exactly the overlay partition of the two lists.  It joins
the simulation of the coroutine by `rounds` to the invariant of `rounds`.
-/
import Colm.RangePairIter.Simulation
import Colm.RangePairIter.Partition

namespace Colm

namespace RangePairIter

variable {α β : Type}

/-- The segment an event reports, read from `s1Tel` for a range of state 1
and for an overlap, from `s2Tel` for a range of state 2; a break reports
none. -/
def Report.segment : Report α β → Option (Segment α β)
  | .inS1 lo hi t => some ⟨.rangeInS1, lo, hi, t, none⟩
  | .inS2 lo hi t => some ⟨.rangeInS2, lo, hi, none, t⟩
  | .overlap lo hi t1 _ _ t2 => some ⟨.rangeOverlap, lo, hi, t1, t2⟩
  | .break1 _ | .break2 _ => none

/-- An overlap event reports the same keys from both lists. -/
def Report.KeysAgree : Report α β → Prop
  | .overlap low1 high1 _ low2 high2 _ => low1 = low2 ∧ high1 = high2
  | _ => True

/-- A round that overlaps two pieces cuts them to the same keys. -/
def Round.Aligned : Round α β → Prop
  | .drag1 p1 p2 | .drag2 p1 p2 | .exact p1 p2 => p1.lo = p2.lo ∧ p1.hi = p2.hi
  | _ => True

/-- With no break answered, the segment events of the rounds are their
segments. -/
theorem reportsFrom_segment (i : Nat) (rs : List (Round α β)) :
    (reportsFrom (fun _ t => t) (fun _ t => t) i rs).filterMap Report.segment =
      rs.map Round.segment := by
  induction rs generalizing i with
  | nil => rfl
  | cons r rs ih =>
    rw [reportsFrom, List.filterMap_append, ih, List.map_cons]
    cases r <;> rfl

theorem reportsFrom_keysAgree (dup1 : Nat → Option (RangeEl α) → Option (RangeEl α))
    (dup2 : Nat → Option (RangeEl β) → Option (RangeEl β)) (i : Nat) (rs : List (Round α β))
    (h : ∀ r ∈ rs, r.Aligned) : ∀ x ∈ reportsFrom dup1 dup2 i rs, x.KeysAgree := by
  induction rs generalizing i with
  | nil => intro x hx; cases hx
  | cons r rs ih =>
    rw [List.forall_mem_cons] at h
    intro x hx
    rcases List.mem_append.mp hx with hx | hx
    · cases r <;> simp only [Round.reports, List.mem_cons, List.mem_singleton,
        List.not_mem_nil, or_false] at hx <;> rcases hx with rfl | rfl <;>
        first | trivial | exact h.1
    · exact ih _ h.2 x hx

variable (ops : KeyOps)

theorem rounds_aligned (ps1 : List (Piece α)) (ps2 : List (Piece β)) :
    ∀ r ∈ rounds ops ps1 ps2, r.Aligned := by
  induction ps1, ps2 using rounds.induct ops with
  | case1 ps2 => rw [rounds]; simp [Round.Aligned]
  | case2 p1 ps1 => rw [rounds]; simp [Round.Aligned]
  | case3 p1 ps1 p2 ps2 hlt ih =>
    rw [rounds, if_pos hlt]
    exact List.forall_mem_cons.mpr ⟨trivial, ih⟩
  | case4 p1 ps1 p2 ps2 hlt1 hlt ih =>
    rw [rounds, if_neg hlt1, if_pos hlt]
    exact List.forall_mem_cons.mpr ⟨trivial, ih⟩
  | case5 p1 ps1 p2 ps2 hlt1 hlt2 hlt ih =>
    rw [rounds, if_neg hlt1, if_neg hlt2, if_pos hlt]
    exact List.forall_mem_cons.mpr ⟨trivial, ih⟩
  | case6 p1 ps1 p2 ps2 hlt1 hlt2 hlt3 hlt ih =>
    rw [rounds, if_neg hlt1, if_neg hlt2, if_neg hlt3, if_pos hlt]
    exact List.forall_mem_cons.mpr ⟨trivial, ih⟩
  | case7 p1 ps1 p2 ps2 hlt1 hlt2 hlt3 hlt4 hlt ih =>
    rw [rounds, if_neg hlt1, if_neg hlt2, if_neg hlt3, if_neg hlt4, if_pos hlt]
    simp only [KeyOps.lt_eq, decide_eq_true_eq] at hlt3 hlt4
    exact List.forall_mem_cons.mpr ⟨by simp only [Round.Aligned, and_true]; omega, ih⟩
  | case8 p1 ps1 p2 ps2 hlt1 hlt2 hlt3 hlt4 hlt5 hlt ih =>
    rw [rounds, if_neg hlt1, if_neg hlt2, if_neg hlt3, if_neg hlt4, if_neg hlt5, if_pos hlt]
    simp only [KeyOps.lt_eq, decide_eq_true_eq] at hlt3 hlt4
    exact List.forall_mem_cons.mpr ⟨by simp only [Round.Aligned, and_true]; omega, ih⟩
  | case9 p1 ps1 p2 ps2 hlt1 hlt2 hlt3 hlt4 hlt5 hlt6 ih =>
    rw [rounds, if_neg hlt1, if_neg hlt2, if_neg hlt3, if_neg hlt4, if_neg hlt5, if_neg hlt6]
    simp only [KeyOps.lt_eq, decide_eq_true_eq] at hlt3 hlt4 hlt5 hlt6
    exact List.forall_mem_cons.mpr ⟨by simp only [Round.Aligned, and_true]; omega, ih⟩

/-- Every round lowers the measure `rounds` terminates by, so there are at
most as many rounds as the measure at the start. -/
theorem rounds_length_le (ps1 : List (Piece α)) (ps2 : List (Piece β)) :
    (rounds ops ps1 ps2).length ≤
      2 * (ps1.length + ps2.length) + if lowsDiffer ps1 ps2 then 1 else 0 := by
  induction ps1, ps2 using rounds.induct ops <;> rw [rounds] <;>
    simp_all only [lowsDiffer, KeyOps.lt_eq, decide_eq_true_eq, bne_self_eq_false,
      Bool.false_eq_true, ↓reduceIte, bne_iff_ne, ne_eq, List.length_cons, List.length_map,
      not_false_eq_true] <;> (try split_ifs at *) <;> omega

theorem reportsFrom_length_le (dup1 : Nat → Option (RangeEl α) → Option (RangeEl α))
    (dup2 : Nat → Option (RangeEl β) → Option (RangeEl β)) (i : Nat) (rs : List (Round α β)) :
    (reportsFrom dup1 dup2 i rs).length ≤ 2 * rs.length := by
  induction rs generalizing i with
  | nil => simp [reportsFrom]
  | cons r rs ih =>
    have := ih (i + r.size)
    rw [reportsFrom, List.length_append, List.length_cons]
    cases r <;> simp only [Round.reports, List.length_cons, List.length_nil] <;> omega

/-- The caller reads fewer events than the fuel the overlay theorem gives:
at most two per round, and at most `2 * (|list1| + |list2|) + 1` rounds. -/
theorem reportsFrom_new_length_lt (dup1 : Nat → Option (RangeEl α) → Option (RangeEl α))
    (dup2 : Nat → Option (RangeEl β) → Option (RangeEl β)) (l1 : List (RangeEl α))
    (l2 : List (RangeEl β)) :
    (reportsFrom dup1 dup2 0 (rounds ops (l1.map Piece.whole) (l2.map Piece.whole))).length <
      4 * (l1.length + l2.length) + 3 := by
  have h1 := reportsFrom_length_le dup1 dup2 0 (rounds ops (l1.map Piece.whole) (l2.map Piece.whole))
  have h2 := rounds_length_le ops (l1.map Piece.whole) (l2.map Piece.whole)
  rw [List.length_map, List.length_map] at h2
  split_ifs at h2 <;> omega

variable {ops} {dup1 : Nat → Option (RangeEl α) → Option (RangeEl α)}
  {dup2 : Nat → Option (RangeEl β) → Option (RangeEl β)}

/-- From the constructor the caller reads the events of the rounds of the
two whole lists. -/
theorem driveReports_new (l1 : List (RangeEl α)) (l2 : List (RangeEl β)) (fuel : Nat)
    (hfuel : (reportsFrom dup1 dup2 0
      (rounds ops (l1.map Piece.whole) (l2.map Piece.whole))).length < fuel) :
    driveReports ops dup1 dup2 fuel 0 (new ops l1 l2) =
      some (reportsFrom dup1 dup2 0 (rounds ops (l1.map Piece.whole) (l2.map Piece.whole))) :=
  driveReports_scan _ _ _ 0 fuel (NextTrans.pieces_set l1) (NextTrans.pieces_set l2) hfuel

/-- The overlay theorem.  For two well-formed lists, the caller's loop over
`RangePairIter( ctx, list1, list2 )` that answers no break reaches `End`
within `4 * (|list1| + |list2|) + 3` events; its segment events, breaks
dropped, are the overlay partition of the two lists; and every overlap event
reads the same keys from `s1Tel` and `s2Tel`. -/
theorem drive_new_isOverlay (l1 : List (RangeEl α)) (l2 : List (RangeEl β))
    (hwf1 : WellFormed ops l1) (hwf2 : WellFormed ops l2) :
    ∃ tr, drive ops (fun _ t => t) (fun _ t => t) (4 * (l1.length + l2.length) + 3) 0
        (new ops l1 l2) = some tr ∧
      IsOverlay l1 l2 (tr.filterMap fun it => (report it).segment) ∧
      ∀ it ∈ tr, it.userState = .rangeOverlap →
        it.s1Tel.lowKey = it.s2Tel.lowKey ∧ it.s1Tel.highKey = it.s2Tel.highKey := by
  set rs := rounds ops (l1.map Piece.whole) (l2.map Piece.whole)
  have hlen := reportsFrom_new_length_lt ops (fun _ t => t) (fun _ t => t) l1 l2
  obtain ⟨tr, htr, hrep⟩ := Option.map_eq_some'.mp (driveReports_new l1 l2 _ hlen)
  refine ⟨tr, htr, ?_, fun it hit hov => ?_⟩
  · have hspec := rounds_spec _ _ (PiecesWF.of_wellFormed hwf1)
      (PiecesWF.of_wellFormed hwf2)
    have hseg : tr.filterMap (fun it => (report it).segment) = rs.map Round.segment := by
      rw [← reportsFrom_segment 0 rs, ← hrep, List.filterMap_map]
      rfl
    rw [hseg]
    refine IsOverlay.of_find hspec.nonempty hspec.increasing ?_ hspec.distinct fun key => ?_
    · simp only [List.mem_map]
      rintro _ ⟨r, -, rfl⟩
      exact r.segment_labelled
    · rw [hspec.find_eq, findPiece_map_whole, findPiece_map_whole]
  · have hagree := reportsFrom_keysAgree _ _ 0 rs (rounds_aligned ops _ _) (report it)
      (hrep ▸ List.mem_map_of_mem report hit)
    simpa only [report, hov, Report.KeysAgree] using hagree

/-- The overlay theorem on a range of list 1 that sticks out below a range
of list 2 and is dragged behind by it. -/
theorem drive_new_isOverlay_split :
    WellFormed ⟨false, 0, 255⟩ [(⟨1, 5, 0⟩ : RangeEl Nat)] ∧
      WellFormed ⟨false, 0, 255⟩ [(⟨3, 9, 1⟩ : RangeEl Nat)] ∧
      ∃ tr, drive ⟨false, 0, 255⟩ (fun _ t => t) (fun _ t => t) (4 * (1 + 1) + 3) 0
          (new ⟨false, 0, 255⟩ [(⟨1, 5, 0⟩ : RangeEl Nat)] [(⟨3, 9, 1⟩ : RangeEl Nat)]) = some tr ∧
        IsOverlay [(⟨1, 5, 0⟩ : RangeEl Nat)] [(⟨3, 9, 1⟩ : RangeEl Nat)]
          (tr.filterMap fun it => (report it).segment) ∧
        ∀ it ∈ tr, it.userState = .rangeOverlap →
          it.s1Tel.lowKey = it.s2Tel.lowKey ∧ it.s1Tel.highKey = it.s2Tel.highKey :=
  have h1 : WellFormed ⟨false, 0, 255⟩ [(⟨1, 5, 0⟩ : RangeEl Nat)] := by simp [WellFormed]
  have h2 : WellFormed ⟨false, 0, 255⟩ [(⟨3, 9, 1⟩ : RangeEl Nat)] := by simp [WellFormed]
  ⟨h1, h2, drive_new_isOverlay _ _ h1 h2⟩

end RangePairIter

end Colm
