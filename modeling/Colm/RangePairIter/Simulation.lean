/-
The coroutine `findNext` simulates the plain loop `rounds`: from the
constructor, the caller's loop reads exactly the events `reportsFrom` lists
for the rounds of the two lists, breaks and the caller's answers to them
included, and reaches `End` within four events per list element.
-/
import Colm.RangePairIter.Rounds

namespace Colm

namespace RangePairIter

variable {α β : Type} (ops : KeyOps)

/-- The pieces a `NextTrans` has still to walk: its current range, cut as
the iterator holds it, then the untouched rest of its list. -/
def NextTrans.pieces (t : NextTrans α) : List (Piece α) :=
  match t.trans with
  | none => []
  | some e => ⟨t.lowKey, t.highKey, e⟩ :: t.next.map Piece.whole

section Pieces

variable {t : NextTrans α} {e : RangeEl α} {p : Piece α} {ps : List (Piece α)}

@[simp] theorem NextTrans.pieces_set (l : List (RangeEl α)) :
    (t.set l).pieces = l.map Piece.whole := by
  cases l <;> rfl

theorem NextTrans.pieces_increment (_ : t.trans = some e) :
    t.increment.pieces = t.next.map Piece.whole :=
  NextTrans.pieces_set t.next

theorem NextTrans.pieces_eq_cons (h : t.pieces = p :: ps) :
    t.trans = some p.el ∧ t.lowKey = p.lo ∧ t.highKey = p.hi ∧
      t.next.map Piece.whole = ps := by
  unfold NextTrans.pieces at h
  split at h
  · cases h
  · cases h
    simp_all

theorem NextTrans.pieces_eq_nil (h : t.pieces = []) : t.trans = none := by
  unfold NextTrans.pieces at h
  split at h <;> simp_all

end Pieces

variable (dup1 : Nat → Option (RangeEl α) → Option (RangeEl α))
  (dup2 : Nat → Option (RangeEl β) → Option (RangeEl β))

/-- The reports of the caller's loop. -/
def driveReports (fuel i : Nat) (it : RangePairIter α β) : Option (List (Report α β)) :=
  (drive ops dup1 dup2 fuel i it).map (List.map report)

variable {ops dup1 dup2}

/-- One event of the caller's loop: read it, answer it, resume the iterator. -/
theorem driveReports_succ {fuel i : Nat} {it : RangePairIter α β} (h : it.lte = true) :
    driveReports ops dup1 dup2 (fuel + 1) i it =
      (driveReports ops dup1 dup2 fuel (i + 1)
        (findNext ops (answerBreak (dup1 i) (dup2 i) it))).map (report it :: ·) := by
  simp only [driveReports, drive, h, ↓reduceIte, Option.map_map]
  rfl

theorem driveReports_end {fuel i : Nat} {it : RangePairIter α β} (h : it.itState = .«end») :
    driveReports ops dup1 dup2 (fuel + 1) i it = some [] := by
  simp [driveReports, drive, lte, h]

/-- Draining the second list reports its pieces one by one, then stops. -/
theorem driveReports_drainS2 (it : RangePairIter α β) (i fuel : Nat)
    (hfuel : (reportsFrom dup1 dup2 i (it.s2Tel.pieces.map .only2)).length < fuel) :
    driveReports ops dup1 dup2 fuel i it.drainS2 =
      some (reportsFrom dup1 dup2 i (it.s2Tel.pieces.map .only2)) := by
  generalize hps : it.s2Tel.pieces = ps at hfuel ⊢
  induction ps generalizing it i fuel with
  | nil =>
    obtain ⟨fuel, rfl⟩ : ∃ f, fuel = f + 1 := ⟨fuel - 1, by simp [reportsFrom, Round.reports, Round.size] at hfuel; omega⟩
    simp [drainS2, NextTrans.pieces_eq_nil hps, driveReports_end, reportsFrom]
  | cons p ps ih =>
    obtain ⟨fuel, rfl⟩ : ∃ f, fuel = f + 1 :=
      ⟨fuel - 1, by simp [reportsFrom, Round.reports, Round.size] at hfuel; omega⟩
    obtain ⟨htrans, hlow, hhigh, hnext⟩ := NextTrans.pieces_eq_cons hps
    simp only [drainS2, htrans, coReturn2]
    rw [driveReports_succ (by rfl)]
    simp only [answerBreak, findNext, report]
    rw [ih _ (i + 1) fuel ?_ ?_]
    · simp [reportsFrom, Round.reports, Round.size, hlow, hhigh, htrans]
    · rw [NextTrans.pieces_increment htrans, hnext]
    · simpa [reportsFrom, Round.reports, Round.size] using hfuel

/-- Draining the first list reports its pieces one by one, then stops. -/
theorem driveReports_drainS1 (it : RangePairIter α β) (i fuel : Nat)
    (hfuel : (reportsFrom dup1 dup2 i (it.s1Tel.pieces.map .only1)).length < fuel) :
    driveReports ops dup1 dup2 fuel i it.drainS1 =
      some (reportsFrom dup1 dup2 i (it.s1Tel.pieces.map .only1)) := by
  generalize hps : it.s1Tel.pieces = ps at hfuel ⊢
  induction ps generalizing it i fuel with
  | nil =>
    obtain ⟨fuel, rfl⟩ : ∃ f, fuel = f + 1 := ⟨fuel - 1, by simp [reportsFrom, Round.reports, Round.size] at hfuel; omega⟩
    simp [drainS1, NextTrans.pieces_eq_nil hps, driveReports_end, reportsFrom]
  | cons p ps ih =>
    obtain ⟨fuel, rfl⟩ : ∃ f, fuel = f + 1 :=
      ⟨fuel - 1, by simp [reportsFrom, Round.reports, Round.size] at hfuel; omega⟩
    obtain ⟨htrans, hlow, hhigh, hnext⟩ := NextTrans.pieces_eq_cons hps
    simp only [drainS1, htrans, coReturn2]
    rw [driveReports_succ (by rfl)]
    simp only [answerBreak, findNext, report]
    rw [ih _ (i + 1) fuel ?_ ?_]
    · simp [reportsFrom, Round.reports, Round.size, hlow, hhigh, htrans]
    · rw [NextTrans.pieces_increment htrans, hnext]
    · simpa [reportsFrom, Round.reports, Round.size] using hfuel

/-- From the top of its loop, the iterator reports exactly the rounds of the
pieces it has still to walk, and then reaches `End`. -/
theorem driveReports_scan (ps1 : List (Piece α)) (ps2 : List (Piece β)) :
    ∀ (it : RangePairIter α β) (i fuel : Nat), it.s1Tel.pieces = ps1 →
      it.s2Tel.pieces = ps2 → (reportsFrom dup1 dup2 i (rounds ops ps1 ps2)).length < fuel →
      driveReports ops dup1 dup2 fuel i (scan ops it) =
        some (reportsFrom dup1 dup2 i (rounds ops ps1 ps2)) := by
  induction ps1, ps2 using rounds.induct ops with
  | case1 ps2 =>
    intro it i fuel h1 h2 hfuel
    simp only [scan, NextTrans.pieces_eq_nil h1]
    rw [rounds, ← h2] at *
    exact driveReports_drainS2 it i fuel hfuel
  | case2 p1 ps1 =>
    intro it i fuel h1 h2 hfuel
    obtain ⟨t1, -, -, -⟩ := NextTrans.pieces_eq_cons h1
    simp only [scan, t1, NextTrans.pieces_eq_nil h2]
    rw [rounds, ← h1] at *
    exact driveReports_drainS1 it i fuel hfuel
  | case3 p1 ps1 p2 ps2 hlt ih =>
    intro it i fuel h1 h2 hfuel
    obtain ⟨t1, l1, u1, n1⟩ := NextTrans.pieces_eq_cons h1
    obtain ⟨t2, l2, u2, n2⟩ := NextTrans.pieces_eq_cons h2
    rw [rounds, if_pos hlt] at hfuel ⊢
    obtain ⟨fuel, rfl⟩ : ∃ f, fuel = f + 1 := ⟨fuel - 1, by simp [reportsFrom, Round.reports, Round.size] at hfuel; omega⟩
    simp only [scan, t1, t2, u1, l2, hlt, ↓reduceIte, Bool.false_eq_true, coReturn2]
    rw [driveReports_succ (by rfl)]
    simp only [answerBreak, findNext, report]
    rw [ih _ (i + 1) fuel ?_ ?_ ?_]
    · simp [reportsFrom, Round.reports, Round.size, l1, u1, t1]
    · rw [NextTrans.pieces_increment t1, n1]
    · exact h2
    · simpa [reportsFrom, Round.reports, Round.size] using hfuel
  | case4 p1 ps1 p2 ps2 hlt1 hlt ih =>
    intro it i fuel h1 h2 hfuel
    obtain ⟨t1, l1, u1, n1⟩ := NextTrans.pieces_eq_cons h1
    obtain ⟨t2, l2, u2, n2⟩ := NextTrans.pieces_eq_cons h2
    rw [rounds, if_neg hlt1, if_pos hlt] at hfuel ⊢
    obtain ⟨fuel, rfl⟩ : ∃ f, fuel = f + 1 := ⟨fuel - 1, by simp [reportsFrom, Round.reports, Round.size] at hfuel; omega⟩
    simp only [scan, t1, t2, u1, l1, u2, l2, hlt1, hlt, ↓reduceIte, Bool.false_eq_true, coReturn2]
    rw [driveReports_succ (by rfl)]
    simp only [answerBreak, findNext, report]
    rw [ih _ (i + 1) fuel ?_ ?_ ?_]
    · simp [reportsFrom, Round.reports, Round.size, l2, u2, t2]
    · exact h1
    · rw [NextTrans.pieces_increment t2, n2]
    · simpa [reportsFrom, Round.reports, Round.size] using hfuel
  | case5 p1 ps1 p2 ps2 hlt1 hlt2 hlt ih =>
    intro it i fuel h1 h2 hfuel
    obtain ⟨t1, l1, u1, n1⟩ := NextTrans.pieces_eq_cons h1
    obtain ⟨t2, l2, u2, n2⟩ := NextTrans.pieces_eq_cons h2
    rw [rounds, if_neg hlt1, if_neg hlt2, if_pos hlt] at hfuel ⊢
    obtain ⟨fuel, rfl⟩ : ∃ f, fuel = f + 2 := ⟨fuel - 2, by simp [reportsFrom, Round.reports, Round.size] at hfuel; omega⟩
    simp only [scan, t1, t2, u1, l1, u2, l2, hlt1, hlt2, hlt, ↓reduceIte, Bool.false_eq_true, coReturn2]
    rw [driveReports_succ (by rfl)]
    simp only [answerBreak, findNext, report, coReturn2]
    rw [driveReports_succ (by rfl)]
    simp only [answerBreak, findNext, report]
    rw [ih _ (i + 1 + 1) fuel ?_ ?_ ?_]
    · simp [reportsFrom, Round.reports, Round.size, l1, t1]
    · simp [NextTrans.pieces, t1, n1]
    · exact h2
    · simpa [reportsFrom, Round.reports, Round.size] using hfuel
  | case6 p1 ps1 p2 ps2 hlt1 hlt2 hlt3 hlt ih =>
    intro it i fuel h1 h2 hfuel
    obtain ⟨t1, l1, u1, n1⟩ := NextTrans.pieces_eq_cons h1
    obtain ⟨t2, l2, u2, n2⟩ := NextTrans.pieces_eq_cons h2
    rw [rounds, if_neg hlt1, if_neg hlt2, if_neg hlt3, if_pos hlt] at hfuel ⊢
    obtain ⟨fuel, rfl⟩ : ∃ f, fuel = f + 2 :=
      ⟨fuel - 2, by simp [reportsFrom, Round.reports, Round.size] at hfuel; omega⟩
    simp only [scan, t1, t2, u1, l1, u2, l2, hlt1, hlt2, hlt3, hlt, ↓reduceIte,
      Bool.false_eq_true, coReturn2]
    rw [driveReports_succ (by rfl)]
    simp only [answerBreak, findNext, report, coReturn2]
    rw [driveReports_succ (by rfl)]
    simp only [answerBreak, findNext, report]
    rw [ih _ (i + 1 + 1) fuel ?_ ?_ ?_]
    · simp [reportsFrom, Round.reports, Round.size, l2, t2]
    · exact h1
    · simp [NextTrans.pieces, t2, n2]
    · simpa [reportsFrom, Round.reports, Round.size] using hfuel
  | case7 p1 ps1 p2 ps2 hlt1 hlt2 hlt3 hlt4 hlt ih =>
    intro it i fuel h1 h2 hfuel
    obtain ⟨t1, l1, u1, n1⟩ := NextTrans.pieces_eq_cons h1
    obtain ⟨t2, l2, u2, n2⟩ := NextTrans.pieces_eq_cons h2
    rw [rounds, if_neg hlt1, if_neg hlt2, if_neg hlt3, if_neg hlt4, if_pos hlt] at hfuel ⊢
    obtain ⟨fuel, rfl⟩ : ∃ f, fuel = f + 2 :=
      ⟨fuel - 2, by simp [reportsFrom, Round.reports, Round.size] at hfuel; omega⟩
    simp only [scan, t1, t2, u1, l1, u2, l2, hlt1, hlt2, hlt3, hlt4, hlt, ↓reduceIte,
      Bool.false_eq_true, coReturn2]
    rw [driveReports_succ (by rfl)]
    simp only [answerBreak, findNext, report, coReturn2]
    rw [driveReports_succ (by rfl)]
    simp only [answerBreak, findNext, report]
    rw [ih _ (i + 1 + 1) fuel ?_ ?_ ?_]
    · simp [reportsFrom, Round.reports, Round.size, l1, u1, t1, l2, t2]
    · rw [NextTrans.pieces_increment t1, n1]
    · simp [NextTrans.pieces, t2, n2, u1]
    · simpa [reportsFrom, Round.reports, Round.size] using hfuel
  | case8 p1 ps1 p2 ps2 hlt1 hlt2 hlt3 hlt4 hlt5 hlt ih =>
    intro it i fuel h1 h2 hfuel
    obtain ⟨t1, l1, u1, n1⟩ := NextTrans.pieces_eq_cons h1
    obtain ⟨t2, l2, u2, n2⟩ := NextTrans.pieces_eq_cons h2
    rw [rounds, if_neg hlt1, if_neg hlt2, if_neg hlt3, if_neg hlt4, if_neg hlt5,
      if_pos hlt] at hfuel ⊢
    obtain ⟨fuel, rfl⟩ : ∃ f, fuel = f + 2 :=
      ⟨fuel - 2, by simp [reportsFrom, Round.reports, Round.size] at hfuel; omega⟩
    simp only [scan, t1, t2, u1, l1, u2, l2, hlt1, hlt2, hlt3, hlt4, hlt5, hlt, ↓reduceIte,
      Bool.false_eq_true, coReturn2]
    rw [driveReports_succ (by rfl)]
    simp only [answerBreak, findNext, report, coReturn2]
    rw [driveReports_succ (by rfl)]
    simp only [answerBreak, findNext, report]
    rw [ih _ (i + 1 + 1) fuel ?_ ?_ ?_]
    · simp [reportsFrom, Round.reports, Round.size, l1, t1, l2, u2, t2]
    · simp [NextTrans.pieces, t1, n1, u2]
    · rw [NextTrans.pieces_increment t2, n2]
    · simpa [reportsFrom, Round.reports, Round.size] using hfuel
  | case9 p1 ps1 p2 ps2 hlt1 hlt2 hlt3 hlt4 hlt5 hlt6 ih =>
    intro it i fuel h1 h2 hfuel
    obtain ⟨t1, l1, u1, n1⟩ := NextTrans.pieces_eq_cons h1
    obtain ⟨t2, l2, u2, n2⟩ := NextTrans.pieces_eq_cons h2
    rw [rounds, if_neg hlt1, if_neg hlt2, if_neg hlt3, if_neg hlt4, if_neg hlt5,
      if_neg hlt6] at hfuel ⊢
    obtain ⟨fuel, rfl⟩ : ∃ f, fuel = f + 1 :=
      ⟨fuel - 1, by simp [reportsFrom, Round.reports, Round.size] at hfuel; omega⟩
    simp only [scan, t1, t2, u1, l1, u2, l2, hlt1, hlt2, hlt3, hlt4, hlt5, hlt6, ↓reduceIte,
      Bool.false_eq_true, coReturn2]
    rw [driveReports_succ (by rfl)]
    simp only [answerBreak, findNext, report]
    rw [ih _ (i + 1) fuel ?_ ?_ ?_]
    · simp [reportsFrom, Round.reports, Round.size, l1, u1, t1, l2, u2, t2]
    · rw [NextTrans.pieces_increment t1, n1]
    · rw [NextTrans.pieces_increment t2, n2]
    · simpa [reportsFrom, Round.reports, Round.size] using hfuel

end RangePairIter

end Colm
