/-
Break events of `RangePairIter`: every split of a list element is announced
exactly once, by a break right before the piece it splits off, whatever the
caller installs in the iterator at that break.  The events of one element
follow the grammar `SplitPattern`; list 2 is reduced to list 1 by the
symmetry of the loop in its two lists.
-/
import Colm.RangePairIter.Correctness

namespace Colm

namespace RangePairIter

variable {α β γ : Type}

/-- A round seen from the other list. -/
def Round.swap : Round α β → Round β α
  | .only1 p => .only2 p
  | .only2 p => .only1 p
  | .stick1 p => .stick2 p
  | .stick2 p => .stick1 p
  | .drag1 p1 p2 => .drag2 p2 p1
  | .drag2 p1 p2 => .drag1 p2 p1
  | .exact p1 p2 => .exact p2 p1

/-- An event seen from the other list. -/
def Report.swap : Report α β → Report β α
  | .inS1 lo hi t => .inS2 lo hi t
  | .inS2 lo hi t => .inS1 lo hi t
  | .overlap low1 high1 t1 low2 high2 t2 => .overlap low2 high2 t2 low1 high1 t1
  | .break1 t => .break2 t
  | .break2 t => .break1 t

section Swap

variable {ops : KeyOps}

/-- On non-empty pieces at most one test of each pair of the loop holds
(`OnlyInS1Range` and `OnlyInS2Range`, `S1SticksOut` and `S2SticksOut`, the
two drags), so the loop reads its two lists alike. -/
theorem rounds_swap (ps1 : List (Piece α)) (ps2 : List (Piece β)) :
    PiecesWF ops ps1 → PiecesWF ops ps2 →
      rounds ops ps2 ps1 = (rounds ops ps1 ps2).map Round.swap := by
  induction ps1, ps2 using rounds.induct ops with
  | case1 ps2 =>
    intro _ _
    cases ps2 <;> simp [rounds, Round.swap]
  | case2 p1 ps1 =>
    intro _ _
    simp [rounds, Round.swap]
  | case3 p1 ps1 p2 ps2 hlt ih =>
    intro hwf1 hwf2
    have h1 := hwf1.head_bounds
    have h2 := hwf2.head_bounds
    simp only [KeyOps.lt_eq, decide_eq_true_eq] at hlt
    conv_lhs => rw [rounds]
    conv_rhs => rw [rounds]
    simp only [KeyOps.lt_eq, decide_eq_true_eq, hlt, show ¬p2.hi < p1.lo by omega, ↓reduceIte,
      List.map_cons, Round.swap, ih hwf1.tail hwf2]
  | case4 p1 ps1 p2 ps2 hlt1 hlt ih =>
    intro hwf1 hwf2
    simp only [KeyOps.lt_eq, decide_eq_true_eq] at hlt1 hlt
    conv_lhs => rw [rounds]
    conv_rhs => rw [rounds]
    simp only [KeyOps.lt_eq, decide_eq_true_eq, hlt1, hlt, ↓reduceIte, List.map_cons, Round.swap,
      ih hwf1 hwf2.tail]
  | case5 p1 ps1 p2 ps2 hlt1 hlt2 hlt ih =>
    intro hwf1 hwf2
    have h1 := hwf1.head_bounds
    simp only [KeyOps.lt_eq, decide_eq_true_eq] at hlt1 hlt2 hlt
    conv_lhs => rw [rounds]
    conv_rhs => rw [rounds]
    simp only [KeyOps.lt_eq, decide_eq_true_eq, hlt1, hlt2, hlt, show ¬p2.lo < p1.lo by omega,
      ↓reduceIte, List.map_cons, Round.swap, ih (hwf1.cut (by omega) (by omega)) hwf2]
  | case6 p1 ps1 p2 ps2 hlt1 hlt2 hlt3 hlt ih =>
    intro hwf1 hwf2
    have h2 := hwf2.head_bounds
    simp only [KeyOps.lt_eq, decide_eq_true_eq] at hlt1 hlt2 hlt3 hlt
    conv_lhs => rw [rounds]
    conv_rhs => rw [rounds]
    simp only [KeyOps.lt_eq, decide_eq_true_eq, hlt1, hlt2, hlt3, hlt, ↓reduceIte, List.map_cons,
      Round.swap, ih hwf1 (hwf2.cut (by omega) (by omega))]
  | case7 p1 ps1 p2 ps2 hlt1 hlt2 hlt3 hlt4 hlt ih =>
    intro hwf1 hwf2
    have h2 := hwf2.head_bounds
    simp only [KeyOps.lt_eq, decide_eq_true_eq] at hlt1 hlt2 hlt3 hlt4 hlt
    rw [KeyOps.increment_of_lt hlt h2.2.2] at ih
    conv_lhs => rw [rounds]
    conv_rhs => rw [rounds]
    simp only [KeyOps.lt_eq, decide_eq_true_eq, hlt1, hlt2, hlt3, hlt4, hlt,
      show ¬p2.hi < p1.hi by omega, ↓reduceIte, List.map_cons, Round.swap,
      KeyOps.increment_of_lt hlt h2.2.2, ih hwf1.tail (hwf2.cut (by omega) (by omega))]
  | case8 p1 ps1 p2 ps2 hlt1 hlt2 hlt3 hlt4 hlt5 hlt ih =>
    intro hwf1 hwf2
    have h1 := hwf1.head_bounds
    simp only [KeyOps.lt_eq, decide_eq_true_eq] at hlt1 hlt2 hlt3 hlt4 hlt5 hlt
    rw [KeyOps.increment_of_lt hlt h1.2.2] at ih
    conv_lhs => rw [rounds]
    conv_rhs => rw [rounds]
    simp only [KeyOps.lt_eq, decide_eq_true_eq, hlt1, hlt2, hlt3, hlt4, hlt5, hlt, ↓reduceIte,
      List.map_cons, Round.swap, KeyOps.increment_of_lt hlt h1.2.2,
      ih (hwf1.cut (by omega) (by omega)) hwf2.tail]
  | case9 p1 ps1 p2 ps2 hlt1 hlt2 hlt3 hlt4 hlt5 hlt6 ih =>
    intro hwf1 hwf2
    simp only [KeyOps.lt_eq, decide_eq_true_eq] at hlt1 hlt2 hlt3 hlt4 hlt5 hlt6
    conv_lhs => rw [rounds]
    conv_rhs => rw [rounds]
    simp only [KeyOps.lt_eq, decide_eq_true_eq, hlt1, hlt2, hlt3, hlt4, hlt5, hlt6, ↓reduceIte,
      List.map_cons, Round.swap, ih hwf1.tail hwf2.tail]

end Swap

theorem Round.reports_swap (dup1 : Nat → Option (RangeEl α) → Option (RangeEl α))
    (dup2 : Nat → Option (RangeEl β) → Option (RangeEl β)) (i : Nat) (r : Round α β) :
    r.swap.reports dup2 dup1 i = (r.reports dup1 dup2 i).map Report.swap := by
  cases r <;> rfl

theorem Round.size_swap (r : Round α β) : r.swap.size = r.size := by
  cases r <;> rfl

theorem reportsFrom_swap (dup1 : Nat → Option (RangeEl α) → Option (RangeEl α))
    (dup2 : Nat → Option (RangeEl β) → Option (RangeEl β)) (i : Nat) (rs : List (Round α β)) :
    reportsFrom dup2 dup1 i (rs.map Round.swap) = (reportsFrom dup1 dup2 i rs).map Report.swap := by
  induction rs generalizing i with
  | nil => rfl
  | cons r rs ih =>
    rw [List.map_cons, reportsFrom, reportsFrom, List.map_append, r.reports_swap, r.size_swap, ih]

/-- An event with its transitions left out. -/
def Report.eraseTrans : Report α β → Report α β
  | .inS1 lowKey highKey _ => .inS1 lowKey highKey none
  | .inS2 lowKey highKey _ => .inS2 lowKey highKey none
  | .overlap low1 high1 _ low2 high2 _ => .overlap low1 high1 none low2 high2 none
  | .break1 _ => .break1 none
  | .break2 _ => .break2 none

theorem reportsFrom_eraseTrans (dup1 dup1' : Nat → Option (RangeEl α) → Option (RangeEl α))
    (dup2 dup2' : Nat → Option (RangeEl β) → Option (RangeEl β)) (i : Nat)
    (rs : List (Round α β)) :
    (reportsFrom dup1 dup2 i rs).map Report.eraseTrans =
      (reportsFrom dup1' dup2' i rs).map Report.eraseTrans := by
  induction rs generalizing i with
  | nil => rfl
  | cons r rs ih =>
    rw [reportsFrom, reportsFrom, List.map_append, List.map_append, ih]
    cases r <;> rfl

/-- The caller's answers at the breaks change only the transitions it reads:
for any two lists, well-formed or not, the caller's loop reaches `End` within
`4 * (|list1| + |list2|) + 3` events, and whatever the caller installs at a
break, it reads the same events with the same keys. -/
theorem driveReports_new_eraseTrans (l1 : List (RangeEl α)) (l2 : List (RangeEl β))
    (dup1 dup1' : Nat → Option (RangeEl α) → Option (RangeEl α))
    (dup2 dup2' : Nat → Option (RangeEl β) → Option (RangeEl β)) :
    ∃ rs rs', driveReports ops dup1 dup2 (4 * (l1.length + l2.length) + 3) 0 (new ops l1 l2) =
        some rs ∧
      driveReports ops dup1' dup2' (4 * (l1.length + l2.length) + 3) 0 (new ops l1 l2) =
        some rs' ∧
      rs.map Report.eraseTrans = rs'.map Report.eraseTrans :=
  ⟨_, _, driveReports_new l1 l2 _ (reportsFrom_new_length_lt ops dup1 dup2 l1 l2),
    driveReports_new l1 l2 _ (reportsFrom_new_length_lt ops dup1' dup2' l1 l2),
    reportsFrom_eraseTrans dup1 dup1' dup2 dup2' 0 _⟩

/-- An event as one list sees it: a break announcing a split of its current
range, or a segment with the keys and transition read from its `NextTrans`. -/
inductive SideEvent (γ : Type)
  | brk (trans : Option (RangeEl γ))
  | seg (lowKey highKey : Int) (trans : Option (RangeEl γ))
deriving DecidableEq, Repr

/-- The events list 1 takes part in, read from `s1Tel`. -/
def Report.view1 : Report α β → Option (SideEvent α)
  | .inS1 lo hi t => some (.seg lo hi t)
  | .overlap lo hi t _ _ _ => some (.seg lo hi t)
  | .break1 t => some (.brk t)
  | .inS2 .. | .break2 _ => none

/-- The events list 2 takes part in, read from `s2Tel`. -/
def Report.view2 : Report α β → Option (SideEvent β)
  | .inS2 lo hi t => some (.seg lo hi t)
  | .overlap _ _ _ lo hi t => some (.seg lo hi t)
  | .break2 t => some (.brk t)
  | .inS1 .. | .break1 _ => none

theorem Report.view1_swap (r : Report α β) : r.swap.view1 = r.view2 := by
  cases r <;> rfl

/-- The events one list takes part in, with their places in the stream,
counted from `j`. -/
def sideEvents (view : Report α β → Option (SideEvent γ)) :
    Nat → List (Report α β) → List (Nat × SideEvent γ)
  | _, [] => []
  | j, r :: rs => ((view r).map ((j, ·))).toList ++ sideEvents view (j + 1) rs

theorem sideEvents_append (view : Report α β → Option (SideEvent γ)) (i : Nat)
    (rs rs' : List (Report α β)) :
    sideEvents view i (rs ++ rs') = sideEvents view i rs ++ sideEvents view (i + rs.length) rs' := by
  induction rs generalizing i with
  | nil => rfl
  | cons r rs ih =>
    rw [List.cons_append, sideEvents, sideEvents, ih, List.append_assoc, List.length_cons,
      Nat.add_right_comm, Nat.add_assoc]

theorem Round.length_reports (dup1 : Nat → Option (RangeEl α) → Option (RangeEl α))
    (dup2 : Nat → Option (RangeEl β) → Option (RangeEl β)) (i : Nat) (r : Round α β) :
    (r.reports dup1 dup2 i).length = r.size := by
  cases r <;> rfl

/-- The events of a list in the stream of a round followed by more rounds. -/
theorem sideEvents_reportsFrom_cons (view : Report α β → Option (SideEvent γ))
    (dup1 : Nat → Option (RangeEl α) → Option (RangeEl α))
    (dup2 : Nat → Option (RangeEl β) → Option (RangeEl β)) (i : Nat) (r : Round α β)
    (rs : List (Round α β)) :
    sideEvents view i (reportsFrom dup1 dup2 i (r :: rs)) =
      sideEvents view i (r.reports dup1 dup2 i) ++
        sideEvents view (i + r.size) (reportsFrom dup1 dup2 (i + r.size) rs) := by
  rw [reportsFrom, sideEvents_append, Round.length_reports]

theorem sideEvents_map_swap (i : Nat) (rs : List (Report α β)) :
    sideEvents Report.view1 i (rs.map Report.swap) = sideEvents Report.view2 i rs := by
  induction rs generalizing i with
  | nil => rfl
  | cons r rs ih => rw [List.map_cons, sideEvents, sideEvents, ih, r.view1_swap]

section Pattern

/-- Whether an event is a break. -/
def SideEvent.isBrk : SideEvent γ → Bool
  | .brk _ => true
  | .seg .. => false

@[simp] theorem SideEvent.isBrk_brk (t : Option (RangeEl γ)) : (SideEvent.brk t).isBrk = true :=
  rfl

@[simp] theorem SideEvent.isBrk_seg (lo hi : Int) (t : Option (RangeEl γ)) :
    (SideEvent.seg lo hi t).isBrk = false :=
  rfl

/-- The events of one list element, in order: every split announced by a
break right before the piece it splits off, which reports the caller's
answer `dup j` to the break at `j`, and the last piece reported with the
element's own transition. -/
inductive SplitPattern (dup : Nat → Option (RangeEl γ) → Option (RangeEl γ)) (e : RangeEl γ) :
    List (Nat × SideEvent γ) → Prop
  | last (m : Nat) (lo hi : Int) : SplitPattern dup e [(m, .seg lo hi (some e))]
  | split (j : Nat) (lo hi : Int) {rest : List (Nat × SideEvent γ)} : SplitPattern dup e rest →
      SplitPattern dup e ((j, .brk (some e)) :: (j + 1, .seg lo hi (dup j (some e))) :: rest)

/-- The breaks among the events of an element. -/
def breakCount (evs : List (Nat × SideEvent γ)) : Nat :=
  (evs.filter (·.2.isBrk)).length

/-- The segments among the events of an element. -/
def segmentCount (evs : List (Nat × SideEvent γ)) : Nat :=
  (evs.filter (!·.2.isBrk)).length

/-- An element reported in `k` segments is announced by `k - 1` breaks. -/
theorem SplitPattern.breaks_add_one {dup : Nat → Option (RangeEl γ) → Option (RangeEl γ)}
    {e : RangeEl γ} {evs : List (Nat × SideEvent γ)} (h : SplitPattern dup e evs) :
    breakCount evs + 1 = segmentCount evs := by
  induction h with
  | last => rfl
  | split j lo hi _ ih =>
    simp only [breakCount, segmentCount, List.filter_cons, SideEvent.isBrk_brk,
      SideEvent.isBrk_seg, Bool.not_true, Bool.not_false, Bool.false_eq_true, ↓reduceIte,
      List.length_cons] at ih ⊢
    omega

/-- Pieces cut from elements of `l`, each starting inside its element. -/
def PiecesOf (l : List (RangeEl γ)) (ps : List (Piece γ)) : Prop :=
  ∀ p ∈ ps, p.el ∈ l ∧ p.el.lowKey ≤ p.lo

/-- The events of `e` still to come from a list of pieces: its split
pattern when a piece of `e` is left, none otherwise. -/
def EventsOwed (dup : Nat → Option (RangeEl γ) → Option (RangeEl γ)) (e : RangeEl γ)
    (ps : List (Piece γ)) (evs : List (Nat × SideEvent γ)) : Prop :=
  ((∃ p ∈ ps, p.el = e) → SplitPattern dup e evs) ∧ ((¬∃ p ∈ ps, p.el = e) → evs = [])

variable {ops : KeyOps} {l : List (RangeEl γ)} {e : RangeEl γ}
  {dup : Nat → Option (RangeEl γ) → Option (RangeEl γ)} {p : Piece γ} {ps ps' : List (Piece γ)}
  {evs : List (Nat × SideEvent γ)}

theorem PiecesOf.tail (h : PiecesOf l (p :: ps)) : PiecesOf l ps :=
  fun q hq => h q (List.mem_cons_of_mem p hq)

theorem PiecesOf.cut (h : PiecesOf l (p :: ps)) {next : Int} (hle : p.lo ≤ next) :
    PiecesOf l (⟨next, p.hi, p.el⟩ :: ps) := by
  intro q hq
  rcases List.mem_cons.mp hq with rfl | hq
  · have := h p (List.mem_cons_self p ps)
    exact ⟨this.1, by simp only; omega⟩
  · exact h.tail q hq

theorem PiecesOf.whole (l : List (RangeEl γ)) : PiecesOf l (l.map Piece.whole) := by
  intro q hq
  obtain ⟨e, he, rfl⟩ := List.mem_map.mp hq
  exact ⟨he, Int.le_refl _⟩

/-- In a well-formed list the element holding a key is the one `findRange`
finds. -/
theorem WellFormed.findRange_eq (hwf : WellFormed ops l) (he : e ∈ l) {key : Int}
    (hkey : e.lowKey ≤ key ∧ key ≤ e.highKey) : findRange l key = some e := by
  induction l with
  | nil => cases he
  | cons x xs ih =>
    rcases List.mem_cons.mp he with rfl | he
    · simp [findRange, hkey]
    · have := hwf.lt_of_mem he
      simp only [findRange, show ¬(x.lowKey ≤ key ∧ key ≤ x.highKey) by omega, ↓reduceIte]
      exact ih hwf.tail he

theorem EventsOwed.nil : EventsOwed dup e [] [] :=
  ⟨fun ⟨_, h, _⟩ => absurd h (List.not_mem_nil _), fun _ => rfl⟩

theorem EventsOwed.congr (hiff : (∃ p ∈ ps, p.el = e) ↔ (∃ p ∈ ps', p.el = e))
    (h : EventsOwed dup e ps evs) : EventsOwed dup e ps' evs :=
  ⟨fun hx => h.1 (hiff.mpr hx), fun hn => h.2 fun hx => hn (hiff.mp hx)⟩

end Pattern

section Owed

variable [DecidableEq γ]

/-- Whether an event belongs to element `e`: a break announcing a split of
`e`, or a segment inside the range of `e`. -/
def SideEvent.Of (e : RangeEl γ) : SideEvent γ → Bool
  | .brk t => decide (t = some e)
  | .seg lo _ _ => decide (e.lowKey ≤ lo ∧ lo ≤ e.highKey)

/-- The events of element `e` in a stream of reports, with their places. -/
def eventsOf (view : Report α β → Option (SideEvent γ)) (e : RangeEl γ)
    (rs : List (Report α β)) : List (Nat × SideEvent γ) :=
  (sideEvents view 0 rs).filter fun x => x.2.Of e

variable {ops : KeyOps} {l : List (RangeEl γ)} {e : RangeEl γ}
  {dup : Nat → Option (RangeEl γ) → Option (RangeEl γ)} {p : Piece γ} {ps : List (Piece γ)}
  {evs : List (Nat × SideEvent γ)}

/-- A segment starting at a piece of `l` belongs to `e` iff the piece does. -/
theorem seg_of_eq (hwf : WellFormed ops l) (he : e ∈ l) (hof : PiecesOf l (p :: ps))
    (hps : PiecesWF ops (p :: ps)) (hi : Int) (t : Option (RangeEl γ)) :
    (SideEvent.seg p.lo hi t).Of e = decide (p.el = e) := by
  obtain ⟨hin, hlo⟩ := hof p (List.mem_cons_self p ps)
  have hhi : p.lo ≤ p.el.highKey :=
    hps.endsAtEl p (List.mem_cons_self p ps) ▸ hps.head_bounds.2.1
  simp only [SideEvent.Of, decide_eq_decide]
  constructor
  · intro hkey
    exact Option.some_inj.mp ((hwf.findRange_eq hin ⟨hlo, hhi⟩).symm.trans (hwf.findRange_eq he hkey))
  · rintro rfl
    exact ⟨hlo, hhi⟩

/-- A round that takes the whole first piece reports its last segment. -/
theorem EventsOwed.take (hwf : WellFormed ops l) (he : e ∈ l) (hps : PiecesWF ops (p :: ps))
    (hof : PiecesOf l (p :: ps)) (h : EventsOwed dup e ps evs) (m : Nat) :
    EventsOwed dup e (p :: ps) ([(m, SideEvent.seg p.lo p.hi (some p.el))].filter (·.2.Of e) ++
      evs) := by
  rw [List.filter_singleton, seg_of_eq hwf he hof hps]
  by_cases hpe : p.el = e
  · have hrest : evs = [] := h.2 fun ⟨q, hq, hqe⟩ => hps.el_ne hq (hqe.trans hpe.symm)
    subst hrest hpe
    simp only [decide_True, cond_true, List.append_nil]
    exact ⟨fun _ => .last m p.lo p.hi, fun hn => absurd ⟨p, List.mem_cons_self p ps, rfl⟩ hn⟩
  · simp only [hpe, decide_False, cond_false, List.nil_append]
    exact h.congr (by simp [hpe])

/-- A round that splits the first piece announces the split by a break
right before the piece it splits off. -/
theorem EventsOwed.cut (hwf : WellFormed ops l) (he : e ∈ l) (hps : PiecesWF ops (p :: ps))
    (hof : PiecesOf l (p :: ps)) {next : Int} (h : EventsOwed dup e (⟨next, p.hi, p.el⟩ :: ps) evs)
    (j : Nat) (hi : Int) :
    EventsOwed dup e (p :: ps) ([(j, SideEvent.brk (some p.el)),
      (j + 1, SideEvent.seg p.lo hi (dup j (some p.el)))].filter (·.2.Of e) ++ evs) := by
  rw [List.filter_cons, List.filter_singleton, seg_of_eq hwf he hof hps]
  by_cases hpe : p.el = e
  · subst hpe
    simp only [SideEvent.Of, decide_True, ↓reduceIte, cond_true, List.cons_append,
      List.singleton_append]
    exact ⟨fun _ => .split j p.lo hi (h.1 ⟨_, List.mem_cons_self _ ps, rfl⟩),
      fun hn => absurd ⟨p, List.mem_cons_self p ps, rfl⟩ hn⟩
  · simp only [SideEvent.Of, Option.some_inj, hpe, decide_False, Bool.false_eq_true, ↓reduceIte,
      cond_false, List.nil_append]
    exact h.congr (by simp [hpe])

end Owed

section Rounds

variable (dup1 : Nat → Option (RangeEl α) → Option (RangeEl α))
  (dup2 : Nat → Option (RangeEl β) → Option (RangeEl β))

theorem sideEvents_drain2 (i : Nat) (ps2 : List (Piece β)) :
    sideEvents Report.view1 i (reportsFrom dup1 dup2 i (ps2.map .only2)) = [] := by
  induction ps2 generalizing i with
  | nil => rfl
  | cons q qs ih => rw [List.map_cons, sideEvents_reportsFrom_cons, ih]; rfl

variable [DecidableEq α] {ops : KeyOps} {l1 : List (RangeEl α)} {e : RangeEl α}

theorem eventsOwed_drain1 (hwf : WellFormed ops l1) (he : e ∈ l1) (ps1 : List (Piece α)) :
    ∀ i, PiecesWF ops ps1 → PiecesOf l1 ps1 →
      EventsOwed dup1 e ps1 ((sideEvents Report.view1 i
        (reportsFrom dup1 dup2 i (ps1.map .only1))).filter (·.2.Of e)) := by
  induction ps1 with
  | nil => intro _ _ _; exact EventsOwed.nil
  | cons p ps ih =>
    intro i hps hof
    rw [List.map_cons, sideEvents_reportsFrom_cons, List.filter_append]
    exact EventsOwed.take hwf he hps hof (ih _ hps.tail hof.tail) i

/-- The run lemma for list 1: from any pieces of a well-formed list, the
events of each of its elements that the remaining rounds report follow its
split pattern, or are none when no piece of it is left. -/
theorem rounds_eventsOwed (hwf : WellFormed ops l1) (he : e ∈ l1) (ps1 : List (Piece α))
    (ps2 : List (Piece β)) :
    ∀ i, PiecesWF ops ps1 → PiecesOf l1 ps1 →
      EventsOwed dup1 e ps1 ((sideEvents Report.view1 i
        (reportsFrom dup1 dup2 i (rounds ops ps1 ps2))).filter (·.2.Of e)) := by
  induction ps1, ps2 using rounds.induct ops with
  | case1 ps2 =>
    intro i _ _
    rw [rounds, sideEvents_drain2]
    exact EventsOwed.nil
  | case2 p1 ps1 =>
    intro i hps hof
    rw [rounds]
    exact eventsOwed_drain1 dup1 dup2 hwf he _ i hps hof
  | case3 p1 ps1 p2 ps2 hlt ih =>
    intro i hps hof
    rw [rounds, if_pos hlt, sideEvents_reportsFrom_cons, List.filter_append]
    exact EventsOwed.take hwf he hps hof (ih _ hps.tail hof.tail) i
  | case4 p1 ps1 p2 ps2 hlt1 hlt ih =>
    intro i hps hof
    rw [rounds, if_neg hlt1, if_pos hlt, sideEvents_reportsFrom_cons, List.filter_append]
    exact ih _ hps hof
  | case5 p1 ps1 p2 ps2 hlt1 hlt2 hlt ih =>
    intro i hps hof
    rw [rounds, if_neg hlt1, if_neg hlt2, if_pos hlt, sideEvents_reportsFrom_cons, List.filter_append]
    simp only [KeyOps.lt_eq, decide_eq_true_eq] at hlt1 hlt2 hlt
    exact EventsOwed.cut hwf he hps hof
      (ih _ (hps.cut (by omega) (by omega)) (hof.cut (by omega))) i _
  | case6 p1 ps1 p2 ps2 hlt1 hlt2 hlt3 hlt ih =>
    intro i hps hof
    rw [rounds, if_neg hlt1, if_neg hlt2, if_neg hlt3, if_pos hlt,
      sideEvents_reportsFrom_cons, List.filter_append]
    exact ih _ hps hof
  | case7 p1 ps1 p2 ps2 hlt1 hlt2 hlt3 hlt4 hlt ih =>
    intro i hps hof
    rw [rounds, if_neg hlt1, if_neg hlt2, if_neg hlt3, if_neg hlt4, if_pos hlt,
      sideEvents_reportsFrom_cons, List.filter_append]
    exact EventsOwed.take hwf he hps hof (ih _ hps.tail hof.tail) (i + 1)
  | case8 p1 ps1 p2 ps2 hlt1 hlt2 hlt3 hlt4 hlt5 hlt ih =>
    intro i hps hof
    rw [rounds, if_neg hlt1, if_neg hlt2, if_neg hlt3, if_neg hlt4, if_neg hlt5, if_pos hlt,
      sideEvents_reportsFrom_cons, List.filter_append]
    simp only [KeyOps.lt_eq, decide_eq_true_eq] at hlt1 hlt2 hlt3 hlt4 hlt5 hlt
    have hb := hps.head_bounds
    rw [KeyOps.increment_of_lt hlt hb.2.2] at ih ⊢
    exact EventsOwed.cut hwf he hps hof
      (ih _ (hps.cut (by omega) (by omega)) (hof.cut (by omega))) i _
  | case9 p1 ps1 p2 ps2 hlt1 hlt2 hlt3 hlt4 hlt5 hlt6 ih =>
    intro i hps hof
    rw [rounds, if_neg hlt1, if_neg hlt2, if_neg hlt3, if_neg hlt4, if_neg hlt5, if_neg hlt6,
      sideEvents_reportsFrom_cons, List.filter_append]
    exact EventsOwed.take hwf he hps hof (ih _ hps.tail hof.tail) i

end Rounds

/-- Every split is announced.  For two well-formed lists and a caller that
answers the break at event `j` by installing `dup1 j` (or `dup2 j`) of the
transition being split, the caller's loop reaches `End`, and the events of
every element of either list follow its split pattern: `k - 1` breaks for
`k` segments, each break right before one of the first `k - 1` segments,
which reports the caller's answer, and the last segment reported with the
element itself.  So an element reported in `k` segments has exactly `k - 1`
breaks. -/
theorem drive_new_splitPattern [DecidableEq α] [DecidableEq β] {ops : KeyOps}
    (l1 : List (RangeEl α)) (l2 : List (RangeEl β)) (hwf1 : WellFormed ops l1)
    (hwf2 : WellFormed ops l2) (dup1 : Nat → Option (RangeEl α) → Option (RangeEl α))
    (dup2 : Nat → Option (RangeEl β) → Option (RangeEl β)) :
    ∃ tr, drive ops dup1 dup2 (4 * (l1.length + l2.length) + 3) 0 (new ops l1 l2) = some tr ∧
      (∀ e ∈ l1, let evs := eventsOf Report.view1 e (tr.map report)
        SplitPattern dup1 e evs ∧ breakCount evs + 1 = segmentCount evs) ∧
      (∀ e ∈ l2, let evs := eventsOf Report.view2 e (tr.map report)
        SplitPattern dup2 e evs ∧ breakCount evs + 1 = segmentCount evs) := by
  have hlen := reportsFrom_new_length_lt ops dup1 dup2 l1 l2
  obtain ⟨tr, htr, hrep⟩ := Option.map_eq_some'.mp (driveReports_new l1 l2 _ hlen)
  have hps1 := PiecesWF.of_wellFormed hwf1
  have hps2 := PiecesWF.of_wellFormed hwf2
  refine ⟨tr, htr, fun e he => ?_, fun e he => ?_⟩
  · have h : SplitPattern dup1 e (eventsOf Report.view1 e (tr.map report)) := by
      rw [eventsOf, hrep]
      exact (rounds_eventsOwed dup1 dup2 hwf1 he _ _ 0 hps1 (PiecesOf.whole l1)).1
        ⟨Piece.whole e, List.mem_map_of_mem _ he, rfl⟩
    exact ⟨h, h.breaks_add_one⟩
  · have h : SplitPattern dup2 e (eventsOf Report.view2 e (tr.map report)) := by
      rw [eventsOf, hrep, ← sideEvents_map_swap, ← reportsFrom_swap, ← rounds_swap _ _ hps1 hps2]
      exact (rounds_eventsOwed dup2 dup1 hwf2 he _ _ 0 hps2 (PiecesOf.whole l2)).1
        ⟨Piece.whole e, List.mem_map_of_mem _ he, rfl⟩
    exact ⟨h, h.breaks_add_one⟩

/-- Split patterns where a range of list 1 is cut twice by two ranges of
list 2, and the caller answers each break with a copy tagged by its event. -/
theorem drive_new_splitPattern_twice :
    WellFormed ⟨false, 0, 255⟩ [(⟨1, 9, 0⟩ : RangeEl Nat)] ∧
      WellFormed ⟨false, 0, 255⟩ [(⟨3, 4, 1⟩ : RangeEl Nat), ⟨6, 7, 2⟩] ∧
      ∃ tr, drive ⟨false, 0, 255⟩ (fun j _ => some ⟨0, 0, j⟩) (fun j _ => some ⟨0, 0, j⟩)
          (4 * (1 + 2) + 3) 0
          (new ⟨false, 0, 255⟩ [(⟨1, 9, 0⟩ : RangeEl Nat)] [(⟨3, 4, 1⟩ : RangeEl Nat), ⟨6, 7, 2⟩]) =
            some tr ∧
        (∀ e ∈ [(⟨1, 9, 0⟩ : RangeEl Nat)], let evs := eventsOf Report.view1 e (tr.map report)
          SplitPattern (fun j _ => some ⟨0, 0, j⟩) e evs ∧ breakCount evs + 1 = segmentCount evs) ∧
        (∀ e ∈ [(⟨3, 4, 1⟩ : RangeEl Nat), ⟨6, 7, 2⟩],
          let evs := eventsOf Report.view2 e (tr.map report)
          SplitPattern (fun j _ => some ⟨0, 0, j⟩) e evs ∧ breakCount evs + 1 = segmentCount evs) :=
  have h1 : WellFormed ⟨false, 0, 255⟩ [(⟨1, 9, 0⟩ : RangeEl Nat)] := by simp [WellFormed]
  have h2 : WellFormed ⟨false, 0, 255⟩ [(⟨3, 4, 1⟩ : RangeEl Nat), ⟨6, 7, 2⟩] := by
    simp [WellFormed]
  ⟨h1, h2, drive_new_splitPattern _ _ h1 h2 _ _⟩

end RangePairIter

end Colm
