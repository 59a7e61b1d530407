/-
The rounds of two well-formed range lists form their overlay partition.  One
round cuts a segment off the front of the two lists of pieces; `Advance` says
how it does so on each list, and `RoundsSpec.cons` turns the two `Advance`
facts of a round into the partition invariant of the whole walk.
-/
import Colm.RangePairIter.Rounds
import Colm.RangePairIter.Overlay

namespace Colm

namespace RangePairIter

variable {α β : Type}

/-- The element of a list of pieces whose piece holds `key`. -/
def findPiece : List (Piece α) → Int → Option (RangeEl α)
  | [], _ => none
  | p :: rest, key => if p.lo ≤ key ∧ key ≤ p.hi then some p.el else findPiece rest key

theorem findPiece_map_whole (l : List (RangeEl α)) (key : Int) :
    findPiece (l.map Piece.whole) key = findRange l key := by
  induction l with
  | nil => rfl
  | cons e rest ih => simp [findPiece, findRange, Piece.whole, ih]

theorem findPiece_eq_none_of_lt {ps : List (Piece α)} {key : Int} (h : ∀ p ∈ ps, key < p.lo) :
    findPiece ps key = none := by
  induction ps with
  | nil => rfl
  | cons p rest ih =>
    simp only [List.mem_cons, forall_eq_or_imp] at h
    simp only [findPiece, ih h.2, ite_eq_right_iff]
    omega

/-- Pieces as the loop of `findNext` keeps them: each non-empty and within
the alphabet type, ending where its element ends, all in increasing order. -/
structure PiecesWF (ops : KeyOps) (ps : List (Piece α)) : Prop where
  bounds : ∀ p ∈ ps, ops.minKey ≤ p.lo ∧ p.lo ≤ p.hi ∧ p.hi ≤ ops.maxKey
  endsAtEl : ∀ p ∈ ps, p.hi = p.el.highKey
  sorted : ps.Pairwise (fun p q => p.hi < q.lo)

namespace PiecesWF

variable {ops : KeyOps} {p : Piece α} {ps : List (Piece α)}

theorem tail (h : PiecesWF ops (p :: ps)) : PiecesWF ops ps :=
  ⟨fun q hq => h.bounds q (List.mem_cons_of_mem p hq),
    fun q hq => h.endsAtEl q (List.mem_cons_of_mem p hq), h.sorted.of_cons⟩

theorem head_bounds (h : PiecesWF ops (p :: ps)) :
    ops.minKey ≤ p.lo ∧ p.lo ≤ p.hi ∧ p.hi ≤ ops.maxKey :=
  h.bounds p (List.mem_cons_self p ps)

theorem lt_of_mem (h : PiecesWF ops (p :: ps)) {q : Piece α} (hq : q ∈ ps) : p.hi < q.lo :=
  List.rel_of_pairwise_cons h.sorted hq

/-- A key below the first piece is below every piece. -/
theorem lt_lo_of_lt_head (h : PiecesWF ops (p :: ps)) {k : Int} (hk : k < p.lo) :
    ∀ q ∈ p :: ps, k < q.lo := by
  intro q hq
  rcases List.mem_cons.mp hq with rfl | hq
  · exact hk
  · have := h.lt_of_mem hq
    have := h.head_bounds
    omega

/-- Pieces after the first one come from other elements. -/
theorem el_ne (h : PiecesWF ops (p :: ps)) {q : Piece α} (hq : q ∈ ps) : q.el ≠ p.el := by
  intro heq
  have hlt := h.lt_of_mem hq
  have hq' := h.bounds q (List.mem_cons_of_mem p hq)
  have := h.endsAtEl q (List.mem_cons_of_mem p hq)
  have := h.endsAtEl p (List.mem_cons_self p ps)
  rw [heq] at *
  omega

/-- The first piece cut down to the keys from `next` on. -/
theorem cut (h : PiecesWF ops (p :: ps)) {next : Int} (hlo : p.lo ≤ next) (hhi : next ≤ p.hi) :
    PiecesWF ops (⟨next, p.hi, p.el⟩ :: ps) := by
  obtain ⟨hmin, -, hmax⟩ := h.head_bounds
  refine ⟨?_, ?_, ?_⟩
  · simp only [List.mem_cons, forall_eq_or_imp]
    exact ⟨⟨by omega, hhi, hmax⟩, h.tail.bounds⟩
  · simp only [List.mem_cons, forall_eq_or_imp]
    exact ⟨h.endsAtEl p (List.mem_cons_self p ps), h.tail.endsAtEl⟩
  · exact List.pairwise_cons.mpr ⟨fun q hq => h.lt_of_mem hq, h.sorted.of_cons⟩

end PiecesWF

namespace WellFormed

variable {ops : KeyOps} {e : RangeEl α} {rest : List (RangeEl α)}

theorem tail (h : WellFormed ops (e :: rest)) : WellFormed ops rest :=
  ⟨fun e' he' => h.1 e' (List.mem_cons_of_mem e he'), h.2.tail⟩

/-- Every range of a well-formed list ends below the start of every later one. -/
theorem lt_of_mem (h : WellFormed ops (e :: rest)) {e' : RangeEl α} (he' : e' ∈ rest) :
    e.highKey < e'.lowKey := by
  induction rest generalizing e with
  | nil => cases he'
  | cons x xs ih =>
    have hex := (List.chain'_cons.mp h.2).1
    have hx := h.1 x (List.mem_cons_of_mem e (List.mem_cons_self x xs))
    rcases List.mem_cons.mp he' with rfl | he'
    · exact hex
    · have := ih h.tail he'
      omega

end WellFormed

theorem PiecesWF.of_wellFormed {ops : KeyOps} {l : List (RangeEl α)} (h : WellFormed ops l) :
    PiecesWF ops (l.map Piece.whole) := by
  induction l with
  | nil => exact ⟨by simp, by simp, List.Pairwise.nil⟩
  | cons e rest ih =>
    have hrest := ih h.tail
    refine ⟨?_, ?_, ?_⟩
    · simp only [List.map_cons, List.mem_cons, forall_eq_or_imp]
      exact ⟨h.1 e (List.mem_cons_self e rest), hrest.bounds⟩
    · simp only [List.map_cons, List.mem_cons, forall_eq_or_imp]
      exact ⟨rfl, hrest.endsAtEl⟩
    · refine List.pairwise_cons.mpr ⟨?_, hrest.sorted⟩
      simp only [List.mem_map]
      rintro _ ⟨e', he', rfl⟩
      exact h.lt_of_mem he'

/-- How one round changes one list of pieces, seen from the segment it
reports, with keys `lo .. hi` and transition `t` of this list. -/
inductive Advance (lo hi : Int) : Option (RangeEl α) → List (Piece α) → List (Piece α) → Prop
  /-- The segment lies below every piece of the list, which stays as it was. -/
  | keep {ps : List (Piece α)} : (∀ p ∈ ps, hi < p.lo) → Advance lo hi none ps ps
  /-- The segment is the whole first piece. -/
  | take {p : Piece α} {ps : List (Piece α)} : p.lo = lo → p.hi = hi →
      Advance lo hi (some p.el) (p :: ps) ps
  /-- The segment is the front of the first piece, whose rest stays first. -/
  | cut {p : Piece α} {ps : List (Piece α)} (next : Int) : p.lo = lo → hi < p.hi →
      next = hi + 1 → Advance lo hi (some p.el) (p :: ps) (⟨next, p.hi, p.el⟩ :: ps)

namespace Advance

variable {ops : KeyOps} {lo hi : Int} {t : Option (RangeEl α)} {ps ps' : List (Piece α)}

theorem findPiece_eq (h : Advance lo hi t ps ps') (hne : lo ≤ hi) (key : Int) :
    findPiece ps key = if lo ≤ key ∧ key ≤ hi then t else findPiece ps' key := by
  cases h with
  | keep habove =>
    split_ifs with hkey
    · exact findPiece_eq_none_of_lt fun p hp => by have := habove p hp; omega
    · rfl
  | take hlo hhi => simp only [findPiece, hlo, hhi]
  | cut next hlo hhi hnext =>
    simp only [findPiece, hlo, hnext]
    split_ifs <;> first | rfl | omega

theorem above (h : Advance lo hi t ps ps') (hwf : PiecesWF ops ps) : ∀ p ∈ ps', hi < p.lo := by
  cases h with
  | keep habove => exact habove
  | take hlo hhi => intro q hq; rw [← hhi]; exact hwf.lt_of_mem hq
  | cut next hlo hhi hnext =>
    intro q hq
    rcases List.mem_cons.mp hq with rfl | hq
    · simp only; omega
    · have := hwf.lt_of_mem hq; omega

theorem lowerBound (h : Advance lo hi t ps ps') {b : Int} (hb : ∀ p ∈ ps, b ≤ p.lo)
    (hne : lo ≤ hi) : ∀ p ∈ ps', b ≤ p.lo := by
  cases h with
  | keep => exact hb
  | take => exact fun q hq => hb q (List.mem_cons_of_mem _ hq)
  | cut next hlo hhi hnext =>
    intro q hq
    rcases List.mem_cons.mp hq with rfl | hq
    · have := hb _ (List.mem_cons_self _ _); simp only; omega
    · exact hb q (List.mem_cons_of_mem _ hq)

/-- A segment of this list starts where the list's first piece does. -/
theorem head_lo {e : RangeEl α} (h : Advance lo hi (some e) ps ps') :
    ∃ p ∈ ps.head?, p.lo = lo ∧ p.el = e := by
  cases h with
  | take hlo => exact ⟨_, rfl, hlo, rfl⟩
  | cut next hlo => exact ⟨_, rfl, hlo, rfl⟩

theorem head (h : Advance lo hi t ps ps') : t = none ∨ ∃ p ∈ ps.head?, t = some p.el := by
  cases h with
  | keep => exact Or.inl rfl
  | take => exact Or.inr ⟨_, rfl, rfl⟩
  | cut => exact Or.inr ⟨_, rfl, rfl⟩

/-- A segment reaching the first piece of the list lies in it. -/
theorem isSome_of_le {p : Piece α} (h : Advance lo hi t ps ps') (hp : p ∈ ps.head?)
    (hle : p.lo ≤ hi) : t.isSome := by
  cases h with
  | keep habove =>
    have := habove p (List.mem_of_mem_head? hp)
    omega
  | take => rfl
  | cut => rfl

end Advance

/-- The invariant of the loop of `findNext` over two lists of pieces, for
the segments of the rounds still to come. -/
structure RoundsSpec (ps1 : List (Piece α)) (ps2 : List (Piece β))
    (segs : List (Segment α β)) : Prop where
  nonempty : ∀ s ∈ segs, s.lo ≤ s.hi
  above : ∀ b, (∀ p ∈ ps1, b ≤ p.lo) → (∀ q ∈ ps2, b ≤ q.lo) → ∀ s ∈ segs, b ≤ s.lo
  increasing : segs.Pairwise (fun s s' => s.hi < s'.lo)
  find_eq : ∀ key, Segment.find segs key = (findPiece ps1 key, findPiece ps2 key)
  distinct : segs.Chain' (fun s s' => s.sig ≠ s'.sig)
  head : ∀ s ∈ segs.head?, (s.t1 = none ∨ ∃ p ∈ ps1.head?, s.t1 = some p.el) ∧
    (s.t2 = none ∨ ∃ q ∈ ps2.head?, s.t2 = some q.el)
  together : ∀ p ∈ ps1.head?, ∀ q ∈ ps2.head?, p.lo = q.lo →
    ∀ s ∈ segs.head?, s.t1.isSome ∧ s.t2.isSome

namespace RoundsSpec

variable {ops : KeyOps} {ps1 ps1' : List (Piece α)} {ps2 ps2' : List (Piece β)}
  {segs : List (Segment α β)}

theorem nil : RoundsSpec ([] : List (Piece α)) ([] : List (Piece β)) [] where
  nonempty := by simp
  above := by simp
  increasing := List.Pairwise.nil
  find_eq := fun _ => rfl
  distinct := List.chain'_nil
  head := by simp
  together := by simp

/-- One round: a segment cut off the front of both lists, reported with other
transitions than the next segment. -/
theorem cons {s : Segment α β} (h1 : Advance s.lo s.hi s.t1 ps1 ps1')
    (h2 : Advance s.lo s.hi s.t2 ps2 ps2') (hwf1 : PiecesWF ops ps1) (hwf2 : PiecesWF ops ps2)
    (hne : s.lo ≤ s.hi) (hsome : s.t1.isSome ∨ s.t2.isSome)
    (hdist : ∀ s' ∈ segs.head?, s.sig ≠ s'.sig) (hrest : RoundsSpec ps1' ps2' segs) :
    RoundsSpec ps1 ps2 (s :: segs) where
  nonempty := by
    simp only [List.mem_cons, forall_eq_or_imp]
    exact ⟨hne, hrest.nonempty⟩
  above b hb1 hb2 := by
    simp only [List.mem_cons, forall_eq_or_imp]
    refine ⟨?_, hrest.above b (h1.lowerBound hb1 hne) (h2.lowerBound hb2 hne)⟩
    rcases hsome with hs | hs
    · obtain ⟨e, he⟩ := Option.isSome_iff_exists.mp hs
      obtain ⟨p, hp, hlo, -⟩ := (he ▸ h1).head_lo
      exact hlo ▸ hb1 p (List.mem_of_mem_head? hp)
    · obtain ⟨e, he⟩ := Option.isSome_iff_exists.mp hs
      obtain ⟨p, hp, hlo, -⟩ := (he ▸ h2).head_lo
      exact hlo ▸ hb2 p (List.mem_of_mem_head? hp)
  increasing := List.pairwise_cons.mpr ⟨hrest.above (s.hi + 1)
    (fun p hp => h1.above hwf1 p hp) (fun q hq => h2.above hwf2 q hq), hrest.increasing⟩
  find_eq key := by
    rw [h1.findPiece_eq hne, h2.findPiece_eq hne, Segment.find, hrest.find_eq]
    by_cases hkey : s.lo ≤ key ∧ key ≤ s.hi <;> simp [Segment.Holds, Segment.sig, hkey]
  distinct := List.chain'_cons'.mpr ⟨hdist, hrest.distinct⟩
  head _ hs := by
    cases hs
    exact ⟨h1.head, h2.head⟩
  together p hp q hq hpq _ hs := by
    cases hs
    rcases hsome with hs1 | hs2
    · obtain ⟨e, he⟩ := Option.isSome_iff_exists.mp hs1
      obtain ⟨p', hp', hlo, -⟩ := (he ▸ h1).head_lo
      cases Option.mem_unique hp hp'
      exact ⟨hs1, h2.isSome_of_le hq (by omega)⟩
    · obtain ⟨e, he⟩ := Option.isSome_iff_exists.mp hs2
      obtain ⟨q', hq', hlo, -⟩ := (he ▸ h2).head_lo
      cases Option.mem_unique hq hq'
      exact ⟨h1.isSome_of_le hp (by omega), hs2⟩

/-- After a round that took the whole first piece of list 1, the next
segment is reported with another transition of list 1. -/
theorem sig_ne_of_take1 {p : Piece α} (hwf : PiecesWF ops (p :: ps1))
    (hrest : RoundsSpec ps1 ps2' segs) (x : Option (RangeEl β)) :
    ∀ s' ∈ segs.head?, (some p.el, x) ≠ s'.sig := by
  intro s' hs' heq
  rcases (hrest.head s' hs').1 with h | ⟨q, hq, h⟩ <;>
    simp only [Segment.sig, Prod.mk.injEq] at heq <;> rw [← heq.1] at h
  · cases h
  · exact hwf.el_ne (List.mem_of_mem_head? hq) (Option.some_inj.mp h).symm

theorem sig_ne_of_take2 {q : Piece β} (hwf : PiecesWF ops (q :: ps2))
    (hrest : RoundsSpec ps1' ps2 segs) (x : Option (RangeEl α)) :
    ∀ s' ∈ segs.head?, (x, some q.el) ≠ s'.sig := by
  intro s' hs' heq
  rcases (hrest.head s' hs').2 with h | ⟨q', hq', h⟩ <;>
    simp only [Segment.sig, Prod.mk.injEq] at heq <;> rw [← heq.2] at h
  · cases h
  · exact hwf.el_ne (List.mem_of_mem_head? hq') (Option.some_inj.mp h).symm

/-- After a round that cut one list up to where the other starts, the next
segment lies in both lists. -/
theorem sig_ne_of_together {p : Piece α} {q : Piece β} (hrest : RoundsSpec (p :: ps1) (q :: ps2) segs)
    (hpq : p.lo = q.lo) (x : Option (RangeEl α)) (y : Option (RangeEl β))
    (hxy : x = none ∨ y = none) : ∀ s' ∈ segs.head?, (x, y) ≠ s'.sig := by
  intro s' hs' heq
  obtain ⟨h1, h2⟩ := hrest.together p rfl q rfl hpq s' hs'
  simp only [Segment.sig, Prod.mk.injEq] at heq
  rcases hxy with rfl | rfl
  · rw [← heq.1] at h1; cases h1
  · rw [← heq.2] at h2; cases h2

end RoundsSpec

/-- The segment a round reports, with the transitions the loop holds. -/
def Round.segment : Round α β → Segment α β
  | .only1 p | .stick1 p => ⟨.rangeInS1, p.lo, p.hi, some p.el, none⟩
  | .only2 p | .stick2 p => ⟨.rangeInS2, p.lo, p.hi, none, some p.el⟩
  | .drag1 p1 p2 | .drag2 p1 p2 | .exact p1 p2 =>
    ⟨.rangeOverlap, p1.lo, p1.hi, some p1.el, some p2.el⟩

theorem Round.segment_labelled (r : Round α β) : r.segment.Labelled := by
  cases r <;> simp [segment, Segment.Labelled]

section Spec

variable {ops : KeyOps}

theorem RoundsSpec.drain2 {ps2 : List (Piece β)} (hwf : PiecesWF ops ps2) :
    RoundsSpec ([] : List (Piece α)) ps2 ((ps2.map .only2).map Round.segment) := by
  induction ps2 with
  | nil => exact RoundsSpec.nil
  | cons q qs ih =>
    have hrest := ih hwf.tail
    refine RoundsSpec.cons (.keep (by simp)) (.take rfl rfl) ⟨by simp, by simp,
      List.Pairwise.nil⟩ hwf hwf.head_bounds.2.1 (Or.inr rfl) ?_ hrest
    exact RoundsSpec.sig_ne_of_take2 hwf hrest none

theorem RoundsSpec.drain1 {ps1 : List (Piece α)} (hwf : PiecesWF ops ps1) :
    RoundsSpec ps1 ([] : List (Piece β)) ((ps1.map .only1).map Round.segment) := by
  induction ps1 with
  | nil => exact RoundsSpec.nil
  | cons p ps ih =>
    have hrest := ih hwf.tail
    refine RoundsSpec.cons (.take rfl rfl) (.keep (by simp)) hwf ⟨by simp, by simp,
      List.Pairwise.nil⟩ hwf.head_bounds.2.1 (Or.inl rfl) ?_ hrest
    exact RoundsSpec.sig_ne_of_take1 hwf hrest none

/-- The segments of the rounds of two lists of pieces satisfy the invariant
of the loop. -/
theorem rounds_spec (ps1 : List (Piece α)) (ps2 : List (Piece β)) :
    PiecesWF ops ps1 → PiecesWF ops ps2 →
      RoundsSpec ps1 ps2 ((rounds ops ps1 ps2).map Round.segment) := by
  induction ps1, ps2 using rounds.induct ops with
  | case1 ps2 =>
    intro _ hwf2
    rw [rounds]
    exact RoundsSpec.drain2 hwf2
  | case2 p1 ps1 =>
    intro hwf1 _
    rw [rounds]
    exact RoundsSpec.drain1 hwf1
  | case3 p1 ps1 p2 ps2 hlt ih =>
    intro hwf1 hwf2
    rw [rounds, if_pos hlt, List.map_cons]
    simp only [KeyOps.lt_eq, decide_eq_true_eq] at hlt
    have hrest := ih hwf1.tail hwf2
    exact RoundsSpec.cons (.take rfl rfl) (.keep (hwf2.lt_lo_of_lt_head hlt)) hwf1 hwf2
      hwf1.head_bounds.2.1 (Or.inl rfl) (RoundsSpec.sig_ne_of_take1 hwf1 hrest none) hrest
  | case4 p1 ps1 p2 ps2 hlt1 hlt ih =>
    intro hwf1 hwf2
    rw [rounds, if_neg hlt1, if_pos hlt, List.map_cons]
    simp only [KeyOps.lt_eq, decide_eq_true_eq] at hlt
    have hrest := ih hwf1 hwf2.tail
    exact RoundsSpec.cons (.keep (hwf1.lt_lo_of_lt_head hlt)) (.take rfl rfl) hwf1 hwf2
      hwf2.head_bounds.2.1 (Or.inr rfl) (RoundsSpec.sig_ne_of_take2 hwf2 hrest none) hrest
  | case5 p1 ps1 p2 ps2 hlt1 hlt2 hlt ih =>
    intro hwf1 hwf2
    rw [rounds, if_neg hlt1, if_neg hlt2, if_pos hlt, List.map_cons]
    simp only [KeyOps.lt_eq, decide_eq_true_eq] at hlt1 hlt2 hlt
    have hb1 := hwf1.head_bounds
    rw [KeyOps.decrement_of_lt hlt hb1.1]
    have hrest := ih (hwf1.cut (by omega) (by omega)) hwf2
    exact RoundsSpec.cons (.cut p2.lo rfl (by simp only [Round.segment]; omega)
        (by simp only [Round.segment]; omega))
      (.keep (hwf2.lt_lo_of_lt_head (by simp only [Round.segment]; omega))) hwf1 hwf2
      (by simp only [Round.segment]; omega) (Or.inl rfl)
      (RoundsSpec.sig_ne_of_together hrest rfl _ _ (Or.inr rfl)) hrest
  | case6 p1 ps1 p2 ps2 hlt1 hlt2 hlt3 hlt ih =>
    intro hwf1 hwf2
    rw [rounds, if_neg hlt1, if_neg hlt2, if_neg hlt3, if_pos hlt, List.map_cons]
    simp only [KeyOps.lt_eq, decide_eq_true_eq] at hlt1 hlt2 hlt3 hlt
    have hb2 := hwf2.head_bounds
    rw [KeyOps.decrement_of_lt hlt hb2.1]
    have hrest := ih hwf1 (hwf2.cut (by omega) (by omega))
    exact RoundsSpec.cons (.keep (hwf1.lt_lo_of_lt_head (by simp only [Round.segment]; omega)))
      (.cut p1.lo rfl (by simp only [Round.segment]; omega) (by simp only [Round.segment]; omega))
      hwf1 hwf2 (by simp only [Round.segment]; omega) (Or.inr rfl)
      (RoundsSpec.sig_ne_of_together hrest rfl _ _ (Or.inl rfl)) hrest
  | case7 p1 ps1 p2 ps2 hlt1 hlt2 hlt3 hlt4 hlt ih =>
    intro hwf1 hwf2
    rw [rounds, if_neg hlt1, if_neg hlt2, if_neg hlt3, if_neg hlt4, if_pos hlt, List.map_cons]
    simp only [KeyOps.lt_eq, decide_eq_true_eq] at hlt1 hlt2 hlt3 hlt4 hlt
    have hb2 := hwf2.head_bounds
    rw [KeyOps.increment_of_lt hlt hb2.2.2] at ih ⊢
    have hrest := ih hwf1.tail (hwf2.cut (by omega) (by omega))
    exact RoundsSpec.cons (.take rfl rfl) (.cut _ (by simp only [Round.segment]; omega) hlt rfl)
      hwf1 hwf2
      hwf1.head_bounds.2.1 (Or.inl rfl) (RoundsSpec.sig_ne_of_take1 hwf1 hrest _) hrest
  | case8 p1 ps1 p2 ps2 hlt1 hlt2 hlt3 hlt4 hlt5 hlt ih =>
    intro hwf1 hwf2
    rw [rounds, if_neg hlt1, if_neg hlt2, if_neg hlt3, if_neg hlt4, if_neg hlt5, if_pos hlt,
      List.map_cons]
    simp only [KeyOps.lt_eq, decide_eq_true_eq] at hlt1 hlt2 hlt3 hlt4 hlt5 hlt
    have hb1 := hwf1.head_bounds
    rw [KeyOps.increment_of_lt hlt hb1.2.2] at ih ⊢
    have hrest := ih (hwf1.cut (by omega) (by omega)) hwf2.tail
    exact RoundsSpec.cons (.cut _ rfl hlt rfl) (.take (by simp only [Round.segment]; omega) rfl)
      hwf1 hwf2
      (by simp only [Round.segment]; have := hwf2.head_bounds; omega) (Or.inl rfl)
      (RoundsSpec.sig_ne_of_take2 hwf2 hrest _) hrest
  | case9 p1 ps1 p2 ps2 hlt1 hlt2 hlt3 hlt4 hlt5 hlt6 ih =>
    intro hwf1 hwf2
    rw [rounds, if_neg hlt1, if_neg hlt2, if_neg hlt3, if_neg hlt4, if_neg hlt5, if_neg hlt6,
      List.map_cons]
    simp only [KeyOps.lt_eq, decide_eq_true_eq] at hlt1 hlt2 hlt3 hlt4 hlt5 hlt6
    have hrest := ih hwf1.tail hwf2.tail
    exact RoundsSpec.cons (.take rfl rfl)
      (.take (by simp only [Round.segment]; omega) (by simp only [Round.segment]; omega)) hwf1 hwf2
      hwf1.head_bounds.2.1 (Or.inl rfl) (RoundsSpec.sig_ne_of_take1 hwf1 hrest _) hrest

end Spec

end RangePairIter

end Colm
