/-
What the range-pair iterator is for: the overlay partition of two range
lists.  A list is read through its point function `findRange`, a list of
reported segments through `Segment.find`; `IsOverlay` states the partition
the spec promises, and the lemmas below derive its clauses from the few facts
the iterator's loop establishes directly.
-/
import Colm.RangePairIter
import Mathlib.Data.List.Chain
import Mathlib.Data.List.Pairwise

namespace Colm

namespace RangePairIter

variable {α β : Type}

/-- The element of a range list whose range holds `key`: the first such
element, and in a well-formed list the only one. -/
def findRange : List (RangeEl α) → Int → Option (RangeEl α)
  | [], _ => none
  | e :: rest, key => if e.lowKey ≤ key ∧ key ≤ e.highKey then some e else findRange rest key

/-- The precondition on each list: every range non-empty and within the
alphabet type, and each ending below the start of the next. -/
def WellFormed (ops : KeyOps) (l : List (RangeEl α)) : Prop :=
  (∀ e ∈ l, ops.minKey ≤ e.lowKey ∧ e.lowKey ≤ e.highKey ∧ e.highKey ≤ ops.maxKey) ∧
    l.Chain' (fun e e' => e.highKey < e'.lowKey)

/-- A reported segment: its event, its keys, and the transitions of the two
lists it is reported with. -/
structure Segment (α β : Type) where
  userState : UserState
  lo : Int
  hi : Int
  t1 : Option (RangeEl α)
  t2 : Option (RangeEl β)

namespace Segment

/-- The pair of transitions a segment is reported with. -/
def sig (s : Segment α β) : Option (RangeEl α) × Option (RangeEl β) :=
  (s.t1, s.t2)

/-- Whether a segment holds a key. -/
def Holds (s : Segment α β) (key : Int) : Prop :=
  s.lo ≤ key ∧ key ≤ s.hi

instance (s : Segment α β) (key : Int) : Decidable (s.Holds key) :=
  inferInstanceAs (Decidable (_ ∧ _))

/-- The point function of a list of segments: the transitions of the first
segment holding `key`, or none. -/
def find : List (Segment α β) → Int → Option (RangeEl α) × Option (RangeEl β)
  | [], _ => (none, none)
  | s :: rest, key => if s.Holds key then s.sig else find rest key

/-- The event of a segment names the lists it lies in: `RangeInS1` with a
transition of list 1 only, `RangeInS2` of list 2 only, `RangeOverlap` of
both. -/
def Labelled (s : Segment α β) : Prop :=
  match s.userState with
  | .rangeInS1 => s.t1.isSome ∧ s.t2 = none
  | .rangeInS2 => s.t1 = none ∧ s.t2.isSome
  | .rangeOverlap => s.t1.isSome ∧ s.t2.isSome
  | _ => False

end Segment

/-- The overlay partition of `l1` and `l2`, as the spec states it for the
segments `RangePairIter` reports: non-empty, pairwise disjoint and strictly
increasing; covering exactly the keys of either list; each lying in one
element of each list (or none) and maximal as such; and reported as the event
that names the lists it lies in, with their elements. -/
structure IsOverlay (l1 : List (RangeEl α)) (l2 : List (RangeEl β))
    (segs : List (Segment α β)) : Prop where
  nonempty : ∀ s ∈ segs, s.lo ≤ s.hi
  increasing : segs.Pairwise (fun s s' => s.hi < s'.lo)
  covers : ∀ key, (∃ s ∈ segs, s.Holds key) ↔
    (findRange l1 key).isSome ∨ (findRange l2 key).isSome
  uniform : ∀ s ∈ segs, ∀ key, s.Holds key → (findRange l1 key, findRange l2 key) = s.sig
  maximal : ∀ s ∈ segs, (findRange l1 (s.lo - 1), findRange l2 (s.lo - 1)) ≠ s.sig ∧
    (findRange l1 (s.hi + 1), findRange l2 (s.hi + 1)) ≠ s.sig
  labelled : ∀ s ∈ segs, s.Labelled

namespace Segment

variable {segs : List (Segment α β)} {s t : Segment α β} {key : Int}

/-- A labelled segment is reported with a transition of at least one list. -/
theorem Labelled.sig_ne (h : s.Labelled) : s.sig ≠ (none, none) := by
  unfold Labelled at h
  split at h <;> simp_all [sig, Option.isSome_iff_ne_none]

theorem find_eq_none_of_lt (h : ∀ t ∈ segs, key < t.lo) : find segs key = (none, none) := by
  induction segs with
  | nil => rfl
  | cons t rest ih =>
    simp only [List.mem_cons, forall_eq_or_imp] at h
    simp only [find, Holds, ih h.2, ite_eq_right_iff]
    omega

/-- In an increasing list, the point function at a key of a segment is the
transitions of that segment. -/
theorem find_eq_of_holds (hinc : segs.Pairwise (fun s s' => s.hi < s'.lo)) (hs : s ∈ segs)
    (hkey : s.Holds key) : find segs key = s.sig := by
  induction segs with
  | nil => cases hs
  | cons t rest ih =>
    rw [List.pairwise_cons] at hinc
    rcases List.mem_cons.mp hs with rfl | hs
    · simp [find, hkey]
    · have hlt := hinc.1 s hs
      simp only [find, Holds] at hkey ⊢
      rw [if_neg (by omega), ih hinc.2 hs]

theorem exists_holds_of_find (h : find segs key ≠ (none, none)) :
    ∃ s ∈ segs, s.Holds key ∧ find segs key = s.sig := by
  induction segs with
  | nil => exact absurd rfl h
  | cons t rest ih =>
    by_cases ht : t.Holds key
    · exact ⟨t, List.mem_cons_self t rest, ht, by simp [find, ht]⟩
    · simp only [find, ht, ↓reduceIte] at h ⊢
      obtain ⟨s, hs, hkey, heq⟩ := ih h
      exact ⟨s, List.mem_cons_of_mem t hs, hkey, heq⟩

/-- Past the end of a segment the point function changes: either no segment
holds the next key, or the next segment, whose transitions differ. -/
theorem find_hi_succ_ne (hne : ∀ s ∈ segs, s.lo ≤ s.hi)
    (hinc : segs.Pairwise (fun s s' => s.hi < s'.lo))
    (hdist : segs.Chain' (fun s s' => s.sig ≠ s'.sig))
    (hlab : ∀ s ∈ segs, s.sig ≠ (none, none)) (hs : s ∈ segs) :
    find segs (s.hi + 1) ≠ s.sig := by
  induction segs with
  | nil => cases hs
  | cons t rest ih =>
    rw [List.pairwise_cons] at hinc
    rcases List.mem_cons.mp hs with rfl | hs
    · simp only [find, Holds, show ¬(s.lo ≤ s.hi + 1 ∧ s.hi + 1 ≤ s.hi) by omega, ↓reduceIte]
      cases rest with
      | nil => exact (hlab s (List.mem_singleton_self s)).symm
      | cons u rest =>
        have hsu := hinc.1 u (List.mem_cons_self u rest)
        by_cases hu : u.Holds (s.hi + 1)
        · rw [find_eq_of_holds hinc.2 (List.mem_cons_self u rest) hu]
          exact (List.chain'_cons.mp hdist).1.symm
        · rw [find_eq_none_of_lt]
          · exact (hlab s (List.mem_cons_self s _)).symm
          · intro v hv
            rcases List.mem_cons.mp hv with rfl | hv
            · simp only [Holds] at hu
              have := hne v (List.mem_cons_of_mem _ (List.mem_cons_self _ _))
              omega
            · have := (List.pairwise_cons.mp hinc.2).1 v hv
              have := hne u (List.mem_cons_of_mem _ (List.mem_cons_self _ _))
              omega
    · have hlt := hinc.1 s hs
      have := hne s (List.mem_cons_of_mem t hs)
      simp only [find, Holds, show ¬(t.lo ≤ s.hi + 1 ∧ s.hi + 1 ≤ t.hi) by omega, ↓reduceIte]
      exact ih (fun u hu => hne u (List.mem_cons_of_mem t hu)) hinc.2 hdist.tail
        (fun u hu => hlab u (List.mem_cons_of_mem t hu)) hs

end Segment

open Segment in
/-- The clauses of the overlay partition follow from five facts about the
reported segments: non-empty, increasing, labelled, each reported with other
transitions than the one before it, and a point function equal to the pair of
point functions of the two lists. -/
theorem IsOverlay.of_find {l1 : List (RangeEl α)} {l2 : List (RangeEl β)}
    {segs : List (Segment α β)} (hne : ∀ s ∈ segs, s.lo ≤ s.hi)
    (hinc : segs.Pairwise (fun s s' => s.hi < s'.lo)) (hlab : ∀ s ∈ segs, s.Labelled)
    (hdist : segs.Chain' (fun s s' => s.sig ≠ s'.sig))
    (hfind : ∀ key, find segs key = (findRange l1 key, findRange l2 key)) :
    IsOverlay l1 l2 segs where
  nonempty := hne
  increasing := hinc
  covers key := by
    constructor
    · rintro ⟨s, hs, hkey⟩
      have hsig := (hlab s hs).sig_ne
      rw [← find_eq_of_holds hinc hs hkey, hfind] at hsig
      simpa [Option.isSome_iff_ne_none, or_iff_not_imp_left] using hsig
    · intro h
      have hsome : find segs key ≠ (none, none) := by
        rw [hfind]
        simpa [Option.isSome_iff_ne_none, or_iff_not_imp_left] using h
      obtain ⟨s, hs, hkey, -⟩ := exists_holds_of_find hsome
      exact ⟨s, hs, hkey⟩
  uniform s hs key hkey := by
    rw [← hfind, find_eq_of_holds hinc hs hkey]
  maximal s hs := by
    have hsucc := fun u (hu : u ∈ segs) =>
      find_hi_succ_ne hne hinc hdist (fun t ht => (hlab t ht).sig_ne) hu
    refine ⟨fun heq => ?_, by rw [← hfind]; exact hsucc s hs⟩
    rw [← hfind] at heq
    obtain ⟨u, hu, hkey, hfu⟩ := exists_holds_of_find (heq ▸ (hlab s hs).sig_ne)
    have hsym : Symmetric (fun a b : Segment α β => a.hi < b.lo ∨ b.hi < a.lo) :=
      fun _ _ h => h.symm
    have hus : u ≠ s := by
      rintro rfl
      simp only [Holds] at hkey
      omega
    have hord := (hinc.imp Or.inl).forall hsym hu hs hus
    have hsu := hne s hs
    simp only [Holds] at hkey
    have hhi : u.hi + 1 = s.lo := by omega
    apply hsucc u hu
    rw [hhi, find_eq_of_holds hinc hs ⟨Int.le_refl _, hsu⟩, ← heq, hfu]
  labelled := hlab

end RangePairIter

end Colm
