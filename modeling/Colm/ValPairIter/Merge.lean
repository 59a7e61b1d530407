/-
`ValPairIter` is the labelled sorted merge of its two lists.  The coroutine
simulates the plain recursion `merge`; on strictly increasing lists `merge`
reports every key of either list exactly once, in increasing order, labelled
with the items that carry it (`IsMerge`).
-/
import Colm.ValPairIter
import Mathlib.Data.List.Chain

namespace Colm

namespace ValPairIter

variable {α β : Type}

/-- The items a `NextTrans` still has to walk: its current item, then the
rest of its list. -/
def NextTrans.items (t : NextTrans α) : List (ValEl α) :=
  match t.trans with
  | none => []
  | some e => e :: t.next

/-- `load()` has copied the key of the current item. -/
def NextTrans.Loaded (t : NextTrans α) : Prop :=
  ∀ e, t.trans = some e → t.key = e.key

section Items

variable {t : NextTrans α} {e : ValEl α} {l : List (ValEl α)}

@[simp] theorem NextTrans.items_set (l : List (ValEl α)) : (t.set l).items = l := by
  cases l <;> rfl

theorem NextTrans.loaded_set (l : List (ValEl α)) : (t.set l).Loaded := by
  cases l <;> simp [NextTrans.set, NextTrans.Loaded]

theorem NextTrans.items_eq_cons (h : t.items = e :: l) : t.trans = some e ∧ t.next = l := by
  unfold NextTrans.items at h
  split at h <;> simp_all

theorem NextTrans.items_eq_nil (h : t.items = []) : t.trans = none := by
  unfold NextTrans.items at h
  split at h <;> simp_all

end Items

/-- The loop of `findNext` over the items still to walk in each list, and
the events it reports. -/
def merge : List (ValEl α) → List (ValEl β) → List (Report α β)
  | [], l2 => l2.map fun e => .inS2 e.key (some e)
  | e1 :: r1, [] => (e1 :: r1).map fun e => .inS1 e.key (some e)
  | e1 :: r1, e2 :: r2 =>
    if e1.key < e2.key then .inS1 e1.key (some e1) :: merge r1 (e2 :: r2)
    else if e2.key < e1.key then .inS2 e2.key (some e2) :: merge (e1 :: r1) r2
    else .overlap e1.key (some e1) e2.key (some e2) :: merge r1 r2
termination_by l1 l2 => l1.length + l2.length

/-- The reports of the caller's loop. -/
def driveReports (fuel : Nat) (it : ValPairIter α β) : Option (List (Report α β)) :=
  (drive fuel it).map (List.map report)

section Simulation

variable {fuel : Nat} {it : ValPairIter α β}

theorem driveReports_succ (h : it.lte = true) :
    driveReports (fuel + 1) it = (driveReports fuel (findNext it)).map (report it :: ·) := by
  simp only [driveReports, drive, h, ↓reduceIte, Option.map_map]
  rfl

theorem driveReports_end (h : it.itState = .«end») : driveReports (fuel + 1) it = some [] := by
  simp [driveReports, drive, lte, h]

/-- Draining list 2 reports its items one by one, then stops. -/
theorem driveReports_drainS2 (l : List (ValEl β)) :
    ∀ (it : ValPairIter α β) (fuel : Nat), it.s2Tel.items = l → it.s2Tel.Loaded →
      l.length < fuel → driveReports fuel it.drainS2 = some (l.map fun e => .inS2 e.key (some e)) := by
  induction l with
  | nil =>
    intro it fuel hl _ hfuel
    obtain ⟨fuel, rfl⟩ : ∃ f, fuel = f + 1 := ⟨fuel - 1, by simp at hfuel; omega⟩
    simp [drainS2, NextTrans.items_eq_nil hl, driveReports_end]
  | cons e rest ih =>
    intro it fuel hl hkey hfuel
    obtain ⟨ht, hn⟩ := NextTrans.items_eq_cons hl
    obtain ⟨fuel, rfl⟩ : ∃ f, fuel = f + 1 := ⟨fuel - 1, by simp at hfuel; omega⟩
    simp only [drainS2, ht]
    rw [driveReports_succ (by rfl)]
    simp only [findNext, coReturn2]
    rw [ih _ fuel (by simp [NextTrans.increment, hn]) (NextTrans.loaded_set _)
      (by simp at hfuel; omega)]
    simp [report, ht, hkey e ht]

/-- Draining list 1 reports its items one by one, then stops. -/
theorem driveReports_drainS1 (l : List (ValEl α)) :
    ∀ (it : ValPairIter α β) (fuel : Nat), it.s1Tel.items = l → it.s1Tel.Loaded →
      l.length < fuel → driveReports fuel it.drainS1 = some (l.map fun e => .inS1 e.key (some e)) := by
  induction l with
  | nil =>
    intro it fuel hl _ hfuel
    obtain ⟨fuel, rfl⟩ : ∃ f, fuel = f + 1 := ⟨fuel - 1, by simp at hfuel; omega⟩
    simp [drainS1, NextTrans.items_eq_nil hl, driveReports_end]
  | cons e rest ih =>
    intro it fuel hl hkey hfuel
    obtain ⟨ht, hn⟩ := NextTrans.items_eq_cons hl
    obtain ⟨fuel, rfl⟩ : ∃ f, fuel = f + 1 := ⟨fuel - 1, by simp at hfuel; omega⟩
    simp only [drainS1, ht]
    rw [driveReports_succ (by rfl)]
    simp only [findNext, coReturn2]
    rw [ih _ fuel (by simp [NextTrans.increment, hn]) (NextTrans.loaded_set _)
      (by simp at hfuel; omega)]
    simp [report, ht, hkey e ht]

/-- From the top of its loop, the coroutine reports exactly the events of
`merge` of the items it has still to walk. -/
theorem driveReports_scan (l1 : List (ValEl α)) (l2 : List (ValEl β)) :
    ∀ (it : ValPairIter α β) (fuel : Nat), it.s1Tel.items = l1 → it.s2Tel.items = l2 →
      it.s1Tel.Loaded → it.s2Tel.Loaded → (merge l1 l2).length < fuel →
        driveReports fuel (scan it) = some (merge l1 l2) := by
  induction l1, l2 using merge.induct with
  | case1 l2 =>
    intro it fuel h1 h2 _ hk2 hfuel
    rw [merge] at hfuel ⊢
    simp only [scan, NextTrans.items_eq_nil h1]
    exact driveReports_drainS2 l2 it fuel h2 hk2 (by simpa using hfuel)
  | case2 e1 r1 =>
    intro it fuel h1 h2 hk1 _ hfuel
    rw [merge] at hfuel ⊢
    simp only [scan, (NextTrans.items_eq_cons h1).1, NextTrans.items_eq_nil h2]
    exact driveReports_drainS1 _ it fuel h1 hk1 (by simpa using hfuel)
  | case3 e1 r1 e2 r2 hlt ih =>
    intro it fuel h1 h2 hk1 hk2 hfuel
    obtain ⟨t1, n1⟩ := NextTrans.items_eq_cons h1
    obtain ⟨t2, n2⟩ := NextTrans.items_eq_cons h2
    rw [merge, if_pos hlt] at hfuel ⊢
    obtain ⟨fuel, rfl⟩ : ∃ f, fuel = f + 1 := ⟨fuel - 1, by simp at hfuel; omega⟩
    simp only [scan, t1, t2, hk1 e1 t1, hk2 e2 t2, hlt, ↓reduceIte]
    rw [driveReports_succ (by rfl)]
    simp only [findNext, coReturn2]
    rw [ih _ fuel ?_ ?_ ?_ ?_ ?_]
    · simp [report, t1, hk1 e1 t1]
    · simp [NextTrans.increment, n1]
    · exact h2
    · exact NextTrans.loaded_set _
    · exact hk2
    · simp at hfuel; omega
  | case4 e1 r1 e2 r2 hlt1 hlt ih =>
    intro it fuel h1 h2 hk1 hk2 hfuel
    obtain ⟨t1, n1⟩ := NextTrans.items_eq_cons h1
    obtain ⟨t2, n2⟩ := NextTrans.items_eq_cons h2
    rw [merge, if_neg hlt1, if_pos hlt] at hfuel ⊢
    obtain ⟨fuel, rfl⟩ : ∃ f, fuel = f + 1 := ⟨fuel - 1, by simp at hfuel; omega⟩
    simp only [scan, t1, t2, hk1 e1 t1, hk2 e2 t2, hlt1, hlt, ↓reduceIte]
    rw [driveReports_succ (by rfl)]
    simp only [findNext, coReturn2]
    rw [ih _ fuel ?_ ?_ ?_ ?_ ?_]
    · simp [report, t2, hk2 e2 t2]
    · exact h1
    · simp [NextTrans.increment, n2]
    · exact hk1
    · exact NextTrans.loaded_set _
    · simp at hfuel; omega
  | case5 e1 r1 e2 r2 hlt1 hlt2 ih =>
    intro it fuel h1 h2 hk1 hk2 hfuel
    obtain ⟨t1, n1⟩ := NextTrans.items_eq_cons h1
    obtain ⟨t2, n2⟩ := NextTrans.items_eq_cons h2
    rw [merge, if_neg hlt1, if_neg hlt2] at hfuel ⊢
    obtain ⟨fuel, rfl⟩ : ∃ f, fuel = f + 1 := ⟨fuel - 1, by simp at hfuel; omega⟩
    simp only [scan, t1, t2, hk1 e1 t1, hk2 e2 t2, hlt1, hlt2, ↓reduceIte]
    rw [driveReports_succ (by rfl)]
    simp only [findNext, coReturn2]
    rw [ih _ fuel ?_ ?_ ?_ ?_ ?_]
    · simp [report, t1, t2, hk1 e1 t1, hk2 e2 t2]
    · simp [NextTrans.increment, n1]
    · simp [NextTrans.increment, n2]
    · exact NextTrans.loaded_set _
    · exact NextTrans.loaded_set _
    · simp at hfuel; omega

end Simulation

/-- The item of a list carrying `key`: the first, and in a strictly
increasing list the only one. -/
def findVal : List (ValEl α) → Int → Option (ValEl α)
  | [], _ => none
  | e :: rest, key => if e.key = key then some e else findVal rest key

/-- The key an event reports, read from `s1Tel` for an overlap. -/
def Report.key : Report α β → Int
  | .inS1 k _ | .inS2 k _ | .overlap k _ _ _ => k

/-- The pair of items an event reports. -/
def Report.sig : Report α β → Option (ValEl α) × Option (ValEl β)
  | .inS1 _ t => (t, none)
  | .inS2 _ t => (none, t)
  | .overlap _ t1 _ t2 => (t1, t2)

/-- An event reports an item of every list it names, and an overlap the same
key from both. -/
def Report.Labelled : Report α β → Prop
  | .inS1 _ t | .inS2 _ t => t.isSome
  | .overlap key1 t1 key2 t2 => key1 = key2 ∧ t1.isSome ∧ t2.isSome

/-- The labelled sorted merge of two lists: the events report the keys of the
union of the two lists, each once and in increasing order, each with the
items of the two lists carrying it. -/
structure IsMerge (l1 : List (ValEl α)) (l2 : List (ValEl β)) (rs : List (Report α β)) :
    Prop where
  increasing : (rs.map Report.key).Pairwise (· < ·)
  covers : ∀ key, key ∈ rs.map Report.key ↔ (findVal l1 key).isSome ∨ (findVal l2 key).isSome
  labelled : ∀ r ∈ rs, r.Labelled ∧ (findVal l1 r.key, findVal l2 r.key) = r.sig

section Spec

variable {l : List (ValEl α)} {key : Int}

theorem findVal_isSome_iff : (findVal l key).isSome ↔ key ∈ l.map ValEl.key := by
  induction l with
  | nil => simp [findVal]
  | cons e rest ih => by_cases h : e.key = key <;> simp [findVal, h, Ne.symm, ih]

theorem findVal_cons_of_ne (e : ValEl α) (h : e.key ≠ key) :
    findVal (e :: l) key = findVal l key := by
  simp [findVal, h]

theorem findVal_cons_self (e : ValEl α) (l : List (ValEl α)) : findVal (e :: l) e.key = some e := by
  simp [findVal]

/-- In a strictly increasing list an item is the one carrying its key. -/
theorem findVal_of_mem (hs : l.Pairwise (·.key < ·.key)) {e : ValEl α} (he : e ∈ l) :
    findVal l e.key = some e := by
  induction l with
  | nil => cases he
  | cons x xs ih =>
    rcases List.mem_cons.mp he with rfl | he
    · exact findVal_cons_self e xs
    · have := List.rel_of_pairwise_cons hs he
      rw [findVal_cons_of_ne x (by omega), ih hs.of_cons he]

/-- A key below the head of a strictly increasing list is below all of it. -/
theorem lt_keys_of_lt_head {e : ValEl α} (hs : (e :: l).Pairwise (·.key < ·.key))
    (hk : key < e.key) : ∀ x ∈ e :: l, key < x.key := by
  intro x hx
  rcases List.mem_cons.mp hx with rfl | hx
  · exact hk
  · exact Int.lt_trans hk (List.rel_of_pairwise_cons hs hx)

theorem findVal_eq_none (h : ∀ e ∈ l, key < e.key) : findVal l key = none := by
  rw [← Option.not_isSome_iff_eq_none, findVal_isSome_iff]
  simp only [List.mem_map, not_exists, not_and]
  intro e he hkey
  have := h e he
  omega

/-- The keys `merge` reports are the keys of either list. -/
theorem merge_keys (l1 : List (ValEl α)) (l2 : List (ValEl β)) (key : Int) :
    key ∈ (merge l1 l2).map Report.key ↔ key ∈ l1.map ValEl.key ∨ key ∈ l2.map ValEl.key := by
  induction l1, l2 using merge.induct with
  | case1 l2 => simp [merge, Report.key]
  | case2 e1 r1 => simp [merge, Report.key]
  | case3 e1 r1 e2 r2 hlt ih =>
    rw [merge, if_pos hlt, List.map_cons, List.mem_cons, ih]
    simp only [Report.key, List.map_cons, List.mem_cons, or_assoc]
  | case4 e1 r1 e2 r2 hlt1 hlt ih =>
    rw [merge, if_neg hlt1, if_pos hlt, List.map_cons, List.mem_cons, ih]
    simp only [Report.key, List.map_cons, List.mem_cons, or_assoc, or_left_comm]
  | case5 e1 r1 e2 r2 hlt1 hlt2 ih =>
    rw [merge, if_neg hlt1, if_neg hlt2, List.map_cons, List.mem_cons, ih]
    have heq : e1.key = e2.key := by omega
    simp only [Report.key, List.map_cons, List.mem_cons, heq, or_assoc, or_left_comm, or_self_left]

theorem merge_length_le (l1 : List (ValEl α)) (l2 : List (ValEl β)) :
    (merge l1 l2).length ≤ l1.length + l2.length := by
  induction l1, l2 using merge.induct with
  | case1 l2 => simp [merge]
  | case2 e1 r1 => simp [merge]
  | case3 e1 r1 e2 r2 hlt ih => rw [merge, if_pos hlt]; simp only [List.length_cons] at *; omega
  | case4 e1 r1 e2 r2 hlt1 hlt ih =>
    rw [merge, if_neg hlt1, if_pos hlt]; simp only [List.length_cons] at *; omega
  | case5 e1 r1 e2 r2 hlt1 hlt2 ih =>
    rw [merge, if_neg hlt1, if_neg hlt2]; simp only [List.length_cons] at *; omega

/-- Every key still to come lies above a bound below both lists. -/
theorem merge_key_gt (l1 : List (ValEl α)) (l2 : List (ValEl β)) {b : Int}
    (h1 : ∀ e ∈ l1, b < e.key) (h2 : ∀ e ∈ l2, b < e.key) :
    ∀ r ∈ merge l1 l2, b < r.key := by
  intro r hr
  have := (merge_keys l1 l2 r.key).mp (List.mem_map_of_mem _ hr)
  simp only [List.mem_map] at this
  rcases this with ⟨e, he, hk⟩ | ⟨e, he, hk⟩
  · exact hk ▸ h1 e he
  · exact hk ▸ h2 e he

/-- On strictly increasing lists `merge` is the labelled sorted merge. -/
theorem merge_isMerge (l1 : List (ValEl α)) (l2 : List (ValEl β)) :
    l1.Pairwise (·.key < ·.key) → l2.Pairwise (·.key < ·.key) → IsMerge l1 l2 (merge l1 l2) := by
  intro hs1 hs2
  refine ⟨?_, fun key => by rw [merge_keys, findVal_isSome_iff, findVal_isSome_iff], ?_⟩
  · induction l1, l2 using merge.induct with
    | case1 l2 =>
      simpa [merge, Report.key, List.pairwise_map] using hs2
    | case2 e1 r1 =>
      simpa [merge, Report.key, List.pairwise_map] using hs1
    | case3 e1 r1 e2 r2 hlt ih =>
      rw [merge, if_pos hlt, List.map_cons, List.pairwise_cons]
      refine ⟨?_, ih hs1.of_cons hs2⟩
      simp only [List.mem_map]
      rintro _ ⟨r, hr, rfl⟩
      exact merge_key_gt _ _ (fun _ he => List.rel_of_pairwise_cons hs1 he)
        (lt_keys_of_lt_head hs2 hlt) r hr
    | case4 e1 r1 e2 r2 hlt1 hlt ih =>
      rw [merge, if_neg hlt1, if_pos hlt, List.map_cons, List.pairwise_cons]
      refine ⟨?_, ih hs1 hs2.of_cons⟩
      simp only [List.mem_map]
      rintro _ ⟨r, hr, rfl⟩
      exact merge_key_gt _ _ (lt_keys_of_lt_head hs1 hlt)
        (fun _ he => List.rel_of_pairwise_cons hs2 he) r hr
    | case5 e1 r1 e2 r2 hlt1 hlt2 ih =>
      rw [merge, if_neg hlt1, if_neg hlt2, List.map_cons, List.pairwise_cons]
      refine ⟨?_, ih hs1.of_cons hs2.of_cons⟩
      simp only [List.mem_map]
      rintro _ ⟨r, hr, rfl⟩
      refine merge_key_gt _ _ (fun _ he => List.rel_of_pairwise_cons hs1 he) ?_ r hr
      intro e he
      have := List.rel_of_pairwise_cons hs2 he
      omega
  · induction l1, l2 using merge.induct with
    | case1 l2 =>
      intro r hr
      rw [merge] at hr
      obtain ⟨e, he, rfl⟩ := List.mem_map.mp hr
      exact ⟨rfl, by rw [Report.key, Report.sig, findVal_of_mem hs2 he]; rfl⟩
    | case2 e1 r1 =>
      intro r hr
      rw [merge] at hr
      obtain ⟨e, he, rfl⟩ := List.mem_map.mp hr
      exact ⟨rfl, by rw [Report.key, Report.sig, findVal_of_mem hs1 he]; rfl⟩
    | case3 e1 r1 e2 r2 hlt ih =>
      intro r hr
      rw [merge, if_pos hlt] at hr
      have hgt := lt_keys_of_lt_head hs2 hlt
      rcases List.mem_cons.mp hr with rfl | hr
      · exact ⟨rfl, by simp [Report.key, Report.sig, findVal_cons_self, findVal_eq_none hgt]⟩
      · have hk := merge_key_gt _ _ (fun _ he => List.rel_of_pairwise_cons hs1 he) hgt r hr
        rw [findVal_cons_of_ne e1 (by omega)]
        exact ih hs1.of_cons hs2 r hr
    | case4 e1 r1 e2 r2 hlt1 hlt ih =>
      intro r hr
      rw [merge, if_neg hlt1, if_pos hlt] at hr
      have hgt := lt_keys_of_lt_head hs1 hlt
      rcases List.mem_cons.mp hr with rfl | hr
      · exact ⟨rfl, by simp [Report.key, Report.sig, findVal_cons_self, findVal_eq_none hgt]⟩
      · have hk := merge_key_gt _ _ hgt (fun _ he => List.rel_of_pairwise_cons hs2 he) r hr
        rw [findVal_cons_of_ne e2 (by omega)]
        exact ih hs1 hs2.of_cons r hr
    | case5 e1 r1 e2 r2 hlt1 hlt2 ih =>
      intro r hr
      rw [merge, if_neg hlt1, if_neg hlt2] at hr
      have heq : e1.key = e2.key := by omega
      rcases List.mem_cons.mp hr with rfl | hr
      · refine ⟨⟨heq, rfl, rfl⟩, ?_⟩
        rw [Report.key, Report.sig, findVal_cons_self, heq, findVal_cons_self]
      · have hk := merge_key_gt _ _ (fun _ he => List.rel_of_pairwise_cons hs1 he)
          (fun e he => heq ▸ List.rel_of_pairwise_cons hs2 he) r hr
        rw [findVal_cons_of_ne e1 (by omega), findVal_cons_of_ne e2 (by omega)]
        exact ih hs1.of_cons hs2.of_cons r hr

end Spec

/-- `ValPairIter` is the labelled sorted merge.  For two lists whose keys
strictly increase, the caller's loop reaches `End` within
`|list1| + |list2| + 1` events, and its events report every key of either
list once, in increasing order: a key of list 1 only as `RangeInS1` with the
item carrying it, of list 2 only as `RangeInS2`, of both as `RangeOverlap`
with both items. -/
theorem drive_new_isMerge (l1 : List (ValEl α)) (l2 : List (ValEl β))
    (hs1 : (l1.map ValEl.key).Chain' (· < ·)) (hs2 : (l2.map ValEl.key).Chain' (· < ·)) :
    ∃ tr, drive (l1.length + l2.length + 1) (new l1 l2) = some tr ∧
      IsMerge l1 l2 (tr.map report) := by
  have hrun : driveReports (l1.length + l2.length + 1) (new l1 l2) = some (merge l1 l2) :=
    driveReports_scan l1 l2 _ _ (NextTrans.items_set l1) (NextTrans.items_set l2)
      (NextTrans.loaded_set l1) (NextTrans.loaded_set l2)
      (Nat.lt_succ_of_le (merge_length_le l1 l2))
  obtain ⟨tr, htr, hrep⟩ := Option.map_eq_some'.mp hrun
  refine ⟨tr, htr, hrep ▸ merge_isMerge l1 l2 ?_ ?_⟩
  · exact List.pairwise_map.mp (List.chain'_iff_pairwise.mp hs1)
  · exact List.pairwise_map.mp (List.chain'_iff_pairwise.mp hs2)

/-- The merge of the keys `1, 3` and `3, 4`. -/
theorem drive_new_isMerge_overlap :
    ([(⟨1, 0⟩ : ValEl Nat), ⟨3, 1⟩].map ValEl.key).Chain' (· < ·) ∧
      ([(⟨3, 2⟩ : ValEl Nat), ⟨4, 3⟩].map ValEl.key).Chain' (· < ·) ∧
      ∃ tr, drive (2 + 2 + 1) (new [(⟨1, 0⟩ : ValEl Nat), ⟨3, 1⟩] [(⟨3, 2⟩ : ValEl Nat), ⟨4, 3⟩]) =
          some tr ∧
        IsMerge [(⟨1, 0⟩ : ValEl Nat), ⟨3, 1⟩] [(⟨3, 2⟩ : ValEl Nat), ⟨4, 3⟩] (tr.map report) :=
  have h1 : ([(⟨1, 0⟩ : ValEl Nat), ⟨3, 1⟩].map ValEl.key).Chain' (· < ·) := by simp
  have h2 : ([(⟨3, 2⟩ : ValEl Nat), ⟨4, 3⟩].map ValEl.key).Chain' (· < ·) := by simp
  ⟨h1, h2, drive_new_isMerge _ _ h1 h2⟩

end ValPairIter

end Colm
