/-
`colm_filename_add`: interning file names in the null-terminated array
`prg->stream_fns`.  The array is a list of slots, `none` for the null.  A
returned entry is named by its slot: `realloc` moves the array but not the
strings it points to, and no slot before the null is ever written again, so
two entries are the same pointer exactly when they are the same slot.
-/
import Mathlib.Data.List.Nodup
import Mathlib.Data.List.Infix
import Mathlib.Data.List.Chain
import Mathlib.Data.List.Forall2

namespace Colm

/-- The search loop of `colm_filename_add` from slot `i`: the slot of the
first entry equal to `fn` (`true`), or of the terminating null (`false`).
Without a null it would read past the array. -/
def searchFn (fn : String) : List (Option String) → Nat → Option (Nat × Bool)
  | [], _ => none
  | none :: _, i => some (i, false)
  | some s :: rest, i => if s = fn then some (i, true) else searchFn fn rest (i + 1)

/-- `colm_filename_add( prg, fn )`: the new array and the slot of the entry
returned.  A name not present is copied into the slot of the null, and a new
null follows it. -/
def colmFilenameAdd (fns : List (Option String)) (fn : String) :
    Option (List (Option String) × Nat) := do
  let (items, found) ← searchFn fn fns 0
  if found then some (fns, items) else some (fns.take items ++ [some fn, none], items)

/-- A sequence of calls of `colm_filename_add`: the array and the slot
returned after each call. -/
def colmFilenameAddTrace :
    List (Option String) → List String → Option (List (List (Option String) × Nat))
  | _, [] => some []
  | fns, fn :: rest => do
    let (fns, i) ← colmFilenameAdd fns fn
    let trace ← colmFilenameAddTrace fns rest
    some ((fns, i) :: trace)

/-- The array of the entries `l`, terminated by a null. -/
def terminated (l : List String) : List (Option String) :=
  l.map some ++ [none]

@[simp] theorem terminated_cons (s : String) (l : List String) :
    terminated (s :: l) = some s :: terminated l :=
  rfl

section Search

variable {fn : String}

theorem searchFn_terminated_of_mem (l : List String) (i : Nat) (h : fn ∈ l) :
    ∃ k, searchFn fn (terminated l) i = some (i + k, true) ∧ l[k]? = some fn := by
  induction l generalizing i with
  | nil => cases h
  | cons s rest ih =>
    by_cases hs : s = fn
    · exact ⟨0, by simp [searchFn, hs], by simp [hs]⟩
    · obtain ⟨k, hk, hget⟩ := ih (i + 1) ((List.mem_cons.mp h).resolve_left (Ne.symm hs))
      refine ⟨k + 1, ?_, by simpa using hget⟩
      rw [terminated_cons, searchFn, if_neg hs, hk, Nat.add_right_comm, Nat.add_assoc]

theorem searchFn_terminated_of_not_mem (l : List String) (i : Nat) (h : fn ∉ l) :
    searchFn fn (terminated l) i = some (i + l.length, false) := by
  induction l generalizing i with
  | nil => rfl
  | cons s rest ih =>
    have hs : s ≠ fn := fun hs => h (hs ▸ List.mem_cons_self s rest)
    rw [terminated_cons, searchFn, if_neg hs, ih (i + 1) (fun hr => h (List.mem_cons_of_mem s hr)),
      List.length_cons, Nat.add_right_comm, Nat.add_assoc]

end Search

/-- One call on a terminated array of distinct names: the array stays
terminated with distinct names and keeps its entries, and the returned slot
holds the argument. -/
theorem colmFilenameAdd_terminated (l : List String) (hl : l.Nodup) (fn : String) :
    ∃ l' i, colmFilenameAdd (terminated l) fn = some (terminated l', i) ∧ l <+: l' ∧ l'.Nodup ∧
      l'[i]? = some fn := by
  by_cases h : fn ∈ l
  · obtain ⟨k, hk, hget⟩ := searchFn_terminated_of_mem l 0 h
    exact ⟨l, k, by simp [colmFilenameAdd, hk], List.prefix_refl l, hl, hget⟩
  · refine ⟨l ++ [fn], l.length, ?_, List.prefix_append l [fn], ?_, by simp⟩
    · have htake : (terminated l).take l.length = l.map some := by
        simp [terminated, List.take_left']
      simp only [colmFilenameAdd, searchFn_terminated_of_not_mem l 0 h]
      simp [htake, terminated]
    · exact List.nodup_append.mpr ⟨hl, List.nodup_singleton fn, by simpa using h⟩

/-- A slot keeps its entry in every longer array. -/
theorem getElem?_of_extends {l₁ l₂ : List String} (h : l₁ <+: l₂) {i : Nat} {s : String}
    (hi : l₁[i]? = some s) : l₂[i]? = some s := by
  obtain ⟨t, rfl⟩ := h
  rw [List.getElem?_append_left (List.getElem?_eq_some_iff.mp hi).1]
  exact hi

/-- Over a sequence of calls from a terminated array of distinct names:
every array is terminated with distinct names and extends the one before,
every returned slot holds its argument in the array of its call and in the
last array `L`, which extends all of them. -/
theorem colmFilenameAddTrace_spec (fns : List String) :
    ∀ l : List String, l.Nodup → ∃ (ls : List (List String)) (is : List Nat) (L : List String),
      colmFilenameAddTrace (terminated l) fns = some ((ls.map terminated).zip is) ∧
      ls.length = fns.length ∧ is.length = fns.length ∧
      (l :: ls).Chain' (· <+: ·) ∧ (∀ l' ∈ ls, l'.Nodup) ∧
      List.Forall₂ (fun (e : List String × Nat) fn => e.1[e.2]? = some fn) (ls.zip is) fns ∧
      (∀ l' ∈ l :: ls, l' <+: L) ∧ L.Nodup ∧ List.Forall₂ (fun i fn => L[i]? = some fn) is fns := by
  induction fns with
  | nil =>
    intro l hl
    exact ⟨[], [], l, rfl, rfl, rfl, List.chain'_singleton l, by simp, .nil, by simp, hl, .nil⟩
  | cons fn rest ih =>
    intro l hl
    obtain ⟨l1, i, hstep, hpre, hnd, hget⟩ := colmFilenameAdd_terminated l hl fn
    obtain ⟨ls, is, L, htr, hlen, hilen, hchain, hnds, hall, hpres, hL, hslots⟩ := ih l1 hnd
    have hl1L : l1 <+: L := hpres l1 (List.mem_cons_self l1 ls)
    refine ⟨l1 :: ls, i :: is, L, ?_, by simp [hlen], by simp [hilen], List.Chain'.cons hpre hchain,
      ?_, .cons hget hall, ?_, hL, .cons (getElem?_of_extends hl1L hget) hslots⟩
    · simp [colmFilenameAddTrace, hstep, htr]
    · simpa using ⟨hnd, hnds⟩
    · simpa using ⟨hpre.trans hl1L, hl1L, fun l' hl' => hpres l' (List.mem_cons_of_mem l1 hl')⟩

/-- Slots hold distinct names, so two calls return the same slot exactly
when their arguments are equal. -/
theorem slot_eq_iff {L : List String} (hL : L.Nodup) {is : List Nat} {fns : List String}
    (h : List.Forall₂ (fun i fn => L[i]? = some fn) is fns) {j k : Nat} (hj : j < fns.length)
    (hk : k < fns.length) : is[j]? = is[k]? ↔ fns[j]? = fns[k]? := by
  have hlen := h.length_eq
  have hget : ∀ m (hm : m < fns.length), L[is.get ⟨m, hlen ▸ hm⟩]? = some (fns.get ⟨m, hm⟩) :=
    fun m hm => (List.forall₂_iff_get.mp h).2 m (hlen ▸ hm) hm
  rw [List.getElem?_eq_getElem (hlen ▸ hj), List.getElem?_eq_getElem (hlen ▸ hk),
    List.getElem?_eq_getElem hj, List.getElem?_eq_getElem hk, Option.some_inj, Option.some_inj]
  have h1 := hget j hj
  have h2 := hget k hk
  simp only [List.get_eq_getElem] at h1 h2
  constructor
  · intro heq
    rw [heq] at h1
    exact Option.some_inj.mp (h1.symm.trans h2)
  · intro heq
    rw [← heq] at h2
    exact List.getElem?_inj (List.getElem?_eq_some_iff.mp h1).1 hL (h1.trans h2.symm)

/-- Interning file names.  From a null-terminated array of distinct names,
after every call of a sequence of calls of `colm_filename_add` the array is
null-terminated with distinct names and keeps all earlier entries; each call
returns an entry equal to its argument; and two calls return the same entry
exactly when their arguments are equal strings. -/
theorem colmFilenameAdd_interns (l : List String) (hl : l.Nodup) (fns : List String) :
    ∃ (ls : List (List String)) (is : List Nat),
      colmFilenameAddTrace (terminated l) fns = some ((ls.map terminated).zip is) ∧
      ls.length = fns.length ∧ is.length = fns.length ∧
      (l :: ls).Chain' (· <+: ·) ∧ (∀ l' ∈ ls, l'.Nodup) ∧
      List.Forall₂ (fun (e : List String × Nat) fn => e.1[e.2]? = some fn) (ls.zip is) fns ∧
      ∀ j k, j < fns.length → k < fns.length → (is[j]? = is[k]? ↔ fns[j]? = fns[k]?) := by
  obtain ⟨ls, is, L, htr, hlen, hilen, hchain, hnds, hall, -, hL, hslots⟩ :=
    colmFilenameAddTrace_spec fns l hl
  exact ⟨ls, is, htr, hlen, hilen, hchain, hnds, hall, fun j k hj hk => slot_eq_iff hL hslots hj hk⟩

/-- Interning `b`, `a`, `b` into an array holding `a`. -/
theorem colmFilenameAdd_interns_repeat :
    ["a"].Nodup ∧ ∃ (ls : List (List String)) (is : List Nat),
      colmFilenameAddTrace (terminated ["a"]) ["b", "a", "b"] = some ((ls.map terminated).zip is) ∧
      ls.length = 3 ∧ is.length = 3 ∧
      (["a"] :: ls).Chain' (· <+: ·) ∧ (∀ l' ∈ ls, l'.Nodup) ∧
      List.Forall₂ (fun (e : List String × Nat) fn => e.1[e.2]? = some fn) (ls.zip is)
        ["b", "a", "b"] ∧
      ∀ j k, j < 3 → k < 3 → (is[j]? = is[k]? ↔ ["b", "a", "b"][j]? = ["b", "a", "b"][k]?) :=
  ⟨List.nodup_singleton "a", colmFilenameAdd_interns ["a"] (List.nodup_singleton "a") _⟩

end Colm
