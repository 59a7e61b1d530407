/-
The element comparators of `fsmgraph.h`, which order the sorted tables of the
graph: action tables, priority tables, condition sets and key sets.  Each
compares a few fields of two elements in turn and answers `-1` at the first
that is less, `1` at the first that is greater, and `0` when all agree.  A
pointer is compared by its address, a `bool` as `0` or `1`.
-/
import Colm.Key

namespace Colm

variable {α : Type}

/-- The comparators' common body: compare the fields `fs` of two elements in
turn. -/
def cmpBy : List (α → Int) → α → α → Int
  | [], _, _ => 0
  | f :: fs, x, y => if f x < f y then -1 else if f x > f y then 1 else cmpBy fs x y

/-- What a sorted table needs of its comparator: an answer of `-1`, `0` or
`1` that changes sign when the arguments swap, is transitive, and is `0`
exactly for elements that `agree`. -/
structure ThreeWay (cmp : α → α → Int) (agree : α → α → Prop) : Prop where
  range : ∀ x y, cmp x y = -1 ∨ cmp x y = 0 ∨ cmp x y = 1
  swap : ∀ x y, cmp y x = -cmp x y
  lt_trans : ∀ x y z, cmp x y = -1 → cmp y z = -1 → cmp x z = -1
  eq_zero_iff : ∀ x y, cmp x y = 0 ↔ agree x y

/-- A comparator stays three-way when its agreement is stated another way. -/
theorem ThreeWay.of_agree_iff {cmp : α → α → Int} {agree agree' : α → α → Prop}
    (h : ThreeWay cmp agree) (hiff : ∀ x y, agree x y ↔ agree' x y) : ThreeWay cmp agree' :=
  ⟨h.range, h.swap, h.lt_trans, fun x y => (h.eq_zero_iff x y).trans (hiff x y)⟩

section CmpBy

variable (fs : List (α → Int)) (x y z : α)

theorem cmpBy_range : cmpBy fs x y = -1 ∨ cmpBy fs x y = 0 ∨ cmpBy fs x y = 1 := by
  induction fs with
  | nil => simp [cmpBy]
  | cons f fs ih =>
    simp only [cmpBy]
    split_ifs
    · exact Or.inl rfl
    · exact Or.inr (Or.inr rfl)
    · exact ih

theorem cmpBy_swap : cmpBy fs y x = -cmpBy fs x y := by
  induction fs with
  | nil => rfl
  | cons f fs ih =>
    simp only [cmpBy]
    split_ifs <;> first | rfl | omega

theorem cmpBy_eq_zero_iff : cmpBy fs x y = 0 ↔ ∀ f ∈ fs, f x = f y := by
  induction fs with
  | nil => simp [cmpBy]
  | cons f fs ih =>
    simp only [cmpBy, List.mem_cons, forall_eq_or_imp]
    split_ifs with hlt hgt
    · exact iff_of_false (by decide) fun h => by omega
    · exact iff_of_false (by decide) fun h => by omega
    · rw [ih]
      exact ⟨fun h => ⟨by omega, h⟩, fun h => h.2⟩

theorem cmpBy_lt_trans (hxy : cmpBy fs x y = -1) (hyz : cmpBy fs y z = -1) :
    cmpBy fs x z = -1 := by
  induction fs with
  | nil => simp [cmpBy] at hxy
  | cons f fs ih =>
    simp only [cmpBy] at hxy hyz ⊢
    split_ifs at hxy hyz ⊢ <;> first | rfl | exact ih hxy hyz | omega

/-- Every comparator of the form `cmpBy fs` is three-way, and answers `0`
exactly for elements that agree on every field it compares. -/
theorem cmpBy_threeWay : ThreeWay (cmpBy fs) (fun x y => ∀ f ∈ fs, f x = f y) :=
  ⟨cmpBy_range fs, cmpBy_swap fs, fun x y z => cmpBy_lt_trans fs x y z, cmpBy_eq_zero_iff fs⟩

end CmpBy

/-- `SBstMapEl< int, T* >`, the element of `ActionTable` (`ActionTableEl`)
and of `LmActionTable` (`LmActionTableEl`): an ordering and the address of an
action or a longest-match part. -/
structure SBstMapEl where
  key : Int
  value : Nat
deriving DecidableEq, Repr

/-- `CmpActionTableEl::compare`: by ordering, then by action. -/
def CmpActionTableEl.compare : SBstMapEl → SBstMapEl → Int :=
  cmpBy [SBstMapEl.key, fun el => el.value]

/-- `CmpLmActionTableEl::compare`: by ordering, then by longest-match part. -/
def CmpLmActionTableEl.compare : SBstMapEl → SBstMapEl → Int :=
  cmpBy [SBstMapEl.key, fun el => el.value]

/-- `ErrActionTableEl`: an ordering, the address of an action, and the point
where it transfers. -/
structure ErrActionTableEl where
  ordering : Int
  action : Nat
  transferPoint : Int
deriving DecidableEq, Repr

/-- `CmpErrActionTableEl::compare`. -/
def CmpErrActionTableEl.compare : ErrActionTableEl → ErrActionTableEl → Int :=
  cmpBy [ErrActionTableEl.ordering, fun el => el.action, ErrActionTableEl.transferPoint]

/-- `PriorEl`: an ordering and the address of its priority descriptor. -/
structure PriorEl where
  ordering : Int
  desc : Nat
deriving DecidableEq, Repr

/-- `PriorElCmp::compare`, the order of a `PriorTable`: by the `key` of the
descriptor, read through its address with `descKey`. -/
def PriorElCmp.compare (descKey : Nat → Int) : PriorEl → PriorEl → Int :=
  cmpBy [fun pel => descKey pel.desc]

/-- `CmpPriorEl::compare`, by which `CmpPriorTable` tells states apart: by
the descriptor's address, then by ordering. -/
def CmpPriorEl.compare : PriorEl → PriorEl → Int :=
  cmpBy [fun pel => pel.desc, PriorEl.ordering]

/-- `NfaActions`: the addresses of the push and pop actions, and the action
tables `pushTable` and `popTable`, whose elements are those of an
`ActionTable`. -/
structure NfaActions where
  push : Nat
  pop : Nat
  pushTable : List SBstMapEl
  popTable : List SBstMapEl
deriving DecidableEq, Repr

/-- `NfaStateMapEl`: the address of a state and its NFA actions. -/
structure NfaStateMapEl where
  key : Nat
  value : NfaActions
deriving DecidableEq, Repr

/-- `CmpNfaStateMapEl::compare`: by state, then by the push and the pop
action; the tables are not read. -/
def CmpNfaStateMapEl.compare : NfaStateMapEl → NfaStateMapEl → Int :=
  cmpBy [fun el => el.key, fun el => el.value.push, fun el => el.value.pop]

/-- `OutCond`: the address of a condition action and its sense. -/
structure OutCond where
  action : Nat
  sense : Bool
deriving DecidableEq, Repr

/-- `CmpOutCond::compare`. -/
def CmpOutCond.compare : OutCond → OutCond → Int :=
  cmpBy [fun outCond => outCond.action, fun outCond => outCond.sense.toNat]

/-- `CmpCondId::compare`, the order of a `CondSet` of action addresses: by
the `condId` of the action, read through its address. -/
def CmpCondId.compare (condId : Nat → Int) : Nat → Nat → Int :=
  cmpBy [condId]

/-- `CmpKey::compare`, through the `KeyOps` its static `keyOps` points to. -/
def CmpKey.compare (keyOps : KeyOps) (key1 key2 : Int) : Int :=
  if keyOps.lt key1 key2 then -1 else if keyOps.gt key1 key2 then 1 else 0

theorem CmpKey.compare_eq (keyOps : KeyOps) : CmpKey.compare keyOps = cmpBy [id] := by
  funext key1 key2
  simp [CmpKey.compare, cmpBy, KeyOps.lt, KeyOps.gt]

/-- The comparators of `fsmgraph.h` are three-way orders.  Those that compare
every field of their element answer `0` only for equal elements.
`CmpNfaStateMapEl` answers `0` for the elements that agree on the state, the
push and the pop action, whatever their push and pop tables.  `CmpCondId`
and `PriorElCmp`, which compare one field reached through an address, answer
`0` for the elements that agree on it; `CmpKey` orders keys as `KeyOps`
does. -/
theorem comparators_threeWay (condId descKey : Nat → Int) (keyOps : KeyOps) :
    ThreeWay CmpActionTableEl.compare (· = ·) ∧ ThreeWay CmpLmActionTableEl.compare (· = ·) ∧
      ThreeWay CmpErrActionTableEl.compare (· = ·) ∧ ThreeWay CmpPriorEl.compare (· = ·) ∧
      ThreeWay CmpNfaStateMapEl.compare (fun el1 el2 => el1.key = el2.key ∧
        el1.value.push = el2.value.push ∧ el1.value.pop = el2.value.pop) ∧
      ThreeWay CmpOutCond.compare (· = ·) ∧
      ThreeWay (CmpCondId.compare condId) (fun a b => condId a = condId b) ∧
      ThreeWay (PriorElCmp.compare descKey) (fun p q => descKey p.desc = descKey q.desc) ∧
      ThreeWay (CmpKey.compare keyOps) (· = ·) := by
  refine ⟨?_, ?_, ?_, ?_, (cmpBy_threeWay _).of_agree_iff fun _ _ => by simp [Int.ofNat_inj],
    (cmpBy_threeWay _).of_agree_iff fun ⟨_, sense1⟩ ⟨_, sense2⟩ => by
      cases sense1 <;> cases sense2 <;> simp [Int.ofNat_inj],
    (cmpBy_threeWay _).of_agree_iff fun _ _ => by simp,
    (cmpBy_threeWay _).of_agree_iff fun _ _ => by simp,
    CmpKey.compare_eq keyOps ▸ (cmpBy_threeWay _).of_agree_iff fun _ _ => by simp⟩
  all_goals
    refine (cmpBy_threeWay _).of_agree_iff ?_
    rintro ⟨⟩ ⟨⟩
    simp [Int.ofNat_inj, and_comm]

section CondDataPtr

variable {T : Type} {cmp : T → T → Int} {agree : T → T → Prop}

end CondDataPtr

end Colm
