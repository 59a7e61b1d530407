/-
Keys of the FSM graph and the key operations that the range iterators and the
diagram writer call.  The header that declares `Key` and `KeyOps` is not among
the repository's sources, so both are modelled from the spec: a key is an
integer of the host alphabet type, and increment and decrement wrap at the
bounds of that type.
-/
import Mathlib.Order.Basic

namespace Colm

/-- Modelled from the spec: `KeyOps`, which "records signedness and supplies
`lt`, `gt`, `ne`, `increment`, `decrement`".  A key is held as the integer it
denotes in the alphabet type, so the order is the integer order for signed and
unsigned alphabets alike; `minKey` and `maxKey` bound the type. -/
structure KeyOps where
  isSigned : Bool
  minKey : Int
  maxKey : Int
deriving DecidableEq, Repr

namespace KeyOps

/-- `KeyOps::lt`. -/
def lt (_ops : KeyOps) (key1 key2 : Int) : Bool :=
  decide (key1 < key2)

/-- `KeyOps::gt`. -/
def gt (_ops : KeyOps) (key1 key2 : Int) : Bool :=
  decide (key1 > key2)

/-- `KeyOps::ne`. -/
def ne (_ops : KeyOps) (key1 key2 : Int) : Bool :=
  key1 != key2

/-- `KeyOps::increment`: the next key, wrapping from `maxKey` to `minKey`. -/
def increment (ops : KeyOps) (key : Int) : Int :=
  if key = ops.maxKey then ops.minKey else key + 1

/-- `KeyOps::decrement`: the previous key, wrapping from `minKey` to `maxKey`. -/
def decrement (ops : KeyOps) (key : Int) : Int :=
  if key = ops.minKey then ops.maxKey else key - 1

/-- A value of the alphabet type. -/
def Valid (ops : KeyOps) (key : Int) : Prop :=
  ops.minKey ≤ key ∧ key ≤ ops.maxKey

variable {ops : KeyOps} {key key' : Int}

@[simp] theorem lt_eq : ops.lt key key' = decide (key < key') := rfl

@[simp] theorem ne_eq : ops.ne key key' = (key != key') := rfl

/-- Below another key of the type, increment does not wrap. -/
theorem increment_of_lt (hlt : key < key') (hmax : key' ≤ ops.maxKey) :
    ops.increment key = key + 1 :=
  if_neg (by omega)

/-- Above another key of the type, decrement does not wrap. -/
theorem decrement_of_lt (hlt : key' < key) (hmin : ops.minKey ≤ key') :
    ops.decrement key = key - 1 :=
  if_neg (by omega)

end KeyOps

end Colm
