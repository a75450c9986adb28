import Mathlib.Logic.Function.Basic
import Ckit.BinaryHeap

/-!
# The heap of `heap.c`

`struct heap` is an array of pointers to `struct heapitem`, and the items are
intrusive: the caller embeds a `heapitem` in an object of its own, and the heap
writes the item's position back into it.

The record below is the `struct heap` together with the memory its pointers go
into. `map` holds what the slots contain, with whatever `malloc` left in those
that were never written, and `slots` is how many the current allocation has:
the code keeps only its own idea of it, `maxSize`. A pointed-to object is its
`heapitem` (`hi`) and the rest of the enclosing struct (`obj`), which the heap
never writes and the comparison may read.

A call has no outcome (`none`) when it accesses a slot outside the allocation,
or when the recursion of `heapHeapify` does not end: its depth is cut off at
`2^32` calls, more than any stack holds. `unsigned int` arithmetic is written
with its wrap-around (`u32`), and the outcome of `malloc` is an argument: `none`
for a failure, otherwise the contents of the new slots.
-/

/-- Conversion to `unsigned int`. -/
def u32 (n : ℕ) : ℕ := n % 2 ^ 32

theorem u32_of_lt {n : ℕ} (h : n < 2 ^ 32) : u32 n = n := Nat.mod_eq_of_lt h

/-- `struct heapitem`. -/
structure HeapItem where
  /-- The position of the item in the heap. -/
  index : ℕ
  /-- Whether the item is in a heap. -/
  active : Bool
deriving DecidableEq, Repr

/-- `struct heap`, with the objects its pointers of type `ι` point to. -/
structure Heap (ι β : Type) where
  maxSize : ℕ
  size : ℕ
  cmp : HeapItem × β → HeapItem × β → Bool
  map : ℕ → ι
  /-- The number of slots `map` was allocated with. -/
  slots : ℕ
  /-- The `heapitem` embedded in each object. -/
  hi : ι → HeapItem
  /-- The rest of each object. -/
  obj : ι → β

def heapDefaultSize : ℕ := 200

def heapDefaultIncreaseSize : ℕ := 100

/-- `heap_init`. `none` is the return value `-1`, for a failed `malloc`. -/
def heapInit {ι β : Type} (maxSize : ℕ)
    (cmp : HeapItem × β → HeapItem × β → Bool) (hi : ι → HeapItem) (obj : ι → β)
    (alloc : Option (ℕ → ι)) : Option (Heap ι β) :=
  let maxSize := if maxSize = 0 then heapDefaultSize else maxSize
  alloc.map fun garbage => ⟨maxSize, 0, cmp, garbage, maxSize, hi, obj⟩

namespace Heap

variable {ι β : Type}

/-- `heap_empty`. -/
def heapEmpty (h : Heap ι β) : Bool := h.size == 0

/-- `heap_full`. -/
def heapFull (h : Heap ι β) : Bool := h.maxSize ≤ h.size

/-- `heap_front`. -/
def heapFront (h : Heap ι β) : ι := h.map 0

/-- The call `h->cmp(p, q)`. -/
def less (h : Heap ι β) (p q : ι) : Bool := h.cmp (h.hi p, h.obj p) (h.hi q, h.obj q)

/-- A read of slot `k`. -/
def get (h : Heap ι β) (k : ℕ) : Option ι := if k < h.slots then some (h.map k) else none

/-- A write of slot `k`. -/
def set (h : Heap ι β) (k : ℕ) (p : ι) : Option (Heap ι β) :=
  if k < h.slots then some { h with map := Function.update h.map k p } else none

variable [DecidableEq ι]

/-- The write `p->index = k`. -/
def setIndex (h : Heap ι β) (p : ι) (k : ℕ) : Heap ι β :=
  { h with hi := Function.update h.hi p { h.hi p with index := k } }

/-- The write `p->active = b`. -/
def setActive (h : Heap ι β) (p : ι) (b : Bool) : Heap ι β :=
  { h with hi := Function.update h.hi p { h.hi p with active := b } }

/-- One of the two tests of `heap_heapify`: the child `c` where it is in the
heap and smaller than what is at `s`, and `s` otherwise. -/
def smaller (h : Heap ι β) (c s : ℕ) : Option ℕ :=
  if c < h.size then do
    let p ← h.get c
    let q ← h.get s
    return if h.less p q then c else s
  else
    return s

/-- The exchange of `heap_heapify`, in the order of its assignments. -/
def exchange (h : Heap ι β) (smallest i : ℕ) : Option (Heap ι β) := do
  let tmp ← h.get smallest
  let q ← h.get i
  let h ← h.set smallest q
  let h := h.setIndex q smallest
  let h ← h.set i tmp
  return h.setIndex tmp i

/-- `heap_heapify`, with the depth of the recursion as fuel. -/
def heapHeapify : ℕ → Heap ι β → ℕ → Option (Heap ι β)
  | 0, _, _ => none
  | fuel + 1, h, i => do
    let l := u32 (2 * i + 1)
    let r := u32 (l + 1)
    let smallest ← h.smaller l i
    let smallest ← h.smaller r smallest
    if smallest = i then
      return h
    else
      let h ← h.exchange smallest i
      heapHeapify fuel h smallest

/-- `heap_increase_size`, with its return value. The `memcpy` stays inside both
arrays or has no outcome. -/
def heapIncreaseSize (h : Heap ι β) (increaseSize : ℕ) (alloc : Option (ℕ → ι)) :
    Option (ℤ × Heap ι β) :=
  match alloc with
  | none => some (-1, h)
  | some garbage =>
    let newSlots := u32 (h.maxSize + increaseSize)
    if h.size ≤ h.slots ∧ h.size ≤ newSlots then
      some (0, { h with
        map := fun k => if k < h.size then h.map k else garbage k
        slots := newSlots
        maxSize := u32 (h.maxSize + increaseSize) })
    else
      none

/-- The loop of `heap_insert`, started at position `i`, with the position it
ends at. The fuel bounds the number of iterations; `i + 1` is enough. -/
def insertLoop : ℕ → Heap ι β → ι → ℕ → Option (Heap ι β × ℕ)
  | 0, _, _, _ => none
  | fuel + 1, h, item, i =>
    if 0 < i then do
      let parent := u32 (i - 1) / 2
      let p ← h.get parent
      if h.less p item then
        let h ← h.set i p
        let h := h.setIndex p i
        insertLoop fuel h item parent
      else
        return (h, i)
    else
      return (h, i)

/-- The part of `heap_insert` after the heap has room. -/
def insertPlace (h : Heap ι β) (item : ι) : Option (Heap ι β) := do
  let (h, i) ← insertLoop (h.size + 1) h item h.size
  let h ← h.set i item
  let h := h.setIndex item i
  let h := { h with size := u32 (h.size + 1) }
  return h.setActive item true

/-- `heap_insert`, with its return value. -/
def heapInsert (h : Heap ι β) (item : ι) (alloc : Option (ℕ → ι)) :
    Option (ℤ × Heap ι β) :=
  if h.heapFull then do
    let (ret, h) ← h.heapIncreaseSize heapDefaultIncreaseSize alloc
    if ret ≠ 0 then
      return (-1, h)
    else
      return (0, ← h.insertPlace item)
  else do
    return (0, ← h.insertPlace item)

/-- `heap_remove`, with the item it returns (`none` is `NULL`). -/
def heapRemove (h : Heap ι β) (index : ℕ) : Option (Option ι × Heap ι β) :=
  if h.size ≤ index then
    return (none, h)
  else do
    let item ← h.get index
    let h := { h with size := h.size - 1 }
    let last ← h.get h.size
    let h ← h.set index last
    let h ← heapHeapify (2 ^ 32) h index
    let h := h.setIndex item 0
    return (some item, h.setActive item false)

/-- `heap_remove_first`. -/
def heapRemoveFirst (h : Heap ι β) : Option (Option ι × Heap ι β) := h.heapRemove 0

/-! ## Runs of the heap -/

end Heap

/-- A call on a heap: an insertion with the outcome its `malloc` would have, or
a removal. -/
inductive HeapOp (ι : Type) where
  | insert (item : ι) (alloc : Option (ℕ → ι))
  | remove (index : ℕ)

/-- The heap after a call. -/
def HeapOp.step {ι β : Type} [DecidableEq ι] (h : Heap ι β) : HeapOp ι → Option (Heap ι β)
  | .insert item alloc => (h.heapInsert item alloc).map Prod.snd
  | .remove index => (h.heapRemove index).map Prod.snd
