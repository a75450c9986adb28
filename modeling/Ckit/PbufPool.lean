import Ckit.Atomic
import Ckit.ListHead
import Ckit.Pbuf

/-!
# The pool of packet buffers

`pbuf.c` takes its buffers from an array of entries, each with a list node, a `struct
pbuf` and the bytes that follow it. The node of an entry is in one of two lists whose
anchors are static: the entries that can be handed out, and those in use.

The record below is the two anchors and the arrays the pool has ever had, each under a
number of its own: `objects` points to the one `pbuf_pool_init` allocated last. `room` is
the number of entries of an array, and `0` before it is allocated and after it is freed.

A function has no outcome (`none`) when it reads or writes an entry outside the arrays
there are, when an assertion fails, and when a copy leaves the entry it is made to. The
lock is not in the record: the parts that run under it are functions of their own
(`allocSection`, `freeSection`).
-/

/-- An entry of the pool, by the array it is in and its position there. -/
structure PoolEntry where
  array : ℕ
  index : ℕ
deriving DecidableEq, Repr

/-- A `struct list` node: one of the two anchors, or the one in an entry. -/
inductive PoolNode where
  | freeList
  | useList
  | entry (e : PoolEntry)
deriving DecidableEq, Repr

/-- The state of `pbuf.c`. -/
structure PbufPool where
  links : Links PoolNode
  pbuf : PoolEntry → Pbuf
  objects : Option ℕ
  /-- The number of arrays allocated so far, which is the number of the next one. -/
  arrays : ℕ
  /-- The number of entries of each array. -/
  room : ℕ → ℕ

def minPoolSize : ℕ := 20

/-- A `struct pbuf` full of zero bytes. -/
def Pbuf.zero : Pbuf := ⟨0, 0, 0, 0, 0, 0, 0, 0, 0, 0, 0⟩

namespace PbufPool

/-- Whether a node is in memory that is allocated. -/
def live (p : PbufPool) : PoolNode → Bool
  | .freeList => true
  | .useList => true
  | .entry e => e.index < p.room e.array

/-- The lists after writes that go to the given nodes. -/
def write (p : PbufPool) (nodes : List PoolNode) (links : Links PoolNode) : Option PbufPool :=
  if nodes.all p.live then some { p with links := links } else none

/-- The call `list_add_back(anchor, node)`, with the nodes it goes to. -/
def addBack (p : PbufPool) (anchor node : PoolNode) : Option PbufPool :=
  p.write [node, anchor, p.links.prev anchor] (p.links.listAddBack anchor node)

/-- The call `list_move(node, anchor)`, with the nodes it goes to. -/
def move (p : PbufPool) (node anchor : PoolNode) : Option PbufPool :=
  p.write [node, p.links.prev node, p.links.next node, anchor, (p.links.listDel node).next anchor]
    (p.links.listMove node anchor)

/-- The write of a buffer. -/
def setPbuf (p : PbufPool) (e : PoolEntry) (pb : Pbuf) : PbufPool :=
  { p with pbuf := Function.update p.pbuf e pb }

/-- The write of a reference count. -/
def setRefcount (p : PbufPool) (e : PoolEntry) (refcount : ℤ) : PbufPool :=
  p.setPbuf e { p.pbuf e with refcount := refcount }

/-- The number of entries `pbuf_pool_init` allocates. -/
def poolSize (size : ℕ) : ℕ := if size < minPoolSize then minPoolSize else size

/-- The pool once `calloc` has returned an array of `size` entries. -/
def allocated (p : PbufPool) (size : ℕ) : PbufPool :=
  { p with
    pbuf := fun e => if e.array = p.arrays then .zero else p.pbuf e
    objects := some p.arrays
    arrays := p.arrays + 1
    room := Function.update p.room p.arrays size }

/-- The loop of `pbuf_pool_init`, over the entries of the array `array`. -/
def initLoop (array : ℕ) (p : PbufPool) (size : ℕ) : Option PbufPool :=
  (List.range size).foldlM (fun p i => p.addBack .freeList (.entry ⟨array, i⟩)) p

/-- `pbuf_pool_init`, with its return value and the outcome of `calloc`. -/
def pbufPoolInit (p : PbufPool) (size : ℕ) (calloc : Bool) : Option (ℤ × PbufPool) :=
  if calloc then
    (initLoop p.arrays (p.allocated (poolSize size)) (poolSize size)).map fun p => (0, p)
  else
    some (-1, { p with objects := none })

/-- `pbuf_pool_cleanup`. To free `NULL` does nothing, to free an array twice has no
outcome. -/
def pbufPoolCleanup (p : PbufPool) : Option PbufPool :=
  match p.objects with
  | none => some p
  | some array =>
    if 0 < p.room array then some { p with room := Function.update p.room array 0 } else none

/-- The locked part of `pbuf_alloc`, with the buffer it returns. -/
def allocSection (p : PbufPool) (size : ℕ) : Option (Option PoolEntry × PbufPool) :=
  if p.links.listEmpty .freeList then
    some (none, p)
  else
    match p.links.next .freeList with
    | .entry e =>
      (p.move (.entry e) .useList).map fun p =>
        (some e, p.setPbuf e { pbufInit size with allocLen := size })
    | .freeList | .useList => none

/-- `pbuf_alloc`. -/
def pbufAlloc (p : PbufPool) (size : ℕ) : Option (Option PoolEntry × PbufPool) :=
  if size ≤ pbufMaxSize then p.allocSection size else none

/-- `pbuf_hold`. -/
def pbufHold (p : PbufPool) (e : PoolEntry) : Option PbufPool :=
  if p.live (.entry e) then some (p.setRefcount e (atomicInc (p.pbuf e).refcount)) else none

/-- The test of `pbuf_free`: `atomic_dec_and_test`. -/
def decAndTest (p : PbufPool) (e : PoolEntry) : Option (Bool × PbufPool) :=
  if p.live (.entry e) then
    some (atomicDec (p.pbuf e).refcount == 0, p.setRefcount e (atomicDec (p.pbuf e).refcount))
  else none

/-- The locked part of `pbuf_free`. -/
def freeSection (p : PbufPool) (e : PoolEntry) : Option PbufPool := p.move (.entry e) .freeList

/-- `pbuf_free`. -/
def pbufFree (p : PbufPool) (e : PoolEntry) : Option PbufPool :=
  (p.decAndTest e).bind fun r => if r.1 then r.2.freeSection e else some r.2

/-- The first part of `pbuf_copy`, the call of `pbuf_alloc`. -/
def copyAlloc (p : PbufPool) (e : PoolEntry) : Option (Option PoolEntry × PbufPool) :=
  if p.live (.entry e) then p.pbufAlloc (p.pbuf e).len else none

/-- The `memcpy` of `pbuf_copy`: the `struct pbuf`, and as many of the bytes after it as
`tail` says. -/
def copyBytes (p : PbufPool) (src dst : PoolEntry) : Option PbufPool :=
  if p.live (.entry src) ∧ p.live (.entry dst) ∧ (p.pbuf src).tail ≤ pbufMaxSize then
    some (p.setPbuf dst (p.pbuf src))
  else none

/-- `pbuf_copy`. -/
def pbufCopy (p : PbufPool) (e : PoolEntry) : Option (Option PoolEntry × PbufPool) :=
  (p.copyAlloc e).bind fun r =>
    match r.1 with
    | none => some (none, r.2)
    | some dst => (r.2.copyBytes e dst).map fun p => (some dst, p.setRefcount dst 1)

end PbufPool
