import Ckit.Atomic
import Ckit.ListHead

/-!
# The hash table of `hashtable.c`

A hash table is an array of slots, each the anchor of a list, and the elements are
intrusive: a `struct hashelm` is embedded in an object of the caller's and linked
into the list of the slot its hash selects.

The record below is the `struct hashtable` together with the memory of the list
nodes – the anchors and those of the elements – and of the elements. An element
that is not in the table has its list node all the same; `hashelm_init` makes it
point to itself. `freed` counts the calls of `freefn` on each element.

A function has no outcome (`none`) when it goes outside the array of slots, when
it calls `freefn` through a `ht` that was never written, and when a loop does not
end. A loop over a list has a bound on the number of its rounds as an argument.
The locks are not in the record: the parts of the functions that run under the
lock of a slot are functions of their own (`hashSection`, `lookupSection`,
`unhashSection`, `finiSection`).
-/

/-- A `struct list` node: the anchor of a slot, or the one in an element. -/
inductive HashNode (ε : Type) where
  | slot (i : ℕ)
  | elm (e : ε)
deriving DecidableEq

/-- `struct hashelm`, without its list node. -/
structure HashElm (κ : Type) where
  refcount : ℤ
  hash : UInt32
  key : κ
  /-- Whether `ht` points to the table; `hashelm_init` does not set it. -/
  ht : Bool

/-- `struct hashtable`, with the slots and the elements. -/
structure HashTable (ε κ : Type) where
  mask : UInt32
  count : ℤ
  /-- The number of slots the array was allocated with. -/
  slots : ℕ
  slotCount : ℕ → ℕ
  hashfn : κ → UInt32
  equalfn : HashElm κ → κ → Bool
  /-- Whether there is a `freefn`. -/
  freefn : Bool
  links : Links (HashNode ε)
  elm : ε → HashElm κ
  freed : ε → ℕ

namespace HashTable

variable {ε κ : Type}

/-- The loop over the slots with an `unsigned` index, which does not end where the
mask is the greatest value of the type. -/
def forSlots {σ : Type} (mask : UInt32) (body : σ → ℕ → Option σ) (s : σ) : Option σ :=
  if mask.toNat + 1 < 2 ^ 32 then (List.range (mask.toNat + 1)).foldlM body s else none

/-- The loop over the slots with an `int` index, which overflows from `2^31 - 1`
on. -/
def forSlotsInt {σ : Type} (mask : UInt32) (body : σ → ℕ → Option σ) (s : σ) : Option σ :=
  if mask.toNat + 1 < 2 ^ 31 then (List.range (mask.toNat + 1)).foldlM body s else none

variable [DecidableEq ε]

/-- The body of the loop of `hashtable_init`. -/
def initSlot (t : HashTable ε κ) (i : ℕ) : Option (HashTable ε κ) :=
  if i < t.slots then
    some { t with
      links := t.links.initList (.slot i)
      slotCount := Function.update t.slotCount i 0 }
  else none

/-- `hashtable_init`, in a memory with the elements `elm`. The inner `none` is the
return value `-1`, for a failed `malloc`. -/
def hashtableInit (size : UInt32) (hashfn : κ → UInt32) (equalfn : HashElm κ → κ → Bool)
    (freefn : Bool) (links : Links (HashNode ε)) (elm : ε → HashElm κ) (alloc : Bool) :
    Option (Option (HashTable ε κ)) :=
  if alloc then
    (forSlotsInt (size - 1) initSlot
      ⟨size - 1, 1, size.toNat, fun _ => 0, hashfn, equalfn, freefn, links, elm,
        fun _ => 0⟩).map some
  else some none

/-- `hashelm_init`. -/
def hashelmInit (t : HashTable ε κ) (e : ε) : HashTable ε κ :=
  { t with
    links := t.links.initList (.elm e)
    elm := Function.update t.elm e { t.elm e with refcount := 1 } }

/-- `hashelm_hashed`. -/
def hashelmHashed (t : HashTable ε κ) (e : ε) : Bool := !t.links.listEmpty (.elm e)

/-- The write of a reference count. -/
def setRefcount (t : HashTable ε κ) (e : ε) (refcount : ℤ) : HashTable ε κ :=
  { t with elm := Function.update t.elm e { t.elm e with refcount := refcount } }

/-- `hashelm_hold`. -/
def hashelmHold (t : HashTable ε κ) (e : ε) : HashTable ε κ :=
  t.setRefcount e (i32 ((t.elm e).refcount + 1))

/-- The call of `freefn`, where there is one. -/
def callFreefn (t : HashTable ε κ) (e : ε) : HashTable ε κ :=
  if t.freefn then { t with freed := Function.update t.freed e (t.freed e + 1) } else t

/-- `hashelm_put`. -/
def hashelmPut (t : HashTable ε κ) (e : ε) : Option (HashTable ε κ) :=
  let t := t.setRefcount e (i32 ((t.elm e).refcount - 1))
  if (t.elm e).refcount = 0 then
    if (t.elm e).ht then some (t.callFreefn e) else none
  else
    some t

/-- `hashtable_count`. -/
def hashtableCount (t : HashTable ε κ) : ℕ := (t.count % 2 ^ 32).toNat

/-- `get_slot`, as an index into the array. -/
def getSlot (t : HashTable ε κ) (hash : UInt32) : ℕ := (hash &&& t.mask).toNat

/-- The loop of `hashtable_hash` and of `hashtable_lookup`: the first element of the
slot whose key is equal to the one given. -/
def find (fuel : ℕ) (t : HashTable ε κ) (slot : ℕ) (key : κ) : Option (Option ε) :=
  if slot < t.slots then
    (Links.listForeach (fun _ => t.links.next) (.slot slot)
      (fun _ n =>
        match n with
        | .elm e => some (if t.equalfn (t.elm e) key then .error e else .ok ())
        | .slot _ => none) fuel () (t.links.next (.slot slot))).map fun r =>
      match r with
      | .error e => some e
      | .ok () => none
  else none

/-- What `hashtable_hash` writes into the element before it locks the slot. -/
def setKey (t : HashTable ε κ) (e : ε) (key : κ) : HashTable ε κ :=
  { t with
    elm := Function.update t.elm e
      { t.elm e with hash := t.hashfn key, ht := true, key := key } }

/-- The element is counted and linked into its slot. -/
def addElm (t : HashTable ε κ) (slot : ℕ) (e : ε) : HashTable ε κ :=
  { t with
    slotCount := Function.update t.slotCount slot ((t.slotCount slot + 1) % 2 ^ 64)
    count := i32 (t.count + 1)
    links := t.links.listAddFront (.slot slot) (.elm e) }

/-- The locked part of `hashtable_hash`, with its return value. -/
def hashSection (fuel : ℕ) (t : HashTable ε κ) (e : ε) (key : κ) :
    Option (ℤ × HashTable ε κ) := do
  let slot := t.getSlot (t.elm e).hash
  match ← t.find fuel slot key with
  | some _ => return (-1, t)
  | none => return (0, (t.addElm slot e).hashelmHold e)

/-- `hashtable_hash`, with its return value. -/
def hashtableHash (fuel : ℕ) (t : HashTable ε κ) (e : ε) (key : κ) :
    Option (ℤ × HashTable ε κ) :=
  if t.hashelmHashed e then
    some (-1, t)
  else
    (t.setKey e key).hashSection fuel e key

/-- The element is unlinked and no longer counted. -/
def delElm (t : HashTable ε κ) (slot : ℕ) (e : ε) : HashTable ε κ :=
  { t with
    links := t.links.listDel (.elm e)
    slotCount := Function.update t.slotCount slot ((t.slotCount slot + (2 ^ 64 - 1)) % 2 ^ 64)
    count := i32 (t.count - 1) }

/-- The locked part of `hashtable_unhash`, with the slot found before: its
`__unhash`. -/
def unhashSection (t : HashTable ε κ) (slot : ℕ) (e : ε) : Option (HashTable ε κ) :=
  if slot < t.slots then (t.delElm slot e).hashelmPut e else none

/-- `hashtable_unhash`. -/
def hashtableUnhash (t : HashTable ε κ) (e : ε) : Option (HashTable ε κ) :=
  t.unhashSection (t.getSlot (t.elm e).hash) e

/-- `__hashtable_unhash`, which leaves the lock to its caller. -/
def hashtableUnhashUnlocked (t : HashTable ε κ) (e : ε) : Option (HashTable ε κ) :=
  t.unhashSection (t.getSlot (t.elm e).hash) e

/-- The locked part of `hashtable_lookup`, with the element it returns. -/
def lookupSection (fuel : ℕ) (t : HashTable ε κ) (slot : ℕ) (key : κ) :
    Option (Option ε × HashTable ε κ) := do
  match ← t.find fuel slot key with
  | some e => return (some e, t.hashelmHold e)
  | none => return (none, t)

/-- `hashtable_lookup`, with the element it returns. -/
def hashtableLookup (fuel : ℕ) (t : HashTable ε κ) (key : κ) :
    Option (Option ε × HashTable ε κ) :=
  t.lookupSection fuel (t.getSlot (t.hashfn key)) key

/-- The loop of `hashtable_foreach` over the elements of a slot. -/
def foreachSection {δ : Type} (fuel : ℕ) (t : HashTable ε κ) (action : δ → ε → δ) (s : ℤ × δ)
    (slot : ℕ) : Option (ℤ × δ) :=
  if slot < t.slots then
    (Links.listForeach (fun _ => t.links.next) (.slot slot)
      (fun (s : ℤ × δ) n =>
        match n with
        | .elm e => some (Except.ok (i32 (s.1 + 1), action s.2 e) : Except Empty (ℤ × δ))
        | .slot _ => none) fuel s (t.links.next (.slot slot))).map fun r =>
      match r with
      | .ok s => s
  else none

/-- `hashtable_foreach` and `hashtable_foreach_read`, which differ in the lock they
take, with an action that works on data of its own (`none` is `NULL`). With the
return value, the data at the end. -/
def hashtableForeach {δ : Type} (fuel : ℕ) (t : HashTable ε κ) (action : Option (δ → ε → δ))
    (data : δ) : Option (ℤ × δ) :=
  match action with
  | none => some (-1, data)
  | some action => forSlots t.mask (t.foreachSection fuel action) (0, data)

/-- The loop of `hashtable_foreach` over the elements of a slot, with an action that works
on the table as well. The next pointer is read when the action has returned. -/
def foreachActSection {δ : Type} (fuel : ℕ)
    (action : HashTable ε κ × δ → ε → Option (HashTable ε κ × δ)) (s : ℤ × HashTable ε κ × δ)
    (slot : ℕ) : Option (ℤ × HashTable ε κ × δ) :=
  if slot < s.2.1.slots then
    (Links.listForeach (fun s => s.2.1.links.next) (.slot slot)
      (fun (s : ℤ × HashTable ε κ × δ) n =>
        match n with
        | .elm e => (action s.2 e).map fun r =>
            (Except.ok (i32 (s.1 + 1), r) : Except Empty (ℤ × HashTable ε κ × δ))
        | .slot _ => none) fuel s (s.2.1.links.next (.slot slot))).map fun r =>
      match r with
      | .ok s => s
  else none

/-- `hashtable_foreach` with an action that works on the table as well, and may have no
outcome. No function changes the mask of a table, which the loop reads once here. -/
def hashtableForeachAct {δ : Type} (fuel : ℕ) (t : HashTable ε κ)
    (action : Option (HashTable ε κ × δ → ε → Option (HashTable ε κ × δ))) (data : δ) :
    Option (ℤ × HashTable ε κ × δ) :=
  match action with
  | none => some (-1, t, data)
  | some action => forSlots t.mask (foreachActSection fuel action) (0, t, data)

/-- The loop of `hashtable_fini` over the elements of a slot. -/
def finiLoop (slot : ℕ) : ℕ → HashTable ε κ → Option (HashTable ε κ)
  | 0, _ => none
  | fuel + 1, t =>
    if t.links.listEmpty (.slot slot) then
      some t
    else
      match t.links.next (.slot slot) with
      | .elm e =>
        ({ t with links := t.links.listDel (.elm e) }.hashelmPut e).bind (finiLoop slot fuel)
      | .slot _ => none

/-- The locked part of `hashtable_fini` for one slot. -/
def finiSection (fuel : ℕ) (t : HashTable ε κ) (slot : ℕ) : Option (HashTable ε κ) :=
  if slot < t.slots then
    (finiLoop slot fuel t).map fun t =>
      { t with
        links := t.links.initList (.slot slot)
        slotCount := Function.update t.slotCount slot 0 }
  else none

/-- The end of `hashtable_fini`: the array is freed, and no slot of it can be used. -/
def finiEnd (t : HashTable ε κ) : HashTable ε κ := { t with count := 0, slots := 0 }

/-- `hashtable_fini`. -/
def hashtableFini (fuel : ℕ) (t : HashTable ε κ) : Option (HashTable ε κ) :=
  (forSlotsInt t.mask (finiSection fuel) t).map finiEnd

end HashTable
