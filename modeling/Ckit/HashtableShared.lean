import Ckit.Atomic
import Ckit.ListHead

/-!
# Several hash tables and their elements

An element can be in one table, be unhashed and be hashed into another one. Which table it
was last passed to is what its `ht` says, and `hashelm_put` asks that table for the `freefn`.
The functions of `hashtable.c` are written here once more, over a memory with any number of
tables: the anchors of all their slots and the nodes of the elements are nodes of one memory,
and the `ht` of an element is a table, or nothing where it was never written.

A function has no outcome where it reads an `ht` that was never written, goes outside the
array of slots, or does not end.

No element is in two slots, and one that has been initialised and is in none is alone
(`Filed`). This is what `hashtable_hash` and `hashtable_unhash` keep, whichever of the tables
they are called with (`Filed.link`, `Filed.unlink`).
-/

/-- A `struct list` node: the anchor of a slot of a table, or the one in an element. -/
inductive SharedNode (τ ε : Type) where
  | slot (ht : τ) (i : ℕ)
  | elm (e : ε)
deriving DecidableEq

/-- `struct hashelm`, without its list node. -/
structure SharedElm (τ κ : Type) where
  refcount : ℤ
  hash : UInt32
  key : κ
  /-- The table it points to; `hashelm_init` does not set it. -/
  ht : Option τ

/-- `struct hashtable`. -/
structure SharedTable (τ κ : Type) where
  mask : UInt32
  count : ℤ
  /-- The number of slots the array was allocated with. -/
  slots : ℕ
  slotCount : ℕ → ℕ
  hashfn : κ → UInt32
  equalfn : SharedElm τ κ → κ → Bool
  /-- Whether there is a `freefn`. -/
  freefn : Bool

/-- The tables, with the memory of the list nodes and the elements. -/
structure HashTables (τ ε κ : Type) where
  table : τ → SharedTable τ κ
  links : Links (SharedNode τ ε)
  elm : ε → SharedElm τ κ
  /-- The tables whose `freefn` has been called on an element. -/
  freed : ε → List τ

namespace HashTables

variable {τ ε κ : Type} [DecidableEq τ] [DecidableEq ε]

/-- `hashelm_init`. -/
def hashelmInit (w : HashTables τ ε κ) (e : ε) : HashTables τ ε κ :=
  { w with
    links := w.links.initList (.elm e)
    elm := Function.update w.elm e { w.elm e with refcount := 1 } }

/-- `hashelm_hashed`. -/
def hashelmHashed (w : HashTables τ ε κ) (e : ε) : Bool := !w.links.listEmpty (.elm e)

/-- The write of a reference count. -/
def setRefcount (w : HashTables τ ε κ) (e : ε) (refcount : ℤ) : HashTables τ ε κ :=
  { w with elm := Function.update w.elm e { w.elm e with refcount := refcount } }

/-- `hashelm_hold`. -/
def hashelmHold (w : HashTables τ ε κ) (e : ε) : HashTables τ ε κ :=
  w.setRefcount e (i32 ((w.elm e).refcount + 1))

/-- The call of the `freefn` of a table, where there is one. -/
def callFreefn (w : HashTables τ ε κ) (ht : τ) (e : ε) : HashTables τ ε κ :=
  if (w.table ht).freefn then { w with freed := Function.update w.freed e (ht :: w.freed e) }
  else w

/-- `hashelm_put`. -/
def hashelmPut (w : HashTables τ ε κ) (e : ε) : Option (HashTables τ ε κ) :=
  let w := w.setRefcount e (i32 ((w.elm e).refcount - 1))
  if (w.elm e).refcount = 0 then
    (w.elm e).ht.map fun ht => w.callFreefn ht e
  else
    some w

/-- `get_slot`, as an index into the array. -/
def getSlot (w : HashTables τ ε κ) (ht : τ) (hash : UInt32) : ℕ :=
  (hash &&& (w.table ht).mask).toNat

/-- The loop of `hashtable_hash` and of `hashtable_lookup`: the first element of the
slot whose key is equal to the one given. -/
def find (fuel : ℕ) (w : HashTables τ ε κ) (ht : τ) (slot : ℕ) (key : κ) : Option (Option ε) :=
  if slot < (w.table ht).slots then
    (Links.listForeach (fun _ => w.links.next) (.slot ht slot)
      (fun _ n =>
        match n with
        | .elm e => some (if (w.table ht).equalfn (w.elm e) key then .error e else .ok ())
        | .slot _ _ => none) fuel () (w.links.next (.slot ht slot))).map fun r =>
      match r with
      | .error e => some e
      | .ok () => none
  else none

/-- What `hashtable_hash` writes into the element before it locks the slot. -/
def setKey (w : HashTables τ ε κ) (ht : τ) (e : ε) (key : κ) : HashTables τ ε κ :=
  { w with
    elm := Function.update w.elm e
      { w.elm e with hash := (w.table ht).hashfn key, ht := some ht, key := key } }

/-- The element is counted and linked into its slot. -/
def addElm (w : HashTables τ ε κ) (ht : τ) (slot : ℕ) (e : ε) : HashTables τ ε κ :=
  { w with
    table := Function.update w.table ht { w.table ht with
      slotCount := Function.update (w.table ht).slotCount slot
        (((w.table ht).slotCount slot + 1) % 2 ^ 64)
      count := i32 ((w.table ht).count + 1) }
    links := w.links.listAddFront (.slot ht slot) (.elm e) }

/-- `hashtable_hash`, with its return value. -/
def hashtableHash (fuel : ℕ) (w : HashTables τ ε κ) (ht : τ) (e : ε) (key : κ) :
    Option (ℤ × HashTables τ ε κ) :=
  if w.hashelmHashed e then
    some (-1, w)
  else
    let w := w.setKey ht e key
    let slot := w.getSlot ht (w.elm e).hash
    (w.find fuel ht slot key).map fun he2 =>
      if he2.isSome then (-1, w) else (0, (w.addElm ht slot e).hashelmHold e)

/-- The element is unlinked and no longer counted. -/
def delElm (w : HashTables τ ε κ) (ht : τ) (slot : ℕ) (e : ε) : HashTables τ ε κ :=
  { w with
    table := Function.update w.table ht { w.table ht with
      slotCount := Function.update (w.table ht).slotCount slot
        (((w.table ht).slotCount slot + (2 ^ 64 - 1)) % 2 ^ 64)
      count := i32 ((w.table ht).count - 1) }
    links := w.links.listDel (.elm e) }

/-- `hashtable_unhash`. -/
def hashtableUnhash (w : HashTables τ ε κ) (ht : τ) (e : ε) : Option (HashTables τ ε κ) :=
  let slot := w.getSlot ht (w.elm e).hash
  if slot < (w.table ht).slots then (w.delElm ht slot e).hashelmPut e else none

/-- `hashtable_lookup`, with the element it returns. -/
def hashtableLookup (fuel : ℕ) (w : HashTables τ ε κ) (ht : τ) (key : κ) :
    Option (Option ε × HashTables τ ε κ) :=
  (w.find fuel ht (w.getSlot ht ((w.table ht).hashfn key)) key).map fun he =>
    match he with
    | some e => (some e, w.hashelmHold e)
    | none => (none, w)

/-! ## The lists of all slots -/

/-- The anchors of the slots. -/
def anchors (slots : τ → ℕ) : Set (SharedNode τ ε) := {n | ∃ ht i, i < slots ht ∧ n = .slot ht i}

/-- The nodes that are behind an anchor. -/
def nodesOf (lists : τ → ℕ → List ε) : SharedNode τ ε → List (SharedNode τ ε)
  | .slot ht i => (lists ht i).map .elm
  | .elm _ => []

/-- The element is in a slot of a table. -/
def InSlot (slots : τ → ℕ) (lists : τ → ℕ → List ε) (e : ε) : Prop :=
  ∃ ht i, i < slots ht ∧ e ∈ lists ht i

/-- The lists with another one for a slot. -/
def setList (lists : τ → ℕ → List ε) (ht : τ) (i : ℕ) (l : List ε) : τ → ℕ → List ε :=
  Function.update lists ht (Function.update (lists ht) i l)

/-- **No element is in two slots**, and one that is in none is alone once it has been
initialised. -/
structure Filed (links : Links (SharedNode τ ε)) (slots : τ → ℕ) (inited : ε → Prop)
    (lists : τ → ℕ → List ε) : Prop where
  rings : links.Rings (anchors slots) (nodesOf lists)
  known : ∀ e, InSlot slots lists e → inited e
  alone : ∀ e, inited e → ¬ InSlot slots lists e → links.Ring (.elm e) []

variable {links : Links (SharedNode τ ε)} {slots : τ → ℕ} {inited : ε → Prop}
  {lists : τ → ℕ → List ε} {ht : τ} {i : ℕ} {e : ε} {l : List ε}

omit [DecidableEq τ] [DecidableEq ε] in
theorem elm_ne_slot : SharedNode.elm e ≠ SharedNode.slot ht i := by
  intro heq
  cases heq

omit [DecidableEq τ] [DecidableEq ε] in
theorem anchor_mem (hi : i < slots ht) :
    (SharedNode.slot ht i : SharedNode τ ε) ∈ anchors slots :=
  ⟨ht, i, hi, rfl⟩

omit [DecidableEq ε] in
theorem setList_self (lists : τ → ℕ → List ε) (ht : τ) (i : ℕ) (l : List ε) :
    setList lists ht i l ht i = l := by
  unfold setList
  rw [Function.update_self, Function.update_self]

omit [DecidableEq ε] in
theorem setList_of_ne {ht' : τ} {j : ℕ} (h : ¬ (ht' = ht ∧ j = i)) :
    setList lists ht i l ht' j = lists ht' j := by
  unfold setList
  by_cases hht : ht' = ht
  · subst hht
    rw [Function.update_self, Function.update_of_ne fun hj => h ⟨rfl, hj⟩]
  · rw [Function.update_of_ne hht]

omit [DecidableEq ε] in
/-- What holds of the new list and of all the old ones. -/
theorem forall_setList {Q : τ → ℕ → List ε → Prop} (hnew : Q ht i l)
    (hold : ∀ ht' j, Q ht' j (lists ht' j)) (ht' : τ) (j : ℕ) :
    Q ht' j (setList lists ht i l ht' j) := by
  by_cases h : ht' = ht ∧ j = i
  · obtain ⟨rfl, rfl⟩ := h
    rw [setList_self]
    exact hnew
  · rw [setList_of_ne h]
    exact hold ht' j

theorem nodesOf_setList (lists : τ → ℕ → List ε) (ht : τ) (i : ℕ) (l : List ε) :
    nodesOf (setList lists ht i l)
      = Function.update (nodesOf lists) (.slot ht i) (l.map .elm) := by
  funext n
  cases n with
  | elm e =>
    rw [Function.update_of_ne elm_ne_slot]
    rfl
  | slot ht' j =>
    show (setList lists ht i l ht' j).map SharedNode.elm = _
    by_cases h : ht' = ht ∧ j = i
    · obtain ⟨rfl, rfl⟩ := h
      rw [setList_self, Function.update_self]
    · rw [setList_of_ne h, Function.update_of_ne fun heq => h (SharedNode.slot.inj heq)]
      rfl

omit [DecidableEq τ] [DecidableEq ε] in
theorem elm_mem_ring_iff :
    SharedNode.elm e ∈ SharedNode.slot ht i :: nodesOf lists (.slot ht i) ↔ e ∈ lists ht i := by
  constructor
  · intro hmem
    rcases List.mem_cons.mp hmem with heq | hmem
    · exact absurd heq elm_ne_slot
    · obtain ⟨e', he', heq⟩ := List.mem_map.mp hmem
      exact SharedNode.elm.inj heq ▸ he'
  · exact fun hmem => List.mem_cons_of_mem _ (List.mem_map_of_mem hmem)

omit [DecidableEq τ] [DecidableEq ε] in
/-- An element is in one slot of one table at most. -/
theorem Filed.eq_of_mem (hf : Filed links slots inited lists) {ht' : τ} {j : ℕ}
    (hi : i < slots ht) (hj : j < slots ht') (hei : e ∈ lists ht i) (hej : e ∈ lists ht' j) :
    ht = ht' ∧ i = j :=
  SharedNode.slot.inj (hf.rings.eq_of_mem (anchor_mem hi) (anchor_mem hj)
    (elm_mem_ring_iff.mpr hei) (elm_mem_ring_iff.mpr hej))

omit [DecidableEq τ] [DecidableEq ε] in
theorem unlinked_of_not (hnot : ¬ InSlot slots lists e) :
    Links.Unlinked (anchors slots) (nodesOf lists) (.elm e) := by
  rintro n ⟨ht, i, hi, rfl⟩ hmem
  exact hnot ⟨ht, i, hi, elm_mem_ring_iff.mp hmem⟩

/-- **An element enters the list of a slot**, at the front. -/
theorem Filed.link (hf : Filed links slots inited lists) (hi : i < slots ht) (he : inited e)
    (hnot : ¬ InSlot slots lists e) :
    Filed (links.listAddFront (.slot ht i) (.elm e)) slots inited
      (setList lists ht i (e :: lists ht i)) := by
  have hx := unlinked_of_not hnot
  have hrings := hf.rings.listAddFront (anchor_mem hi) hx
  have hold : ∀ e', ¬ InSlot slots (setList lists ht i (e :: lists ht i)) e' →
      e' ≠ e ∧ ¬ InSlot slots lists e' := by
    intro e' hno
    refine ⟨fun heq => hno ⟨ht, i, hi, ?_⟩, fun ⟨ht', j, hj, hmem⟩ => hno ⟨ht', j, hj, ?_⟩⟩
    · rw [setList_self, heq]
      exact List.mem_cons_self
    · exact forall_setList (Q := fun ht' j l => e' ∈ lists ht' j → e' ∈ l)
        (List.mem_cons_of_mem _) (fun _ _ => id) ht' j hmem
  have hback : ∀ ht' j e', e' ∈ setList lists ht i (e :: lists ht i) ht' j →
      e' = e ∨ e' ∈ lists ht' j := fun ht' j e' =>
    forall_setList (Q := fun ht' j l => e' ∈ l → e' = e ∨ e' ∈ lists ht' j)
      List.mem_cons.mp (fun _ _ => Or.inr) ht' j
  refine ⟨?_, fun e' ⟨ht', j, hj, hmem⟩ => ?_, fun e' hinit hno => ?_⟩
  · rw [nodesOf_setList]
    exact hrings
  · rcases hback ht' j e' hmem with rfl | hmem
    · exact he
    · exact hf.known e' ⟨ht', j, hj, hmem⟩
  · obtain ⟨hne, hno⟩ := hold e' hno
    refine (hf.alone e' hinit hno).congr fun n hn => ?_
    obtain rfl : n = .elm e' := List.mem_singleton.mp hn
    exact (hf.rings.ring _ (anchor_mem hi)).listAddFront_of_notMem (hx _ (anchor_mem hi))
      (fun heq => hne (SharedNode.elm.inj heq)) fun hmem =>
        hno ⟨ht, i, hi, elm_mem_ring_iff.mp hmem⟩

/-- **An element leaves the list of its slot.** -/
theorem Filed.unlink (hf : Filed links slots inited lists) (hi : i < slots ht)
    (he : e ∈ lists ht i) :
    Filed (links.listDel (.elm e)) slots inited (setList lists ht i ((lists ht i).erase e)) := by
  have hmem : SharedNode.elm e ∈ nodesOf lists (.slot ht i) := List.mem_map_of_mem he
  have hrings := hf.rings.listDel (anchor_mem hi) hmem
  have hmap : (nodesOf lists (.slot ht i)).erase (SharedNode.elm e)
      = ((lists ht i).erase e).map .elm :=
    (List.map_erase (fun _ _ heq => SharedNode.elm.inj heq) (lists ht i)).symm
  refine ⟨?_, fun e' ⟨ht', j, hj, hmem'⟩ => ?_, fun e' hinit hno => ?_⟩
  · rw [nodesOf_setList, ← hmap]
    exact hrings
  · have hback : e' ∈ setList lists ht i ((lists ht i).erase e) ht' j → e' ∈ lists ht' j :=
      forall_setList (Q := fun ht' j l => e' ∈ l → e' ∈ lists ht' j)
        List.mem_of_mem_erase (fun _ _ => id) ht' j
    exact hf.known e' ⟨ht', j, hj, hback hmem'⟩
  · by_cases hee : e' = e
    · rw [hee]
      exact Links.ring_listDel_self _ _
    · have hold : ¬ InSlot slots lists e' := by
        rintro ⟨ht', j, hj, hmem'⟩
        refine hno ⟨ht', j, hj, ?_⟩
        exact forall_setList (Q := fun ht' j l => e' ∈ lists ht' j → e' ∈ l)
          (List.mem_erase_of_ne hee).mpr (fun _ _ => id) ht' j hmem'
      refine (hf.alone e' hinit hold).congr fun n hn => ?_
      obtain rfl : n = .elm e' := List.mem_singleton.mp hn
      obtain ⟨l₁, l₂, hl⟩ := List.append_of_mem hmem
      have hring := hf.rings.ring _ (anchor_mem hi)
      rw [hl] at hring
      refine hring.listDel_of_notMem fun hin => hold ⟨ht, i, hi, elm_mem_ring_iff.mp ?_⟩
      rwa [hl]

/-- **A new element** is alone. -/
theorem Filed.init (hf : Filed links slots inited lists) (he : ¬ inited e) :
    Filed (links.initList (.elm e)) slots (fun e' => e' = e ∨ inited e') lists := by
  have hnot : ¬ InSlot slots lists e := fun hin => he (hf.known e hin)
  refine ⟨⟨?_, hf.rings.disjoint⟩, fun e' hin => .inr (hf.known e' hin), fun e' hinit hno => ?_⟩
  · rintro _ ⟨ht, i, hi, rfl⟩
    refine (hf.rings.ring _ (anchor_mem hi)).congr fun n hn => Links.initList_of_ne ?_
    rintro rfl
    exact hnot ⟨ht, i, hi, elm_mem_ring_iff.mp hn⟩
  · by_cases hee : e' = e
    · rw [hee]
      exact Links.ring_initList _ _
    · refine (hf.alone e' (hinit.resolve_left hee) hno).congr fun n hn => Links.initList_of_ne ?_
      obtain rfl : n = .elm e' := List.mem_singleton.mp hn
      exact fun heq => hee (SharedNode.elm.inj heq)

/-! ## The functions -/

/-- The two are the same, reference counts and calls of `freefn` apart. -/
structure SameOwners (w w' : HashTables τ ε κ) : Prop where
  table : w'.table = w.table
  links : w'.links = w.links
  ht : ∀ e, (w'.elm e).ht = (w.elm e).ht

variable {w w' : HashTables τ ε κ} {fuel : ℕ}

omit [DecidableEq τ] in
theorem setRefcount_same (w : HashTables τ ε κ) (e : ε) (r : ℤ) :
    SameOwners w (w.setRefcount e r) := by
  refine ⟨rfl, rfl, fun e' => ?_⟩
  show (Function.update w.elm e _ e').ht = _
  rw [Function.update_apply]
  split_ifs with hee
  · rw [hee]
  · rfl

omit [DecidableEq τ] in
/-- **What `hashelm_put` changes**: a reference count, and `freed`. -/
theorem hashelmPut_same (h : w.hashelmPut e = some w') : SameOwners w w' := by
  have hset := setRefcount_same w e (i32 ((w.elm e).refcount - 1))
  unfold hashelmPut at h
  dsimp only at h
  split at h
  · obtain ⟨ht, -, rfl⟩ := Option.map_eq_some_iff.mp h
    unfold callFreefn
    split
    · exact ⟨hset.table, hset.links, hset.ht⟩
    · exact hset
  · exact Option.some.inj h ▸ hset

omit [DecidableEq τ] in
/-- **`hashelm_put` returns** where it need not read an `ht` that was never written. -/
theorem hashelmPut_returns (hht : i32 ((w.elm e).refcount - 1) = 0 → (w.elm e).ht ≠ none) :
    ∃ w', w.hashelmPut e = some w' := by
  have hcount : ((w.setRefcount e (i32 ((w.elm e).refcount - 1))).elm e).refcount
      = i32 ((w.elm e).refcount - 1) := by
    show (Function.update w.elm e _ e).refcount = _
    rw [Function.update_self]
  unfold hashelmPut
  dsimp only
  split
  · rename_i hzero
    obtain ⟨ht, heq⟩ := Option.ne_none_iff_exists'.mp (hht (hcount.symm.trans hzero))
    rw [(setRefcount_same w e _).ht, heq, Option.map_some]
    exact ⟨_, rfl⟩
  · exact ⟨_, rfl⟩

/-- **`hashelm_hashed`** tells whether the element is in a slot of a table. -/
theorem Filed.hashed_iff (hf : Filed w.links slots inited lists) (he : inited e) :
    w.hashelmHashed e = true ↔ InSlot slots lists e := by
  have hself : w.links.next (.elm e) = .elm e ↔ ¬ InSlot slots lists e := by
    constructor
    · rintro hself ⟨ht, i, hi, hmem⟩
      exact (hf.rings.ring _ (anchor_mem hi)).next_ne_self (List.mem_map_of_mem hmem) hself
    · exact fun hno => (Links.ring_nil.mp (hf.alone e he hno)).1
  unfold hashelmHashed Links.listEmpty
  rw [Bool.not_eq_true', decide_eq_false_iff_not, hself, not_not]

/-- **The search in a slot** ends. -/
theorem Filed.find_returns (hf : Filed w.links slots inited lists)
    (hslots : (w.table ht).slots = slots ht) (hi : i < slots ht)
    (hfuel : (lists ht i).length < fuel) (key : κ) : ∃ he2, w.find fuel ht i key = some he2 := by
  have hring : w.links.Ring (.slot ht i) ((lists ht i).map .elm) := hf.rings.ring _ (anchor_mem hi)
  unfold find
  rw [hslots, if_pos hi, Links.listForeach_ring hring (fun _ _ => rfl)
    (f := fun _ n => n.casesOn (fun _ _ => .ok ()) fun e =>
      if (w.table ht).equalfn (w.elm e) key then .error e else .ok ()) ?_
      (by rwa [List.length_map])]
  · exact ⟨_, rfl⟩
  · intro s n hn
    obtain ⟨e, -, rfl⟩ := List.mem_map.mp hn
    rfl

theorem addElm_table (w : HashTables τ ε κ) (ht : τ) (slot : ℕ) (e : ε) (ht' : τ) :
    ((w.addElm ht slot e).table ht').slots = (w.table ht').slots
      ∧ ((w.addElm ht slot e).table ht').mask = (w.table ht').mask := by
  unfold addElm
  dsimp only
  rw [Function.update_apply]
  split_ifs with h
  · rw [h]
    exact ⟨rfl, rfl⟩
  · exact ⟨rfl, rfl⟩

theorem delElm_table (w : HashTables τ ε κ) (ht : τ) (slot : ℕ) (e : ε) (ht' : τ) :
    ((w.delElm ht slot e).table ht').slots = (w.table ht').slots
      ∧ ((w.delElm ht slot e).table ht').mask = (w.table ht').mask := by
  unfold delElm
  dsimp only
  rw [Function.update_apply]
  split_ifs with h
  · rw [h]
    exact ⟨rfl, rfl⟩
  · exact ⟨rfl, rfl⟩

omit [DecidableEq τ] [DecidableEq ε] in
theorem getSlot_lt (w : HashTables τ ε κ) (ht : τ) (hash : UInt32) :
    w.getSlot ht hash < (w.table ht).mask.toNat + 1 := by
  unfold getSlot
  rw [UInt32.toNat_and]
  exact Nat.lt_succ_of_le Nat.and_le_right

/-- The arrays of the tables are the same in both. -/
def SameArrays (w w' : HashTables τ ε κ) : Prop :=
  ∀ ht, (w'.table ht).slots = (w.table ht).slots ∧ (w'.table ht).mask = (w.table ht).mask

/-- **`hashtable_hash` of an element that is in no table** writes `ht` and refuses the element,
or writes `ht` and links it. -/
theorem Filed.hash_eq (hf : Filed w.links slots inited lists)
    (hslots : ∀ ht, (w.table ht).slots = slots ht)
    (hmask : ∀ ht, (w.table ht).slots = (w.table ht).mask.toNat + 1) (he : inited e)
    (hnot : ¬ InSlot slots lists e) (ht : τ) (key : κ)
    (hfuel : ∀ i, (lists ht i).length < fuel) :
    ∃ r w', w.hashtableHash fuel ht e key = some (r, w') ∧ SameArrays w w'
      ∧ (∀ e', (w'.elm e').ht = if e' = e then some ht else (w.elm e').ht)
      ∧ (r = -1 ∧ w'.links = w.links
        ∨ r = 0 ∧ ∃ i < slots ht, w'.links = w.links.listAddFront (.slot ht i) (.elm e)) := by
  have hunhashed : ¬ w.hashelmHashed e = true := fun hh => hnot ((hf.hashed_iff he).mp hh)
  have hset : ∀ e', ((w.setKey ht e key).elm e').ht
      = if e' = e then some ht else (w.elm e').ht := by
    intro e'
    show (Function.update w.elm e _ e').ht = _
    rw [Function.update_apply]
    split_ifs
    · rfl
    · rfl
  have hlt : (w.setKey ht e key).getSlot ht ((w.setKey ht e key).elm e).hash < slots ht := by
    rw [← hslots, hmask]
    exact getSlot_lt (w.setKey ht e key) ht _
  unfold hashtableHash
  rw [if_neg hunhashed]
  dsimp only
  generalize (w.setKey ht e key).getSlot ht ((w.setKey ht e key).elm e).hash = slot at hlt
  have hf' : Filed (w.setKey ht e key).links slots inited lists := hf
  obtain ⟨he2, hfind⟩ := hf'.find_returns (hslots ht) hlt (hfuel slot) key
  rw [hfind, Option.map_some]
  cases he2 with
  | some e' => exact ⟨_, _, rfl, fun _ => ⟨rfl, rfl⟩, hset, .inl ⟨rfl, rfl⟩⟩
  | none =>
    have hhold := setRefcount_same ((w.setKey ht e key).addElm ht slot e) e
      (i32 ((((w.setKey ht e key).addElm ht slot e).elm e).refcount + 1))
    refine ⟨_, _, rfl, addElm_table (w.setKey ht e key) ht slot e, fun e' => ?_,
      .inr ⟨rfl, slot, hlt, rfl⟩⟩
    exact (hhold.ht e').trans (hset e')

/-- **`hashtable_unhash`** unlinks the element, whatever table it is called with. -/
theorem hashtableUnhash_same {ht : τ} (h : w.hashtableUnhash ht e = some w') :
    SameArrays w w' ∧ w'.links = w.links.listDel (.elm e)
      ∧ ∀ e', (w'.elm e').ht = (w.elm e').ht := by
  unfold hashtableUnhash at h
  dsimp only at h
  split at h
  · have hput := hashelmPut_same h
    refine ⟨fun ht' => ?_, hput.links, hput.ht⟩
    rw [hput.table]
    exact delElm_table w ht _ e ht'
  · exact absurd h (Option.some_ne_none w').symm

/-- **`hashtable_unhash` returns** where the element has an `ht`. -/
theorem hashtableUnhash_returns (ht : τ)
    (hmask : (w.table ht).slots = (w.table ht).mask.toNat + 1) (hht : (w.elm e).ht ≠ none) :
    ∃ w', w.hashtableUnhash ht e = some w' := by
  have hlt : w.getSlot ht (w.elm e).hash < (w.table ht).slots := by
    rw [hmask]
    exact getSlot_lt w ht _
  unfold hashtableUnhash
  rw [if_pos hlt]
  exact hashelmPut_returns fun _ => hht

/-- **`hashtable_lookup`** changes a reference count at most. -/
theorem Filed.lookup_eq (hf : Filed w.links slots inited lists)
    (hslots : ∀ ht, (w.table ht).slots = slots ht)
    (hmask : ∀ ht, (w.table ht).slots = (w.table ht).mask.toNat + 1) (ht : τ) (key : κ)
    (hfuel : ∀ i, (lists ht i).length < fuel) :
    ∃ r w', w.hashtableLookup fuel ht key = some (r, w') ∧ SameOwners w w' := by
  have hlt : w.getSlot ht ((w.table ht).hashfn key) < slots ht := by
    rw [← hslots, hmask]
    exact getSlot_lt w ht _
  obtain ⟨he, hfind⟩ := hf.find_returns (hslots ht) hlt (hfuel _) key
  unfold hashtableLookup
  rw [hfind, Option.map_some]
  cases he with
  | some e => exact ⟨some e, _, rfl, setRefcount_same w e _⟩
  | none => exact ⟨none, w, rfl, rfl, rfl, fun _ => rfl⟩

end HashTables
