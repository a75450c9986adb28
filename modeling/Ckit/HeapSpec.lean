import Mathlib.Data.List.Perm.Basic
import Mathlib.Data.List.Nodup
import Mathlib.Data.List.Range
import Ckit.HeapTrace

/-!
# What a call on the heap does

One case analysis per operation, and the facts about them that hold for every
comparison. `heapInsert_cases` and `heapRemove_cases` say everything a call can
do in a heap that is well formed (`WF`) and small enough for its positions not to
wrap; callers use these and never unfold the operations.

The stored items are read off the array as a list (`entries`): an insertion adds
its item to them and a removal takes away the one it returns, up to order.
-/

/-- A rearrangement of the positions below `n` rearranges the list read off
them. -/
theorem map_range_comp_perm {α : Type*} (a : ℕ → α) {n : ℕ} (σ : Equiv.Perm ℕ)
    (hfix : ∀ k, n ≤ k → σ k = k) :
    List.Perm ((List.range n).map (a ∘ σ)) ((List.range n).map a) := by
  have hlt : ∀ k, k < n → σ k < n := fun k hk =>
    perm_mem_of_fix (s := (· < n)) (fun j hj => hfix j (not_lt.mp hj)) hk
  have hperm : List.Perm ((List.range n).map σ) (List.range n) := by
    refine (List.perm_ext_iff_of_nodup (List.nodup_range.map σ.injective)
      List.nodup_range).mpr (fun k => ?_)
    rw [List.mem_map, List.mem_range]
    constructor
    · rintro ⟨j, hj, rfl⟩
      exact hlt j (List.mem_range.mp hj)
    · intro hk
      refine ⟨σ.symm k, List.mem_range.mpr ?_, σ.apply_symm_apply k⟩
      by_contra hge
      have := hfix (σ.symm k) (by omega)
      rw [σ.apply_symm_apply] at this
      omega
  rw [← List.map_map]
  exact hperm.map a

namespace Heap

variable {ι β : Type}

/-- **A well-formed heap**: it has the slots it believes it has, and uses no
more than those. -/
structure WF (h : Heap ι β) : Prop where
  size_le : h.size ≤ h.maxSize
  slots_eq : h.slots = h.maxSize
  max_pos : 0 < h.maxSize
  max_lt : h.maxSize < 2 ^ 32

/-- A heap with the slots of a well-formed one, and no more entries than those. -/
theorem WF.resize {h h' : Heap ι β} (hw : h.WF) (hmax : h'.maxSize = h.maxSize)
    (hslots : h'.slots = h.slots) (hsize : h'.size ≤ h.maxSize) : h'.WF :=
  ⟨hmax ▸ hsize, hslots.trans (hw.slots_eq.trans hmax.symm), hmax ▸ hw.max_pos, hmax ▸ hw.max_lt⟩

/-- The items stored, in the order of the array. -/
def entries (h : Heap ι β) : List ι := (List.range h.size).map h.map

theorem mem_entries {h : Heap ι β} {p : ι} : p ∈ h.entries ↔ ∃ k, k < h.size ∧ h.map k = p := by
  unfold entries
  rw [List.mem_map]
  exact exists_congr fun k => by rw [List.mem_range]

@[simp] theorem length_entries (h : Heap ι β) : h.entries.length = h.size := by
  unfold entries
  rw [List.length_map, List.length_range]

/-- The items are pairwise distinct exactly where no two positions hold the same
one. -/
theorem nodup_entries {h : Heap ι β} :
    h.entries.Nodup ↔ ∀ j k, j < h.size → k < h.size → h.map j = h.map k → j = k := by
  unfold entries
  rw [List.nodup_map_iff_inj_on List.nodup_range]
  constructor
  · intro hinj j k hj hk
    exact hinj j (List.mem_range.mpr hj) k (List.mem_range.mpr hk)
  · intro hinj j hj k hk
    exact hinj j k (List.mem_range.mp hj) (List.mem_range.mp hk)

/-- A heap from `heap_init` is well formed and empty. -/
theorem heapInit_wf {maxSize : ℕ} {cmp : HeapItem × β → HeapItem × β → Bool}
    {hi : ι → HeapItem} {obj : ι → β} {alloc : Option (ℕ → ι)} {h : Heap ι β}
    (hmax : maxSize < 2 ^ 32) (hinit : heapInit maxSize cmp hi obj alloc = some h) :
    h.WF ∧ h.size = 0 ∧ h.cmp = cmp ∧ h.hi = hi ∧ h.obj = obj := by
  unfold heapInit at hinit
  obtain ⟨garbage, -, rfl⟩ := Option.map_eq_some_iff.mp hinit
  refine ⟨⟨Nat.zero_le _, rfl, ?_, ?_⟩, rfl, rfl, rfl, rfl⟩
  · show 0 < if maxSize = 0 then heapDefaultSize else maxSize
    split
    · decide
    · omega
  · show (if maxSize = 0 then heapDefaultSize else maxSize) < 2 ^ 32
    split
    · decide
    · exact hmax

variable [DecidableEq ι]

/-! ## Insertion -/

/-- The heap an insertion fills: the same one, or a copy of it with more
slots. -/
structure Room (h g : Heap ι β) : Prop where
  wf : g.WF
  room : g.size < g.maxSize
  size : g.size = h.size
  cmp : g.cmp = h.cmp
  hi : g.hi = h.hi
  obj : g.obj = h.obj
  map : ∀ k, k < h.size → g.map k = h.map k

/-- What `heap_insert` does after its loop, which ended at `j`. -/
def place (h : Heap ι β) (item : ι) (j : ℕ) : Heap ι β :=
  setActive { { h with map := Function.update h.map j item }.setIndex item j with
    size := h.size + 1 } item true

/-- Where the insertion grows the heap, the new number of slots does not
wrap. -/
def Grows (h : Heap ι β) (alloc : Option (ℕ → ι)) : Prop :=
  h.heapFull = true → alloc.isSome = true → h.maxSize + heapDefaultIncreaseSize < 2 ^ 32

instance (h : Heap ι β) (alloc : Option (ℕ → ι)) : Decidable (h.Grows alloc) :=
  inferInstanceAs (Decidable (_ → _ → _))

omit [DecidableEq ι] in
/-- A heap of fewer than `2^31` items is far from wrapping. -/
theorem grows_of_lt {h : Heap ι β} (hs : h.size < 2 ^ 31) (alloc : Option (ℕ → ι)) :
    h.Grows alloc := by
  intro hfull _
  have hle : h.maxSize ≤ h.size := of_decide_eq_true hfull
  unfold heapDefaultIncreaseSize
  omega

theorem insertPlace_eq {g : Heap ι β} (hg : g.WF) (hroom : g.size < g.maxSize) (item : ι) :
    ∃ h' j, Rises item g g.size h' j ∧ g.insertPlace item = some (h'.place item j) := by
  have hslots := hg.slots_eq
  have hmax := hg.max_lt
  obtain ⟨h', j, hrun, hrise⟩ := insertLoop_rises (g.size + 1) item
    (show g.size < g.slots by omega) (by omega) (Nat.lt_succ_self _)
  refine ⟨h', j, hrise, ?_⟩
  have hj := hrise.le
  have hshape := hrise.shape
  unfold insertPlace
  rw [hrun]
  simp only [Option.bind_eq_bind, Option.bind_some]
  rw [set_of_lt (by rw [hshape.slots]; omega), Option.bind_some]
  show some (setActive { setIndex _ item j with size := u32 (h'.size + 1) } item true) = _
  rw [u32_of_lt (by rw [hshape.size]; omega)]
  rfl

/-- The heap after `heap_increase_size` has copied it. -/
def grown (h : Heap ι β) (garbage : ℕ → ι) : Heap ι β :=
  { h with
    map := fun k => if k < h.size then h.map k else garbage k
    slots := h.maxSize + heapDefaultIncreaseSize
    maxSize := h.maxSize + heapDefaultIncreaseSize }

omit [DecidableEq ι] in
theorem grown_room {h : Heap ι β} (hw : h.WF)
    (hmax : h.maxSize + heapDefaultIncreaseSize < 2 ^ 32) (garbage : ℕ → ι) :
    Room h (h.grown garbage) := by
  have hle := hw.size_le
  have hlt : h.maxSize < h.maxSize + heapDefaultIncreaseSize := by
    unfold heapDefaultIncreaseSize
    omega
  exact ⟨⟨hle.trans hlt.le, rfl, (Nat.zero_le _).trans_lt hlt, hmax⟩, hle.trans_lt hlt,
    rfl, rfl, rfl, rfl, fun k hk => if_pos hk⟩

omit [DecidableEq ι] in
theorem heapIncreaseSize_eq {h : Heap ι β} (hw : h.WF)
    (hmax : h.maxSize + heapDefaultIncreaseSize < 2 ^ 32) (garbage : ℕ → ι) :
    h.heapIncreaseSize heapDefaultIncreaseSize (some garbage) = some (0, h.grown garbage) := by
  have hle := hw.size_le
  have hslots := hw.slots_eq
  unfold heapIncreaseSize
  dsimp only
  rw [u32_of_lt hmax, if_pos ⟨by omega, by omega⟩]
  rfl

/-- **Everything `heap_insert` can do**: fail for want of memory and change
nothing, or return `0` with the item risen to its place. -/
theorem heapInsert_cases {h : Heap ι β} (hw : h.WF) (item : ι) {alloc : Option (ℕ → ι)}
    (hg : h.Grows alloc) :
    h.heapFull = true ∧ alloc = none ∧ h.heapInsert item alloc = some (-1, h)
      ∨ ∃ g h' j, Room h g ∧ Rises item g g.size h' j
        ∧ h.heapInsert item alloc = some (0, h'.place item j) := by
  unfold heapInsert
  by_cases hfull : h.heapFull = true
  · rw [if_pos hfull]
    cases alloc with
    | none => exact Or.inl ⟨hfull, rfl, rfl⟩
    | some garbage =>
      right
      have hroom := grown_room hw (hg hfull rfl) garbage
      obtain ⟨h', j, hrise, hplace⟩ := insertPlace_eq hroom.wf hroom.room item
      refine ⟨h.grown garbage, h', j, hroom, hrise, ?_⟩
      rw [heapIncreaseSize_eq hw (hg hfull rfl)]
      simp only [Option.bind_eq_bind, Option.bind_some, ne_eq, not_true, if_false]
      rw [hplace]
      rfl
  · rw [if_neg hfull]
    right
    have hroom : h.size < h.maxSize := by
      unfold heapFull at hfull
      simpa using hfull
    obtain ⟨h', j, hrise, hplace⟩ := insertPlace_eq hw hroom item
    refine ⟨h, h', j, ⟨hw, hroom, rfl, rfl, rfl, rfl, fun _ _ => rfl⟩, hrise, ?_⟩
    rw [hplace]
    rfl

theorem place_hi_of_ne (h : Heap ι β) {item p : ι} (j : ℕ) (hp : p ≠ item) :
    (h.place item j).hi p = h.hi p := by
  show Function.update (Function.update h.hi item _) item _ p = h.hi p
  rw [Function.update_of_ne hp, Function.update_of_ne hp]

@[simp] theorem place_hi_self (h : Heap ι β) (item : ι) (j : ℕ) :
    (h.place item j).hi item = ⟨j, true⟩ := by
  show Function.update (Function.update h.hi item _) item _ item = _
  rw [Function.update_self]
  show HeapItem.mk (Function.update h.hi item _ item).index true = _
  rw [Function.update_self]

/-- The facts about a successful insertion that hold for every comparison: the
heap stays well formed, the item is stored once more and is active, the place it
went to is in its index, and no other item changes its flag. -/
structure Inserted (h : Heap ι β) (item : ι) (h' : Heap ι β) : Prop where
  wf : h'.WF
  size : h'.size = h.size + 1
  cmp : h'.cmp = h.cmp
  obj : h'.obj = h.obj
  entries : List.Perm h'.entries (item :: h.entries)
  active : (h'.hi item).active = true
  other : ∀ p, p ≠ item → (h'.hi p).active = (h.hi p).active
  frame : ∀ p, p ∉ item :: h.entries → h'.hi p = h.hi p
  index_lt : (h'.hi item).index < h'.size
  map_index : h'.map (h'.hi item).index = item
  front : (h'.hi item).index ≠ 0 → h'.map 0 = h.map 0

omit [DecidableEq ι] in
theorem Room.entries_eq {h g : Heap ι β} (hr : Room h g) : g.entries = h.entries := by
  unfold entries
  rw [hr.size]
  exact List.map_congr_left fun k hk => hr.map k (List.mem_range.mp hk)

/-- Where the loop ends away from the front, the front is as it was. -/
theorem Rises.map_zero {item : ι} {h h' : Heap ι β} {i j : ℕ} (hr : Rises item h i h' j)
    (hj : j ≠ 0) : h'.map 0 = h.map 0 := by
  induction hr with
  | stop => rfl
  | @move h h' i j hi _ _ ih =>
    rw [ih hj]
    show Function.update h.map i _ 0 = h.map 0
    rw [Function.update_of_ne (by omega)]

theorem place_size {h g h₁ : Heap ι β} {item : ι} {j : ℕ} (hr : Room h g)
    (hrise : Rises item g g.size h₁ j) : (h₁.place item j).size = h.size + 1 := by
  show h₁.size + 1 = _
  rw [hrise.shape.size, hr.size]

/-- The item is stored once more, and the others are where they were or moved up by one. -/
theorem place_entries {h g h₁ : Heap ι β} {item : ι} {j : ℕ} (hr : Room h g)
    (hrise : Rises item g g.size h₁ j) :
    List.Perm (h₁.place item j).entries (item :: h.entries) := by
  obtain ⟨σ, hmap, -, hfix⟩ := hrise.perm
  have hlist : (List.range (g.size + 1)).map (Function.update g.map g.size item)
      = g.entries ++ [item] := by
    rw [List.range_succ, List.map_append, List.map_singleton, Function.update_self]
    congr 1
    exact List.map_congr_left fun k hk =>
      Function.update_of_ne (List.mem_range.mp hk).ne _ _
  have hperm := map_range_comp_perm (n := g.size + 1) (Function.update g.map g.size item) σ
    (fun k hk => hfix k (by omega))
  rw [hlist, hr.entries_eq, ← hmap] at hperm
  have heq : (h₁.place item j).entries
      = (List.range (g.size + 1)).map (Function.update h₁.map j item) := by
    rw [hr.size, ← place_size hr hrise]
    rfl
  rw [heq]
  exact hperm.trans List.perm_append_comm

theorem inserted_of_rises {h g h₁ : Heap ι β} {item : ι} {j : ℕ} (hr : Room h g)
    (hrise : Rises item g g.size h₁ j) : Inserted h item (h₁.place item j) := by
  have hshape := hrise.shape
  have hj := hrise.le
  have hsize := place_size hr hrise
  refine ⟨?_, hsize, hshape.cmp.trans hr.cmp, hshape.obj.trans hr.obj, place_entries hr hrise,
    ?_, fun p hp => ?_, fun p hp => ?_, ?_, ?_, fun hne => ?_⟩
  · refine hr.wf.resize hshape.maxSize hshape.slots ?_
    rw [hsize, ← hr.size]
    exact hr.room
  · rw [place_hi_self]
  · rw [place_hi_of_ne _ _ hp, hshape.active, hr.hi]
  · have hp' := not_or.mp (fun hm => hp (List.mem_cons.mpr hm))
    rw [place_hi_of_ne _ _ hp'.1, hrise.hi_of_notMem (fun k hk heq => ?_), hr.hi]
    exact hp'.2 (mem_entries.mpr ⟨k, hr.size ▸ hk, heq ▸ (hr.map k (hr.size ▸ hk)).symm⟩)
  · rw [place_hi_self, hsize, ← hr.size]
    exact Nat.lt_succ_of_le hj
  · rw [place_hi_self]
    exact Function.update_self ..
  · rw [place_hi_self] at hne
    show Function.update h₁.map j item 0 = h.map 0
    rw [Function.update_of_ne (Ne.symm hne), hrise.map_zero hne]
    refine hr.map 0 ?_
    rw [← hr.size]
    exact lt_of_lt_of_le (Nat.pos_of_ne_zero hne) hj

/-! ## Removal -/

/-- The start of `heap_remove`: the last entry comes to the position of the one
removed. -/
def moveLast (h : Heap ι β) (index : ℕ) : Heap ι β :=
  { h with size := h.size - 1, map := Function.update h.map index (h.map (h.size - 1)) }

omit [DecidableEq ι] in
theorem moveLast_map_of_ne {h : Heap ι β} {index k : ℕ} (hk : k ≠ index) :
    (h.moveLast index).map k = h.map k :=
  Function.update_of_ne hk _ _

omit [DecidableEq ι] in
theorem moveLast_map_self {h : Heap ι β} (index : ℕ) :
    (h.moveLast index).map index = h.map (h.size - 1) :=
  Function.update_self ..

/-- The end of `heap_remove`: the item removed is reset. -/
def retire (h : Heap ι β) (item : ι) : Heap ι β :=
  (h.setIndex item 0).setActive item false

@[simp] theorem retire_hi_self (h : Heap ι β) (item : ι) :
    (h.retire item).hi item = ⟨0, false⟩ := by
  show Function.update (Function.update h.hi item _) item _ item = _
  rw [Function.update_self]
  show HeapItem.mk (Function.update h.hi item _ item).index false = _
  rw [Function.update_self]

theorem retire_hi_of_ne (h : Heap ι β) {item p : ι} (hp : p ≠ item) :
    (h.retire item).hi p = h.hi p := by
  show Function.update (Function.update h.hi item _) item _ p = h.hi p
  rw [Function.update_of_ne hp, Function.update_of_ne hp]

/-- **The removal does not wrap**: the last entry, brought to the position of the one removed,
sinks only to positions whose children have a position in `unsigned int`. -/
def SinksWithin (h : Heap ι β) (index : ℕ) : Prop :=
  index < h.size → ∀ k, SinksTo (h.moveLast index) index k → 2 * k + 2 < 2 ^ 32

/-- A heap of up to `2^31` items is far from wrapping, unless the last of these is removed. -/
theorem sinksWithin_of_le {h : Heap ι β} {index : ℕ} (hs : h.size ≤ 2 ^ 31)
    (hi : index + 1 < 2 ^ 31) : h.SinksWithin index := by
  intro hlt k hk
  rcases hk.eq_or_lt with rfl | hk
  · omega
  · have hsize : (h.moveLast index).size = h.size - 1 := rfl
    omega

/-- `heap_remove` at a position in use is the sift-down of the last entry from there. -/
theorem heapRemove_eq {h : Heap ι β} (hw : h.WF) {index : ℕ} (hi : index < h.size) :
    h.heapRemove index = (heapHeapify (2 ^ 32) (h.moveLast index) index).bind fun h' =>
      some (some (h.map index), h'.retire (h.map index)) := by
  have hslots := hw.slots_eq
  have hle := hw.size_le
  unfold heapRemove
  rw [if_neg (by omega), get_of_lt (by omega)]
  simp only [Option.bind_eq_bind, Option.bind_some]
  rw [get_of_lt (h := { h with size := h.size - 1 }) (show h.size - 1 < h.slots by omega),
    Option.bind_some,
    set_of_lt (h := { h with size := h.size - 1 }) (show index < h.slots by omega),
    Option.bind_some]
  rfl

/-- **Everything `heap_remove` can do** where it does not wrap: return `NULL` beyond the last
entry and change nothing, or return the entry at the position, with the last entry sifted down
from there. -/
theorem heapRemove_cases_of {h : Heap ι β} (hw : h.WF) {index : ℕ} (hs : h.SinksWithin index) :
    h.size ≤ index ∧ h.heapRemove index = some (none, h)
      ∨ index < h.size ∧ ∃ h', Sifts (h.moveLast index) index h'
        ∧ h.heapRemove index = some (some (h.map index), h'.retire (h.map index)) := by
  by_cases hge : h.size ≤ index
  · refine Or.inl ⟨hge, ?_⟩
    unfold heapRemove
    rw [if_pos hge]
    rfl
  · have hi : index < h.size := by omega
    have hslots := hw.slots_eq
    have hle := hw.size_le
    have hmax := hw.max_lt
    obtain ⟨h', hrun, hsift⟩ := heapHeapify_sifts_of (2 ^ 32) (h := h.moveLast index) (i := index)
      (show h.size - 1 ≤ h.slots by omega) (show index < h.slots by omega) (hs hi)
      (show h.size - 1 < 2 ^ 32 + index by omega) (by decide)
    refine Or.inr ⟨hi, h', hsift, ?_⟩
    rw [heapRemove_eq hw hi, hrun, Option.bind_some]

/-- Everything `heap_remove` can do with fewer than `2^31` items. -/
theorem heapRemove_cases {h : Heap ι β} (hw : h.WF) (hs : h.size < 2 ^ 31) (index : ℕ) :
    h.size ≤ index ∧ h.heapRemove index = some (none, h)
      ∨ index < h.size ∧ ∃ h', Sifts (h.moveLast index) index h'
        ∧ h.heapRemove index = some (some (h.map index), h'.retire (h.map index)) :=
  heapRemove_cases_of hw fun hi => sinksWithin_of_le hs.le (by omega) hi

/-- The facts about a removal at a position in use that hold for every
comparison: the heap stays well formed, the entry at that position and no other
is gone, its item is reset and no other item changes its flag. -/
structure Removed (h : Heap ι β) (index : ℕ) (h' : Heap ι β) : Prop where
  wf : h'.WF
  size : h'.size + 1 = h.size
  maxSize : h'.maxSize = h.maxSize
  cmp : h'.cmp = h.cmp
  obj : h'.obj = h.obj
  entries : List.Perm h.entries (h.map index :: h'.entries)
  hi_self : h'.hi (h.map index) = ⟨0, false⟩
  other : ∀ p, p ≠ h.map index → (h'.hi p).active = (h.hi p).active
  frame : ∀ p, p ∉ h.entries → h'.hi p = h.hi p
  front : index ≠ 0 → h'.map 0 = h.map 0

omit [DecidableEq ι] in
/-- Moving the last entry over the one removed removes it from the list. -/
theorem moveLast_entries {h : Heap ι β} {index : ℕ} (hi : index < h.size) :
    List.Perm h.entries (h.map index :: (h.moveLast index).entries) := by
  obtain ⟨n, hn⟩ : ∃ n, h.size = n + 1 := ⟨h.size - 1, by omega⟩
  have hsize : (h.moveLast index).size = n := by
    show h.size - 1 = n
    omega
  have hlast : h.entries = (List.range n).map h.map ++ [h.map n] := by
    unfold entries
    rw [hn, List.range_succ, List.map_append, List.map_singleton]
  have hml : (h.moveLast index).entries
      = (List.range n).map (Function.update h.map index (h.map n)) := by
    unfold entries
    rw [hsize]
    show (List.range n).map (Function.update h.map index (h.map (h.size - 1))) = _
    rw [hn, Nat.add_sub_cancel]
  rw [hlast, hml]
  by_cases hin : index = n
  · subst hin
    rw [Function.update_eq_self]
    exact List.perm_append_comm
  · -- swapping the two positions in the array keeps the list, and then the last is dropped
    have hswap := map_range_comp_perm (n := n + 1) h.map (Equiv.swap index n)
      (fun k hk => Equiv.swap_apply_of_ne_of_ne (by omega) (by omega))
    rw [List.range_succ, List.map_append, List.map_append, List.map_singleton,
      List.map_singleton, Function.comp_apply, Equiv.swap_apply_right] at hswap
    have hsame : (List.range n).map (h.map ∘ Equiv.swap index n)
        = (List.range n).map (Function.update h.map index (h.map n)) := by
      refine List.map_congr_left fun k hk => ?_
      have hkn := List.mem_range.mp hk
      rw [Function.comp_apply]
      by_cases hki : k = index
      · subst hki
        rw [Equiv.swap_apply_left, Function.update_self]
      · rw [Equiv.swap_apply_of_ne_of_ne hki (by omega), Function.update_of_ne hki]
    rw [hsame] at hswap
    exact hswap.symm.trans List.perm_append_comm

/-- A sift-down rearranges the entries. -/
theorem Sifts.entries {h h' : Heap ι β} {i : ℕ} (hs : Sifts h i h') :
    List.Perm h'.entries h.entries := by
  obtain ⟨σ, hmap, hfix⟩ := hs.perm
  unfold Heap.entries
  rw [hmap, hs.shape.size]
  exact map_range_comp_perm _ σ fun k hk => hfix k (Or.inr hk)

/-- What an item that is not the one removed has left: its sifted item. -/
theorem removed_of_sifts {h h₁ : Heap ι β} {index : ℕ} (hw : h.WF) (hi : index < h.size)
    (hsift : Sifts (h.moveLast index) index h₁) :
    Removed h index (h₁.retire (h.map index)) := by
  have hshape := hsift.shape
  obtain ⟨σ, hmap, hfix⟩ := hsift.perm
  have hle := hw.size_le
  have hsize : h₁.size = h.size - 1 := hshape.size
  have hsub : ∀ k, k < (h.moveLast index).size → (h.moveLast index).map k ∈ h.entries :=
    fun k hk => (moveLast_entries hi).mem_iff.mpr
      (List.mem_cons_of_mem _ (mem_entries.mpr ⟨k, hk, rfl⟩))
  refine ⟨?_, ?_, hshape.maxSize, hshape.cmp, hshape.obj, ?_,
    retire_hi_self _ _, fun p hp => ?_, fun p hp => ?_, fun hne => ?_⟩
  · refine hw.resize hshape.maxSize hshape.slots ?_
    show h₁.size ≤ h.maxSize
    omega
  · show h₁.size + 1 = h.size
    omega
  · exact (moveLast_entries hi).trans (List.Perm.cons _ hsift.entries.symm)
  · rw [retire_hi_of_ne _ hp, hshape.active]
    rfl
  · have hne : p ≠ h.map index := fun heq => hp (mem_entries.mpr ⟨index, hi, heq.symm⟩)
    rw [retire_hi_of_ne _ hne]
    exact hsift.hi_of_notMem fun k _ hk heq => hp (heq ▸ hsub k hk)
  · show h₁.map 0 = h.map 0
    rw [hmap, Function.comp_apply, hfix 0 (Or.inl (Nat.pos_of_ne_zero hne))]
    exact Function.update_of_ne (Ne.symm hne) _ _

end Heap
