import Ckit.HeapOrder

/-!
# The positions written back into the items

Every item of a heap carries its own position, and a caller that wants to take
an item out looks there. The two loops keep the field right: an entry they move
gets its new position. `heap_remove` does not: it copies the last entry over the
one removed without telling it, and leaves the rest to `heap_heapify` – which
writes the field only of entries it exchanges. The position is right afterwards
exactly when the last entry was the one removed, or sinks at least one level
(`heapRemove_backPointers_iff`).
-/

namespace Heap

variable {ι β : Type} {h h' : Heap ι β}

/-- **Every item stored has its position.** -/
def BackPointers (h : Heap ι β) : Prop := ∀ k, k < h.size → (h.hi (h.map k)).index = k

theorem BackPointers.inj (hb : h.BackPointers) {j k : ℕ} (hj : j < h.size) (hk : k < h.size)
    (heq : h.map j = h.map k) : j = k := by
  rw [← hb j hj, ← hb k hk, heq]

theorem BackPointers.nodup (hb : h.BackPointers) : h.entries.Nodup :=
  nodup_entries.mpr fun _ _ hj hk => hb.inj hj hk

variable [DecidableEq ι]

/-! ## The way down -/

/-- **An exchange settles both its entries.** It is enough that the others have
their positions: the entry at `i`, being exchanged, may have had any. -/
theorem swapAt_backPointers {i c : ℕ} (hi : i < h.size) (hc : c < h.size) (hne : i ≠ c)
    (hb : ∀ k, k < h.size → k ≠ i → (h.hi (h.map k)).index = k)
    (hnodup : h.entries.Nodup) : (h.swapAt c i).BackPointers := by
  have hinj := nodup_entries.mp hnodup
  intro k hk
  rw [swapAt_size] at hk
  rw [swapAt_map, Function.comp_apply]
  by_cases hki : k = i
  · subst hki
    rw [Equiv.swap_apply_left]
    exact swapAt_index_up h c k
  · by_cases hkc : k = c
    · subst hkc
      rw [Equiv.swap_apply_right]
      exact swapAt_index_down h fun heq => hne (hinj i k hi hk heq)
    · rw [Equiv.swap_apply_of_ne_of_ne hki hkc, swapAt_hi_of_ne h
        (fun heq => hkc (hinj k c hk hc heq)) (fun heq => hki (hinj k i hk hi heq))]
      exact hb k hk hki

/-- A sift-down keeps the positions. -/
theorem Sifts.backPointers {i : ℕ} (hs : Sifts h i h') (hb : h.BackPointers) :
    h'.BackPointers := by
  induction hs with
  | stop => exact hb
  | swap hc hcs _ _ ih =>
    have hic := hc.lt
    exact ih (swapAt_backPointers (by omega) hcs hic.ne (fun k hk _ => hb k hk) hb.nodup)

/-! ## The way up -/

/-- The loop of an insertion keeps the positions of everything but the hole it
moves up. -/
theorem Rises.backPointers {item : ι} {i j n : ℕ} (hr : Rises item h i h' j) (hi : i ≤ n)
    (hb : ∀ k, k ≤ n → k ≠ i → (h.hi (h.map k)).index = k)
    (hitem : ∀ k, k ≤ n → k ≠ i → h.map k ≠ item) :
    (∀ k, k ≤ n → k ≠ j → (h'.hi (h'.map k)).index = k)
      ∧ ∀ k, k ≤ n → k ≠ j → h'.map k ≠ item := by
  induction hr with
  | stop => exact ⟨hb, hitem⟩
  | @move h h' i j h0 _ _ ih =>
    have hmap : ∀ k, k ≠ i → (h.shiftDown i).map k = h.map k :=
      fun k hk => Function.update_of_ne hk _ _
    have hself : (h.shiftDown i).map i = h.map ((i - 1) / 2) := Function.update_self ..
    refine ih (by omega) (fun k hk hkp => ?_) (fun k hk hkp => ?_)
    · by_cases hki : k = i
      · subst hki
        rw [hself]
        exact setIndex_index_self _ _ _
      · rw [hmap k hki]
        have hne : h.map k ≠ h.map ((i - 1) / 2) := by
          intro heq
          have := hb k hk hki
          rw [heq, hb ((i - 1) / 2) (by omega) (by omega)] at this
          exact hkp this.symm
        show (Function.update h.hi _ _ (h.map k)).index = k
        rw [Function.update_of_ne hne]
        exact hb k hk hki
    · by_cases hki : k = i
      · subst hki
        rw [hself]
        exact hitem _ (by omega) (by omega)
      · rw [hmap k hki]
        exact hitem k hk hki

/-- An insertion of an item not stored keeps the positions. -/
theorem place_backPointers {g h₁ : Heap ι β} {item : ι} {j : ℕ} (hroom : Room h g)
    (hrise : Rises item g g.size h₁ j) (hb : h.BackPointers) (hnew : item ∉ h.entries) :
    (h₁.place item j).BackPointers := by
  have hsize : (h₁.place item j).size = h.size + 1 := place_size hroom hrise
  rw [hroom.size] at hrise
  obtain ⟨hb₁, hne₁⟩ := hrise.backPointers (n := h.size) le_rfl
    (fun k hk hkn => by
      rw [hroom.map k (by omega), hroom.hi]
      exact hb k (by omega))
    (fun k hk hkn heq => by
      rw [hroom.map k (by omega)] at heq
      exact hnew (mem_entries.mpr ⟨k, by omega, heq⟩))
  intro k hk
  rw [hsize] at hk
  by_cases hkj : k = j
  · subst hkj
    show ((h₁.place item k).hi (Function.update h₁.map k item k)).index = k
    rw [Function.update_self, place_hi_self]
  · show ((h₁.place item j).hi (Function.update h₁.map j item k)).index = k
    rw [Function.update_of_ne hkj, place_hi_of_ne _ _ (hne₁ k (by omega) hkj)]
    exact hb₁ k (by omega) hkj

/-! ## Removal -/

/-- **The last entry sinks** when it is brought to `index`: one of the children
there is smaller than it. -/
def LastSinks (h : Heap ι β) (index : ℕ) : Prop :=
  ∃ c, c < h.size - 1 ∧ IsChild c index ∧ h.less (h.map c) (h.map (h.size - 1)) = true

instance (h : Heap ι β) (index : ℕ) : Decidable (h.LastSinks index) :=
  inferInstanceAs (Decidable (∃ c, c < h.size - 1 ∧ _))

omit [DecidableEq ι] in
theorem moveLast_nodup (hnodup : h.entries.Nodup) {index : ℕ} (hi : index < h.size) :
    (h.moveLast index).entries.Nodup ∧ h.map index ∉ (h.moveLast index).entries := by
  have := (moveLast_entries hi).nodup_iff.mp hnodup
  exact ⟨(List.nodup_cons.mp this).2, (List.nodup_cons.mp this).1⟩

theorem retire_backPointers {h₁ : Heap ι β} {item : ι} (hb : h₁.BackPointers)
    (hitem : item ∉ h₁.entries) : (h₁.retire item).BackPointers := by
  intro k hk
  show ((h₁.retire item).hi (h₁.map k)).index = k
  rw [retire_hi_of_ne _ fun heq => hitem (mem_entries.mpr ⟨k, hk, heq⟩)]
  exact hb k hk

omit [DecidableEq ι] in
/-- The last entry sinks where, once it is brought there, a child is smaller than it. -/
theorem lastSinks_iff {index : ℕ} : h.LastSinks index ↔ ∃ c, c < (h.moveLast index).size
    ∧ IsChild c index
    ∧ (h.moveLast index).less ((h.moveLast index).map c) ((h.moveLast index).map index) = true := by
  refine exists_congr fun c => and_congr_right fun _ => and_congr_right fun hc => ?_
  have hlt := hc.lt
  rw [moveLast_map_of_ne (by omega), moveLast_map_self]
  exact Iff.rfl

/-- A last entry that is brought to another position and does not sink keeps its old
position. -/
theorem moveLast_stale (hb : h.BackPointers) {index : ℕ} (hi : index + 1 < h.size) :
    ¬ ((h.moveLast index).retire (h.map index)).BackPointers := by
  intro hb'
  have hidx := hb' index (show index < h.size - 1 by omega)
  have hlast : h.map (h.size - 1) ≠ h.map index := by
    intro heq
    have := hb.inj (by omega) (by omega) heq
    omega
  have hmap : ((h.moveLast index).retire (h.map index)).map index = h.map (h.size - 1) :=
    moveLast_map_self index
  have hold : ((h.moveLast index).hi (h.map (h.size - 1))).index = h.size - 1 := hb _ (by omega)
  rw [hmap, retire_hi_of_ne _ hlast, hold] at hidx
  omega

/-- **When a removal keeps the positions**: exactly when it removes the last
entry, or the last entry sinks. -/
theorem heapRemove_backPointers_iff (hw : h.WF) (hs : h.size < 2 ^ 31) (hb : h.BackPointers)
    {index : ℕ} {item : Option ι} (hi : index < h.size)
    (hrem : h.heapRemove index = some (item, h')) :
    h'.BackPointers ↔ index + 1 = h.size ∨ h.LastSinks index := by
  obtain ⟨h₁, hsift, heq⟩ := ((heapRemove_cases hw hs index).resolve_left (by omega)).2
  obtain rfl : h₁.retire (h.map index) = h' := by
    rw [heq] at hrem
    exact congrArg Prod.snd (Option.some.inj hrem)
  obtain ⟨hnodup, hgone⟩ := moveLast_nodup hb.nodup hi
  have hgone₁ : h.map index ∉ h₁.entries := fun hm => hgone (hsift.entries.mem_iff.mp hm)
  have hsize : (h.moveLast index).size = h.size - 1 := rfl
  have hother : ∀ k, k < h.size - 1 → k ≠ index →
      ((h.moveLast index).hi ((h.moveLast index).map k)).index = k := by
    intro k hk hki
    rw [moveLast_map_of_ne hki]
    exact hb k (by omega)
  cases hsift with
  | stop hstop =>
    have hno : ¬ h.LastSinks index := by
      rw [lastSinks_iff]
      rintro ⟨c, hc, hci, hless⟩
      exact Bool.noConfusion (hless.symm.trans (hstop c hc hci))
    rw [or_iff_left hno]
    constructor
    · intro hb'
      by_contra hne
      exact moveLast_stale hb (by omega) hb'
    · intro hlast
      exact retire_backPointers (fun k hk => hother k hk (by omega)) hgone₁
  | swap hc hcs hpick rest =>
    have hic := hc.lt
    refine iff_of_true (retire_backPointers (rest.backPointers ?_) hgone₁) (Or.inr ?_)
    · exact swapAt_backPointers (by omega) hcs hic.ne hother hnodup
    · exact lastSinks_iff.mpr (hpick.exists_smaller hcs)

/-! ## Whole runs -/

/-- **The calls that keep the positions**, on the heap they are made on: an
insertion of an item not stored, and a removal, from fewer than `2^31` items, of
nothing, of the last entry, or such that the last entry sinks from where it is
brought. -/
def IndexSafe (h : Heap ι β) : HeapOp ι → Prop
  | .insert item alloc => h.Grows alloc ∧ item ∉ h.entries
  | .remove index =>
    h.size < 2 ^ 31 ∧ (h.size ≤ index ∨ index + 1 = h.size ∨ h.LastSinks index)

instance (h : Heap ι β) : ∀ op, Decidable (h.IndexSafe op)
  | .insert _ _ => inferInstanceAs (Decidable (_ ∧ _))
  | .remove _ => inferInstanceAs (Decidable (_ ∧ (_ ∨ _ ∨ _)))

theorem backPointers_step (op : HeapOp ι) (hinv : h.WF ∧ h.BackPointers)
    (hsafe : h.IndexSafe op) : ∃ h', HeapOp.step h op = some h' ∧ h'.WF ∧ h'.BackPointers := by
  obtain ⟨hw, hb⟩ := hinv
  cases op with
  | insert item alloc =>
    obtain ⟨hg, hnew⟩ := hsafe
    rcases heapInsert_cases hw item hg with ⟨_, _, heq⟩ | ⟨g, h₁, j, hroom, hrise, heq⟩
    · exact ⟨h, by rw [HeapOp.step, heq]; rfl, hw, hb⟩
    · exact ⟨_, by rw [HeapOp.step, heq]; rfl, (inserted_of_rises hroom hrise).wf,
        place_backPointers hroom hrise hb hnew⟩
  | remove index =>
    obtain ⟨hs, hcase⟩ := hsafe
    rcases heapRemove_cases hw hs index with ⟨_, heq⟩ | ⟨hi, h₁, hsift, heq⟩
    · exact ⟨h, by rw [HeapOp.step, heq]; rfl, hw, hb⟩
    · refine ⟨_, by rw [HeapOp.step, heq]; rfl, (removed_of_sifts hw hi hsift).wf, ?_⟩
      exact (heapRemove_backPointers_iff hw hs hb hi heq).mpr (hcase.resolve_left (by omega))

/-- **The positions over whole runs.** Every run, from a fresh heap, whose calls
are all `IndexSafe` returns, and every item stored has its position. -/
theorem heap_back_pointers_run {maxSize : ℕ} {cmp : HeapItem × β → HeapItem × β → Bool}
    {hi : ι → HeapItem} {obj : ι → β} {garbage : ℕ → ι} (hmax : maxSize < 2 ^ 32)
    (hinit : heapInit maxSize cmp hi obj (some garbage) = some h)
    (ops : List (HeapOp ι)) (hops : Meets HeapOp.step IndexSafe h ops) :
    ∃ h', run HeapOp.step h ops = some h' ∧ h'.BackPointers := by
  obtain ⟨hw, hsize, -⟩ := heapInit_wf hmax hinit
  obtain ⟨h', hrun, -, hb⟩ := Run.total (fun s e hs he => backPointers_step e hs he)
    (And.intro hw fun k hk => by omega) hops
  exact ⟨h', hrun, hb⟩

/-- Removing the front of three items where the last one sinks. -/
theorem heap_back_pointers_run_sinks :
    ∃ h', run HeapOp.step (natHeap id)
        [.insert 1 none, .insert 2 none, .insert 3 none, .remove 0] = some h'
      ∧ h'.BackPointers := by
  have hinit : heapInit 0 (byObj fun a b => decide (a < b)) (fun _ => ⟨0, false⟩) id
      (some fun _ => 0) = some (natHeap id) := rfl
  exact heap_back_pointers_run (by decide) hinit
    [.insert 1 none, .insert 2 none, .insert 3 none, .remove 0] (by decide +kernel)

/-- **A removal can leave a stale position**: with `3`, `2` and `1` in that order
in the array, removing the front brings `1` there, where it stays, still marked
with position `2`. -/
theorem heap_back_pointers_broken :
    heapInit 0 (byObj fun a b => decide (a < b)) (fun _ => ⟨0, false⟩) id (some fun _ => 0)
        = some (natHeap id)
      ∧ ∃ h', run HeapOp.step (natHeap id)
          [.insert 3 none, .insert 2 none, .insert 1 none, .remove 0] = some h'
        ∧ ¬ h'.BackPointers := by
  refine ⟨rfl, _, rfl, fun hb => ?_⟩
  exact absurd (hb 0 (by decide)) (by decide)

end Heap
