import Mathlib.Data.Multiset.AddSub
import Ckit.HeapSpec
import Ckit.Run

/-!
# The heap loses no item and stores none twice

Whatever the comparison answers, a call moves items about and does nothing else to
them: an insertion that returns `0` adds its item to those stored, a removal takes away
the one it returns, and a call that fails changes nothing. The flag `active` of an item
then says whether the item is stored, as long as only items with the flag cleared are
inserted, and no item is stored twice.

The positions must not wrap, which the bound on the number of slots is for: it is asked
of every heap the run goes through, since an insertion may grow the array.
-/

namespace Heap

variable {ι β : Type} [DecidableEq ι]

/-- **What a call does to the items stored**, and what it returns. -/
def Conserves (h : Heap ι β) : HeapOp ι → Prop
  | .insert item alloc =>
    if h.heapFull = true ∧ alloc.isNone then
      h.heapInsert item alloc = some (-1, h)
    else
      ∃ h', h.heapInsert item alloc = some (0, h')
        ∧ (h'.entries : Multiset ι) = item ::ₘ (h.entries : Multiset ι)
  | .remove index =>
    if index < h.size then
      ∃ h', h.heapRemove index = some (some (h.map index), h')
        ∧ (h.entries : Multiset ι) = h.map index ::ₘ (h'.entries : Multiset ι)
    else
      h.heapRemove index = some (none, h)

/-- **The items stored are those with the flag**, each stored once. -/
structure Tracked (h : Heap ι β) : Prop where
  nodup : h.entries.Nodup
  active_iff : ∀ p, (h.hi p).active = true ↔ p ∈ h.entries

/-- Only items whose flag is cleared are inserted. -/
def InsertsInactive (h : Heap ι β) : HeapOp ι → Prop
  | .insert item _ => (h.hi item).active = false
  | .remove _ => True

instance (h : Heap ι β) (op : HeapOp ι) : Decidable (h.InsertsInactive op) :=
  match op with
  | .insert _ _ => inferInstanceAs (Decidable (_ = _))
  | .remove _ => .isTrue trivial

/-- A heap that tracks its items, with positions that do not wrap. -/
structure TrackInv (h : Heap ι β) : Prop where
  wf : h.WF
  tracked : h.Tracked
  slots_lt : h.slots < 2 ^ 31

variable {h h' : Heap ι β}

omit [DecidableEq ι] in
theorem TrackInv.size_lt (hinv : h.TrackInv) : h.size < 2 ^ 31 := by
  have hslots := hinv.wf.slots_eq
  have hle := hinv.wf.size_le
  have hlt := hinv.slots_lt
  omega

/-- **Every call conserves the items**, for every comparison. -/
theorem TrackInv.conserves (hinv : h.TrackInv) (op : HeapOp ι) : h.Conserves op := by
  cases op with
  | insert item alloc =>
    rcases heapInsert_cases hinv.wf item (grows_of_lt hinv.size_lt alloc) with
      ⟨hfull, hnone, heq⟩ | ⟨g, h₁, j, hroom, hrise, heq⟩
    · rw [Conserves, if_pos ⟨hfull, Option.isNone_iff_eq_none.mpr hnone⟩]
      exact heq
    · have hgrown : ¬ (h.heapFull = true ∧ alloc.isNone) := by
        rintro ⟨hfull, hnone⟩
        rw [Option.isNone_iff_eq_none.mp hnone, heapInsert, if_pos hfull] at heq
        exact absurd (congrArg Prod.fst (Option.some.inj heq)) (by simp)
      rw [Conserves, if_neg hgrown]
      exact ⟨_, heq, Multiset.coe_eq_coe.mpr (inserted_of_rises hroom hrise).entries⟩
  | remove index =>
    rcases heapRemove_cases hinv.wf hinv.size_lt index with ⟨hge, heq⟩ | ⟨hlt, h₁, hsift, heq⟩
    · rw [Conserves, if_neg (Nat.not_lt.mpr hge)]
      exact heq
    · rw [Conserves, if_pos hlt]
      exact ⟨_, heq, Multiset.coe_eq_coe.mpr (removed_of_sifts hinv.wf hlt hsift).entries⟩

theorem Tracked.inserted (ht : h.Tracked) {item : ι} (hnew : (h.hi item).active = false)
    (hins : Inserted h item h') : h'.Tracked := by
  have hout : item ∉ h.entries := fun hmem =>
    absurd ((ht.active_iff item).mpr hmem) (by rw [hnew]; decide)
  refine ⟨hins.entries.nodup_iff.mpr (List.nodup_cons.mpr ⟨hout, ht.nodup⟩), fun p => ?_⟩
  rw [hins.entries.mem_iff, List.mem_cons]
  by_cases hp : p = item
  · rw [hp]
    exact iff_of_true hins.active (.inl rfl)
  · rw [hins.other p hp, ht.active_iff p, or_iff_right hp]

theorem Tracked.removed (ht : h.Tracked) {index : ℕ} (hrem : Removed h index h') :
    h'.Tracked := by
  have hcons : (h.map index :: h'.entries).Nodup := hrem.entries.nodup_iff.mp ht.nodup
  obtain ⟨hout, hnodup⟩ := List.nodup_cons.mp hcons
  refine ⟨hnodup, fun p => ?_⟩
  by_cases hp : p = h.map index
  · rw [hp, hrem.hi_self]
    exact iff_of_false (by decide) hout
  · rw [hrem.other p hp, ht.active_iff p, hrem.entries.mem_iff, List.mem_cons, or_iff_right hp]

/-- A call leaves a heap that tracks its items, unless it has grown too large. -/
theorem TrackInv.step (hinv : h.TrackInv) {op : HeapOp ι} (hop : h.InsertsInactive op) :
    ∃ h', HeapOp.step h op = some h' ∧ (h'.slots < 2 ^ 31 → h'.TrackInv) := by
  cases op with
  | insert item alloc =>
    rcases heapInsert_cases hinv.wf item (grows_of_lt hinv.size_lt alloc) with
      ⟨-, -, heq⟩ | ⟨g, h₁, j, hroom, hrise, heq⟩
    · exact ⟨h, by rw [HeapOp.step, heq]; rfl, fun _ => hinv⟩
    · have hins := inserted_of_rises hroom hrise
      exact ⟨_, by rw [HeapOp.step, heq]; rfl,
        fun hlt => ⟨hins.wf, hinv.tracked.inserted hop hins, hlt⟩⟩
  | remove index =>
    rcases heapRemove_cases hinv.wf hinv.size_lt index with ⟨-, heq⟩ | ⟨hlt, h₁, hsift, heq⟩
    · exact ⟨h, by rw [HeapOp.step, heq]; rfl, fun _ => hinv⟩
    · have hrem := removed_of_sifts hinv.wf hlt hsift
      exact ⟨_, by rw [HeapOp.step, heq]; rfl,
        fun hlt => ⟨hrem.wf, hinv.tracked.removed hrem, hlt⟩⟩

/-- **The heap conserves its items.** A run from a fresh heap that only inserts items with
the flag cleared, on heaps of fewer than `2^31` slots, returns; each of its calls
conserves the items, and in every state the items stored are those with the flag. -/
theorem heap_conserves_run {maxSize : ℕ} {cmp : HeapItem × β → HeapItem × β → Bool}
    {hi : ι → HeapItem} {obj : ι → β} {garbage : ℕ → ι}
    (hinit : heapInit maxSize cmp hi obj (some garbage) = some h)
    (hclear : ∀ p, (hi p).active = false) (ops : List (HeapOp ι))
    (hslots : Along HeapOp.step (fun h => h.slots < 2 ^ 31) h ops)
    (hops : Meets HeapOp.step InsertsInactive h ops) :
    (∃ h', run HeapOp.step h ops = some h') ∧ Meets HeapOp.step Conserves h ops
      ∧ Along HeapOp.step Tracked h ops := by
  have hlt := Run.along_start hslots
  have hmax : maxSize < 2 ^ 32 := by
    have hslots₀ : (if maxSize = 0 then heapDefaultSize else maxSize) = h.slots :=
      congrArg Heap.slots (Option.some.inj hinit)
    split at hslots₀
    · omega
    · omega
  obtain ⟨hw, hsize, -, hhi, -⟩ := heapInit_wf hmax hinit
  have hempty : h.entries = [] := by rw [entries, hsize]; rfl
  have htracked : h.Tracked := by
    refine ⟨hempty ▸ List.nodup_nil, fun p => ?_⟩
    rw [hempty, hhi, hclear]
    simp
  obtain ⟨⟨h', hrun, -⟩, hal⟩ := Run.total_within (J := fun _ => TrackInv)
    (P := TrackInv) (fun _ _ hinv => hinv)
    (fun op _ h hinv hop => hinv.step hop) ⟨hw, htracked, hlt⟩ hops hslots
  exact ⟨⟨h', hrun⟩, Run.meets_of_along (fun h op hinv _ => hinv.conserves op) hal hops,
    Run.along_imp (fun h hinv => hinv.tracked) hal⟩

/-- Three items under a comparison that always answers yes; one of them is removed,
inserted again, and a removal beyond the end returns nothing. -/
theorem heap_conserves_run_always :
    let h : Heap ℕ ℕ := ⟨heapDefaultSize, 0, fun _ _ => true, fun _ => 0, heapDefaultSize,
      fun _ => ⟨0, false⟩, id⟩
    let ops := [.insert 1 none, .insert 2 none, .insert 3 none, .remove 1, .insert 1 none,
      .remove 7]
    (∃ h', run HeapOp.step h ops = some h') ∧ Meets HeapOp.step Conserves h ops
      ∧ Along HeapOp.step Tracked h ops := by
  intro h ops
  have hinit : heapInit 0 (fun _ _ => true) (fun _ => ⟨0, false⟩) id (some fun _ => 0)
      = some h := rfl
  exact heap_conserves_run hinit (fun _ => rfl) ops (by decide +kernel) (by decide +kernel)

end Heap
