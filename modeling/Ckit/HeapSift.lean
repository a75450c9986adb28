import Ckit.HeapOrder

/-!
# The sift-down on its own

What `heap_heapify` does to the subtree it is called on, whatever the rest of
the array looks like: where the two subtrees under a position are ordered, the
call returns with the whole subtree ordered, its smallest entry on top, and
nothing moved outside. Nothing is assumed about the positions stored in the items,
and those of the entries that move are right afterwards.

The comparison is any strict weak order of the items that does not look at the
one field the call writes (`PositionFree`). An item may even be stored at several
positions: its index then is one of them.
-/

namespace Heap

variable {ι β : Type} {h h' : Heap ι β} {i : ℕ}

/-- **A comparison that does not look at positions**: it gives the same answer
whatever the index fields of the two items hold. -/
def PositionFree (cmp : HeapItem × β → HeapItem × β → Bool) : Prop :=
  ∀ (a b : HeapItem × β) (j k : ℕ),
    cmp ({ a.1 with index := j }, a.2) ({ b.1 with index := k }, b.2) = cmp a b

/-- **The heap order in the subtree at `i`**, in the words of the code. -/
def SubtreeOrdered (h : Heap ι β) (i : ℕ) : Prop :=
  ∀ c p, Under p i → IsChild c p → c < h.size → h.less (h.map c) (h.map p) = false

theorem subtreeOrdered_iff : h.SubtreeOrdered i ↔ OrderedUnder h.Less h.map h.size i :=
  forall_congr' fun _ => forall_congr' fun _ => forall_congr' fun _ => forall_congr' fun _ =>
    forall_congr' fun _ => not_less.symm

/-- A comparison that is a strict weak order of the items in memory orders the
pointers to them. -/
instance isStrictWeakOrder_less [IsStrictWeakOrder (HeapItem × β) (ltRel h.cmp)] :
    IsStrictWeakOrder ι h.Less :=
  inferInstanceAs (IsStrictWeakOrder ι (Function.onFun (ltRel h.cmp) fun p => (h.hi p, h.obj p)))

/-- An order of the objects orders the items embedded in them. -/
theorem isStrictWeakOrder_byObj (lt : β → β → Bool) [IsStrictWeakOrder β (ltRel lt)] :
    IsStrictWeakOrder (HeapItem × β) (ltRel (byObj lt)) :=
  inferInstanceAs (IsStrictWeakOrder (HeapItem × β) (Function.onFun (ltRel lt) Prod.snd))

/-- The answers of such a comparison survive whatever a loop does. -/
theorem SameShape.less_eq (hs : SameShape h h') (hfree : PositionFree h.cmp) :
    h'.Less = h.Less := by
  have hitem : ∀ p, h'.hi p = ⟨(h'.hi p).index, (h.hi p).active⟩ := fun p => by
    rw [← hs.active p]
  funext p q
  show (h'.less p q = true) = (h.less p q = true)
  unfold less
  rw [hitem p, hitem q, hs.cmp, hs.obj]
  exact congrArg (· = true) (hfree (h.hi p, h.obj p) (h.hi q, h.obj q) _ _)

variable [DecidableEq ι]

/-- **A sift-down orders its subtree**, where the subtrees under it were
ordered. -/
theorem Sifts.subtreeOrdered (hs : Sifts h i h') (hfree : PositionFree h.cmp)
    (hord : IsStrictWeakOrder ι h.Less)
    (hsub : ∀ c, IsChild c i → OrderedUnder h.Less h.map h.size c) :
    OrderedUnder h.Less h'.map h.size i := by
  induction hs with
  | @stop h i hstop =>
    intro d p hp hd hdn
    rcases hp.eq_or_child with rfl | ⟨e, he, hpe⟩
    · exact not_less.mpr (hstop d hdn hd)
    · exact hsub e he d p hpe hd hdn
  | @swap h h' i c hc hcs hpick hrest ih =>
    have hless : (h.swapAt c i).Less = h.Less := (swapAt_shape h c i).less_eq hfree
    obtain ⟨hlt, hmin⟩ := hpick.least
    obtain ⟨σ, hmap, hfix⟩ := hrest.perm_under
    rw [hless, swapAt_map, swapAt_size] at ih
    have hb := ih hfree hord fun d hd => (hsub c hc).swap_under hc hd
    rw [hmap, swapAt_map, Function.comp_assoc] at hb ⊢
    exact OrderedUnder.of_swap hsub hc hlt hmin hfix hb

/-! ## The positions of what moves -/

/-- The index of the item leads to a position where it is. -/
def Placed (h : Heap ι β) (i : ℕ) (p : ι) : Prop :=
  Under (h.hi p).index i ∧ (h.hi p).index < h.size ∧ h.map (h.hi p).index = p

/-- The entry a sift-down starts from has its position, unless nothing moved. -/
theorem Sifts.placed_root (hs : Sifts h i h') (hfree : PositionFree h.cmp)
    (hord : IsStrictWeakOrder ι h.Less) : h' = h ∨ h'.Placed i (h.map i) := by
  induction hs with
  | stop => exact Or.inl rfl
  | @swap h h' i c hc hcs hpick _ ih =>
    have hne : h.map i ≠ h.map c := by
      intro heq
      have hlt := hpick.least.1
      rw [heq] at hlt
      exact irrefl (r := h.Less) _ hlt
    have hroot : (h.swapAt c i).map c = h.map i := by
      rw [swapAt_map, Function.comp_apply, Equiv.swap_apply_right]
    right
    rcases ih hfree ((swapAt_shape h c i).less_eq hfree ▸ hord) with rfl | ⟨hu, hn, hm⟩
    · unfold Placed
      rw [swapAt_index_down h hne]
      exact ⟨hc.under, hcs, hroot⟩
    · rw [hroot] at hu hn hm
      exact ⟨hu.trans hc.under, hn, hm⟩

/-- **Every item is placed, or untouched**: its fields are as they were, and it
is nowhere it was not before. -/
theorem Sifts.placed (hs : Sifts h i h') (hfree : PositionFree h.cmp)
    (hord : IsStrictWeakOrder ι h.Less) (p : ι) :
    h'.Placed i p ∨ h'.hi p = h.hi p ∧ ∀ k, h'.map k = p → h.map k = p := by
  induction hs with
  | stop => exact Or.inr ⟨rfl, fun _ hk => hk⟩
  | @swap h h' i c hc hcs hpick hrest ih =>
    have hord' : IsStrictWeakOrder ι (h.swapAt c i).Less :=
      (swapAt_shape h c i).less_eq hfree ▸ hord
    have hmoves := Sifts.swap hc hcs hpick hrest
    by_cases hpi : p = h.map i
    · -- the entry that sinks
      rw [hpi]
      rcases hmoves.placed_root hfree hord with rfl | hplaced
      · exact Or.inr ⟨rfl, fun _ hk => hk⟩
      · exact Or.inl hplaced
    · rcases ih hfree hord' with ⟨hu, hn, hm⟩ | ⟨hhi, hkeep⟩
      · exact Or.inl ⟨hu.trans hc.under, hn, hm⟩
      · by_cases hpc : p = h.map c
        · -- the entry brought up, and not moved again
          left
          obtain ⟨σ, hmap, hfix⟩ := hrest.perm_under
          have hidx : (h'.hi p).index = i := by
            rw [hhi, hpc]
            exact swapAt_index_up h c i
          unfold Placed
          rw [hidx, hrest.shape.size, hmap, Function.comp_apply,
            hfix i fun hu => hc.not_under hu.1, swapAt_map, Function.comp_apply,
            Equiv.swap_apply_left]
          exact ⟨Under.refl i, hc.lt.trans hcs, hpc.symm⟩
        · right
          refine ⟨hhi.trans (swapAt_hi_of_ne h hpc hpi), fun k hk => ?_⟩
          have hk' := hkeep k hk
          rw [swapAt_map, Function.comp_apply] at hk'
          have hki : k ≠ i := by
            rintro rfl
            rw [Equiv.swap_apply_left] at hk'
            exact hpc hk'.symm
          have hkc : k ≠ c := by
            rintro rfl
            rw [Equiv.swap_apply_right] at hk'
            exact hpi hk'.symm
          rwa [Equiv.swap_apply_of_ne_of_ne hki hkc] at hk'

/-! ## The sift-down -/

/-- **What a sift-down at `i` leaves behind.** -/
structure SiftedDown (h : Heap ι β) (i : ℕ) (h' : Heap ι β) : Prop where
  shape : SameShape h h'
  ordered : h'.SubtreeOrdered i
  min : ∀ k, Under k i → k < h'.size → h'.less (h'.map k) (h'.map i) = false
  /-- Only entries of the subtree change places … -/
  perm : ∃ σ : Equiv.Perm ℕ, h'.map = h.map ∘ σ ∧ ∀ k, ¬ (Under k i ∧ k < h.size) → σ k = k
  /-- … and those that do can be found through their index, … -/
  placed : ∀ k, h'.map k ≠ h.map k → h'.Placed i (h'.map k)
  /-- … which is the place they went to, as each item has but one. -/
  index : h.entries.Nodup → ∀ k, h'.map k ≠ h.map k → (h'.hi (h'.map k)).index = k

/-- **The sift-down lemma.** For every strict weak order, every array of fewer
than `2^31` items and every position of it whose two subtrees are ordered,
`heap_heapify` returns: the subtree at that position is ordered, with a minimum
of it on top, no position outside of it has changed, and every entry that has
moved has its new position in its index. -/
theorem heap_heapify_sifts_down {fuel : ℕ} [IsStrictWeakOrder (HeapItem × β) (ltRel h.cmp)]
    (hfree : PositionFree h.cmp) (hslots : h.size ≤ h.slots) (hsize : h.size < 2 ^ 31)
    (hi : i < h.size) (hsub : ∀ c, IsChild c i → h.SubtreeOrdered c) (hfuel : h.size < fuel) :
    ∃ h', heapHeapify fuel h i = some h' ∧ SiftedDown h i h' := by
  obtain ⟨h', hrun, hsift⟩ := heapHeapify_sifts fuel hslots hsize (hi.trans_le hslots)
    (by omega) (by omega) (by omega)
  have hless := hsift.shape.less_eq hfree
  have hord : IsStrictWeakOrder ι h.Less := inferInstance
  have hunder := hsift.subtreeOrdered hfree hord fun c hc => subtreeOrdered_iff.mp (hsub c hc)
  have hplaced : ∀ k, h'.map k ≠ h.map k → h'.Placed i (h'.map k) := by
    intro k hk
    refine (hsift.placed hfree hord (h'.map k)).resolve_right ?_
    rintro ⟨-, hkeep⟩
    exact hk (hkeep k rfl).symm
  obtain ⟨σ, hmap, hfix⟩ := hsift.perm_under
  refine ⟨h', hrun, hsift.shape, ?_, ?_, ⟨σ, hmap, hfix⟩, hplaced, ?_⟩
  · rw [subtreeOrdered_iff, hless, hsift.shape.size]
    exact hunder
  · intro k hk hkn
    rw [hsift.shape.size] at hkn
    rw [← not_less, hless]
    exact hunder.root_min hk hkn
  · intro hnodup k hk
    have hks : k < h'.size := by
      rw [hsift.shape.size]
      by_contra hge
      rw [hmap, Function.comp_apply, hfix k fun hu => hge hu.2] at hk
      exact hk rfl
    obtain ⟨-, hn, hm⟩ := hplaced k hk
    exact nodup_entries.mp (hsift.entries.nodup_iff.mpr hnodup) _ _ hn hks hm

/-- Seven items in order, but for a `9` on top. -/
def topHeavy : Heap ℕ ℕ :=
  { natHeap id with size := 7, map := fun k => if k = 0 then 9 else k }

/-- The `9` sinks. -/
theorem heap_heapify_sifts_down_nine :
    ∃ h', heapHeapify 8 topHeavy 0 = some h' ∧ SiftedDown topHeavy 0 h' := by
  have : IsStrictWeakOrder (HeapItem × ℕ) (ltRel topHeavy.cmp) :=
    isStrictWeakOrder_byObj fun a b => decide (a < b)
  refine heap_heapify_sifts_down (fun _ _ _ _ => rfl) (by decide) (by decide) (by decide) ?_
    (by decide)
  have hedges : ∀ c, c < 7 → 0 < (c - 1) / 2 →
      topHeavy.less (topHeavy.map c) (topHeavy.map ((c - 1) / 2)) = false := by decide
  intro d hd c p hp hc hcn
  have hdp := hp.le
  have hd0 := hd.lt
  rw [← hc.2]
  exact hedges c hcn (by rw [hc.2]; omega)

end Heap
