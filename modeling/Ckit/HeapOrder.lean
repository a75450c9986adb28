import Ckit.HeapSpec

/-!
# The order of the heap

`heap_heapify` lets an entry sink past a *smaller* child, and the timer queue
asks for the same with `heap_cmp`. The loop of `heap_insert` asks its comparison
the other way round: an item rises past a parent that is smaller than it. So an
insertion keeps the order only where its loop has nothing to do and nothing
needed doing: in an empty heap, or where the new item ties with the entry it is
appended under (`heapInsert_ordered_iff`). A removal keeps it where the entry
brought in from the end is not smaller than the one it lands under.

`OrderSafe` collects the two conditions, and a run whose calls all meet it keeps
the heap ordered: its front is a minimum, and taking the first item again and
again lists all items in order.
-/

namespace Heap

variable {ι β : Type}

/-- The comparison of two items by an order of the objects they are embedded
in. -/
def byObj (lt : β → β → Bool) (a b : HeapItem × β) : Bool := lt a.2 b.2

/-- **The heap order**, in the words of the code: no entry is smaller than its
parent. -/
def HeapOrdered (h : Heap ι β) : Prop :=
  ∀ k, 0 < k → k < h.size → h.less (h.map k) (h.map ((k - 1) / 2)) = false

/-- The order the array heaps of `Ckit.BinaryHeap` are stated with. -/
def ltRel (lt : β → β → Bool) (a b : β) : Prop := lt a b = true

instance : IsStrictWeakOrder ℕ (ltRel fun a b => decide (a < b)) where
  irrefl a := by simp [ltRel]
  trans a b c := by
    simp only [ltRel, decide_eq_true_eq]
    exact lt_trans
  incomp_trans a b c := by
    simp only [ltRel, decide_eq_true_eq]
    omega

variable {lt : β → β → Bool} {h h' : Heap ι β}

theorem less_byObj (hcmp : h.cmp = byObj lt) (p q : ι) :
    h.less p q = lt (h.obj p) (h.obj q) := by
  unfold less
  rw [hcmp]
  rfl

theorem less_eq_false (hcmp : h.cmp = byObj lt) {p q : ι} :
    h.less p q = false ↔ ¬ ltRel lt (h.obj p) (h.obj q) := by
  rw [less_byObj hcmp, ltRel, Bool.not_eq_true]

/-- The order of the heap is the order of the array of its objects. -/
theorem heapOrdered_iff (hcmp : h.cmp = byObj lt) :
    h.HeapOrdered ↔ Ordered (ltRel lt) (h.obj ∘ h.map) h.size :=
  forall_congr' fun _ => forall_congr' fun _ => forall_congr' fun _ => less_eq_false hcmp

variable [DecidableEq ι]

/-! ## The way down keeps the order -/

omit [DecidableEq ι] in
/-- The child picked is a smallest one, in the order of the objects. -/
theorem Picks.min [IsStrictWeakOrder β (ltRel lt)] (hcmp : h.cmp = byObj lt) {i c : ℕ}
    (hpick : h.Picks i c) :
    ltRel lt (h.obj (h.map c)) (h.obj (h.map i))
      ∧ ∀ d, d < h.size → IsChild d i → ¬ ltRel lt (h.obj (h.map d)) (h.obj (h.map c)) := by
  have hless : h.Less = Function.onFun (ltRel lt) h.obj := by
    funext p q
    show (h.less p q = true) = _
    rw [less_byObj hcmp]
    rfl
  have : IsStrictWeakOrder ι h.Less := by
    rw [hless]
    infer_instance
  have hleast := hpick.least
  rw [hless] at hleast
  exact hleast

/-- **A sift-down from a position that is ready for it ends ordered.** -/
theorem Sifts.ordered [IsStrictWeakOrder β (ltRel lt)] {i : ℕ} (hs : Sifts h i h')
    (hcmp : h.cmp = byObj lt) (hready : DownReady (ltRel lt) (h.obj ∘ h.map) h.size i) :
    Ordered (ltRel lt) (h'.obj ∘ h'.map) h'.size := by
  induction hs with
  | stop hstop =>
    exact hready.ordered fun c hc hci => (less_eq_false hcmp).mp (hstop c hc hci)
  | @swap h h' i c hc hcs hpick _ ih =>
    obtain ⟨hlt, hmin⟩ := hpick.min hcmp
    refine ih hcmp ?_
    rw [swapAt_map, ← Function.comp_assoc]
    exact hready.swap hc hcs hlt hmin

/-! ## The conditions -/

/-- The item ties with the entry it would be appended under: neither is
smaller. -/
def TiesWithParent (h : Heap ι β) (item : ι) : Prop :=
  h.less (h.map ((h.size - 1) / 2)) item = false
    ∧ h.less item (h.map ((h.size - 1) / 2)) = false

/-- **The calls that keep the order**, on the heap they are made on: an
insertion that finds no memory, or into an empty heap, or of an item that ties
with the entry it is appended under; a removal, from fewer than `2^31` items, of
the first one, of none, or such that the last entry is not smaller than the one
it is brought under. -/
def OrderSafe (h : Heap ι β) : HeapOp ι → Prop
  | .insert item alloc =>
    h.Grows alloc
      ∧ (h.heapFull = true ∧ alloc.isNone = true ∨ h.size = 0 ∨ h.TiesWithParent item)
  | .remove index =>
    h.size < 2 ^ 31
      ∧ (h.size ≤ index ∨ index = 0
        ∨ h.less (h.map (h.size - 1)) (h.map ((index - 1) / 2)) = false)

instance (h : Heap ι β) (item : ι) : Decidable (h.TiesWithParent item) :=
  inferInstanceAs (Decidable (_ ∧ _))

instance (h : Heap ι β) : ∀ op, Decidable (h.OrderSafe op)
  | .insert _ _ => inferInstanceAs (Decidable (_ ∧ (_ ∧ _ ∨ _ ∨ _)))
  | .remove _ => inferInstanceAs (Decidable (_ ∧ (_ ∨ _ ∨ _)))

/-! ## Insertion -/

omit [DecidableEq ι] in
theorem Room.less_eq {g : Heap ι β} (hr : Room h g) : g.less = h.less := by
  funext p q
  unfold less
  rw [hr.cmp, hr.hi, hr.obj]

/-- A loop that moved at all ended under an entry that is smaller than the
item: the last entry it shifted down. -/
theorem Rises.exists_smaller_child {item : ι} {i j : ℕ} (hcmp : h.cmp = byObj lt)
    (hr : Rises item h i h' j) (hj : j < i) :
    ∃ c, 0 < c ∧ c ≤ i ∧ (c - 1) / 2 = j ∧ h'.less (h'.map c) item = true := by
  induction hr with
  | stop => omega
  | @move h h' i j hi hless rest ih =>
    by_cases hlt : j < (i - 1) / 2
    · obtain ⟨c, hc0, hci, hcj, hlt⟩ := ih hcmp hlt
      exact ⟨c, hc0, by omega, hcj, hlt⟩
    · cases rest with
      | stop =>
        refine ⟨i, hi, le_rfl, rfl, ?_⟩
        have hcmp' : (h.shiftDown i).cmp = byObj lt := hcmp
        rw [less_byObj hcmp']
        rw [less_byObj hcmp] at hless
        show lt (h.obj (Function.update h.map i _ i)) (h.obj item) = true
        rw [Function.update_self]
        exact hless
      | move hi' _ rest' =>
        have := rest'.le
        omega

/-- An insertion whose loop moves leaves what it shifted down out of order. -/
theorem Rises.not_ordered {g h₁ : Heap ι β} {item : ι} {j : ℕ} (hcmp : h.cmp = byObj lt)
    (hroom : Room h g) (hrise : Rises item g g.size h₁ j) (hj : j < g.size) :
    ¬ (h₁.place item j).HeapOrdered := by
  intro ho'
  have hcmp₁ : h₁.cmp = byObj lt := hrise.shape.cmp.trans (hroom.cmp.trans hcmp)
  have hcmp' : (h₁.place item j).cmp = byObj lt := hcmp₁
  have hsize : (h₁.place item j).size = h.size + 1 := place_size hroom hrise
  have hself : (h₁.place item j).map j = item := Function.update_self ..
  obtain ⟨c, hc0, hci, hcj, hlt⟩ := hrise.exists_smaller_child (hroom.cmp.trans hcmp) hj
  have hmap : (h₁.place item j).map c = h₁.map c :=
    Function.update_of_ne (show c ≠ j by omega) _ _
  have hedge := ho' c hc0 (by rw [hsize, ← hroom.size]; omega)
  rw [hcj, hself, hmap, less_byObj hcmp'] at hedge
  rw [less_byObj hcmp₁] at hlt
  exact Bool.noConfusion (hlt.symm.trans hedge)

/-- An item that stays where it is appended is in order exactly when it is not smaller than
the entry it is appended under. -/
theorem append_ordered_iff {g : Heap ι β} (hcmp : h.cmp = byObj lt) (ho : h.HeapOrdered)
    (hroom : Room h g) (item : ι) :
    (g.place item g.size).HeapOrdered
      ↔ (0 < h.size → h.less item (h.map ((h.size - 1) / 2)) = false) := by
  have hcmp' : (g.place item g.size).cmp = byObj lt := hroom.cmp.trans hcmp
  have hsize : (g.place item g.size).size = h.size + 1 := congrArg (· + 1) hroom.size
  have hobj : (g.place item g.size).obj ∘ (g.place item g.size).map
      = Function.update (g.obj ∘ g.map) h.size (g.obj item) := by
    rw [← hroom.size]
    exact Function.comp_update g.obj g.map g.size item
  have hread : ∀ k, k < h.size → (g.obj ∘ g.map) k = (h.obj ∘ h.map) k := by
    intro k hk
    show g.obj (g.map k) = h.obj (h.map k)
    rw [hroom.map k hk, hroom.obj]
  have hold := ((heapOrdered_iff hcmp).mp ho).congr hread
  rw [heapOrdered_iff hcmp', hsize, hobj, hold.update_last_iff]
  refine forall_congr' fun hpos => ?_
  rw [hread _ (by omega), hroom.obj]
  exact (less_eq_false hcmp).symm

/-- **When an insertion keeps the order**: exactly when the heap was empty or
the item ties with the entry it is appended under. -/
theorem heapInsert_ordered_iff (hw : h.WF) (hcmp : h.cmp = byObj lt) (ho : h.HeapOrdered)
    {item : ι} {alloc : Option (ℕ → ι)} (hg : h.Grows alloc)
    (hins : h.heapInsert item alloc = some (0, h')) :
    h'.HeapOrdered ↔ h.size = 0 ∨ h.TiesWithParent item := by
  rcases heapInsert_cases hw item hg with ⟨_, _, heq⟩ | ⟨g, h₁, j, hroom, hrise, heq⟩
  · rw [heq] at hins
    exact absurd (congrArg Prod.fst (Option.some.inj hins)) (by simp)
  · obtain rfl : h₁.place item j = h' := by
      rw [heq] at hins
      exact congrArg Prod.snd (Option.some.inj hins)
    have hparent : 0 < h.size →
        g.less (g.map ((g.size - 1) / 2)) item = h.less (h.map ((h.size - 1) / 2)) item := by
      intro hpos
      rw [hroom.size, hroom.map _ (by omega), hroom.less_eq]
    have hmoves := hrise
    cases hrise with
    | stop hstop =>
      rw [append_ordered_iff hcmp ho hroom item]
      constructor
      · intro hlast
        refine (Nat.eq_zero_or_pos h.size).imp_right fun hpos => ⟨?_, hlast hpos⟩
        rw [← hparent hpos]
        exact hstop (by rw [hroom.size]; exact hpos)
      · intro htie hpos
        exact (htie.resolve_left hpos.ne').2
    | move hi hless rest =>
      have hle := rest.le
      refine iff_of_false (hmoves.not_ordered hcmp hroom (by omega)) ?_
      rw [hroom.size] at hi
      rw [hparent hi] at hless
      rintro (h0 | htie)
      · exact hi.ne' h0
      · exact Bool.noConfusion (hless.symm.trans htie.1)

/-! ## Removal -/

/-- A removal keeps the order where the entry brought in is not smaller than the
one it is brought under. -/
theorem heapRemove_ordered [IsStrictWeakOrder β (ltRel lt)] (hw : h.WF)
    (hcmp : h.cmp = byObj lt) (ho : h.HeapOrdered) (hs : h.size < 2 ^ 31) (index : ℕ)
    (hi : index < h.size)
    (hlast : index = 0 ∨ h.less (h.map (h.size - 1)) (h.map ((index - 1) / 2)) = false) :
    ∃ h', h.heapRemove index = some (some (h.map index), h') ∧ Removed h index h'
      ∧ h'.HeapOrdered := by
  obtain ⟨h₁, hsift, heq⟩ := ((heapRemove_cases hw hs index).resolve_left (by omega)).2
  have hrem := removed_of_sifts hw hi hsift
  refine ⟨_, heq, hrem, ?_⟩
  rw [heapOrdered_iff (hrem.cmp.trans hcmp)]
  refine hsift.ordered (show (h.moveLast index).cmp = byObj lt from hcmp) ?_
  have hobj : (h.moveLast index).obj ∘ (h.moveLast index).map
      = Function.update (h.obj ∘ h.map) index (h.obj (h.map (h.size - 1))) :=
    Function.comp_update h.obj h.map index _
  rw [hobj]
  refine Ordered.downReady_update (n := h.size - 1) ?_ (by omega) ?_
  · rw [Nat.sub_add_cancel (by omega)]
    exact (heapOrdered_iff hcmp).mp ho
  · exact hlast.imp_right (less_eq_false hcmp).mp

/-- A removal that brings an entry under a greater one leaves it there: the sift-down finds
nothing smaller below. -/
theorem heapRemove_not_ordered [IsStrictWeakOrder β (ltRel lt)] (hw : h.WF)
    (hcmp : h.cmp = byObj lt) (ho : h.HeapOrdered) (hs : h.size < 2 ^ 31) {index : ℕ}
    (hi : index < h.size) (hpos : 0 < index)
    (hlast : h.less (h.map (h.size - 1)) (h.map ((index - 1) / 2)) = true) {p : Option ι}
    (hrun : h.heapRemove index = some (p, h')) : ¬ h'.HeapOrdered := by
  obtain ⟨h₁, hsift, heq⟩ := ((heapRemove_cases hw hs index).resolve_left (by omega)).2
  obtain ⟨-, rfl⟩ := Prod.mk.inj (Option.some.inj (hrun.symm.trans heq))
  have hord : Ordered (ltRel lt) (h.obj ∘ h.map) (h.size - 1 + 1) := by
    rw [Nat.sub_add_cancel (by omega)]
    exact (heapOrdered_iff hcmp).mp ho
  have hlt : ltRel lt (h.obj (h.map (h.size - 1))) (h.obj (h.map ((index - 1) / 2))) := by
    rw [less_byObj hcmp] at hlast
    exact hlast
  -- the last position itself hangs under nothing greater
  have hne : index ≠ h.size - 1 := by
    rintro rfl
    exact hord (h.size - 1) hpos (by omega) hlt
  have hcmp' : (h.moveLast index).cmp = byObj lt := hcmp
  have hself : (h.moveLast index).map index = h.map (h.size - 1) := Function.update_self ..
  cases hsift with
  | stop hstop =>
    intro ho'
    have hparent : (h.moveLast index).map ((index - 1) / 2) = h.map ((index - 1) / 2) :=
      Function.update_of_ne (by omega) _ _
    have hedge : ¬ ltRel lt (h.obj ((h.moveLast index).map index))
        (h.obj ((h.moveLast index).map ((index - 1) / 2))) :=
      (heapOrdered_iff (show ((h.moveLast index).retire _).cmp = byObj lt from hcmp)).mp ho'
        index hpos (show index < h.size - 1 by omega)
    rw [hself, hparent] at hedge
    exact hedge hlt
  | @swap _ _ _ c hc hcs hpick rest =>
    obtain ⟨hlt', -⟩ := hpick.min hcmp'
    have hchild : (h.moveLast index).map c = h.map c :=
      Function.update_of_ne hc.lt.ne' _ _
    rw [hself, hchild] at hlt'
    exact absurd hlt' (hord.not_lt_last hpos hlt hcs hc)

/-- **When a removal keeps the order**: exactly when it takes out the first item, or when the
last entry is not smaller than the one it is brought under. -/
theorem heap_remove_ordered_iff [IsStrictWeakOrder β (ltRel lt)] (h : Heap ι β) (hw : h.WF)
    (hcmp : h.cmp = byObj lt) (ho : h.HeapOrdered) (hs : h.size < 2 ^ 31) (index : ℕ)
    (hi : index < h.size) :
    (∃ h', h.heapRemove index = some (some (h.map index), h') ∧ h'.HeapOrdered)
      ↔ index = 0 ∨ h.less (h.map (h.size - 1)) (h.map ((index - 1) / 2)) = false := by
  constructor
  · rintro ⟨h', hrun, ho'⟩
    refine (Nat.eq_zero_or_pos index).imp_right fun hpos => ?_
    by_contra hlast
    rw [Bool.not_eq_false] at hlast
    exact heapRemove_not_ordered hw hcmp ho hs hi hpos hlast hrun ho'
  · intro hlast
    obtain ⟨h', hrun, -, ho'⟩ := heapRemove_ordered hw hcmp ho hs index hi hlast
    exact ⟨h', hrun, ho'⟩

/-- An ordered heap of seven numbers, in which the right subtree is smaller throughout than the
left one. -/
def skewHeap : Heap ℕ ℕ :=
  ⟨heapDefaultSize, 7, byObj fun a b => decide (a < b), fun k => [0, 10, 1, 11, 12, 2, 3].getD k 0,
    heapDefaultSize, fun p => ⟨[0, 10, 1, 11, 12, 2, 3].idxOf p, true⟩, id⟩

theorem skewHeap_ordered : skewHeap.HeapOrdered := by
  have hall : ∀ k < 7, 0 < k →
      skewHeap.less (skewHeap.map k) (skewHeap.map ((k - 1) / 2)) = false := by decide
  exact fun k hpos hk => hall k hk hpos

theorem skewHeap_wf : skewHeap.WF := ⟨by decide, by decide, by decide, by decide⟩

/-- Taking out the number `2` at position `5` brings `3` under `1`. -/
theorem heap_remove_ordered_right :
    ∃ h', skewHeap.heapRemove 5 = some (some 2, h') ∧ h'.HeapOrdered :=
  (heap_remove_ordered_iff skewHeap skewHeap_wf
    (show skewHeap.cmp = byObj fun a b => decide (a < b) from rfl) skewHeap_ordered (by decide) 5
    (by decide)).mpr (Or.inr (by decide))

/-- **A removal that breaks the order**: taking out `11` at position `3` brings `3` under `10`,
where it stays. -/
theorem heap_remove_breaks_order :
    skewHeap.WF ∧ skewHeap.HeapOrdered
      ∧ ∃ h', skewHeap.heapRemove 3 = some (some 11, h') ∧ ¬ h'.HeapOrdered := by
  refine ⟨skewHeap_wf, skewHeap_ordered, _, rfl, fun ho => ?_⟩
  exact absurd (ho 3 (by decide) (by decide)) (by decide)

/-! ## What comes to the front -/

/-- **What comes to the front** when a sift-down starts there: of the entry at the front and
the two below it, one that is not greater than the others. -/
theorem Sifts.front_min [IsStrictWeakOrder β (ltRel lt)] (hs : Sifts h 0 h')
    (hcmp : h.cmp = byObj lt) {k : ℕ} (hk : k < h.size) (hk2 : k ≤ 2) :
    ¬ ltRel lt (h.obj (h.map k)) (h.obj (h'.map 0)) := by
  have hchild : k ≠ 0 → IsChild k 0 := fun hk0 => isChild_iff.mpr (by omega)
  cases hs with
  | stop hstop =>
    by_cases hk0 : k = 0
    · rw [hk0]
      exact irrefl (r := ltRel lt) _
    · exact (less_eq_false hcmp).mp (hstop k hk (hchild hk0))
  | @swap _ _ _ c hc hcs hpick rest =>
    obtain ⟨hlt, hmin⟩ := hpick.min hcmp
    have hfront : h'.map 0 = h.map c := by
      obtain ⟨σ, hmap, hfix⟩ := rest.perm
      rw [hmap, Function.comp_apply, hfix 0 (Or.inl hc.1), swapAt_map, Function.comp_apply,
        Equiv.swap_apply_left]
    rw [hfront]
    by_cases hk0 : k = 0
    · rw [hk0]
      exact asymm (r := ltRel lt) hlt
    · exact hmin k hk (hchild hk0)

/-- **What a removal at the front brings there**: an entry not greater than the last one and
the two that were below the front. -/
theorem heapRemove_front_min [IsStrictWeakOrder β (ltRel lt)] (hw : h.WF)
    (hs : h.size < 2 ^ 31) (hcmp : h.cmp = byObj lt) {p : Option ι}
    (hrun : h.heapRemove 0 = some (p, h')) {k : ℕ} (hk0 : 0 < k) (hk : k < h.size)
    (hk2 : k ≤ 2 ∨ k + 1 = h.size) :
    ¬ ltRel lt (h.obj (h.map k)) (h.obj (h'.map 0)) := by
  obtain ⟨hge, -⟩ | ⟨-, h₁, hsift, heq⟩ := heapRemove_cases hw hs 0
  · omega
  · obtain ⟨-, rfl⟩ := Prod.mk.inj (Option.some.inj (hrun.symm.trans heq))
    have hcmp' : (h.moveLast 0).cmp = byObj lt := hcmp
    by_cases hlast : k + 1 = h.size
    · have hmap : (h.moveLast 0).map 0 = h.map k := by
        show Function.update h.map 0 (h.map (h.size - 1)) 0 = h.map k
        rw [Function.update_self, show h.size - 1 = k by omega]
      have hmin := hsift.front_min hcmp' (show 0 < (h.moveLast 0).size by
        show 0 < h.size - 1
        omega) (Nat.zero_le 2)
      rw [hmap] at hmin
      exact hmin
    · have hmap : (h.moveLast 0).map k = h.map k := Function.update_of_ne hk0.ne' _ _
      have hmin := hsift.front_min hcmp' (show k < (h.moveLast 0).size by
        show k < h.size - 1
        omega) (by omega)
      rw [hmap] at hmin
      exact hmin

/-- **The item stays below an entry**: one of those above the position it is appended at is
not smaller. -/
def Blocked (h : Heap ι β) (item : ι) : Prop :=
  ∃ m < h.size, 0 < (h.size + 1) / 2 ^ (m + 1)
    ∧ h.less (h.map ((h.size + 1) / 2 ^ (m + 1) - 1)) item = false

instance (h : Heap ι β) (item : ι) : Decidable (h.Blocked item) :=
  inferInstanceAs (Decidable (∃ m < h.size, _))

/-- A loop that ends at the front has gone past every entry above. -/
theorem Rises.passes {item : ι} {i j : ℕ} (hcmp : h.cmp = byObj lt) (hr : Rises item h i h' j)
    (hj : j = 0) (m : ℕ) (hm : 0 < (i + 1) / 2 ^ (m + 1)) :
    h.less (h.map ((i + 1) / 2 ^ (m + 1) - 1)) item = true := by
  induction hr generalizing m with
  | stop =>
    subst hj
    rw [Nat.div_eq_of_lt (Nat.one_lt_two_pow (by omega))] at hm
    omega
  | @move h h' i j hi hless rest ih =>
    have hup : (i + 1) / 2 = (i - 1) / 2 + 1 := by omega
    rw [Nat.pow_succ', ← Nat.div_div_eq_div_mul, hup] at hm ⊢
    cases m with
    | zero =>
      rw [Nat.pow_zero, Nat.div_one, Nat.add_sub_cancel]
      exact hless
    | succ m =>
      have hrest := ih hcmp hj m hm
      have hcmp' : (h.shiftDown i).cmp = byObj lt := hcmp
      have hle := Nat.div_le_self ((i - 1) / 2 + 1) (2 ^ (m + 1))
      have hne : ((i - 1) / 2 + 1) / 2 ^ (m + 1) - 1 ≠ i := by omega
      have hmap : (h.shiftDown i).map (((i - 1) / 2 + 1) / 2 ^ (m + 1) - 1)
          = h.map (((i - 1) / 2 + 1) / 2 ^ (m + 1) - 1) := Function.update_of_ne hne _ _
      rw [less_byObj hcmp', hmap] at hrest
      rw [less_byObj hcmp]
      exact hrest

/-- An insertion that is blocked does not go to the front. -/
theorem Blocked.index_ne_zero (hw : h.WF) (hcmp : h.cmp = byObj lt) {item : ι}
    {alloc : Option (ℕ → ι)} (hg : h.Grows alloc) (hrun : h.heapInsert item alloc = some (0, h'))
    (hb : h.Blocked item) : (h'.hi item).index ≠ 0 := by
  obtain ⟨m, -, hm, hless⟩ := hb
  obtain ⟨-, -, hneg⟩ | ⟨g, h₁, j, hroom, hrise, heq⟩ := heapInsert_cases hw item hg
  · exact absurd (hneg.symm.trans hrun) (by simp)
  · obtain ⟨-, rfl⟩ := Prod.mk.inj (Option.some.inj (hrun.symm.trans heq))
    rw [place_hi_self]
    intro hj
    have hpass := hrise.passes (hroom.cmp.trans hcmp) hj m (hroom.size ▸ hm)
    have hlt : (h.size + 1) / 2 ^ (m + 1) - 1 < h.size := by
      have hle : (h.size + 1) / 2 ^ (m + 1) ≤ (h.size + 1) / 2 :=
        Nat.div_le_div_left (Nat.le_self_pow (by omega) 2) (by decide)
      omega
    rw [hroom.size, hroom.less_eq, hroom.map _ hlt, hless] at hpass
    exact Bool.false_ne_true hpass

/-! ## Taking the first item again and again -/

/-- `heap_remove_first` called up to `n` times, with the items it returned, until
it returns `NULL`. -/
def heapDrain : ℕ → Heap ι β → Option (List ι × Heap ι β)
  | 0, h => some ([], h)
  | n + 1, h => do
    let (item, h) ← h.heapRemoveFirst
    match item with
    | none => return ([], h)
    | some item =>
      let (items, h) ← heapDrain n h
      return (item :: items, h)

omit [DecidableEq ι] in
/-- The front of an ordered heap is a minimum of what is stored. -/
theorem HeapOrdered.front_min [IsStrictWeakOrder β (ltRel lt)] (hcmp : h.cmp = byObj lt)
    (ho : h.HeapOrdered) {p : ι} (hp : p ∈ h.entries) :
    h.less p h.heapFront = false := by
  obtain ⟨k, hk, rfl⟩ := mem_entries.mp hp
  exact (less_eq_false hcmp).mpr (((heapOrdered_iff hcmp).mp ho).root_min k hk)

/-- **Draining an ordered heap lists all its items, in order.** -/
theorem heapDrain_sorted [IsStrictWeakOrder β (ltRel lt)] (hw : h.WF)
    (hcmp : h.cmp = byObj lt) (ho : h.HeapOrdered) (hs : h.size < 2 ^ 31) :
    ∃ items h', heapDrain h.size h = some (items, h') ∧ List.Perm items h.entries
      ∧ items.Pairwise (fun p q => lt (h.obj q) (h.obj p) = false) := by
  generalize hn : h.size = n at hs
  induction n generalizing h with
  | zero =>
    refine ⟨[], h, rfl, ?_, List.Pairwise.nil⟩
    rw [List.eq_nil_of_length_eq_zero (h.length_entries.trans hn)]
  | succ n ih =>
    obtain ⟨h₁, heq, hrem, ho₁⟩ := heapRemove_ordered hw hcmp ho (by omega) 0
      (by omega) (Or.inl rfl)
    have hsize := hrem.size
    obtain ⟨items, h', hdrain, hperm, hsorted⟩ :=
      ih hrem.wf (hrem.cmp.trans hcmp) ho₁ (by omega) (by omega)
    refine ⟨h.map 0 :: items, h', ?_, ?_, ?_⟩
    · rw [heapDrain, heapRemoveFirst, heq]
      simp only [Option.bind_eq_bind, Option.bind_some]
      rw [hdrain]
      rfl
    · exact (hperm.cons _).trans hrem.entries.symm
    · rw [hrem.obj] at hsorted
      refine List.pairwise_cons.mpr ⟨fun p hp => ?_, hsorted⟩
      have hmem : p ∈ h.entries := hrem.entries.mem_iff.mpr
        (List.mem_cons_of_mem _ (hperm.mem_iff.mp hp))
      rw [← less_byObj hcmp]
      exact ho.front_min hcmp hmem

/-! ## Whole runs -/

/-- What a run keeps: a well-formed, ordered heap with its comparison. -/
structure OrderInv (lt : β → β → Bool) (h : Heap ι β) : Prop where
  wf : h.WF
  cmp : h.cmp = byObj lt
  ordered : h.HeapOrdered

theorem orderInv_step [IsStrictWeakOrder β (ltRel lt)] (op : HeapOp ι)
    (hinv : OrderInv lt h) (hsafe : h.OrderSafe op) :
    ∃ h', HeapOp.step h op = some h' ∧ OrderInv lt h' := by
  obtain ⟨hw, hcmp, ho⟩ := hinv
  cases op with
  | insert item alloc =>
    obtain ⟨hg, hcase⟩ := hsafe
    rcases heapInsert_cases hw item hg with ⟨_, _, heq⟩ | ⟨g, h₁, j, hroom, hrise, heq⟩
    · exact ⟨h, by rw [HeapOp.step, heq]; rfl, hw, hcmp, ho⟩
    · have hins := inserted_of_rises hroom hrise
      refine ⟨_, by rw [HeapOp.step, heq]; rfl, hins.wf, hins.cmp.trans hcmp, ?_⟩
      by_cases hfail : h.heapFull = true ∧ alloc.isNone = true
      · -- a full heap with no memory does not reach the loop
        have hno : h.heapInsert item alloc = some (-1, h) := by
          unfold heapInsert
          rw [if_pos hfail.1, Option.isNone_iff_eq_none.mp hfail.2]
          rfl
        rw [heq] at hno
        exact absurd (congrArg Prod.fst (Option.some.inj hno)) (by simp)
      · exact (heapInsert_ordered_iff hw hcmp ho hg heq).mpr (hcase.resolve_left hfail)
  | remove index =>
    obtain ⟨hs, hcase⟩ := hsafe
    by_cases hi : index < h.size
    · obtain ⟨h', heq, hrem, ho'⟩ := heapRemove_ordered hw hcmp ho hs index hi
        (hcase.resolve_left (by omega))
      exact ⟨h', by rw [HeapOp.step, heq]; rfl, hrem.wf, hrem.cmp.trans hcmp, ho'⟩
    · have heq := ((heapRemove_cases hw hs index).resolve_right fun hc => hi hc.1).2
      exact ⟨h, by rw [HeapOp.step, heq]; rfl, hw, hcmp, ho⟩

/-- **The heap order over whole runs.** Every run, from a fresh heap, whose calls
are all `OrderSafe` returns; no entry is smaller than its parent, the front is a
minimum, and draining the heap lists its items in order. -/
theorem heap_order_run [IsStrictWeakOrder β (ltRel lt)] {maxSize : ℕ} {hi : ι → HeapItem}
    {obj : ι → β} {garbage : ℕ → ι} (hmax : maxSize < 2 ^ 32)
    (hinit : heapInit maxSize (byObj lt) hi obj (some garbage) = some h)
    (ops : List (HeapOp ι)) (hops : Meets HeapOp.step OrderSafe h ops) :
    ∃ h', run HeapOp.step h ops = some h' ∧ h'.HeapOrdered
      ∧ (∀ p ∈ h'.entries, h'.less p h'.heapFront = false)
      ∧ (h'.size < 2 ^ 31 → ∃ items h'', heapDrain h'.size h' = some (items, h'')
        ∧ List.Perm items h'.entries
        ∧ items.Pairwise (fun p q => lt (h'.obj q) (h'.obj p) = false)) := by
  obtain ⟨hw, hsize, hcmp, -, -⟩ := heapInit_wf hmax hinit
  have h0 : OrderInv lt h := ⟨hw, hcmp, fun k _ hk => by omega⟩
  obtain ⟨h', hrun, hinv⟩ := Run.total (fun s e hs he => orderInv_step e hs he) h0 hops
  exact ⟨h', hrun, hinv.ordered, fun p hp => hinv.ordered.front_min hinv.cmp hp,
    fun hs => heapDrain_sorted hinv.wf hinv.cmp hinv.ordered hs⟩

/-- An empty heap of numbers, as `heap_init` leaves it, each number standing for
an object of the given size. -/
def natHeap (obj : ℕ → ℕ) : Heap ℕ ℕ :=
  ⟨heapDefaultSize, 0, byObj fun a b => decide (a < b), fun _ => 0, heapDefaultSize,
    fun _ => ⟨0, false⟩, obj⟩

/-- Two items that tie may be inserted, and the first one removed again. -/
theorem heap_order_run_ties :
    ∃ h', run HeapOp.step (natHeap fun _ => 7) [.insert 1 none, .insert 2 none, .remove 0]
      = some h' ∧ h'.HeapOrdered := by
  have hinit : heapInit 0 (byObj fun a b => decide (a < b)) (fun _ => ⟨0, false⟩)
      (fun _ => 7) (some fun _ => 0) = some (natHeap fun _ => 7) := rfl
  obtain ⟨h', hrun, ho, -⟩ := heap_order_run (by decide) hinit
    [.insert 1 none, .insert 2 none, .remove 0] (by decide +kernel)
  exact ⟨h', hrun, ho⟩

/-- **Two insertions break the order**: inserting `1` and then `2` puts `2` at the
front, with the smaller `1` under it. -/
theorem heap_order_broken :
    IsStrictWeakOrder ℕ (ltRel fun a b => decide (a < b))
      ∧ heapInit 0 (byObj fun a b => decide (a < b)) (fun _ => ⟨0, false⟩) id
          (some fun _ => 0) = some (natHeap id)
      ∧ ∃ h', run HeapOp.step (natHeap id) [.insert 1 none, .insert 2 none] = some h'
        ∧ ¬ h'.HeapOrdered := by
  refine ⟨inferInstance, rfl, _, rfl, fun ho => ?_⟩
  exact absurd (ho 1 (by decide) (by decide)) (by decide)

end Heap
