import Ckit.HeapLog

/-!
# Where the positions of the heap wrap

Sizes and positions are `unsigned int`, and most of what is computed of them
stays in range on its own: the parent of position `0` is computed and never looked
at, and a size below the capacity can be counted up. Two computations do not. The
capacity of a heap that grows is `max_size + 100`, and a heap of `2^32 - 100` slots
or more is copied into a handful. The children of position `i` are `2 * i + 1` and
`2 * i + 2`, and from position `2^31 - 1` on one of the two, or both, come out among
the first positions.

`Fits` says that neither happens, of a call and the heap it is made on, and it is
exact: along every run the heap has as many slots as it believes and uses no more,
and every slot accessed is one of these and the one it is meant to be, if and only
if every call of the run `Fits`.
-/

namespace Heap

variable {ι β : Type} {h : Heap ι β}

/-! ## One call of `heap_heapify` -/

/-- The slot is one of the array and has its role for position `i`. -/
def InPlace (h : Heap ι β) (i : ℕ) (p : ℕ × Role) : Prop := p.1 < h.slots ∧ p.2.At i p.1

theorem inPlace_own {i : ℕ} (hi : i < h.slots) : h.InPlace i (i, .own) := ⟨hi, rfl⟩

theorem inPlace_parent {i : ℕ} (h0 : 0 < i) (hi : (i - 1) / 2 < h.slots) :
    h.InPlace i ((i - 1) / 2, .parent) :=
  ⟨hi, h0, rfl⟩

theorem always_logGet {i k : ℕ} {role : Role} :
    (h.logGet i k role).Always HeapEvent.Exact ↔ h.InPlace i (k, role) :=
  List.forall_mem_singleton

theorem always_logSet {i k : ℕ} {role : Role} {p : ι} :
    (h.logSet i k role p).Always HeapEvent.Exact ↔ h.InPlace i (k, role) :=
  List.forall_mem_singleton

theorem always_logLess (p q : ι) : (h.logLess p q).Always HeapEvent.Exact := by
  intro e he
  rcases List.mem_pair.mp he with rfl | rfl
  · trivial
  · trivial

/-- A test reads its two slots, where the child is in the heap, and settles on one of them. -/
theorem always_logSmaller {i : ℕ} {c s : ℕ × Role} (hf : h.size ≤ h.slots) (hs : h.InPlace i s) :
    (h.logSmaller i c s).Always HeapEvent.Exact ↔ (c.1 < h.size → h.InPlace i c) := by
  unfold logSmaller
  by_cases hc : c.1 < h.size
  · rw [if_pos hc, Traced.always_bind_of_eq (get_of_lt (hc.trans_le hf)), always_logGet,
      Traced.always_bind_of_eq (get_of_lt hs.1), always_logGet, Traced.always_bind]
    constructor
    · exact fun hall _ => hall.1
    · exact fun hall => ⟨hall hc, hs, always_logLess _ _, fun b _ => Traced.always_pure _⟩
  · rw [if_neg hc]
    exact iff_of_true (Traced.always_pure _) fun h' => absurd h' hc

theorem logSmaller_inPlace {i : ℕ} {c s t : ℕ × Role} (hc : c.1 < h.size → h.InPlace i c)
    (hs : h.InPlace i s) (ht : (h.logSmaller i c s).outcome = some t) : h.InPlace i t := by
  unfold logSmaller at ht
  by_cases hcs : c.1 < h.size
  · rw [if_pos hcs] at ht
    simp only [Traced.outcome_bind, Traced.outcome_pure, Option.bind_eq_some_iff,
      Option.some.injEq] at ht
    obtain ⟨p, -, q, -, b, -, rfl⟩ := ht
    cases b with
    | true => exact hc hcs
    | false => exact hs
  · rw [if_neg hcs] at ht
    exact Option.some.inj ht ▸ hs

variable [DecidableEq ι]

theorem always_logSetIndex (p : ι) (k : ℕ) : (h.logSetIndex p k).Always HeapEvent.Exact :=
  List.forall_mem_singleton.mpr trivial

theorem always_logSetActive (p : ι) (b : Bool) : (h.logSetActive p b).Always HeapEvent.Exact :=
  List.forall_mem_singleton.mpr trivial

/-- The exchange touches nothing but its two slots. -/
theorem always_logExchange {i : ℕ} {c : ℕ × Role} (hc : h.InPlace i c) (hi : i < h.slots) :
    (h.logExchange c i).Always HeapEvent.Exact := by
  have hown := inPlace_own hi
  unfold logExchange
  rw [Traced.always_bind]
  refine ⟨always_logGet.mpr hc, fun tmp _ => Traced.always_bind.mpr ?_⟩
  refine ⟨always_logGet.mpr hown, fun q _ => Traced.always_bind.mpr ?_⟩
  refine ⟨always_logSet.mpr hc, fun h₁ hh₁ => Traced.always_bind.mpr ?_⟩
  have hslots : h₁.slots = h.slots := set_slots hh₁
  have hc₁ : h₁.InPlace i c := ⟨hslots ▸ hc.1, hc.2⟩
  refine ⟨always_logGet.mpr hc₁, fun q' _ => Traced.always_bind.mpr ?_⟩
  refine ⟨always_logSetIndex _ _, fun h₂ hh₂ => Traced.always_bind.mpr ?_⟩
  obtain rfl : h₁.setIndex q' c.1 = h₂ := Option.some.inj hh₂
  have hi₂ : i < (h₁.setIndex q' c.1).slots := hslots ▸ hi
  refine ⟨always_logSet.mpr (inPlace_own hi₂), fun h₃ hh₃ => Traced.always_bind.mpr ?_⟩
  have hi₃ : i < h₃.slots := (set_slots hh₃).symm ▸ hi₂
  exact ⟨always_logGet.mpr (inPlace_own hi₃), fun tmp' _ => always_logSetIndex _ _⟩

/-- **A call whose children do not wrap**: its own accesses are right, and it comes down to
the call it ends with. -/
theorem always_logHeapify_succ {i s : ℕ} (fuel : ℕ) (hf : h.size ≤ h.slots) (hi : i < h.slots)
    (hfit : 2 * i + 2 < 2 ^ 32)
    (hsm : (h.smaller (2 * i + 1) i).bind (fun s => h.smaller (2 * i + 2) s) = some s) :
    (logHeapify (fuel + 1) h i).Always HeapEvent.Exact
      ↔ (s ≠ i → (logHeapify fuel (h.swapAt s i) s).Always HeapEvent.Exact) := by
  have hl : u32 (2 * i + 1) = 2 * i + 1 := u32_of_lt (by omega)
  have hr : u32 (2 * i + 1 + 1) = 2 * i + 2 := u32_of_lt hfit
  have hown := inPlace_own hi
  have hleft : 2 * i + 1 < h.size → h.InPlace i (2 * i + 1, .left) :=
    fun hlt => ⟨hlt.trans_le hf, rfl⟩
  have hright : 2 * i + 2 < h.size → h.InPlace i (2 * i + 2, .right) :=
    fun hlt => ⟨hlt.trans_le hf, rfl⟩
  -- what the two tests settle on, with its role
  obtain ⟨t, hst, hts⟩ := Option.bind_eq_some_iff.mp hsm
  rw [← outcome_logSmaller h i (2 * i + 1, .left) (i, .own)] at hst
  obtain ⟨p, hp, rfl⟩ := Option.map_eq_some_iff.mp hst
  rw [← outcome_logSmaller h i (2 * i + 2, .right) p] at hts
  obtain ⟨q, hq, rfl⟩ := Option.map_eq_some_iff.mp hts
  have hpin := logSmaller_inPlace hleft hown hp
  have hqin := logSmaller_inPlace hright hpin hq
  rw [logHeapify, hl, hr, Traced.always_bind_of_eq hp,
    and_iff_right ((always_logSmaller hf hown).mpr hleft), Traced.always_bind_of_eq hq,
    and_iff_right ((always_logSmaller hf hpin).mpr hright)]
  by_cases hqi : q.1 = i
  · rw [if_pos hqi]
    exact iff_of_true (Traced.always_pure _) fun hne => absurd hqi hne
  · have hex : (h.logExchange q i).outcome = some (h.swapAt q.1 i) := by
      rw [outcome_logExchange, exchange_eq hqin.1 hi]
    rw [if_neg hqi, Traced.always_bind_of_eq hex, and_iff_right (always_logExchange hqin hi)]
    exact ⟨fun hall _ => hall, fun hall => hall hqi⟩

/-- **A call whose children wrap** reads a slot that is not a child. -/
theorem not_always_logHeapify {i : ℕ} (fuel : ℕ) (hf : h.size ≤ h.slots) (hi : i < h.slots)
    (hle : i ≤ h.size) (hs : h.size + 1 < 2 ^ 32) (hwrap : 2 ^ 32 ≤ 2 * i + 2) :
    ¬ (logHeapify (fuel + 1) h i).Always HeapEvent.Exact := by
  intro hall
  have hown := inPlace_own hi
  rw [logHeapify, Traced.always_bind, always_logSmaller hf hown] at hall
  obtain ⟨hleft, hrest⟩ := hall
  unfold u32 at hleft hrest
  by_cases hlast : i = 2 ^ 31 - 1
  · -- the left child is the last position there is, and the right one is the root
    subst hlast
    have hout : (h.logSmaller (2 ^ 31 - 1) ((2 * (2 ^ 31 - 1) + 1) % 2 ^ 32, .left)
        (2 ^ 31 - 1, .own)).outcome = some (2 ^ 31 - 1, .own) := by
      unfold logSmaller
      rw [if_neg (by show ¬ ((2 * (2 ^ 31 - 1) + 1) % 2 ^ 32 < h.size); omega)]
      rfl
    have hright := hrest _ hout
    rw [Traced.always_bind, always_logSmaller hf hown] at hright
    have hat := (hright.1 (show (0 : ℕ) < h.size by omega)).2
    exact absurd hat (by decide)
  · have hat : (2 * i + 1) % 2 ^ 32 = 2 * i + 1 :=
      (hleft (show (2 * i + 1) % 2 ^ 32 < h.size by omega)).2
    omega

/-- **The accesses of `heap_heapify` are right exactly when the children of every position
the entry sinks to have positions that do not wrap.** -/
theorem always_logHeapify_iff (fuel : ℕ) {i : ℕ} (hf : h.size ≤ h.slots) (hi : i < h.slots)
    (hle : i ≤ h.size) (hs : h.size + 1 < 2 ^ 32) (hfuel : h.size < fuel + i) (hfuel' : 0 < fuel) :
    (logHeapify fuel h i).Always HeapEvent.Exact
      ↔ ∀ k, SinksTo h i k → 2 * k + 2 < 2 ^ 32 := by
  induction fuel generalizing h i with
  | zero => omega
  | succ fuel ih =>
    by_cases hfit : 2 * i + 2 < 2 ^ 32
    · obtain ⟨s, hsm, hcase⟩ := smaller_smaller hf hi
      rw [always_logHeapify_succ fuel hf hi hfit hsm]
      rcases hcase with ⟨rfl, hstop⟩ | ⟨hc, hcs, hpick⟩
      · refine iff_of_true (fun hne => absurd rfl hne) fun k hk => ?_
        cases hk with
        | here => exact hfit
        | swap _ hds hpick _ =>
          obtain ⟨d, hds, hd, hless⟩ := hpick.exists_smaller hds
          exact Bool.noConfusion (hless.symm.trans (hstop d hds hd))
      · have hic := hc.lt
        have hrest := ih (h := h.swapAt s i) (i := s) hf (hcs.trans_le hf) hcs.le hs
          (show h.size < fuel + s by omega) (by omega)
        rw [imp_iff_right hic.ne', hrest]
        constructor
        · intro hall k hk
          cases hk with
          | here => exact hfit
          | swap _ hds hpick' rest =>
            obtain rfl := hpick.unique hcs hpick' hds
            exact hall k rest
        · exact fun hall k hk => hall k (.swap hc hcs hpick hk)
    · refine iff_of_false (not_always_logHeapify fuel hf hi hle hs (by omega)) fun hall => ?_
      exact hfit (hall i .here)

/-! ## The operations -/

/-- **The accesses of `heap_remove` are right exactly where the removal does not wrap.** -/
theorem always_logRemove_iff (hw : h.WF) (index : ℕ) :
    (h.logRemove index).Always HeapEvent.Exact ↔ h.SinksWithin index := by
  unfold logRemove SinksWithin
  by_cases hge : h.size ≤ index
  · rw [if_pos hge]
    exact iff_of_true (Traced.always_pure _) fun hlt => absurd hlt (by omega)
  · have hslots := hw.slots_eq
    have hsize := hw.size_le
    have hmax := hw.max_lt
    have hfront : index < h.slots := by omega
    have hlast : h.size - 1 < h.slots := by omega
    rw [if_neg hge, Traced.always_bind_of_eq (get_of_lt hfront),
      and_iff_right (always_logGet.mpr (inPlace_own hfront))]
    -- from here on with the size counted down
    set g : Heap ι β := { h with size := h.size - 1 }
    have hfront' : index < g.slots := hfront
    have hlast' : g.size < g.slots := hlast
    rw [Traced.always_bind_of_eq (get_of_lt hlast'),
      and_iff_right (always_logGet.mpr (inPlace_own hlast')),
      Traced.always_bind_of_eq (set_of_lt hfront' _),
      and_iff_right (always_logSet.mpr (inPlace_own hfront')), Traced.always_bind]
    have hsift := always_logHeapify_iff (2 ^ 32) (h := h.moveLast index) (i := index)
      (show h.size - 1 ≤ h.slots by omega) hfront (show index ≤ h.size - 1 by omega)
      (show h.size - 1 + 1 < 2 ^ 32 by omega) (show h.size - 1 < 2 ^ 32 + index by omega)
      (by decide)
    constructor
    · exact fun hall _ => hsift.mp hall.1
    · intro hall
      refine ⟨hsift.mpr (hall (by omega)), fun h₁ _ => ?_⟩
      refine Traced.always_bind.mpr ⟨always_logSetIndex _ _, fun h₂ _ => ?_⟩
      exact Traced.always_bind.mpr ⟨always_logSetActive _ _, fun _ _ => Traced.always_pure _⟩

/-- The loop of `heap_insert` goes from each position to its parent, for every comparison. -/
theorem always_logInsertLoop (fuel : ℕ) {i : ℕ} (item : ι) (hi : i < h.slots) (hi' : i < 2 ^ 32) :
    (logInsertLoop fuel h item i).Always HeapEvent.Exact := by
  induction fuel generalizing h i with
  | zero => exact fun _ he => absurd he List.not_mem_nil
  | succ fuel ih =>
    rw [logInsertLoop]
    by_cases h0 : 0 < i
    · have hparent : (i - 1) / 2 < h.slots := by omega
      rw [if_pos h0, u32_of_lt (by omega), Traced.always_bind_of_eq (get_of_lt hparent),
        and_iff_right (always_logGet.mpr (inPlace_parent h0 hparent)),
        Traced.always_bind_of_eq (a := h.less (h.map ((i - 1) / 2)) item) rfl,
        and_iff_right (always_logLess _ _)]
      by_cases hless : h.less (h.map ((i - 1) / 2)) item = true
      · have hset := set_of_lt hi (h.map ((i - 1) / 2))
        rw [if_pos hless, Traced.always_bind_of_eq (get_of_lt hparent),
          and_iff_right (always_logGet.mpr (inPlace_parent h0 hparent)),
          Traced.always_bind_of_eq hset, and_iff_right (always_logSet.mpr (inPlace_own hi)),
          Traced.always_bind_of_eq (get_of_set hset), Traced.always_bind_of_eq rfl]
        refine ⟨always_logGet.mpr (inPlace_own hi), always_logSetIndex _ _, ?_⟩
        exact ih hparent (by omega)
      · rw [if_neg hless]
        exact Traced.always_pure _
    · rw [if_neg h0]
      exact Traced.always_pure _

/-- With room for one more item, the accesses of `heap_insert` are right. -/
theorem always_logInsertPlace (hw : h.WF) (hroom : h.size < h.maxSize) (item : ι) :
    (h.logInsertPlace item).Always HeapEvent.Exact := by
  have hslots := hw.slots_eq
  have hmax := hw.max_lt
  obtain ⟨h', j, hrun, hrise⟩ := insertLoop_rises (h.size + 1) item
    (show h.size < h.slots by omega) (by omega) (Nat.lt_succ_self _)
  have hj : j < h'.slots := by
    rw [hrise.shape.slots]
    exact hrise.le.trans_lt (by omega)
  rw [← outcome_logInsertLoop] at hrun
  unfold logInsertPlace
  rw [Traced.always_bind_of_eq hrun,
    and_iff_right (always_logInsertLoop _ item (by omega) (by omega)),
    Traced.always_bind_of_eq (set_of_lt hj item),
    and_iff_right (always_logSet.mpr (inPlace_own hj))]
  exact Traced.always_bind.mpr ⟨always_logSetIndex _ _, fun _ _ => always_logSetActive _ _⟩

omit [DecidableEq ι] in
/-- The copy of a heap that grows stays inside both arrays exactly when the larger capacity
does not wrap. -/
theorem always_logIncreaseSize_iff (hw : h.WF) (hfull : h.heapFull = true)
    (alloc : Option (ℕ → ι)) :
    (h.logIncreaseSize heapDefaultIncreaseSize alloc).Always HeapEvent.Exact
      ↔ h.Grows alloc := by
  have hslots := hw.slots_eq
  have hle := hw.size_le
  have hpos := hw.max_pos
  have hmax := hw.max_lt
  have hfull' : h.maxSize ≤ h.size := of_decide_eq_true hfull
  unfold Grows
  rw [imp_iff_right hfull]
  cases alloc with
  | none => exact iff_of_true (fun _ he => absurd he List.not_mem_nil) fun hs => Bool.noConfusion hs
  | some garbage =>
    rw [imp_iff_right (show (some garbage).isSome = true from rfl)]
    unfold heapDefaultIncreaseSize
    constructor
    · intro hall
      by_contra hwrap
      -- the last slot copied is far beyond the new array
      have hmem : HeapEvent.slot (h.size - 1) (u32 (h.maxSize + 100)) (h.size - 1) .own
          ∈ (h.logIncreaseSize 100 (some garbage)).log := by
        refine List.mem_flatMap.mpr ⟨h.size - 1, List.mem_range.mpr (by omega), ?_⟩
        exact List.mem_cons_of_mem _ List.mem_cons_self
      have hlt : h.size - 1 < u32 (h.maxSize + 100) := (hall _ hmem).1
      unfold u32 at hlt
      omega
    · intro hfit e he
      obtain ⟨k, hk, he⟩ := List.mem_flatMap.mp he
      have hks := List.mem_range.mp hk
      rcases List.mem_pair.mp he with rfl | rfl
      · exact ⟨by omega, rfl⟩
      · refine ⟨?_, rfl⟩
        rw [u32_of_lt hfit]
        omega

/-- **The accesses of `heap_insert` are right exactly where its growth does not wrap.** -/
theorem always_logInsert_iff (hw : h.WF) (item : ι) (alloc : Option (ℕ → ι)) :
    (h.logInsert item alloc).Always HeapEvent.Exact ↔ h.Grows alloc := by
  have hplace : ∀ g : Heap ι β, g.WF → g.size < g.maxSize →
      (g.logInsertPlace item >>= fun h' => (pure (0, h') : Traced (HeapEvent ι) (ℤ × _))).Always
        HeapEvent.Exact := fun g hg hroom =>
    Traced.always_bind.mpr ⟨always_logInsertPlace hg hroom item, fun _ _ => Traced.always_pure _⟩
  unfold logInsert
  by_cases hfull : h.heapFull = true
  · rw [if_pos hfull, Traced.always_bind, always_logIncreaseSize_iff hw hfull]
    refine ⟨And.left, fun hg => ⟨hg, fun rh hrh => ?_⟩⟩
    have hrh' : h.heapIncreaseSize heapDefaultIncreaseSize alloc = some rh := hrh
    cases alloc with
    | none =>
      obtain rfl : (-1, h) = rh := Option.some.inj hrh'
      exact Traced.always_pure _
    | some garbage =>
      rw [heapIncreaseSize_eq hw (hg hfull rfl)] at hrh'
      obtain rfl : (0, h.grown garbage) = rh := Option.some.inj hrh'
      have hroom := grown_room hw (hg hfull rfl) garbage
      exact hplace _ hroom.wf hroom.room
  · rw [if_neg hfull]
    have hroom : h.size < h.maxSize := by
      unfold heapFull at hfull
      simpa using hfull
    exact iff_of_true (hplace h hw hroom) fun hf => absurd hf hfull

/-! ## Whole runs -/

/-- **The calls whose arithmetic fits `unsigned int`**, on the heap they are made on: an
insertion that does not grow the heap to `2^32` slots, and a removal after which the last entry
sinks only to positions whose children have one. -/
def Fits (h : Heap ι β) : HeapOp ι → Prop
  | .insert _ alloc => h.Grows alloc
  | .remove index => h.SinksWithin index

/-- A call on fewer than `2^31` items fits. -/
theorem fits_of_lt (hs : h.size < 2 ^ 31) (op : HeapOp ι) : h.Fits op := by
  cases op with
  | insert item alloc => exact grows_of_lt hs alloc
  | remove index => exact fun hi => sinksWithin_of_le hs.le (by omega) hi

omit [DecidableEq ι] in
/-- **The heap has the slots it believes it has, and uses no more than those.** -/
def Sized (h : Heap ι β) : Prop := h.size ≤ h.maxSize ∧ h.maxSize = h.slots

/-- **Every slot the call accesses is one of the array, and the one it is meant to be.** -/
def Exact (h : Heap ι β) (op : HeapOp ι) : Prop := (h.logStep op).Always HeapEvent.Exact

theorem exact_iff_fits (hw : h.WF) (op : HeapOp ι) : h.Exact op ↔ h.Fits op := by
  unfold Exact
  cases op with
  | insert item alloc =>
    exact Traced.always_bind.trans ((and_iff_left fun _ _ => Traced.always_pure _).trans
      (always_logInsert_iff hw item alloc))
  | remove index =>
    exact Traced.always_bind.trans ((and_iff_left fun _ _ => Traced.always_pure _).trans
      (always_logRemove_iff hw index))

/-- A call that fits returns a well-formed heap. -/
theorem wf_step (op : HeapOp ι) (hw : h.WF) (hfit : h.Fits op) :
    ∃ h', HeapOp.step h op = some h' ∧ h'.WF := by
  cases op with
  | insert item alloc =>
    rcases heapInsert_cases hw item hfit with ⟨_, _, heq⟩ | ⟨g, h₁, j, hroom, hrise, heq⟩
    · exact ⟨h, by rw [HeapOp.step, heq]; rfl, hw⟩
    · exact ⟨_, by rw [HeapOp.step, heq]; rfl, (inserted_of_rises hroom hrise).wf⟩
  | remove index =>
    rcases heapRemove_cases_of hw hfit with ⟨_, heq⟩ | ⟨hi, h₁, hsift, heq⟩
    · exact ⟨h, by rw [HeapOp.step, heq]; rfl, hw⟩
    · exact ⟨_, by rw [HeapOp.step, heq]; rfl, (removed_of_sifts hw hi hsift).wf⟩

/-- **When the arithmetic of the heap never wraps.** For every capacity given to
`heap_init`, every comparison and every run of insertions and removals, with `malloc` failing
wherever it likes: every call returns, every state has the slots it believes it has and uses no
more, and every slot accessed is one of these and the true parent or child it is meant to be, if
and only if every call fits. -/
theorem heap_never_wraps_iff {maxSize : ℕ} {cmp : HeapItem × β → HeapItem × β → Bool}
    {hi : ι → HeapItem} {obj : ι → β} {garbage : ℕ → ι} (hmax : maxSize < 2 ^ 32)
    (hinit : heapInit maxSize cmp hi obj (some garbage) = some h) (ops : List (HeapOp ι)) :
    (∃ h', run HeapOp.step h ops = some h') ∧ Along HeapOp.step Sized h ops
        ∧ Meets HeapOp.step Exact h ops
      ↔ Meets HeapOp.step Fits h ops := by
  have hw := (heapInit_wf hmax hinit).1
  have hiff : Meets HeapOp.step Exact h ops ↔ Meets HeapOp.step Fits h ops := by
    refine Run.meets_iff_meets (fun s e hs => exact_iff_fits hs e) (fun s e s' hs he hstep => ?_) hw
    obtain ⟨t, ht, hwt⟩ := wf_step e hs ((exact_iff_fits hs e).mp he)
    exact Option.some.inj (ht.symm.trans hstep) ▸ hwt
  constructor
  · exact fun hall => hiff.mp hall.2.2
  · intro hfits
    obtain ⟨⟨h', hrun, -⟩, hal⟩ := Run.total_within (J := fun _ => WF) (B := fun _ => True)
      (P := Sized) (fun _ s hs => ⟨hs.size_le, hs.slots_eq.symm⟩)
      (fun e _ s hs he => by
        obtain ⟨t, ht, hwt⟩ := wf_step e hs he
        exact ⟨t, ht, fun _ => hwt⟩)
      hw hfits (Run.along_of_forall (fun _ => trivial) h ops)
    exact ⟨⟨h', hrun⟩, hal, hiff.mpr hfits⟩

/-- An empty heap of numbers, with `n` slots. -/
def numbers (n : ℕ) : Heap ℕ ℕ :=
  ⟨n, 0, fun a b => decide (a.2 < b.2), fun _ => 0, n, fun _ => ⟨0, false⟩, id⟩

theorem heapInit_numbers {n : ℕ} (hn : n ≠ 0) :
    heapInit n (fun a b => decide (a.2 < b.2)) (fun _ => ⟨0, false⟩) id (some fun _ => 0)
      = some (numbers n) := by
  unfold heapInit
  dsimp only
  rw [if_neg hn]
  rfl

/-- Six insertions, the fourth of which grows the heap, and the removal of the second item, to
whose place the last one comes and sinks. -/
def sinkingCalls : List (HeapOp ℕ) :=
  [.insert 9 none, .insert 2 none, .insert 8 none, .insert 1 (some fun _ => 0), .insert 0 none,
    .insert 7 none, .remove 1]

theorem heap_never_wraps_sinking :
    (∃ h', run HeapOp.step (numbers 3) sinkingCalls = some h' ∧ h'.entries = [9, 0, 8, 1, 7]
        ∧ h'.slots = 103)
      ∧ Along HeapOp.step Sized (numbers 3) sinkingCalls
      ∧ Meets HeapOp.step Exact (numbers 3) sinkingCalls := by
  have hfits : Meets HeapOp.step Fits (numbers 3) sinkingCalls :=
    Run.meets_of_along (fun _ op hs _ => fits_of_lt hs op)
      (P := fun h => h.size < 2 ^ 31) (by decide +kernel) (Run.meets_true _ _)
  exact ⟨⟨_, rfl, rfl, rfl⟩,
    ((heap_never_wraps_iff (by decide) (heapInit_numbers (by decide)) _).mpr hfits).2⟩

/-! ## Two runs that wrap -/

/-- Insertions that do not fill the heap leave its capacity alone. -/
theorem run_inserts (hw : h.WF) (item : ℕ → ι) {n : ℕ} (hn : h.size + n ≤ h.maxSize) :
    ∃ h', run HeapOp.step h ((List.range n).map fun k => .insert (item k) none) = some h'
      ∧ h'.WF ∧ h'.size = h.size + n ∧ h'.maxSize = h.maxSize := by
  induction n with
  | zero => exact ⟨h, rfl, hw, rfl, rfl⟩
  | succ n ih =>
    obtain ⟨g, hrun, hg, hsize, hmax⟩ := ih (by omega)
    have hroom : g.size < g.maxSize := by omega
    have hnot : ¬ g.heapFull = true := by
      unfold heapFull
      simpa using hroom
    obtain ⟨h', j, hrise, hplace⟩ := insertPlace_eq hg hroom (item n)
    have hins := inserted_of_rises ⟨hg, hroom, rfl, rfl, rfl, rfl, fun _ _ => rfl⟩ hrise
    refine ⟨h'.place (item n) j, ?_, hins.wf, by rw [hins.size]; omega,
      hrise.shape.maxSize.trans hmax⟩
    rw [List.range_succ, List.map_append, Run.run_append, hrun]
    show run HeapOp.step g [.insert (item n) none] = _
    rw [Run.run_cons, HeapOp.step, heapInsert, if_neg hnot, hplace]
    rfl

/-- The insertion of the numbers below `n`. -/
def insertAll (n : ℕ) : List (HeapOp ℕ) := (List.range n).map fun k => .insert k none

/-- A run that fills the heap and then makes a call that does not fit. -/
theorem not_exact_after_insertAll {n : ℕ} (h0 : n ≠ 0) (hn : n < 2 ^ 32) (op : HeapOp ℕ)
    (hop : ∀ g : Heap ℕ ℕ, g.size = n → g.maxSize = n → ¬ g.Fits op) :
    ¬ Meets HeapOp.step Exact (numbers n) (insertAll n ++ [op]) := by
  intro hall
  obtain ⟨g, hrun, hg, hsize, hmax⟩ := run_inserts (h := numbers n)
    (heapInit_wf hn (heapInit_numbers h0)).1 id (n := n) (Nat.zero_add n).le
  have hexact := (Run.meets_of_append hall hrun).1
  exact hop g (hsize.trans (Nat.zero_add n)) hmax ((exact_iff_fits hg op).mp hexact)

/-- **The arithmetic does wrap.** In a heap of `2^31` items, removing the last one looks for its
right child and reads the root. In a full heap of `2^32 - 1` slots, an insertion copies all of
them into an array of `99`. -/
theorem heap_wraps :
    (heapInit (2 ^ 31) (fun a b => decide (a.2 < b.2)) (fun _ => ⟨0, false⟩) id
          (some fun _ => 0) = some (numbers (2 ^ 31))
        ∧ ¬ (Along HeapOp.step Sized (numbers (2 ^ 31))
              (insertAll (2 ^ 31) ++ [HeapOp.remove (2 ^ 31 - 1)])
            ∧ Meets HeapOp.step Exact (numbers (2 ^ 31))
              (insertAll (2 ^ 31) ++ [HeapOp.remove (2 ^ 31 - 1)])))
      ∧ heapInit (2 ^ 32 - 1) (fun a b => decide (a.2 < b.2)) (fun _ => ⟨0, false⟩) id
          (some fun _ => 0) = some (numbers (2 ^ 32 - 1))
        ∧ ¬ (Along HeapOp.step Sized (numbers (2 ^ 32 - 1))
              (insertAll (2 ^ 32 - 1) ++ [HeapOp.insert (2 ^ 32 - 1) (some fun _ => 0)])
            ∧ Meets HeapOp.step Exact (numbers (2 ^ 32 - 1))
              (insertAll (2 ^ 32 - 1) ++ [HeapOp.insert (2 ^ 32 - 1) (some fun _ => 0)])) := by
  have hsmall : ¬ Meets HeapOp.step Exact (numbers (2 ^ 31))
      (insertAll (2 ^ 31) ++ [HeapOp.remove (2 ^ 31 - 1)]) := by
    refine not_exact_after_insertAll (n := 2 ^ 31) (by decide) (by decide) (.remove (2 ^ 31 - 1))
      fun g hg _ hfits => ?_
    exact absurd (hfits (by omega) _ .here) (by decide)
  have hlarge : ¬ Meets HeapOp.step Exact (numbers (2 ^ 32 - 1))
      (insertAll (2 ^ 32 - 1) ++ [HeapOp.insert (2 ^ 32 - 1) (some fun _ => 0)]) := by
    refine not_exact_after_insertAll (n := 2 ^ 32 - 1) (by decide) (by decide)
      (.insert (2 ^ 32 - 1) (some fun _ => 0)) fun g hg hmax hfits => ?_
    have hfit := hfits (decide_eq_true (by omega)) rfl
    unfold heapDefaultIncreaseSize at hfit
    omega
  exact ⟨⟨heapInit_numbers (by decide), not_and_of_not_right _ hsmall⟩,
    heapInit_numbers (by decide), not_and_of_not_right _ hlarge⟩

end Heap
