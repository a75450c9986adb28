import Mathlib.Algebra.Group.End
import Ckit.Heap

/-!
# What the two loops of the heap do

`heap_heapify` and the loop of `heap_insert` are told once, here, as the list of
their moves: `Sifts` for the exchanges on the way down, `Rises` for the shifts
on the way up. Everything proved later about a heap operation is an induction
over these moves, and none of it unfolds the loops again.

`heapHeapify_sifts` and `insertLoop_rises` say that the loops return and do
nothing else, for any comparison at all: only the positions are bounded. The
bound `2^31` of the way down is where `2 * i + 2` would leave `unsigned int`.
-/

namespace Heap

variable {ι β : Type}

/-- What a loop leaves alone: everything but the slots and the index fields. -/
structure SameShape (h h' : Heap ι β) : Prop where
  maxSize : h'.maxSize = h.maxSize
  size : h'.size = h.size
  slots : h'.slots = h.slots
  cmp : h'.cmp = h.cmp
  obj : h'.obj = h.obj
  active : ∀ p, (h'.hi p).active = (h.hi p).active

theorem SameShape.rfl' (h : Heap ι β) : SameShape h h := ⟨rfl, rfl, rfl, rfl, rfl, fun _ => rfl⟩

theorem SameShape.trans {h₁ h₂ h₃ : Heap ι β} (h : SameShape h₁ h₂) (h' : SameShape h₂ h₃) :
    SameShape h₁ h₃ :=
  ⟨h'.maxSize.trans h.maxSize, h'.size.trans h.size, h'.slots.trans h.slots,
    h'.cmp.trans h.cmp, h'.obj.trans h.obj, fun p => (h'.active p).trans (h.active p)⟩

theorem get_of_lt {h : Heap ι β} {k : ℕ} (hk : k < h.slots) : h.get k = some (h.map k) :=
  if_pos hk

theorem set_of_lt {h : Heap ι β} {k : ℕ} (hk : k < h.slots) (p : ι) :
    h.set k p = some { h with map := Function.update h.map k p } :=
  if_pos hk

variable [DecidableEq ι]

/-! ## The exchange -/

/-- The exchange of `heap_heapify`, where it stays inside the allocation. -/
def swapAt (h : Heap ι β) (c i : ℕ) : Heap ι β :=
  ({ h with map := h.map ∘ Equiv.swap i c }.setIndex (h.map i) c).setIndex (h.map c) i

theorem exchange_eq {h : Heap ι β} {c i : ℕ} (hc : c < h.slots) (hi : i < h.slots) :
    h.exchange c i = some (h.swapAt c i) := by
  unfold exchange swapAt
  rw [get_of_lt hc, get_of_lt hi]
  simp only [Option.bind_eq_bind, Option.bind_some, set_of_lt hc, setIndex]
  rw [set_of_lt (by exact hi)]
  simp only [Option.bind_some, Equiv.comp_swap_eq_update, Option.pure_def]

@[simp] theorem swapAt_map (h : Heap ι β) (c i : ℕ) :
    (h.swapAt c i).map = h.map ∘ Equiv.swap i c := rfl

@[simp] theorem swapAt_size (h : Heap ι β) (c i : ℕ) : (h.swapAt c i).size = h.size := rfl

@[simp] theorem setIndex_active (h : Heap ι β) (p q : ι) (k : ℕ) :
    ((h.setIndex p k).hi q).active = (h.hi q).active := by
  show (Function.update h.hi p _ q).active = _
  by_cases hq : q = p
  · subst hq
    rw [Function.update_self]
  · rw [Function.update_of_ne hq]

theorem setIndex_index_self (h : Heap ι β) (p : ι) (k : ℕ) :
    ((h.setIndex p k).hi p).index = k := by
  show (Function.update h.hi p _ p).index = k
  rw [Function.update_self]

theorem setIndex_hi_of_ne (h : Heap ι β) {p q : ι} (k : ℕ) (hq : q ≠ p) :
    (h.setIndex p k).hi q = h.hi q :=
  Function.update_of_ne hq _ _

theorem swapAt_shape (h : Heap ι β) (c i : ℕ) : SameShape h (h.swapAt c i) :=
  ⟨rfl, rfl, rfl, rfl, rfl, fun p => by unfold swapAt; rw [setIndex_active, setIndex_active]⟩

theorem swapAt_hi_of_ne (h : Heap ι β) {c i : ℕ} {p : ι} (hc : p ≠ h.map c)
    (hi : p ≠ h.map i) : (h.swapAt c i).hi p = h.hi p := by
  unfold swapAt
  rw [setIndex_hi_of_ne _ _ hc, setIndex_hi_of_ne _ _ hi]

/-- After the exchange the entry brought up has its position … -/
theorem swapAt_index_up (h : Heap ι β) (c i : ℕ) :
    ((h.swapAt c i).hi (h.map c)).index = i :=
  setIndex_index_self _ _ _

/-- … and so has the entry brought down, unless the two are one object. -/
theorem swapAt_index_down (h : Heap ι β) {c i : ℕ} (hne : h.map i ≠ h.map c) :
    ((h.swapAt c i).hi (h.map i)).index = c := by
  unfold swapAt
  rw [setIndex_hi_of_ne _ _ hne, setIndex_index_self]

/-! ## The way down -/

/-- **The child the two tests of `heap_heapify` settle on**: the left one, where
the right one is not smaller still, or the right one, compared with the left
one where that was already chosen. -/
def Picks (h : Heap ι β) (i c : ℕ) : Prop :=
  (c = 2 * i + 1 ∧ h.less (h.map c) (h.map i) = true
      ∧ (2 * i + 2 < h.size → h.less (h.map (2 * i + 2)) (h.map c) = false))
    ∨ (c = 2 * i + 2
      ∧ (h.less (h.map (2 * i + 1)) (h.map i) = true
            ∧ h.less (h.map c) (h.map (2 * i + 1)) = true
          ∨ h.less (h.map (2 * i + 1)) (h.map i) = false
            ∧ h.less (h.map c) (h.map i) = true))

omit [DecidableEq ι] in
/-- Where a child is picked, one of the children is smaller. -/
theorem Picks.exists_smaller {h : Heap ι β} {i c : ℕ} (hpick : h.Picks i c) (hc : c < h.size) :
    ∃ d, d < h.size ∧ IsChild d i ∧ h.less (h.map d) (h.map i) = true := by
  rcases hpick with ⟨rfl, hlt, -⟩ | ⟨rfl, ⟨hlt, -⟩ | ⟨-, hlt⟩⟩
  · exact ⟨_, hc, isChild_left i, hlt⟩
  · exact ⟨2 * i + 1, by omega, isChild_left i, hlt⟩
  · exact ⟨_, hc, isChild_right i, hlt⟩

omit [DecidableEq ι] in
/-- There is one child to pick. -/
theorem Picks.unique {h : Heap ι β} {i c d : ℕ} (hc : h.Picks i c) (hcs : c < h.size)
    (hd : h.Picks i d) (hds : d < h.size) : c = d := by
  have key : ∀ {c d}, h.Picks i c → h.Picks i d → d < h.size → c = 2 * i + 1 →
      d ≠ 2 * i + 2 := by
    rintro c d hc hd hds rfl rfl
    rcases hc with ⟨-, hli, hr⟩ | ⟨hne, -⟩
    · rcases hd with ⟨hne, -⟩ | ⟨-, ⟨-, hrl⟩ | ⟨hli', -⟩⟩
      · omega
      · exact Bool.noConfusion (hrl.symm.trans (hr hds))
      · exact Bool.noConfusion (hli.symm.trans hli')
    · omega
  have hc' : c = 2 * i + 1 ∨ c = 2 * i + 2 := hc.imp And.left And.left
  have hd' : d = 2 * i + 1 ∨ d = 2 * i + 2 := hd.imp And.left And.left
  rcases hc' with rfl | rfl
  · exact (hd'.resolve_right (key hc hd hds rfl)).symm
  · exact (hd'.resolve_left fun heq => key hd hc hcs heq rfl).symm

/-- The order of the items that the comparison gives. -/
def Less (h : Heap ι β) (p q : ι) : Prop := h.less p q = true

omit [DecidableEq ι] in
theorem not_less {h : Heap ι β} {p q : ι} : ¬ h.Less p q ↔ h.less p q = false := by
  rw [Less, Bool.not_eq_true]

omit [DecidableEq ι] in
/-- **The child picked is a smallest one**, and smaller than the entry above it. -/
theorem Picks.least {h : Heap ι β} [IsStrictWeakOrder ι h.Less] {i c : ℕ} (hpick : h.Picks i c) :
    h.Less (h.map c) (h.map i)
      ∧ ∀ d, d < h.size → IsChild d i → ¬ h.Less (h.map d) (h.map c) := by
  rcases hpick with ⟨rfl, hci, hr⟩ | ⟨rfl, ⟨hli, hrl⟩ | ⟨hli, hri⟩⟩
  · refine ⟨hci, fun d hd hdi => ?_⟩
    rcases isChild_iff.mp hdi with rfl | rfl
    · exact irrefl (r := h.Less) _
    · exact not_less.mpr (hr hd)
  · refine ⟨IsTrans.trans (r := h.Less) _ _ _ hrl hli, fun d _ hdi => ?_⟩
    rcases isChild_iff.mp hdi with rfl | rfl
    · exact fun hlr => irrefl (r := h.Less) _ (IsTrans.trans (r := h.Less) _ _ _ hlr hrl)
    · exact irrefl (r := h.Less) _
  · refine ⟨hri, fun d _ hdi => ?_⟩
    rcases isChild_iff.mp hdi with rfl | rfl
    · -- a left child smaller than the right one would be smaller than the parent too
      exact fun hlr => not_less.mpr hli (IsTrans.trans (r := h.Less) _ _ _ hlr hri)
    · exact irrefl (r := h.Less) _

/-- **The moves of `heap_heapify`**: it stops where neither child is smaller,
and otherwise exchanges with the child picked and goes on from there. -/
inductive Sifts : Heap ι β → ℕ → Heap ι β → Prop
  | stop {h : Heap ι β} {i : ℕ}
      (hstop : ∀ c, c < h.size → IsChild c i → h.less (h.map c) (h.map i) = false) :
      Sifts h i h
  | swap {h h' : Heap ι β} {i c : ℕ} (hc : IsChild c i) (hcs : c < h.size)
      (hpick : h.Picks i c) (rest : Sifts (h.swapAt c i) c h') : Sifts h i h'

omit [DecidableEq ι] in
theorem smaller_of_lt {h : Heap ι β} {c s : ℕ} (hf : h.size ≤ h.slots)
    (hs : s < h.slots) (hc : c < h.size) :
    h.smaller c s = some (if h.less (h.map c) (h.map s) then c else s) := by
  unfold smaller
  rw [if_pos hc, get_of_lt (by omega), get_of_lt hs]
  rfl

omit [DecidableEq ι] in
theorem smaller_of_le {h : Heap ι β} {c s : ℕ} (hc : h.size ≤ c) :
    h.smaller c s = some s := by
  unfold smaller
  rw [if_neg (by omega)]
  rfl

omit [DecidableEq ι] in
/-- The two tests settle on `i` itself, with no child smaller, or on a child
that `Picks` describes. -/
theorem smaller_smaller {h : Heap ι β} {i : ℕ} (hf : h.size ≤ h.slots) (hi : i < h.slots) :
    ∃ s, (h.smaller (2 * i + 1) i).bind (fun s => h.smaller (2 * i + 2) s) = some s
      ∧ (s = i ∧ (∀ c, c < h.size → IsChild c i → h.less (h.map c) (h.map i) = false)
        ∨ IsChild s i ∧ s < h.size ∧ h.Picks i s) := by
  by_cases hl : 2 * i + 1 < h.size
  · rw [smaller_of_lt hf hi hl, Option.bind_some]
    by_cases hli : h.less (h.map (2 * i + 1)) (h.map i) = true
    · rw [if_pos hli]
      by_cases hr : 2 * i + 2 < h.size
      · rw [smaller_of_lt hf (by omega) hr]
        by_cases hrl : h.less (h.map (2 * i + 2)) (h.map (2 * i + 1)) = true
        · rw [if_pos hrl]
          exact ⟨_, rfl, Or.inr ⟨isChild_right i, hr, Or.inr ⟨rfl, Or.inl ⟨hli, hrl⟩⟩⟩⟩
        · rw [if_neg hrl]
          exact ⟨_, rfl, Or.inr ⟨isChild_left i, hl,
            Or.inl ⟨rfl, hli, fun _ => Bool.eq_false_iff.mpr hrl⟩⟩⟩
      · rw [smaller_of_le (by omega)]
        exact ⟨_, rfl, Or.inr ⟨isChild_left i, hl, Or.inl ⟨rfl, hli, fun h' => absurd h' hr⟩⟩⟩
    · rw [if_neg hli]
      have hli' := Bool.eq_false_iff.mpr hli
      by_cases hr : 2 * i + 2 < h.size
      · rw [smaller_of_lt hf hi hr]
        by_cases hri : h.less (h.map (2 * i + 2)) (h.map i) = true
        · rw [if_pos hri]
          exact ⟨_, rfl, Or.inr ⟨isChild_right i, hr, Or.inr ⟨rfl, Or.inr ⟨hli', hri⟩⟩⟩⟩
        · rw [if_neg hri]
          refine ⟨_, rfl, Or.inl ⟨rfl, fun c _ hc => ?_⟩⟩
          rcases isChild_iff.mp hc with rfl | rfl
          · exact hli'
          · exact Bool.eq_false_iff.mpr hri
      · rw [smaller_of_le (by omega)]
        refine ⟨_, rfl, Or.inl ⟨rfl, fun c hcs hc => ?_⟩⟩
        rcases isChild_iff.mp hc with rfl | rfl
        · exact hli'
        · exact absurd hcs hr
  · rw [smaller_of_le (by omega), Option.bind_some, smaller_of_le (by omega)]
    refine ⟨_, rfl, Or.inl ⟨rfl, fun c hcs hc => ?_⟩⟩
    have := isChild_iff.mp hc
    omega

/-- **The positions an entry sinks to** from `i`, in exact arithmetic: `i` itself, and those
it comes to by the exchanges. -/
inductive SinksTo : Heap ι β → ℕ → ℕ → Prop
  | here {h : Heap ι β} {i : ℕ} : SinksTo h i i
  | swap {h : Heap ι β} {i c k : ℕ} (hc : IsChild c i) (hcs : c < h.size)
      (hpick : h.Picks i c) (rest : SinksTo (h.swapAt c i) c k) : SinksTo h i k

/-- All positions but the first one are of entries. -/
theorem SinksTo.eq_or_lt {h : Heap ι β} {i k : ℕ} (hk : SinksTo h i k) :
    k = i ∨ k < h.size := by
  induction hk with
  | here => exact Or.inl rfl
  | swap _ hcs _ _ ih =>
    rcases ih with rfl | hlt
    · exact Or.inr hcs
    · exact Or.inr hlt

/-- One call of `heap_heapify`, where the positions of the children do not wrap and the two
tests settle on `s`. -/
theorem heapHeapify_succ {h : Heap ι β} {i s : ℕ} (fuel : ℕ) (hi : 2 * i + 2 < 2 ^ 32)
    (hsm : (h.smaller (2 * i + 1) i).bind (fun s => h.smaller (2 * i + 2) s) = some s) :
    heapHeapify (fuel + 1) h i
      = if s = i then some h else (h.exchange s i).bind (fun h => heapHeapify fuel h s) := by
  have hl : u32 (2 * i + 1) = 2 * i + 1 := u32_of_lt (by omega)
  have hr : u32 (2 * i + 1 + 1) = 2 * i + 2 := u32_of_lt hi
  rw [heapHeapify, hl, hr]
  simp only [Option.bind_eq_bind]
  rw [← Option.bind_assoc, hsm]
  rfl

/-- **`heap_heapify` returns, and does only these moves**, for every comparison,
where the children of every position it comes to have positions that do not
wrap: each call is for a position further down. -/
theorem heapHeapify_sifts_of (fuel : ℕ) {h : Heap ι β} {i : ℕ} (hf : h.size ≤ h.slots)
    (hi : i < h.slots) (hsink : ∀ k, SinksTo h i k → 2 * k + 2 < 2 ^ 32)
    (hfuel : h.size < fuel + i) (hfuel' : 0 < fuel) :
    ∃ h', heapHeapify fuel h i = some h' ∧ Sifts h i h' := by
  induction fuel generalizing h i with
  | zero => omega
  | succ fuel ih =>
    obtain ⟨s, hsm, hcase⟩ := smaller_smaller hf hi
    rw [heapHeapify_succ fuel (hsink i .here) hsm]
    rcases hcase with ⟨rfl, hstop⟩ | ⟨hc, hcs, hpick⟩
    · rw [if_pos rfl]
      exact ⟨h, rfl, .stop hstop⟩
    · have hic := hc.lt
      rw [if_neg (by omega), exchange_eq (by omega) hi, Option.bind_some]
      obtain ⟨h', hrun, hsift⟩ := ih (h := h.swapAt s i) (i := s) hf
        (by show s < h.slots; omega) (fun k hk => hsink k (.swap hc hcs hpick hk))
        (by show h.size < fuel + s; omega) (by omega)
      exact ⟨h', hrun, .swap hc hcs hpick hsift⟩

/-- Below `2^31` entries no position wraps. -/
theorem heapHeapify_sifts (fuel : ℕ) {h : Heap ι β} {i : ℕ} (hf : h.size ≤ h.slots)
    (hs : h.size < 2 ^ 31) (hi : i < h.slots) (hi' : i + 1 < 2 ^ 31)
    (hfuel : h.size < fuel + i) (hfuel' : 0 < fuel) :
    ∃ h', heapHeapify fuel h i = some h' ∧ Sifts h i h' := by
  refine heapHeapify_sifts_of fuel hf hi (fun k hk => ?_) hfuel hfuel'
  rcases hk.eq_or_lt with rfl | hlt
  · omega
  · omega

theorem Sifts.shape {h h' : Heap ι β} {i : ℕ} (hs : Sifts h i h') : SameShape h h' := by
  induction hs with
  | stop => exact .rfl' _
  | swap _ _ _ _ ih => exact (swapAt_shape _ _ _).trans ih

/-- The entries are permuted, and only inside the subtree at `i`. -/
theorem Sifts.perm_under {h h' : Heap ι β} {i : ℕ} (hs : Sifts h i h') :
    ∃ σ : Equiv.Perm ℕ, h'.map = h.map ∘ σ ∧ ∀ k, ¬ (Under k i ∧ k < h.size) → σ k = k := by
  induction hs with
  | stop => exact ⟨1, rfl, fun _ _ => rfl⟩
  | @swap h h' i c hc hcs _ _ ih =>
    obtain ⟨σ, hmap, hfix⟩ := ih
    refine ⟨Equiv.swap i c * σ, by rw [hmap]; rfl, fun k hk => ?_⟩
    have hkc : ¬ (Under k c ∧ k < h.size) := fun hu => hk ⟨hu.1.trans hc.under, hu.2⟩
    rw [Equiv.Perm.mul_apply, hfix k hkc]
    refine Equiv.swap_apply_of_ne_of_ne (fun heq => hk ?_) (fun heq => hkc ?_)
    · rw [heq]
      exact ⟨Under.refl i, hc.lt.trans hcs⟩
    · rw [heq]
      exact ⟨Under.refl c, hcs⟩

/-- In particular, only from position `i` on. -/
theorem Sifts.perm {h h' : Heap ι β} {i : ℕ} (hs : Sifts h i h') :
    ∃ σ : Equiv.Perm ℕ, h'.map = h.map ∘ σ ∧ ∀ k, k < i ∨ h.size ≤ k → σ k = k := by
  obtain ⟨σ, hmap, hfix⟩ := hs.perm_under
  refine ⟨σ, hmap, fun k hk => hfix k ?_⟩
  rintro ⟨hu, hks⟩
  have hik := hu.le
  omega

/-- An object with no entry from position `i` on keeps its item as it is. -/
theorem Sifts.hi_of_notMem {h h' : Heap ι β} {i : ℕ} (hs : Sifts h i h') {p : ι}
    (hp : ∀ k, i ≤ k → k < h.size → h.map k ≠ p) : h'.hi p = h.hi p := by
  induction hs with
  | stop => rfl
  | @swap h h' i c hc hcs _ _ ih =>
    have hic := hc.lt
    rw [ih (fun k hk hks => ?_), swapAt_hi_of_ne _ (hp c hic.le hcs).symm
      (hp i le_rfl (by omega)).symm]
    rw [swapAt_map, Function.comp_apply]
    by_cases hkc : k = c
    · subst hkc
      rw [Equiv.swap_apply_right]
      exact hp i le_rfl (by omega)
    · rw [swapAt_size] at hks
      rw [Equiv.swap_apply_of_ne_of_ne (by omega) hkc]
      exact hp k (by omega) hks

/-! ## The way up -/

/-- One iteration of the loop of `heap_insert`: the entry above position `i`
comes down to it. -/
def shiftDown (h : Heap ι β) (i : ℕ) : Heap ι β :=
  { h with map := Function.update h.map i (h.map ((i - 1) / 2)) }.setIndex
    (h.map ((i - 1) / 2)) i

/-- **The moves of the loop of `heap_insert`**, from position `i` to the
position it ends at. -/
inductive Rises (item : ι) : Heap ι β → ℕ → Heap ι β → ℕ → Prop
  | stop {h : Heap ι β} {i : ℕ}
      (hstop : 0 < i → h.less (h.map ((i - 1) / 2)) item = false) : Rises item h i h i
  | move {h h' : Heap ι β} {i j : ℕ} (hi : 0 < i)
      (hless : h.less (h.map ((i - 1) / 2)) item = true)
      (rest : Rises item (h.shiftDown i) ((i - 1) / 2) h' j) : Rises item h i h' j

theorem shiftDown_shape (h : Heap ι β) (i : ℕ) : SameShape h (h.shiftDown i) :=
  ⟨rfl, rfl, rfl, rfl, rfl, fun p => by unfold shiftDown; rw [setIndex_active]⟩

theorem Rises.shape {item : ι} {h h' : Heap ι β} {i j : ℕ} (hr : Rises item h i h' j) :
    SameShape h h' := by
  induction hr with
  | stop => exact .rfl' _
  | move _ _ _ ih => exact (shiftDown_shape _ _).trans ih

theorem Rises.le {item : ι} {h h' : Heap ι β} {i j : ℕ} (hr : Rises item h i h' j) : j ≤ i := by
  induction hr with
  | stop => exact le_rfl
  | move hi _ _ ih => omega

/-- The loop of `heap_insert` returns, and does only these moves, for every
comparison. -/
theorem insertLoop_rises (fuel : ℕ) {h : Heap ι β} {i : ℕ} (item : ι) (hi : i < h.slots)
    (hi' : i < 2 ^ 32) (hfuel : i < fuel) :
    ∃ h' j, insertLoop fuel h item i = some (h', j) ∧ Rises item h i h' j := by
  induction fuel generalizing h i with
  | zero => omega
  | succ fuel ih =>
    rw [insertLoop]
    by_cases h0 : 0 < i
    · rw [if_pos h0, u32_of_lt (by omega)]
      dsimp only
      rw [get_of_lt (by omega)]
      simp only [Option.bind_eq_bind, Option.bind_some]
      by_cases hless : h.less (h.map ((i - 1) / 2)) item = true
      · rw [if_pos hless, set_of_lt hi, Option.bind_some]
        obtain ⟨h', j, hrun, hrise⟩ := ih (h := h.shiftDown i) (i := (i - 1) / 2)
          (by show (i - 1) / 2 < h.slots; omega) (by omega) (by omega)
        exact ⟨h', j, hrun, .move h0 hless hrise⟩
      · rw [if_neg hless]
        exact ⟨h, i, rfl, .stop fun _ => Bool.eq_false_iff.mpr hless⟩
    · rw [if_neg h0]
      exact ⟨h, i, rfl, .stop fun h' => absurd h' h0⟩

/-- With the new item written where the loop ends, the entries are those with
the item at the last position, permuted. -/
theorem Rises.perm {item : ι} {h h' : Heap ι β} {i j : ℕ} (hr : Rises item h i h' j) :
    ∃ σ : Equiv.Perm ℕ, Function.update h'.map j item = Function.update h.map i item ∘ σ
      ∧ σ j = i ∧ ∀ k, i < k → σ k = k := by
  induction hr with
  | @stop h i _ => exact ⟨1, rfl, rfl, fun _ _ => rfl⟩
  | @move h h' i j hi _ _ ih =>
    obtain ⟨σ, hmap, hσ, hfix⟩ := ih
    refine ⟨Equiv.swap i ((i - 1) / 2) * σ, ?_, ?_, fun k hk => ?_⟩
    · rw [hmap, Equiv.Perm.coe_mul, ← Function.comp_assoc, Equiv.comp_swap_eq_update,
        Function.update_self, Function.update_of_ne (show (i - 1) / 2 ≠ i by omega),
        Function.update_comm (show (i - 1) / 2 ≠ i by omega), Function.update_idem]
      rfl
    · rw [Equiv.Perm.mul_apply, hσ, Equiv.swap_apply_right]
    · rw [Equiv.Perm.mul_apply, hfix k (by omega)]
      exact Equiv.swap_apply_of_ne_of_ne (by omega) (by omega)

/-- An object with no entry up to position `i` keeps its item as it is. -/
theorem Rises.hi_of_notMem {item : ι} {h h' : Heap ι β} {i j : ℕ} (hr : Rises item h i h' j)
    {p : ι} (hp : ∀ k, k < i → h.map k ≠ p) : h'.hi p = h.hi p := by
  induction hr with
  | stop => rfl
  | @move h h' i j hi _ _ ih =>
    rw [ih (fun k hk => ?_)]
    · exact setIndex_hi_of_ne _ _ (hp _ (by omega)).symm
    · show Function.update h.map i _ k ≠ p
      rw [Function.update_of_ne (by omega)]
      exact hp k (by omega)

end Heap
