import Mathlib.Logic.Equiv.Basic
import Mathlib.Logic.Relation
import Mathlib.Data.List.Basic
import Ckit.Run

/-!
# Binary heaps laid out in an array

The general mathematics of an array heap, over any type of entries and any
strict weak order `r`, with `r a b` read as "`a` is smaller". The array is a
function of the position and `n` is how many of its positions are in use;
position `k > 0` hangs under position `(k - 1) / 2`.

An array is `Ordered` when no entry is smaller than the one it hangs under.
Sifting down keeps a weaker property, `DownReady`: the only edges that may be
out of order are those *leaving* the position being sifted, and lifting one of
its children over it would be harmless. `DownReady.swap` and
`DownReady.ordered` are the two moves of a sift-down loop, and
`Ordered.downReady_update` is how the loop starts when an entry is replaced by
the last one. Sifting up is the same with a hole in place of an entry:
`UpReady.move`, `UpReady.ordered` and `Ordered.upReady`.

The same loop can be followed in the subtree it works on, with nothing assumed
about the rest of the array: where the subtrees under a position are ordered
(`OrderedUnder`), one exchange leaves those under the child ready for the next
one (`OrderedUnder.swap_under`), and once the child's subtree is ordered so is
the whole one (`OrderedUnder.of_swap`).
-/

variable {α : Type*}

/-- `c` hangs under `p` in the level-order layout. -/
def IsChild (c p : ℕ) : Prop := 0 < c ∧ (c - 1) / 2 = p

instance (c p : ℕ) : Decidable (IsChild c p) := inferInstanceAs (Decidable (_ ∧ _))

theorem isChild_iff {c p : ℕ} : IsChild c p ↔ c = 2 * p + 1 ∨ c = 2 * p + 2 := by
  unfold IsChild
  omega

theorem isChild_left (p : ℕ) : IsChild (2 * p + 1) p := isChild_iff.mpr (Or.inl rfl)

theorem isChild_right (p : ℕ) : IsChild (2 * p + 2) p := isChild_iff.mpr (Or.inr rfl)

theorem IsChild.lt {c p : ℕ} (h : IsChild c p) : p < c := by
  have := isChild_iff.mp h
  omega

/-- **The heap order**: no entry is smaller than the one it hangs under. -/
def Ordered (r : α → α → Prop) (a : ℕ → α) (n : ℕ) : Prop :=
  ∀ k, 0 < k → k < n → ¬ r (a k) (a ((k - 1) / 2))

/-- **What a sift-down at `i` needs**: every edge that does not leave `i` is in
order, and no child of `i` is smaller than the entry `i` hangs under. -/
structure DownReady (r : α → α → Prop) (a : ℕ → α) (n i : ℕ) : Prop where
  edges : ∀ k, 0 < k → k < n → (k - 1) / 2 ≠ i → ¬ r (a k) (a ((k - 1) / 2))
  grand : 0 < i → ∀ c, c < n → IsChild c i → ¬ r (a c) (a ((i - 1) / 2))

variable {r : α → α → Prop} {a : ℕ → α} {n i : ℕ}

/-- Two arrays that agree on the positions in use are ordered together. -/
theorem Ordered.congr {b : ℕ → α} (h : Ordered r a n)
    (hab : ∀ k, k < n → b k = a k) : Ordered r b n := by
  intro k hk hkn
  rw [hab k hkn, hab _ (by omega)]
  exact h k hk hkn

/-- **The root is a minimum** of an ordered array. -/
theorem Ordered.root_min [IsStrictWeakOrder α r] (h : Ordered r a n) (k : ℕ)
    (hk : k < n) : ¬ r (a k) (a 0) := by
  induction k using Nat.strongRecOn with
  | ind k ih =>
    by_cases h0 : k = 0
    · subst h0
      exact irrefl (r := r) _
    · exact IsOrderConnected.neg_trans (h k (by omega) hk)
        (ih ((k - 1) / 2) (by omega) (by omega))

/-- Nothing to do where no child is smaller: the sift-down ends ordered. -/
theorem DownReady.ordered (h : DownReady r a n i)
    (hstop : ∀ c, c < n → IsChild c i → ¬ r (a c) (a i)) : Ordered r a n := by
  intro k hk hkn
  by_cases hi : (k - 1) / 2 = i
  · rw [hi]
    exact hstop k hkn ⟨hk, hi⟩
  · exact h.edges k hk hkn hi

/-- **One move of the sift-down.** Exchanging `i` with a smallest child that is
smaller than it puts `i` in order and moves the possible disorder to the
child. -/
theorem DownReady.swap [IsStrictWeakOrder α r] {c : ℕ} (h : DownReady r a n i)
    (hc : IsChild c i) (hcn : c < n) (hlt : r (a c) (a i))
    (hmin : ∀ d, d < n → IsChild d i → ¬ r (a d) (a c)) :
    DownReady r (a ∘ Equiv.swap i c) n c := by
  have hic : i < c := hc.lt
  have hval : ∀ k, k ≠ i → k ≠ c → (a ∘ Equiv.swap i c) k = a k := by
    intro k hki hkc
    rw [Function.comp_apply, Equiv.swap_apply_of_ne_of_ne hki hkc]
  have hi' : (a ∘ Equiv.swap i c) i = a c := by
    rw [Function.comp_apply, Equiv.swap_apply_left]
  have hc' : (a ∘ Equiv.swap i c) c = a i := by
    rw [Function.comp_apply, Equiv.swap_apply_right]
  constructor
  · intro k hk hkn hkc
    by_cases hki : k = i
    · -- the entry lifted over `i` is not smaller than what `i` hangs under
      subst hki
      rw [hi', hval _ (by omega) (by omega)]
      exact h.grand hk c hcn hc
    · by_cases hpi : (k - 1) / 2 = i
      · rw [hpi, hi']
        by_cases hkc' : k = c
        · subst hkc'
          rw [hc']
          exact fun hr => irrefl (r := r) _ (IsTrans.trans _ _ _ hr hlt)
        · rw [hval k hki hkc']
          exact hmin k hkn ⟨hk, hpi⟩
      · by_cases hkc' : k = c
        · exact absurd (hkc' ▸ hc.2) hpi
        · rw [hval k hki hkc', hval _ hpi hkc]
          exact h.edges k hk hkn hpi
  · intro _ d hdn hd
    have hdc := hd.lt
    rw [hc.2, hi', hval d (by omega) (by omega), ← hd.2]
    exact h.edges d hd.1 hdn (by rw [hd.2]; omega)

/-- **Replacing an entry by the last one** leaves the array ready to be sifted
down, as long as the entry brought in is not smaller than what it now hangs
under. -/
theorem Ordered.downReady_update [IsStrictWeakOrder α r]
    (h : Ordered r a (n + 1)) (hi : i ≤ n)
    (hlast : i = 0 ∨ ¬ r (a n) (a ((i - 1) / 2))) :
    DownReady r (Function.update a i (a n)) n i := by
  constructor
  · intro k hk hkn hki
    rw [Function.update_of_ne hki]
    by_cases hk' : k = i
    · subst hk'
      rw [Function.update_self]
      exact hlast.resolve_left (by omega)
    · rw [Function.update_of_ne hk']
      exact h k hk (by omega)
  · intro hpos c hcn hc
    have hic := hc.lt
    rw [Function.update_of_ne (by omega), Function.update_of_ne (by omega)]
    have hci := h c hc.1 (by omega)
    rw [hc.2] at hci
    exact IsOrderConnected.neg_trans hci (h i hpos (by omega))

/-- **A last entry that belongs further up**: brought in at `i`, where it is smaller than what
it hangs under, it is not greater than what hangs under it. -/
theorem Ordered.not_lt_last [IsStrictWeakOrder α r] (h : Ordered r a (n + 1)) (hpos : 0 < i)
    (hlast : r (a n) (a ((i - 1) / 2))) {c : ℕ} (hcn : c < n) (hc : IsChild c i) :
    ¬ r (a c) (a n) := by
  intro hlt
  have hic := hc.lt
  have hci := h c hc.1 (by omega)
  rw [hc.2] at hci
  exact IsOrderConnected.neg_trans hci (h i hpos (by omega)) (IsTrans.trans _ _ _ hlt hlast)

/-- **A new last entry** keeps the order exactly when it is not smaller than what it hangs
under. -/
theorem Ordered.update_last_iff {x : α} (h : Ordered r a n) :
    Ordered r (Function.update a n x) (n + 1) ↔ (0 < n → ¬ r x (a ((n - 1) / 2))) := by
  constructor
  · intro hlast hpos
    have hx := hlast n hpos (Nat.lt_succ_self n)
    rwa [Function.update_self, Function.update_of_ne (by omega)] at hx
  · intro hx k hk hkn
    rw [Function.update_of_ne (show (k - 1) / 2 ≠ n by omega)]
    by_cases hkn' : k = n
    · subst hkn'
      rw [Function.update_self]
      exact hx hk
    · rw [Function.update_of_ne hkn']
      exact h k hk (by omega)

/-! ## Subtrees -/

/-- `k` is in the subtree at `i`: the way up from `k` passes through `i`. -/
def Under (k i : ℕ) : Prop := Relation.ReflTransGen IsChild k i

theorem Under.refl (i : ℕ) : Under i i := Relation.ReflTransGen.refl

theorem IsChild.under {c : ℕ} (hc : IsChild c i) : Under c i := Relation.ReflTransGen.single hc

theorem Under.trans {j k : ℕ} (hjk : Under j k) (hki : Under k i) : Under j i :=
  Relation.ReflTransGen.trans hjk hki

theorem Under.le {k : ℕ} (h : Under k i) : i ≤ k := by
  induction h with
  | refl => exact le_rfl
  | tail _ hp ih => exact hp.lt.le.trans ih

/-- A position of a subtree is its root, or in the subtree at one of its children. -/
theorem Under.eq_or_child {k : ℕ} (h : Under k i) : k = i ∨ ∃ c, IsChild c i ∧ Under k c := by
  rcases Relation.ReflTransGen.cases_tail h with rfl | ⟨c, hkc, hc⟩
  · exact Or.inl rfl
  · exact Or.inr ⟨c, hc, hkc⟩

/-- The root of a subtree is in none of those under it. -/
theorem IsChild.not_under {c : ℕ} (hc : IsChild c i) : ¬ Under i c := fun h =>
  absurd h.le (by have := hc.lt; omega)

theorem isChild_rightUnique : Relator.RightUnique IsChild := fun _ _ _ hp hq => hp.2.symm.trans hq.2

/-- **The subtrees at two children have no position in common.** -/
theorem IsChild.eq_of_under {c d k : ℕ} (hc : IsChild c i) (hd : IsChild d i)
    (hkc : Under k c) (hkd : Under k d) : c = d := by
  have key : ∀ {c d}, IsChild c i → IsChild d i → Under c d → c = d := by
    intro c d hc hd hcd
    rcases Relation.ReflTransGen.cases_head hcd with rfl | ⟨e, hce, hed⟩
    · rfl
    · rw [isChild_rightUnique hce hc] at hed
      exact absurd hed hd.not_under
  rcases Relation.ReflTransGen.total_of_right_unique isChild_rightUnique hkc hkd with hcd | hdc
  · exact key hc hd hcd
  · exact (key hd hc hdc).symm

/-- **The heap order in the subtree at `i`.** -/
def OrderedUnder (r : α → α → Prop) (a : ℕ → α) (n i : ℕ) : Prop :=
  ∀ c p, Under p i → IsChild c p → c < n → ¬ r (a c) (a p)

/-- **The root of an ordered subtree is a minimum of it.** -/
theorem OrderedUnder.root_min [IsStrictWeakOrder α r] (h : OrderedUnder r a n i) {k : ℕ}
    (hk : Under k i) (hkn : k < n) : ¬ r (a k) (a i) := by
  induction hk using Relation.ReflTransGen.head_induction_on with
  | refl => exact irrefl (r := r) _
  | head hkp hp ih =>
    exact IsOrderConnected.neg_trans (h _ _ hp hkp hkn) (ih (hkp.lt.trans hkn))

/-- Two arrays that agree on a subtree are ordered there together. -/
theorem OrderedUnder.congr {b : ℕ → α} (h : OrderedUnder r a n i)
    (hab : ∀ k, Under k i → b k = a k) : OrderedUnder r b n i := by
  intro c p hp hc hcn
  rw [hab c (hc.under.trans hp), hab p hp]
  exact h c p hp hc hcn

/-- The subtrees under a child stay ordered when the child is exchanged with its parent. -/
theorem OrderedUnder.swap_under {c d : ℕ} (h : OrderedUnder r a n c) (hc : IsChild c i)
    (hd : IsChild d c) : OrderedUnder r (a ∘ Equiv.swap i c) n d := by
  have hd' : OrderedUnder r a n d := fun e p hp => h e p (hp.trans hd.under)
  refine hd'.congr fun k hk => ?_
  have hkd := hk.le
  have hdc := hd.lt
  have hci := hc.lt
  rw [Function.comp_apply, Equiv.swap_apply_of_ne_of_ne (by omega) (by omega)]

/-- A rearrangement that fixes everything outside a set keeps the set. -/
theorem perm_mem_of_fix {s : ℕ → Prop} {σ : Equiv.Perm ℕ} (hfix : ∀ k, ¬ s k → σ k = k) {k : ℕ}
    (hk : s k) : s (σ k) := by
  by_contra hout
  rw [σ.injective (hfix _ hout)] at hout
  exact hout hk

/-- **The end of one move of the sift-down.** The entry of a smallest child goes up to `i`, the
subtree at that child is rearranged and comes out ordered: then so is the whole subtree. -/
theorem OrderedUnder.of_swap [IsStrictWeakOrder α r] {c : ℕ} {σ : Equiv.Perm ℕ}
    (hsub : ∀ d, IsChild d i → OrderedUnder r a n d) (hc : IsChild c i) (hlt : r (a c) (a i))
    (hmin : ∀ d, d < n → IsChild d i → ¬ r (a d) (a c))
    (hfix : ∀ k, ¬ (Under k c ∧ k < n) → σ k = k)
    (hb : OrderedUnder r (a ∘ Equiv.swap i c ∘ σ) n c) :
    OrderedUnder r (a ∘ Equiv.swap i c ∘ σ) n i := by
  have hout : ∀ k, k ≠ i → ¬ Under k c → (a ∘ Equiv.swap i c ∘ σ) k = a k := by
    intro k hki hkc
    have hne : k ≠ c := fun heq => hkc (heq ▸ Under.refl c)
    rw [Function.comp_apply, Function.comp_apply, hfix k fun h => hkc h.1,
      Equiv.swap_apply_of_ne_of_ne hki hne]
  have hroot : (a ∘ Equiv.swap i c ∘ σ) i = a c := by
    rw [Function.comp_apply, Function.comp_apply, hfix i fun h => hc.not_under h.1,
      Equiv.swap_apply_left]
  intro d p hp hd hdn
  rcases hp.eq_or_child with rfl | ⟨e, he, hpe⟩
  · rw [hroot]
    by_cases hdc : d = c
    · -- what comes to `c` was in its subtree, where `a c` was smallest, or is the old root
      subst hdc
      obtain ⟨hσ, hσn⟩ := perm_mem_of_fix (s := fun k => Under k d ∧ k < n) hfix
        ⟨Under.refl d, hdn⟩
      rw [Function.comp_apply, Function.comp_apply]
      by_cases hσd : σ d = d
      · rw [hσd, Equiv.swap_apply_right]
        exact fun hr => irrefl (r := r) _ (IsTrans.trans _ _ _ hr hlt)
      · have hσp : σ d ≠ p := fun heq => hd.not_under (heq ▸ hσ)
        rw [Equiv.swap_apply_of_ne_of_ne hσp hσd]
        exact (hsub d hd).root_min hσ hσn
    · rw [hout d hd.lt.ne' fun hu => hdc (hd.eq_of_under hc (Under.refl d) hu)]
      exact hmin d hdn hd
  · by_cases hec : e = c
    · exact hb d p (hec ▸ hpe) hd hdn
    · have hdisj : ∀ k, Under k e → k ≠ i ∧ ¬ Under k c := fun k hk =>
        ⟨fun heq => he.not_under (heq ▸ hk), fun hkc => hec (he.eq_of_under hc hk hkc)⟩
      have hde := hd.under.trans hpe
      rw [hout d (hdisj d hde).1 (hdisj d hde).2, hout p (hdisj p hpe).1 (hdisj p hpe).2]
      exact hsub e he d p hpe hd hdn

/-! ## Sifting up -/

/-- **What a sift-up of `x` to the hole at `i` needs**: every edge that does not touch the hole
is in order, and the entries under the hole are smaller neither than the one above it nor than
`x`. -/
structure UpReady (r : α → α → Prop) (a : ℕ → α) (n i : ℕ) (x : α) : Prop where
  edges : ∀ k, 0 < k → k < n → k ≠ i → (k - 1) / 2 ≠ i → ¬ r (a k) (a ((k - 1) / 2))
  grand : 0 < i → ∀ c, c < n → IsChild c i → ¬ r (a c) (a ((i - 1) / 2))
  below : ∀ c, c < n → IsChild c i → ¬ r (a c) x

/-- The position after the last one is ready for any entry. -/
theorem Ordered.upReady (h : Ordered r a n) (x : α) : UpReady r a (n + 1) n x where
  edges k hk hkn hne _ := h k hk (by omega)
  grand _ c hcn hc := absurd hc.lt (by omega)
  below c hcn hc := absurd hc.lt (by omega)

/-- **The end of a sift-up**: the entry goes to a hole above which nothing is greater. -/
theorem UpReady.ordered {x : α} (h : UpReady r a n i x)
    (hstop : 0 < i → ¬ r x (a ((i - 1) / 2))) : Ordered r (Function.update a i x) n := by
  intro k hk hkn
  by_cases hki : k = i
  · subst hki
    rw [Function.update_self, Function.update_of_ne (by omega)]
    exact hstop hk
  · rw [Function.update_of_ne hki]
    by_cases hpi : (k - 1) / 2 = i
    · rw [hpi, Function.update_self]
      exact h.below k hkn ⟨hk, hpi⟩
    · rw [Function.update_of_ne hpi]
      exact h.edges k hk hkn hki hpi

/-- **One move of the sift-up**: the greater entry above the hole comes down, and the hole is
where it was. -/
theorem UpReady.move [IsStrictWeakOrder α r] {x : α} (h : UpReady r a n i x) (hpos : 0 < i)
    (hin : i < n) (hlt : r x (a ((i - 1) / 2))) :
    UpReady r (Function.update a i (a ((i - 1) / 2))) n ((i - 1) / 2) x := by
  have hasymm : ¬ r (a ((i - 1) / 2)) x := fun hr => irrefl (r := r) _ (IsTrans.trans _ _ _ hlt hr)
  -- the other child of the position the hole moves to stays where it is
  have hsib : ∀ c, c < n → c ≠ i → IsChild c ((i - 1) / 2) → ¬ r (a c) (a ((i - 1) / 2)) := by
    intro c hcn hci hc
    have := hc.lt
    have hedge := h.edges c hc.1 hcn hci (by rw [hc.2]; omega)
    rwa [hc.2] at hedge
  constructor
  · intro k hk hkn hkp hpp
    have hki : k ≠ i := fun heq => hpp (heq ▸ rfl)
    rw [Function.update_of_ne hki]
    by_cases hpi : (k - 1) / 2 = i
    · rw [hpi, Function.update_self]
      exact h.grand hpos k hkn ⟨hk, hpi⟩
    · rw [Function.update_of_ne hpi]
      exact h.edges k hk hkn hki hpi
  · intro hppos c hcn hc
    have hup : ¬ r (a ((i - 1) / 2)) (a (((i - 1) / 2 - 1) / 2)) :=
      h.edges _ hppos (by omega) (by omega) (by omega)
    rw [Function.update_of_ne (show ((i - 1) / 2 - 1) / 2 ≠ i by omega)]
    by_cases hci : c = i
    · rw [hci, Function.update_self]
      exact hup
    · rw [Function.update_of_ne hci]
      exact IsOrderConnected.neg_trans (hsib c hcn hci hc) hup
  · intro c hcn hc
    by_cases hci : c = i
    · rw [hci, Function.update_self]
      exact hasymm
    · rw [Function.update_of_ne hci]
      exact IsOrderConnected.neg_trans (hsib c hcn hci hc) hasymm
