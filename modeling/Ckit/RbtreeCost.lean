import Ckit.RbtreeRun
import Ckit.RedBlackHeight

/-!
# What an insertion costs

The loop of `bst_insert` goes down one level a round, and `rb_tree_insert_case1` calls
itself one recolouring further up. The functions of the model have the number of rounds
they may take as an argument, and with more of them they do the same (`step_mono`). So the
cost of an insertion is a question of which number is enough.

In a tree of `n` nodes whose insertions were all safe, `rounds n = 2 * Nat.log 2 (n + 1) + 1`
is: the way down is no longer than the tree is high, and the height is bounded by the
colours (`ColorTree.Valid.height_le`). The keys do not matter, nor the order they come in.
-/

namespace RbTree

open ColorTree

variable {P κ ν : Type} [DecidableEq P] {t t' : RbTree P κ ν} {T : ColorTree P}

/-! ## More rounds -/

/-- The loop of `bst_insert` with more rounds. -/
theorem bstInsertLoop_mono {key : κ} {val : ν} {alloc : Option P} {fuel fuel' : ℕ} {curr : P}
    {r : ℤ × Option P × RbTree P κ ν} (h : t.bstInsertLoop key val alloc fuel curr = some r)
    (hle : fuel ≤ fuel') : t.bstInsertLoop key val alloc fuel' curr = some r := by
  induction fuel generalizing curr fuel' with
  | zero => exact absurd h (Option.some_ne_none r).symm
  | succ fuel ih =>
    obtain ⟨fuel', rfl⟩ := Nat.exists_eq_succ_of_ne_zero (Nat.ne_zero_of_lt hle)
    rw [bstInsertLoop] at h ⊢
    cases hchild : (t.node curr).child
        (if t.keyCompare key (t.node curr).key < 0 then Side.left else .right) with
    | none =>
      rw [hchild] at h
      exact h
    | some next =>
      rw [hchild] at h
      exact ih h (Nat.le_of_succ_le_succ hle)

theorem bstInsert_mono {key : κ} {val : ν} {alloc : Option P} {fuel fuel' : ℕ}
    {r : ℤ × Option P × RbTree P κ ν} (h : t.bstInsert fuel key val alloc = some r)
    (hle : fuel ≤ fuel') : t.bstInsert fuel' key val alloc = some r := by
  unfold bstInsert at h ⊢
  cases hroot : t.root with
  | none =>
    rw [hroot] at h
    exact h
  | some curr =>
    rw [hroot] at h
    exact bstInsertLoop_mono h hle

omit [DecidableEq P] in
/-- What is found of an optional pointer and then done, with more rounds of the last part. -/
theorem bind_mono {α β : Type} {x : Option α} {f f' : α → Option β} {b : β}
    (h : x.bind f = some b) (hf : ∀ a, f a = some b → f' a = some b) : x.bind f' = some b := by
  obtain ⟨a, rfl, ha⟩ := Option.bind_eq_some_iff.mp h
  exact hf a ha

/-- `rb_tree_insert_case2` and `rb_tree_insert_case3`, where `rb_tree_insert_case1` has more
rounds. -/
theorem rbTreeInsertCase2_mono {case1 case1' : RbTree P κ ν → P → Option (RbTree P κ ν)} {n : P}
    (h : rbTreeInsertCase2 case1 t n = some t')
    (hcase : ∀ t₁ p, case1 t₁ p = some t' → case1' t₁ p = some t') :
    rbTreeInsertCase2 case1' t n = some t' := by
  refine bind_mono h fun p hp => ?_
  by_cases hblack : (t.node p).color = .black
  · rw [if_pos hblack] at hp ⊢
    exact hp
  rw [if_neg hblack] at hp ⊢
  unfold rbTreeInsertCase3 at hp ⊢
  cases huncle : t.uncle n with
  | none =>
    rw [huncle] at hp
    exact hp
  | some u =>
    rw [huncle] at hp
    dsimp only at hp ⊢
    by_cases hred : (t.node u).color = .red
    · rw [if_pos hred] at hp ⊢
      exact bind_mono hp fun q hq => bind_mono hq fun g hg => hcase _ _ hg
    · rw [if_neg hred] at hp ⊢
      exact hp

/-- `rb_tree_insert_case1` with more rounds. -/
theorem rbTreeInsertCase1_mono {fuel fuel' : ℕ} {n : P}
    (h : rbTreeInsertCase1 fuel t n = some t') (hle : fuel ≤ fuel') :
    rbTreeInsertCase1 fuel' t n = some t' := by
  induction fuel generalizing t n fuel' with
  | zero => exact absurd h (Option.some_ne_none t').symm
  | succ fuel ih =>
    obtain ⟨fuel', rfl⟩ := Nat.exists_eq_succ_of_ne_zero (Nat.ne_zero_of_lt hle)
    rw [rbTreeInsertCase1] at h ⊢
    by_cases hparent : (t.node n).parent = none
    · rw [if_pos hparent] at h ⊢
      exact h
    · rw [if_neg hparent] at h ⊢
      exact rbTreeInsertCase2_mono h fun t₁ p hp => ih hp (Nat.le_of_succ_le_succ hle)

/-- **An insertion with more rounds.** -/
theorem step_mono {fuel fuel' : ℕ} {e : P × κ × ν} (h : t.step fuel e = some t')
    (hle : fuel ≤ fuel') : t.step fuel' e = some t' := by
  unfold step at h ⊢
  by_cases hfresh : e.1 ∈ t.log.map Prod.fst
  · rw [if_pos hfresh] at h
    exact absurd h (Option.some_ne_none t').symm
  rw [if_neg hfresh, Option.map_eq_some_iff] at h ⊢
  obtain ⟨r, hr, rfl⟩ := h
  refine ⟨r, ?_, rfl⟩
  unfold rbTreeInsert at hr ⊢
  obtain ⟨x, hx, hrest⟩ := Option.bind_eq_some_iff.mp hr
  rw [bstInsert_mono hx hle, Option.bind_some]
  by_cases hret : x.1 ≤ 0
  · rw [if_pos hret] at hrest ⊢
    exact hrest
  rw [if_neg hret] at hrest ⊢
  refine bind_mono hrest fun newNode hnew => ?_
  obtain ⟨t'', hcase, hpair⟩ := Option.map_eq_some_iff.mp hnew
  exact Option.map_eq_some_iff.mpr ⟨t'', rbTreeInsertCase1_mono hcase hle, hpair⟩

/-! ## Enough rounds -/

/-- **The loop of `bst_insert`** ends after as many rounds as the tree is high. -/
theorem bstInsertLoop_returns {key : κ} {val : ν} {alloc : Option P} {r : Option P} {curr : P}
    {fuel : ℕ} (hrepr : Repr t.cells T r) (hcurr : T.root = some curr)
    (hfuel : T.height ≤ fuel) : ∃ x, t.bstInsertLoop key val alloc fuel curr = some x := by
  induction fuel generalizing T r curr with
  | zero =>
    cases T with
    | nil => exact absurd hcurr (Option.some_ne_none curr).symm
    | node c l p q => exact absurd hfuel (Nat.not_succ_le_zero _)
  | succ fuel ih =>
    cases T with
    | nil => exact absurd hcurr (Option.some_ne_none curr).symm
    | node c l p q =>
      obtain rfl : p = curr := Option.some.inj hcurr
      obtain ⟨hp, hl, hr⟩ := hrepr
      -- the side it goes to, and the subtree there
      obtain ⟨side, sub, hside, hchild, hsub, hlt⟩ : ∃ side sub,
          (if t.keyCompare key (t.node p).key < 0 then Side.left else .right) = side
            ∧ (t.node p).child side = sub.root ∧ Repr t.cells sub (some p)
            ∧ sub.height < (ColorTree.node c l p q).height := by
        by_cases hgo : t.keyCompare key (t.node p).key < 0
        · exact ⟨.left, l, if_pos hgo, congrArg Cell.left hp, hl, height_left_lt c l p q⟩
        · exact ⟨.right, q, if_neg hgo, congrArg Cell.right hp, hr, height_right_lt c l p q⟩
      rw [bstInsertLoop, hside, hchild]
      cases hroot : sub.root with
      | none => exact ⟨_, rfl⟩
      | some next => exact ih hsub hroot (by omega)

/-- The rounds that are enough in a tree of `n` nodes. -/
def rounds (n : ℕ) : ℕ := 2 * Nat.log 2 (n + 1) + 1

omit [DecidableEq P] in
/-- The height of the tree in memory. -/
theorem RedBlack.height_le (h : RedBlack t T) :
    T.height ≤ 2 * Nat.log 2 (t.log.length + 1) := by
  have hheight := h.valid.height_le
  rwa [h.nodes.length_eq, List.length_map] at hheight

/-- **A safe insertion returns** within more rounds than the tree is high. -/
theorem RedBlack.step_returns (h : RedBlack t T) {e : P × κ × ν}
    (hfresh : e.1 ∉ t.log.map Prod.fst) (hpath : Recolours (T.descend (t.goesLeft e.2.1) [])
      ∨ RotatesAside (T.descend (t.goesLeft e.2.1) [])) {fuel : ℕ} (hfuel : T.height < fuel) :
    ∃ t', t.step fuel e = some t' := by
  obtain ⟨n, key, val⟩ := e
  have hn : n ∉ T.inorder := fun hmem => hfresh (h.nodes.subset hmem)
  obtain ⟨t₁, hbst, -, hloc⟩ :=
    @bstInsert_eq P κ ν _ t key val n T _ h.located hn (Nat.lt_succ_self _)
  -- the way down
  have hdown : t.bstInsert fuel key val (some n) = some (1, some n, t₁) := by
    obtain ⟨x, hx⟩ : ∃ x, t.bstInsert fuel key val (some n) = some x := by
      unfold bstInsert
      cases hroot : t.root with
      | none => exact ⟨_, rfl⟩
      | some curr =>
        exact bstInsertLoop_returns h.located.repr (h.located.root_eq.trans hroot) hfuel.le
    have hmore := bstInsert_mono hx (Nat.le_add_right _ (T.inorder.length + 1))
    rw [hx, ← hmore, bstInsert_mono hbst (Nat.le_add_left _ fuel)]
  -- the way up
  have hk := pathValid_descend h.valid (t.goesLeft key)
  have hlength := length_descend_le_height (t.goesLeft key) T []
  obtain ⟨t', hup⟩ : ∃ t', rbTreeInsertCase1 fuel t₁ n = some t' := by
    rcases hpath with hrec | hrot
    · obtain ⟨t', -, hup, -⟩ := rbTreeInsertCase1_recolours hloc rfl rfl hk ⟨rfl, rfl⟩
        ⟨fun _ => ⟨rfl, rfl⟩, trivial, trivial⟩ hrec (hlength.trans_lt hfuel)
      exact ⟨t', hup⟩
    · obtain ⟨fuel, rfl⟩ := Nat.exists_eq_succ_of_ne_zero (Nat.ne_zero_of_lt hfuel)
      obtain ⟨t', -, hup, -⟩ := rbTreeInsertCase1_rotates hloc hk hrot
      exact ⟨t', hup⟩
  refine ⟨t', ?_⟩
  rw [RbTree.step, if_neg hfresh, rbTreeInsert_eq hdown, hup]
  rfl

/-- **A safe insertion within the rounds** does what it does with more of them. -/
theorem RedBlack.step_rounds (h : RedBlack t T) {fuel : ℕ} (hfuel : t.log.length < fuel)
    {e : P × κ × ν} (hsafe : Safe fuel t e) :
    t.step (rounds t.log.length) e = t.step fuel e := by
  by_cases hfresh : e.1 ∈ t.log.map Prod.fst
  · rw [RbTree.step, RbTree.step, if_pos hfresh, if_pos hfresh]
  have hlen : T.inorder.length = t.log.length := h.nodes.length_eq.trans (List.length_map ..)
  obtain ⟨T', hT', hpath⟩ := hsafe
  obtain rfl : T = T' := by
    have hread : t.toTree fuel T.root = some T := toTree_eq h.located.repr (by omega)
    rw [show T.root = t.root from h.located.root_eq] at hread
    exact Option.some.inj (hread.symm.trans hT')
  obtain ⟨t₁, h₁⟩ : ∃ t₁, t.step (rounds t.log.length) e = some t₁ :=
    h.step_returns hfresh hpath (Nat.lt_succ_of_le h.height_le)
  have hheight : T.height < fuel := by
    have hle := height_le_length T
    omega
  obtain ⟨t₂, h₂⟩ := h.step_returns hfresh hpath hheight
  have hmore := step_mono h₁ (Nat.le_add_right _ fuel)
  have hmore' := step_mono h₂ (Nat.le_add_left _ (rounds t.log.length))
  rw [h₂, ← hmore', hmore]
  exact h₁

/-- An insertion that takes the rounds that are enough, and no more. -/
def quickStep (t : RbTree P κ ν) (e : P × κ × ν) : Option (RbTree P κ ν) :=
  t.step (rounds t.log.length) e

/-- **A run of safe insertions costs a logarithm each**: where every insertion is safe in the
tree it is made in, none takes more than `2 * Nat.log 2 (n + 1) + 1` rounds, down or up, with
`n` nodes in the tree; and the tree is never higher than `2 * Nat.log 2 (n + 1)`. -/
theorem rb_tree_insert_logarithmic (comp : κ → κ → ℤ) (hcomp : CompareLaws comp)
    (node : P → RbNode P κ ν) (es : List (P × κ × ν)) (hfresh : (es.map Prod.fst).Nodup)
    (fuel : ℕ) (hfuel : es.length < fuel)
    (hsafe : Meets (step fuel) (Safe fuel) (empty comp node) es) :
    (∃ t, run quickStep (empty comp node) es = some t
        ∧ run (step fuel) (empty comp node) es = some t ∧ t.log = es.reverse)
      ∧ Along quickStep (fun t => ∃ T, RedBlack t T ∧ T.height ≤ 2 * Nat.log 2 (t.log.length + 1))
        (empty comp node) es := by
  obtain ⟨⟨t, T, hrun, -, hlog⟩, hal⟩ := redBlack_run hcomp node hfresh hfuel hsafe
  have hsame : Meets (step fuel) (fun t e => quickStep t e = t.step fuel e) (empty comp node) es :=
    Run.meets_of_along (fun t e ht hs => by
      obtain ⟨⟨T, hT⟩, hlt⟩ := ht
      exact hT.step_rounds hlt hs) hal hsafe
  refine ⟨⟨t, (Run.run_congr hsame).trans hrun, hrun, hlog⟩, ?_⟩
  refine Run.along_congr hsame (Run.along_imp (fun t ht => ?_) hal)
  obtain ⟨⟨T, hT⟩, -⟩ := ht
  exact ⟨T, hT, hT.height_le⟩

/-- Five insertions, within one, three, three, five and five rounds. -/
theorem rb_tree_insert_logarithmic_five :
    (∃ t, run quickStep natTree (natInserts [10, 5, 15, 3, 2]) = some t
        ∧ run (step 9) natTree (natInserts [10, 5, 15, 3, 2]) = some t
        ∧ t.log = (natInserts [10, 5, 15, 3, 2]).reverse)
      ∧ Along quickStep
        (fun t => ∃ T, RedBlack t T ∧ T.height ≤ 2 * Nat.log 2 (t.log.length + 1)) natTree
        (natInserts [10, 5, 15, 3, 2]) := by
  refine rb_tree_insert_logarithmic _ ⟨fun a b => ?_, fun a b c hab hbc => ?_⟩ _ _ (by decide) 9
    (by decide) (by decide +kernel)
  · omega
  · omega

end RbTree
