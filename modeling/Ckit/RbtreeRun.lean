import Ckit.RbtreeInsert

/-!
# Runs of insertions

`RedBlack` is what the tree of `rbtree.c` is to be after every insertion. It is kept by
the insertions that are `Safe`: those whose red leaf is put right by recolouring alone,
and those that need a rotation for the leaf itself, at a grandparent which is on the
same side of its own parent as its child is of it.

The others go wrong. A rotation at the root reads the parent of the root, which is
`NULL`; one at a grandparent that is on the other side of its parent is written over
the sibling; and one further up moves a subtree without writing the parent pointer of
its root.
-/

/-- A comparison that is a total preorder. -/
structure CompareLaws {κ : Type} (comp : κ → κ → ℤ) : Prop where
  swap : ∀ a b, comp a b ≤ 0 ↔ 0 ≤ comp b a
  trans : ∀ a b c, comp a b ≤ 0 → comp b c ≤ 0 → comp a c ≤ 0

namespace RbTree

open ColorTree

variable {P κ ν : Type} {t t' : RbTree P κ ν} {T : ColorTree P}

/-- **The tree `T` is in memory**, with a node for each insertion, sorted, and it is a
red-black tree. -/
structure RedBlack (t : RbTree P κ ν) (T : ColorTree P) : Prop where
  located : Located t.cells t.root [] T
  nodes : T.inorder.Perm (t.log.map Prod.fst)
  items : ∀ e ∈ t.log, (t.node e.1).key = e.2.1 ∧ (t.node e.1).val = e.2.2
  sorted : (T.inorder.map fun p => (t.node p).key).Pairwise fun a b => t.keyCompare a b ≤ 0
  valid : T.Valid

/-- The insertion that is put right: by recolouring, or by a rotation aside of the
root. -/
def Safe (fuel : ℕ) (t : RbTree P κ ν) (e : P × κ × ν) : Prop :=
  ∃ T, t.toTree fuel t.root = some T ∧ (Recolours (T.descend (t.goesLeft e.2.1) [])
    ∨ RotatesAside (T.descend (t.goesLeft e.2.1) []))

instance (fuel : ℕ) (t : RbTree P κ ν) (e : P × κ × ν) : Decidable (Safe fuel t e) :=
  match h : t.toTree fuel t.root with
  | none => .isFalse fun ⟨_, hT, _⟩ => nomatch h.symm.trans hT
  | some T => decidable_of_iff (Recolours (T.descend (t.goesLeft e.2.1) [])
      ∨ RotatesAside (T.descend (t.goesLeft e.2.1) []))
      ⟨fun hT => ⟨T, h, hT⟩, fun ⟨_, hT, hsafe⟩ => Option.some.inj (h.symm.trans hT) ▸ hsafe⟩

/-- The tree in memory is the one that is read. -/
theorem toTree_eq {r : Option P} {fuel : ℕ} (h : Repr t.cells T r)
    (hfuel : T.inorder.length < fuel) : t.toTree fuel T.root = some T := by
  induction fuel generalizing T r with
  | zero => exact absurd hfuel (Nat.not_lt_zero _)
  | succ fuel ih =>
    cases T with
    | nil => rfl
    | node c l p q =>
      obtain ⟨hp, hl, hr⟩ := h
      rw [inorder, List.length_append, List.length_cons] at hfuel
      have hcell : (t.node p).toCell = ⟨c, l.root, q.root, r⟩ := hp
      rw [ColorTree.root, toTree, hcell]
      dsimp only
      rw [ih hl (by omega), ih hr (by omega)]
      rfl

variable [DecidableEq P]

omit [DecidableEq P] in
/-- **Where the way down leads**: the nodes before the place are not greater than the key, and
those after it not smaller. -/
theorem descend_compare
    (hsorted : (T.inorder.map fun p => (t.node p).key).Pairwise fun a b => t.keyCompare a b ≤ 0)
    (hcomp : CompareLaws t.keyCompare) (key : κ) :
    (∀ p ∈ before (T.descend (t.goesLeft key) []), t.keyCompare (t.node p).key key ≤ 0)
      ∧ ∀ p ∈ after (T.descend (t.goesLeft key) []), t.keyCompare key (t.node p).key ≤ 0 :=
  @descend_parts P _ (t.goesLeft key)
    (fun p => t.keyCompare (t.node p).key key ≤ 0)
    (fun p => t.keyCompare key (t.node p).key ≤ 0)
    (fun _ hp => Int.le_of_lt (of_decide_eq_true hp))
    (fun _ hp => (hcomp.swap _ _).mpr (Int.not_lt.mp (of_decide_eq_false hp)))
    (fun _ _ hpq hp => hcomp.trans _ _ _ hp hpq) (fun _ _ hpq hq => hcomp.trans _ _ _ hpq hq)
    T [] (List.pairwise_map.mp hsorted) (fun _ hp => absurd hp List.not_mem_nil)
    (fun _ hp => absurd hp List.not_mem_nil)

omit [DecidableEq P] in
/-- **The order after an insertion.** -/
theorem sorted_insert
    (hsorted : (T.inorder.map fun p => (t.node p).key).Pairwise fun a b => t.keyCompare a b ≤ 0)
    (hcomp : CompareLaws t.keyCompare) {n : P} {key : κ} {val : ν} (hn : n ∉ T.inorder)
    (hnew : NewItem t t' n key val) :
    ((plug (T.descend (t.goesLeft key) []) (.node .red nil n nil)).inorder.map
      fun p => (t'.node p).key).Pairwise fun a b => t'.keyCompare a b ≤ 0 := by
  obtain ⟨hbefore, hafter⟩ := descend_compare hsorted hcomp key
  have hold : ∀ p ∈ T.inorder, (t'.node p).key = (t.node p).key :=
    fun p hp => (hnew.old p fun heq => hn (heq ▸ hp)).1
  replace hsorted := List.pairwise_map.mp hsorted
  rw [inorder_descend (t.goesLeft key)] at hsorted hold
  obtain ⟨hb, ha, hba⟩ := List.pairwise_append.mp hsorted
  rw [List.pairwise_map, inorder_plug_leaf, hnew.keyCompare]
  have hmem_b : ∀ {p}, p ∈ before (T.descend (t.goesLeft key) []) →
      (t'.node p).key = (t.node p).key := fun hp => hold _ (List.mem_append_left _ hp)
  have hmem_a : ∀ {p}, p ∈ after (T.descend (t.goesLeft key) []) →
      (t'.node p).key = (t.node p).key := fun hp => hold _ (List.mem_append_right _ hp)
  refine List.pairwise_append.mpr ⟨?_, List.pairwise_cons.mpr ⟨?_, ?_⟩, ?_⟩
  · exact hb.imp_of_mem fun hp hq hpq => by rwa [hmem_b hp, hmem_b hq]
  · intro q hq
    rw [hmem_a hq, hnew.new.1]
    exact hafter q hq
  · exact ha.imp_of_mem fun hp hq hpq => by rwa [hmem_a hp, hmem_a hq]
  · intro p hp q hq
    rcases List.mem_cons.mp hq with rfl | hq
    · rw [hmem_b hp, hnew.new.1]
      exact hbefore p hp
    · rw [hmem_b hp, hmem_a hq]
      exact hba p hp q hq

/-- **The tree `T` is in memory**, with a node for each insertion, and it is a red-black tree:
this does not depend on the order of the keys. -/
structure Coloured (t : RbTree P κ ν) (T : ColorTree P) : Prop where
  located : Located t.cells t.root [] T
  nodes : T.inorder.Perm (t.log.map Prod.fst)
  items : ∀ e ∈ t.log, (t.node e.1).key = e.2.1 ∧ (t.node e.1).val = e.2.2
  valid : T.Valid

omit [DecidableEq P] in
theorem RedBlack.coloured (h : RedBlack t T) : Coloured t T :=
  ⟨h.located, h.nodes, h.items, h.valid⟩

/-- **A safe insertion**, with any comparison, returns and leaves a red-black tree with the new
node at the end of its way down. -/
theorem Coloured.step (h : Coloured t T) {fuel : ℕ} {e : P × κ × ν}
    (hfresh : e.1 ∉ t.log.map Prod.fst) (hfuel : t.log.length + 1 < fuel)
    (hsafe : Safe fuel t e) :
    ∃ t' T', t.step fuel e = some t' ∧ NewItem t t' e.1 e.2.1 e.2.2 ∧ Coloured t' T'
      ∧ T'.inorder
        = (plug (T.descend (t.goesLeft e.2.1) []) (.node .red nil e.1 nil)).inorder := by
  obtain ⟨n, key, val⟩ := e
  have hn : n ∉ T.inorder := fun hmem => hfresh (h.nodes.subset hmem)
  have hlen : T.inorder.length = t.log.length := h.nodes.length_eq.trans (List.length_map ..)
  obtain ⟨t₁, hbst, hnew, hloc⟩ := @bstInsert_eq P κ ν _ t key val n T fuel h.located hn (by omega)
  -- the path of the new leaf
  obtain ⟨T', hT', hpath⟩ := hsafe
  obtain rfl : T = T' := by
    have hroot : T.root = t.root := h.located.root_eq
    have hread : t.toTree fuel T.root = some T := toTree_eq h.located.repr (by omega)
    rw [hroot] at hread
    exact Option.some.inj (hread.symm.trans hT')
  have hk := pathValid_descend h.valid (t.goesLeft key)
  have hlength := length_descend_le (t.goesLeft key) T
  obtain ⟨fuel, rfl⟩ := Nat.exists_eq_succ_of_ne_zero (Nat.ne_zero_of_lt hfuel)
  obtain ⟨t', T', hcase, hsame, hloc', hinorder, hvalid'⟩ : ∃ t' T',
      rbTreeInsertCase1 (fuel + 1) t₁ n = some t' ∧ SameItems t₁ t'
        ∧ Located t'.cells t'.root [] T'
        ∧ T'.inorder = (plug (T.descend (t.goesLeft key) []) (.node .red nil n nil)).inorder
        ∧ T'.Valid := by
    rcases hpath with hrec | hrot
    · exact rbTreeInsertCase1_recolours hloc rfl rfl hk ⟨rfl, rfl⟩
        ⟨fun _ => ⟨rfl, rfl⟩, trivial, trivial⟩ hrec (by omega)
    · exact rbTreeInsertCase1_rotates hloc hk hrot
  have hitem : NewItem t t' n key val := hnew.same hsame
  refine ⟨t', T', ?_, hitem, ⟨hloc', ?_, fun e he => ?_, hvalid'⟩, hinorder⟩
  · rw [RbTree.step, if_neg hfresh, rbTreeInsert_eq hbst, hcase]
    rfl
  · rw [hinorder, hitem.log, List.map_cons, inorder_plug_leaf]
    refine List.perm_middle.trans (List.Perm.cons n ?_)
    rw [← inorder_descend]
    exact h.nodes
  · rw [hitem.log] at he
    rcases List.mem_cons.mp he with rfl | he
    · exact hitem.new
    · have hne : e.1 ≠ n := by
        intro heq
        exact hfresh (List.mem_map.mpr ⟨e, he, heq⟩)
      rw [(hitem.old e.1 hne).1, (hitem.old e.1 hne).2]
      exact h.items e he

/-- **A safe insertion** with a comparison that is a total preorder keeps the order too. -/
theorem RedBlack.step (h : RedBlack t T) (hcomp : CompareLaws t.keyCompare) {fuel : ℕ}
    {e : P × κ × ν} (hfresh : e.1 ∉ t.log.map Prod.fst) (hfuel : t.log.length + 1 < fuel)
    (hsafe : Safe fuel t e) :
    ∃ t' T', t.step fuel e = some t' ∧ NewItem t t' e.1 e.2.1 e.2.2 ∧ RedBlack t' T' := by
  obtain ⟨t', T', heq, hitem, hT', hinorder⟩ := h.coloured.step hfresh hfuel hsafe
  have hn : e.1 ∉ T.inorder := fun hmem => hfresh (h.nodes.subset hmem)
  refine ⟨t', T', heq, hitem, hT'.located, hT'.nodes, hT'.items, ?_, hT'.valid⟩
  rw [hinorder]
  exact sorted_insert h.sorted hcomp hn hitem

/-! ## The runs -/

/-- `DEFINE_TREE`: a tree with no node, in any memory. -/
def empty (comp : κ → κ → ℤ) (node : P → RbNode P κ ν) : RbTree P κ ν := ⟨none, comp, node, []⟩

omit [DecidableEq P] in
theorem redBlack_empty (comp : κ → κ → ℤ) (node : P → RbNode P κ ν) :
    RedBlack (empty comp node) nil :=
  ⟨located_nil.mpr ⟨trivial, rfl, List.nodup_nil⟩, .nil, fun _ he => absurd he List.not_mem_nil,
    .nil, rfl, trivial, 0, rfl⟩

/-- **The rule for runs of insertions** of different nodes: what holds of a tree with no node and
is kept by the insertions that meet the condition holds in every state, where there are no more
nodes than insertions. -/
theorem insert_run {comp : κ → κ → ℤ} {node : P → RbNode P κ ν} {fuel : ℕ}
    {I : RbTree P κ ν → ColorTree P → Prop} {cond : RbTree P κ ν → P × κ × ν → Prop}
    (hempty : I (empty comp node) nil)
    (hkeep : ∀ t T e, I t T → t.keyCompare = comp → e.1 ∉ t.log.map Prod.fst →
      t.log.length + 1 < fuel → cond t e →
      ∃ t' T', t.step fuel e = some t' ∧ NewItem t t' e.1 e.2.1 e.2.2 ∧ I t' T')
    {es : List (P × κ × ν)} (hfresh : (es.map Prod.fst).Nodup) (hfuel : es.length < fuel)
    (hcond : Meets (step fuel) cond (empty comp node) es) :
    (∃ (t : RbTree P κ ν) (T : ColorTree P),
        run (step fuel) (empty comp node) es = some t ∧ I t T ∧ t.log = es.reverse)
      ∧ Along (step fuel) (fun t => (∃ T, I t T) ∧ t.log.length < fuel) (empty comp node) es := by
  have hstep : ∀ e es' (t : RbTree P κ ν),
      ((∃ T, I t T) ∧ t.keyCompare = comp ∧ es = t.log.reverse ++ e :: es') →
      cond t e → ∃ t', step fuel t e = some t' ∧ (True →
        (∃ T, I t' T) ∧ t'.keyCompare = comp ∧ es = t'.log.reverse ++ es') := by
    rintro e es' t ⟨⟨T, hT⟩, hc, hes⟩ hs
    have hlen : es.length = t.log.length + (es'.length + 1) := by
      rw [hes, List.length_append, List.length_reverse, List.length_cons]
    have hnew : e.1 ∉ t.log.map Prod.fst := by
      rw [hes, List.map_append, List.map_cons, List.map_reverse] at hfresh
      intro hmem
      exact (List.nodup_append'.mp hfresh).2.2 (List.mem_reverse.mpr hmem) List.mem_cons_self
    obtain ⟨t', T', heq, hitem, hT'⟩ := hkeep t T e hT hc hnew (by omega) hs
    refine ⟨t', heq, fun _ => ⟨⟨T', hT'⟩, hitem.keyCompare.trans hc, ?_⟩⟩
    rw [hitem.log, List.reverse_cons, List.append_assoc]
    exact hes
  obtain ⟨⟨t, hrun, ⟨T, hT⟩, -, hes⟩, hal⟩ := Run.total_within
    (J := fun es' (t : RbTree P κ ν) => (∃ T, I t T) ∧ t.keyCompare = comp
      ∧ es = t.log.reverse ++ es') (P := fun t => (∃ T, I t T) ∧ t.log.length < fuel)
    (fun es' t h => by
      refine ⟨h.1, ?_⟩
      rw [h.2.2, List.length_append, List.length_reverse] at hfuel
      omega)
    hstep ⟨⟨nil, hempty⟩, rfl, rfl⟩ hcond (Run.along_of_forall (fun _ => trivial) _ _)
  refine ⟨⟨t, T, hrun, hT, ?_⟩, hal⟩
  rw [hes, List.append_nil, List.reverse_reverse]

/-- **The tree along a run of safe insertions**, of different nodes. -/
theorem redBlack_run {comp : κ → κ → ℤ} (hcomp : CompareLaws comp) (node : P → RbNode P κ ν)
    {es : List (P × κ × ν)} (hfresh : (es.map Prod.fst).Nodup) {fuel : ℕ}
    (hfuel : es.length < fuel) (hsafe : Meets (step fuel) (Safe fuel) (empty comp node) es) :
    (∃ (t : RbTree P κ ν) (T : ColorTree P),
        run (step fuel) (empty comp node) es = some t ∧ RedBlack t T ∧ t.log = es.reverse)
      ∧ Along (step fuel) (fun t => (∃ T, RedBlack t T) ∧ t.log.length < fuel) (empty comp node)
        es :=
  insert_run (redBlack_empty comp node)
    (fun _ _ _ h hc hnew hlen hs => h.step (hc ▸ hcomp) hnew hlen hs) hfresh hfuel hsafe

/-- The same with any comparison, but for the order. -/
theorem coloured_run (comp : κ → κ → ℤ) (node : P → RbNode P κ ν) {es : List (P × κ × ν)}
    (hfresh : (es.map Prod.fst).Nodup) {fuel : ℕ} (hfuel : es.length < fuel)
    (hsafe : Meets (step fuel) (Safe fuel) (empty comp node) es) :
    ∃ (t : RbTree P κ ν) (T : ColorTree P),
      run (step fuel) (empty comp node) es = some t ∧ Coloured t T ∧ t.log = es.reverse := by
  refine (insert_run (redBlack_empty comp node).coloured (fun t T e h _ hnew hlen hs => ?_)
    hfresh hfuel hsafe).1
  obtain ⟨t', T', heq, hitem, hT', -⟩ := h.step hnew hlen hs
  exact ⟨t', T', heq, hitem, hT'⟩

/-- **Runs of insertions**: where every insertion is safe in the tree it is made in, every
insertion returns, and after each the tree is a red-black tree, with a node for every
insertion. -/
theorem rb_tree_insert_run (comp : κ → κ → ℤ) (hcomp : CompareLaws comp)
    (node : P → RbNode P κ ν) (es : List (P × κ × ν)) (hfresh : (es.map Prod.fst).Nodup)
    (fuel : ℕ) (hfuel : es.length < fuel)
    (hsafe : Meets (step fuel) (Safe fuel) (empty comp node) es) :
    (∃ t, run (step fuel) (empty comp node) es = some t ∧ t.log = es.reverse)
      ∧ Along (step fuel) (fun t => ∃ T, RedBlack t T) (empty comp node) es := by
  obtain ⟨⟨t, T, hrun, -, hlog⟩, hal⟩ := redBlack_run hcomp node hfresh hfuel hsafe
  exact ⟨⟨t, hrun, hlog⟩, Run.along_imp (fun _ h => h.1) hal⟩

/-- A tree of numbers, with themselves as pointers. -/
def natTree : RbTree ℕ ℕ Unit :=
  empty (fun a b => (a : ℤ) - b) fun _ => ⟨⟨.black, none, none, none⟩, 0, ()⟩

/-- The numbers are inserted one by one. -/
def natInserts (l : List ℕ) : List (ℕ × ℕ × Unit) := l.map fun k => (k, k, ())

/-- Two insertions that only recolour, and one that rotates aside of the root. -/
theorem rb_tree_insert_run_five :
    (∃ t, run (step 9) natTree (natInserts [10, 5, 15, 3, 2]) = some t
        ∧ t.log = (natInserts [10, 5, 15, 3, 2]).reverse)
      ∧ Along (step 9) (fun t => ∃ T, RedBlack t T) natTree (natInserts [10, 5, 15, 3, 2]) := by
  refine rb_tree_insert_run _ ⟨fun a b => ?_, fun a b c hab hbc => ?_⟩ _ _ (by decide) 9 (by decide)
    (by decide +kernel)
  · omega
  · omega

/-- **A rotation at the root**: the third of three ascending keys makes the grandparent,
which is the root, go down, and its parent is `NULL`. -/
theorem rb_tree_insert_null : ∃ t t₁, run (step 9) natTree (natInserts [1, 2]) = some t
    ∧ t.bstInsert 9 3 () (some 3) = some (1, some 3, t₁) ∧ t₁.grandparent 3 = some 1
    ∧ (t₁.node 1).parent = none ∧ t₁.rbTreeInsertCase4 3 = none
    ∧ run (step 9) natTree (natInserts [1, 2, 3]) = none :=
  ⟨_, _, rfl, rfl, rfl, rfl, rfl, rfl⟩

end RbTree
