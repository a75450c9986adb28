import Ckit.Rbtree

/-!
# What the functions of `rbtree.c` do

Each function of the insertion, at a place in the tree that is in memory (`Located`). The
reads come first – a node's parent, its grandparent and its uncle are those of the path –,
then the rotation and the recolouring, each as a change of the tree at the place, and from
these the five cases: `rbTreeInsertCase1_recolours` for the way up by recolouring, and
`rbTreeInsertCase1_rotates` for the rotation of a new leaf.

The rotations do not write the parent pointer of the subtree that changes sides.
`rbTreeRotate_eq` is about those where that subtree is empty, which are the rotations for
a new leaf.
-/

namespace RbTree

variable {P κ ν : Type} [DecidableEq P] {t t' : RbTree P κ ν} {fs : List (ColorTree.Frame P)}

/-- The links in memory. -/
def cells (t : RbTree P κ ν) (p : P) : Cell P := (t.node p).toCell

omit [DecidableEq P] in
theorem toCell_node (t : RbTree P κ ν) (p : P) : (t.node p).toCell = t.cells p := rfl

theorem cells_update (t : RbTree P κ ν) (p : P) (x : RbNode P κ ν) :
    cells { t with node := Function.update t.node p x } = Function.update t.cells p x.toCell := by
  funext q
  show (Function.update t.node p x q).toCell = _
  by_cases hq : q = p
  · rw [hq, Function.update_self, Function.update_self]
  · rw [Function.update_of_ne hq, Function.update_of_ne hq]
    rfl

theorem cells_setColor (t : RbTree P κ ν) (p : P) (c : Color) :
    (t.setColor p c).cells = Function.update t.cells p { t.cells p with color := c } :=
  cells_update t p _

theorem cells_setChild (t : RbTree P κ ν) (p : P) (s : Side) (q : Option P) :
    (t.setChild p s q).cells = Function.update t.cells p ((t.cells p).withChild s q) :=
  (cells_update t p _).trans (by cases s <;> rfl)

theorem cells_setParent (t : RbTree P κ ν) (p : P) (q : Option P) :
    (t.setParent p q).cells = Function.update t.cells p { t.cells p with parent := q } :=
  cells_update t p _

/-- A pointer is written where it is already. -/
theorem setChild_eq_self {p : P} {s : Side} {q : Option P} (h : (t.node p).child s = q) :
    t.setChild p s q = t := by
  obtain ⟨root, comp, node, log⟩ := t
  show RbTree.mk root comp (Function.update node p _) log = _
  refine congrArg (fun node => RbTree.mk root comp node log) ?_
  rw [Function.update_eq_self_iff, ← h]
  cases s <;> rfl

/-- Of two writes of one pointer the second stays. -/
theorem setChild_setChild (t : RbTree P κ ν) (p : P) (s : Side) (q q' : Option P) :
    (t.setChild p s q).setChild p s q' = t.setChild p s q' := by
  obtain ⟨root, comp, node, log⟩ := t
  refine congrArg (fun node => RbTree.mk root comp node log) ?_
  show Function.update (Function.update node p _) p _ = Function.update node p _
  rw [Function.update_idem]
  refine congrArg (Function.update node p) ?_
  cases s with
  | left =>
    show { Function.update node p _ p with left := q' } = _
    rw [Function.update_self]
  | right =>
    show { Function.update node p _ p with right := q' } = _
    rw [Function.update_self]

/-- What the fix-up does not touch: the root pointer, the keys and the values. -/
structure SameItems (t t' : RbTree P κ ν) : Prop where
  root : t'.root = t.root
  keyCompare : t'.keyCompare = t.keyCompare
  log : t'.log = t.log
  item : ∀ q, (t'.node q).key = (t.node q).key ∧ (t'.node q).val = (t.node q).val

omit [DecidableEq P] in
theorem SameItems.refl (t : RbTree P κ ν) : SameItems t t := ⟨rfl, rfl, rfl, fun _ => ⟨rfl, rfl⟩⟩

omit [DecidableEq P] in
theorem SameItems.trans {t₁ t₂ t₃ : RbTree P κ ν} (h : SameItems t₁ t₂) (h' : SameItems t₂ t₃) :
    SameItems t₁ t₃ :=
  ⟨h'.root.trans h.root, h'.keyCompare.trans h.keyCompare, h'.log.trans h.log, fun q =>
    ⟨(h'.item q).1.trans (h.item q).1, (h'.item q).2.trans (h.item q).2⟩⟩

/-- A write to one node that keeps its key and its value. -/
theorem sameItems_update (t : RbTree P κ ν) (p : P) {x : RbNode P κ ν}
    (hx : x.key = (t.node p).key ∧ x.val = (t.node p).val) :
    SameItems t { t with node := Function.update t.node p x } := by
  refine ⟨rfl, rfl, rfl, fun q => ?_⟩
  show (Function.update t.node p x q).key = _ ∧ (Function.update t.node p x q).val = _
  by_cases hq : q = p
  · rw [hq, Function.update_self]
    exact hx
  · rw [Function.update_of_ne hq]
    exact ⟨rfl, rfl⟩

theorem sameItems_setColor (t : RbTree P κ ν) (p : P) (c : Color) :
    SameItems t (t.setColor p c) :=
  sameItems_update t p ⟨rfl, rfl⟩

theorem sameItems_setChild (t : RbTree P κ ν) (p : P) (s : Side) (q : Option P) :
    SameItems t (t.setChild p s q) :=
  sameItems_update t p (by cases s <;> exact ⟨rfl, rfl⟩)

theorem sameItems_setParent (t : RbTree P κ ν) (p : P) (q : Option P) :
    SameItems t (t.setParent p q) :=
  sameItems_update t p ⟨rfl, rfl⟩

open ColorTree

/-- **What a rotation writes**: `x` goes down to `d`, its child `y` comes up, and the parent `q`
of `x` gets `y` on `side`. The subtree that changes sides keeps its parent pointer. -/
theorem rbTreeRotate_cells {side d : Side} {q x y : P} (hchild : (t.cells x).child d.flip = some y)
    (hparent : (t.cells x).parent = some q) (hqx : q ≠ x) (hqy : q ≠ y) (hxy : x ≠ y) :
    ∃ t', rbTreeRotate side d t x = some t' ∧ SameItems t t'
      ∧ t'.cells q = (t.cells q).withChild side (some y)
      ∧ t'.cells y = { t.cells y with parent := some q }.withChild d (some x)
      ∧ t'.cells x
        = { t.cells x with parent := some y }.withChild d.flip ((t.cells y).child d)
      ∧ ∀ z, z ≠ q → z ≠ y → z ≠ x → t'.cells z = t.cells z := by
  have hchild' : (t.node x).child d.flip = some y := hchild
  have hparent' : (t.node x).parent = some q := hparent
  refine ⟨_, by rw [rbTreeRotate, hchild']; dsimp only; rw [hparent']; rfl, ?_, ?_, ?_, ?_,
    fun z hzq hzy hzx => ?_⟩
  · exact ((((sameItems_setChild t _ _ _).trans (sameItems_setParent _ _ _)).trans
      (sameItems_setParent _ _ _)).trans (sameItems_setChild _ _ _ _)).trans
      (sameItems_setChild _ _ _ _)
  all_goals simp only [toCell_node, cells_setChild, cells_setParent]
  · rw [Function.update_of_ne hqy, Function.update_of_ne hqx, Function.update_of_ne hqx,
      Function.update_of_ne hqy, Function.update_self]
  · rw [Function.update_self, Function.update_of_ne hxy.symm, Function.update_of_ne hxy.symm,
      Function.update_self, Function.update_of_ne hqy.symm]
  · rw [Function.update_of_ne hxy, Function.update_self, Function.update_self,
      Function.update_of_ne hxy.symm, Function.update_self, Function.update_of_ne hqy.symm,
      Function.update_of_ne hxy, Function.update_of_ne hqx.symm, Cell.withParent_child]
  · rw [Function.update_of_ne hzy, Function.update_of_ne hzx, Function.update_of_ne hzx,
      Function.update_of_ne hzy, Function.update_of_ne hzq]

/-- **What a rotation does**, where the subtree that changes sides is empty. -/
theorem rbTreeRotate_eq {f : Frame P} {d : Side} {cx cy : Color} {x y : P} {w z : ColorTree P}
    (h : Located t.cells t.root (f :: fs) (bin d.flip cx (bin d cy nil y z) x w)) :
    ∃ t', rbTreeRotate f.side d t x = some t' ∧ SameItems t t'
      ∧ Located t'.cells t'.root (f :: fs) (bin d cy (bin d.flip cx nil x w) y z) := by
  obtain ⟨hx, hyz, -⟩ := repr_bin.mp h.repr
  obtain ⟨hy, -, -⟩ := repr_bin.mp hyz
  obtain ⟨hf, -, -⟩ := h.path
  rw [root_bin] at hx hf
  obtain ⟨hxp, hxy, -⟩ := h.nodes
  have hyf := (h.nodes.2.2.2.1 y (root_mem (root_bin ..))).1
  have hxy : x ≠ y := fun heq => hxy (heq ▸ root_mem (root_bin ..))
  have hfmem : f.p ∈ pathNodes (f :: fs) := List.mem_append_left _ List.mem_cons_self
  obtain ⟨t', hrun, hsame, hq', hy', hx', hframe⟩ := @rbTreeRotate_cells P κ ν _ t f.side d f.p x y
    (by rw [hx, Cell.of_child]) (by rw [hx, Cell.of_parent]; rfl)
    (fun heq => hxp (heq ▸ hfmem)) (fun heq => hyf (heq ▸ hfmem)) hxy
  refine ⟨t', hrun, hsame, ?_⟩
  rw [hsame.root]
  refine h.rotate ?_ ?_ ?_ hframe
  · rw [hq', hf, Cell.of_withChild]
  · rw [hy', hy, Cell.of_withParent, Cell.of_withChild]
  · rw [hx', hx, hy, Cell.of_withParent, Cell.of_withChild, Cell.of_child]
    rfl

omit [DecidableEq P] in
/-- The parent of the node at a place. -/
theorem located_parent {tn : ColorTree P} {n : P} (h : Located t.cells t.root fs tn)
    (hroot : tn.root = some n) : (t.node n).parent = parentOf fs := by
  cases tn with
  | nil => exact nomatch hroot
  | node c l p r =>
    obtain rfl : p = n := Option.some.inj hroot
    show (t.cells p).parent = _
    rw [h.repr.1]

omit [DecidableEq P] in
/-- The colour of the node a path ends at. -/
theorem located_color {f : Frame P} {tn : ColorTree P} (h : Located t.cells t.root (f :: fs) tn) :
    (t.node f.p).color = f.color := by
  show (t.cells f.p).color = _
  rw [h.path.1, Cell.of_color]

omit [DecidableEq P] in
theorem located_grandparent {f : Frame P} {tn : ColorTree P} {n : P}
    (h : Located t.cells t.root (f :: fs) tn) (hroot : tn.root = some n) :
    t.grandparent n = parentOf fs := by
  unfold grandparent
  rw [located_parent h hroot]
  exact located_parent (located_cons.mp h) (root_bin ..)

omit [DecidableEq P] in
/-- The children of the node a path ends at. -/
theorem located_child {f : Frame P} {tn : ColorTree P} (h : Located t.cells t.root (f :: fs) tn) :
    (t.node f.p).child f.side = tn.root ∧ (t.node f.p).child f.side.flip = f.other.root := by
  show (t.cells f.p).child f.side = _ ∧ (t.cells f.p).child f.side.flip = _
  rw [h.path.1, Cell.of_child, Cell.of_child_flip]
  exact ⟨rfl, rfl⟩

omit [DecidableEq P] in
/-- What is beside a place is not in it. -/
theorem located_other_ne {f : Frame P} {tn : ColorTree P} {n : P}
    (h : Located t.cells t.root (f :: fs) tn) (hroot : tn.root = some n) :
    f.other.root ≠ some n := by
  intro heq
  have hnodes := (located_cons.mp h).nodes
  exact (hnodes.2.2.2.1 n (root_mem hroot)).2 (root_mem heq)

/-- The uncle is beside the parent. -/
theorem located_uncle {f g : Frame P} {tn : ColorTree P} {n : P}
    (h : Located t.cells t.root (f :: g :: fs) tn) (hroot : tn.root = some n) :
    t.uncle n = g.other.root := by
  have hp := located_cons.mp h
  obtain ⟨hside, hother⟩ := located_child hp
  have hne := located_other_ne hp (root_bin ..)
  unfold uncle
  rw [located_grandparent h hroot, located_parent h hroot]
  show (if some f.p = (t.node g.p).left then (t.node g.p).right else (t.node g.p).left)
    = g.other.root
  rw [root_bin] at hside
  cases hs : g.side with
  | left =>
    rw [hs] at hside hother
    have hleft : (t.node g.p).left = some f.p := hside
    rw [hleft, if_pos rfl]
    exact hother
  | right =>
    rw [hs] at hother
    have hleft : (t.node g.p).left = g.other.root := hother
    rw [hleft, if_neg hne.symm]

/-- **A node is recoloured**, at its place. -/
theorem setColor_located {s : Side} {c d : Color} {x : P} {a b : ColorTree P}
    (h : Located t.cells t.root fs (bin s c a x b)) :
    Located (t.setColor x d).cells (t.setColor x d).root fs (bin s d a x b) := by
  refine h.recolour ?_ fun q hq => ?_
  · rw [cells_setColor, Function.update_self]
  · rw [cells_setColor, Function.update_of_ne hq]

/-! ## Case 5 and case 4 -/

/-- **Case 5** at a node below `p`, which is on the same side of `g` as `g` is of its own
parent: `p` comes up. -/
theorem rbTreeInsertCase5_eq {h : Frame P} {cg cp : Color} {p g n : P} {tn u : ColorTree P}
    (hloc : Located t.cells t.root (h :: fs) (bin h.side cg (bin h.side cp tn p nil) g u))
    (hn : tn.root = some n) :
    ∃ t', t.rbTreeInsertCase5 n = some t' ∧ SameItems t t'
      ∧ Located t'.cells t'.root (h :: fs)
        (bin h.side .black tn p (bin h.side .red nil g u)) := by
  have hp : Located t.cells t.root (⟨h.side, cg, g, u⟩ :: h :: fs) (bin h.side cp tn p nil) :=
    located_cons.mpr hloc
  have hleaf : Located t.cells t.root (⟨h.side, cp, p, nil⟩ :: ⟨h.side, cg, g, u⟩ :: h :: fs) tn :=
    located_cons.mpr hp
  have hparent : (t.node n).parent = some p := located_parent hleaf hn
  have hgrand : t.grandparent n = some g := located_grandparent hleaf hn
  -- the two colours
  have hp' := setColor_located (d := .black) hp
  have hg' := setColor_located (d := .red) (located_cons.mp hp')
  have hside := (located_child (located_cons.mpr (located_cons.mpr hg') :
    Located _ _ (⟨h.side, .black, p, nil⟩ :: ⟨h.side, .red, g, u⟩ :: h :: fs) tn))
  have hsame := (sameItems_setColor t p .black).trans (sameItems_setColor _ g .red)
  -- the rotation, with `g` going down to the other side
  have hrot : Located ((t.setColor p .black).setColor g .red).cells
      ((t.setColor p .black).setColor g .red).root (h :: fs)
      (bin h.side.flip.flip .red (bin h.side.flip .black nil p tn) g u) := by
    rw [Side.flip_flip, bin_flip]
    exact hg'
  obtain ⟨t', heq, hsame', hloc'⟩ := rbTreeRotate_eq hrot
  rw [bin_flip, Side.flip_flip] at hloc'
  refine ⟨t', ?_, hsame.trans hsame', hloc'⟩
  unfold rbTreeInsertCase5
  rw [hparent, hgrand]
  show (if (((t.setColor p .black).setColor g .red).node p).left = some n then _ else _) = _
  cases hs : h.side with
  | left =>
    rw [hs] at hside heq
    have hleft : (((t.setColor p .black).setColor g .red).node p).left = tn.root := hside.1
    rw [hleft, if_pos hn]
    exact heq
  | right =>
    rw [hs] at hside heq
    have hleft : (((t.setColor p .black).setColor g .red).node p).left = none := hside.2
    rw [hleft, if_neg fun hc => nomatch hc]
    exact heq

/-- The tests of case 4. -/
theorem isInner_eq {f g : Frame P} {tn : ColorTree P} {n : P}
    (hloc : Located t.cells t.root (f :: g :: fs) tn) (hn : tn.root = some n) (s : Side) :
    t.isInner n f.p s = some (decide (s = f.side ∧ g.side = s.flip)) := by
  have hp := located_cons.mp hloc
  obtain ⟨hchild, hother⟩ := located_child hloc
  obtain ⟨hgchild, hgother⟩ := located_child hp
  rw [root_bin] at hgchild
  unfold isInner
  by_cases hs : s = f.side
  · rw [hs, hchild, if_pos hn, located_grandparent hloc hn]
    show some (decide ((t.node g.p).child f.side.flip = some f.p)) = _
    by_cases hg : g.side = f.side.flip
    · rw [← hg, hgchild]
      simp
    · have hgf : g.side = f.side := by
        rw [Side.eq_flip_of_ne hg, Side.flip_flip]
      have hne := located_other_ne hp (root_bin ..)
      rw [← hgf, hgother]
      simp [hne, hgf, (Side.flip_ne f.side).symm]
  · have hne := located_other_ne hloc hn
    rw [Side.eq_flip_of_ne hs, hother, if_neg hne]
    simp [Side.flip_ne]

/-- **Case 4 on the outer side** goes on to case 5. -/
theorem rbTreeInsertCase4_outer {f g : Frame P} {tn : ColorTree P} {n : P}
    (hloc : Located t.cells t.root (f :: g :: fs) tn) (hn : tn.root = some n)
    (hside : f.side = g.side) : t.rbTreeInsertCase4 n = t.rbTreeInsertCase5 n := by
  unfold rbTreeInsertCase4
  have hfalse : ∀ s, t.isInner n f.p s = some false := by
    intro s
    rw [isInner_eq hloc hn]
    refine congrArg some (decide_eq_false ?_)
    rintro ⟨rfl, hg⟩
    exact Side.flip_ne f.side (hg.symm.trans hside.symm)
  rw [located_parent hloc hn]
  show (do
    if ← t.isInner n f.p .right then _ else if ← t.isInner n f.p .left then _ else _) = _
  rw [hfalse, hfalse]
  rfl

/-- Case 4 on the inner side rotates at the parent first, and goes on to case 5 with it. -/
theorem rbTreeInsertCase4_of_rotate {d : Side} {f g : Frame P} {tn : ColorTree P} {n : P}
    (hloc : Located t.cells t.root (f :: g :: fs) tn) (hn : tn.root = some n)
    (hg : g.side = d) (hf : f.side = d.flip) (hrot : rbTreeRotate d d t f.p = some t')
    (hnext : (t'.node n).child d = some f.p) :
    t.rbTreeInsertCase4 n = t'.rbTreeInsertCase5 f.p := by
  unfold rbTreeInsertCase4
  rw [located_parent hloc hn]
  show (do
    if ← t.isInner n f.p .right then _ else if ← t.isInner n f.p .left then _ else _) = _
  rw [isInner_eq hloc hn .right, isInner_eq hloc hn .left, hf, hg]
  cases d with
  | left =>
    have hrot' : t.rbTreeRotateLeftSideLeft f.p = some t' := hrot
    have hleft : (t'.node n).left = some f.p := hnext
    show (t.rbTreeRotateLeftSideLeft f.p).bind _ = _
    rw [hrot', Option.bind_some, hleft]
  | right =>
    have hrot' : t.rbTreeRotateRightSideRight f.p = some t' := hrot
    have hright : (t'.node n).right = some f.p := hnext
    show (t.rbTreeRotateRightSideRight f.p).bind _ = _
    rw [hrot', Option.bind_some, hright]

/-- **Case 4 on the inner side**, where the subtree that changes sides is empty. -/
theorem rbTreeInsertCase4_inner {d : Side} {cp cg cn : Color} {p g n : P} {w u z : ColorTree P}
    (hloc : Located t.cells t.root (⟨d.flip, cp, p, w⟩ :: ⟨d, cg, g, u⟩ :: fs)
      (bin d cn nil n z)) :
    ∃ t', t.rbTreeInsertCase4 n = t'.rbTreeInsertCase5 p ∧ SameItems t t'
      ∧ Located t'.cells t'.root (⟨d, cg, g, u⟩ :: fs)
        (bin d cn (bin d.flip cp nil p w) n z) := by
  obtain ⟨t', heq, hsame, hloc'⟩ := rbTreeRotate_eq (located_cons.mp hloc)
  have hnext : (t'.node n).child d = some p := by
    have hchild := located_child (located_cons.mpr hloc' :
      Located _ _ (⟨d, cn, n, z⟩ :: ⟨d, cg, g, u⟩ :: fs) (bin d.flip cp nil p w))
    exact hchild.1.trans (root_bin ..)
  exact ⟨t', rbTreeInsertCase4_of_rotate hloc (root_bin ..) rfl rfl heq hnext, hsame, hloc'⟩

/-! ## The way up -/

/-- `rb_tree_insert_case1` and `rb_tree_insert_case2` at a node with a red parent. -/
theorem rbTreeInsertCase1_red {f : Frame P} {tn : ColorTree P} {n : P} {fuel : ℕ}
    (hloc : Located t.cells t.root (f :: fs) tn) (hn : tn.root = some n)
    (hf : f.color = .red) :
    rbTreeInsertCase1 (fuel + 1) t n = rbTreeInsertCase3 (rbTreeInsertCase1 fuel) t n := by
  have hparent : (t.node n).parent = some f.p := located_parent hloc hn
  rw [rbTreeInsertCase1, hparent, if_neg (Option.some_ne_none f.p), rbTreeInsertCase2, hparent]
  show (if (t.node f.p).color = .black then _ else _) = _
  rw [located_color hloc, hf, if_neg fun hc => nomatch hc]

omit [DecidableEq P] in
/-- The colour of the node at the root of a tree in memory. -/
theorem repr_isRed {tn : ColorTree P} {n : P} {r : Option P} (h : Repr t.cells tn r)
    (hn : tn.root = some n) : tn.isRed = true ↔ (t.node n).color = .red := by
  obtain ⟨c, a, b, rfl⟩ := exists_bin_of_root .left hn
  have hcolor : (t.node n).color = c := by
    show (t.cells n).color = c
    rw [(repr_bin.mp h).1, Cell.of_color]
  rw [isRed_bin, hcolor, decide_eq_true_iff]

/-- A red uncle. -/
theorem located_uncle_red {f g : Frame P} {tn : ColorTree P} {n : P}
    (hloc : Located t.cells t.root (f :: g :: fs) tn) (hn : tn.root = some n)
    (hg : g.other.isRed = true) :
    ∃ a u b, g.other = .node .red a u b ∧ t.uncle n = some u ∧ (t.node u).color = .red := by
  obtain ⟨a, u, b, hother⟩ := exists_of_isRed hg
  have hroot : g.other.root = some u := by rw [hother, ColorTree.root]
  refine ⟨a, u, b, hother, (located_uncle hloc hn).trans hroot, ?_⟩
  exact (repr_isRed hloc.path.2.2.2.1 hroot).mp hg

/-- An uncle that is not red. -/
theorem located_uncle_black {f g : Frame P} {tn : ColorTree P} {n u : P}
    (hloc : Located t.cells t.root (f :: g :: fs) tn) (hn : tn.root = some n)
    (hg : g.other.isRed = false) (hu : t.uncle n = some u) : (t.node u).color ≠ .red := by
  rw [located_uncle hloc hn] at hu
  intro hred
  rw [(repr_isRed hloc.path.2.2.2.1 hu).mpr hred] at hg
  exact Bool.noConfusion hg

/-- **The three writes of a recolouring**, and the grandparent that is read among them. -/
theorem recolour_located {f g : Frame P} {tn a b : ColorTree P} {n u : P}
    (hloc : Located t.cells t.root (f :: g :: fs) tn) (hn : tn.root = some n)
    (hg : g.other = .node .red a u b) :
    ((t.setColor f.p .black).setColor u .black).grandparent n = some g.p
      ∧ Located (((t.setColor f.p .black).setColor u .black).setColor g.p .red).cells t.root fs
        (bin g.side .red (bin f.side .black tn f.p f.other) g.p (g.other.setColor .black)) := by
  obtain ⟨side, color, gp, other⟩ := g
  obtain rfl : other = .node .red a u b := hg
  have hp := setColor_located (d := .black) (located_cons.mp hloc)
  -- seen from the place of the uncle
  have hu : Located (t.setColor f.p .black).cells (t.setColor f.p .black).root
      (⟨side.flip, color, gp, bin f.side .black tn f.p f.other⟩ :: fs) (bin .left .red a u b) := by
    rw [located_cons, bin_flip]
    exact located_cons.mp hp
  have hu' := located_cons.mp (setColor_located (d := .black) hu)
  rw [bin_flip] at hu'
  refine ⟨?_, setColor_located (d := .red) hu'⟩
  exact located_grandparent (located_cons.mpr (located_cons.mpr hu') : Located _ _
    (⟨f.side, .black, f.p, f.other⟩ :: ⟨side, color, gp, bin .left .black a u b⟩ :: fs) tn) hn

/-- **One level of recolouring**, in memory. -/
theorem rbTreeInsertCase3_red {f g : Frame P} {tn : ColorTree P} {n : P}
    {case1 : RbTree P κ ν → P → Option (RbTree P κ ν)}
    (hloc : Located t.cells t.root (f :: g :: fs) tn) (hn : tn.root = some n)
    (hg : g.other.isRed = true) :
    ∃ t', rbTreeInsertCase3 case1 t n = case1 t' g.p ∧ SameItems t t'
      ∧ Located t'.cells t'.root fs (bin g.side .red (bin f.side .black tn f.p f.other) g.p
        (g.other.setColor .black)) := by
  obtain ⟨a, u, b, hother, huncle, hcolor⟩ := located_uncle_red hloc hn hg
  obtain ⟨hgrand, hloc'⟩ := recolour_located hloc hn hother
  have hparent : (t.node n).parent = some f.p := located_parent hloc hn
  refine ⟨_, ?_, ?_, hloc'⟩
  · rw [rbTreeInsertCase3, huncle]
    dsimp only
    rw [if_pos hcolor, hparent, Option.bind_some, hgrand, Option.bind_some]
  · exact ((sameItems_setColor t _ _).trans (sameItems_setColor _ _ _)).trans
      (sameItems_setColor _ _ _)

/-- A red root that is made black. -/
theorem setColor_root {tn : ColorTree P} {n : P} {k : ℕ} (hloc : Located t.cells t.root [] tn)
    (hn : tn.root = some n) (hred : tn.isRed = true) (hblacks : tn.Blacks k)
    (hnrr : tn.NoRedRed) :
    Located (t.setColor n .black).cells (t.setColor n .black).root [] (tn.setColor .black)
      ∧ (tn.setColor .black).Valid := by
  obtain ⟨hblacks', hnrr', hroot⟩ := setColor_black hblacks hnrr hred
  obtain ⟨c, l, r, rfl⟩ := exists_bin_of_root .left hn
  exact ⟨setColor_located hloc, hroot, hnrr', _, hblacks'⟩

/-- The root is made black. -/
theorem rbTreeInsertCase1_root {tn : ColorTree P} {n : P} {fuel k : ℕ}
    (hloc : Located t.cells t.root [] tn) (hn : tn.root = some n) (hred : tn.isRed = true)
    (hblacks : tn.Blacks k) (hnrr : tn.NoRedRed) :
    ∃ t' T, rbTreeInsertCase1 (fuel + 1) t n = some t' ∧ SameItems t t'
      ∧ Located t'.cells t'.root [] T ∧ T.inorder = tn.inorder ∧ T.Valid := by
  obtain ⟨hloc', hvalid⟩ := setColor_root hloc hn hred hblacks hnrr
  have hparent : (t.node n).parent = none := located_parent hloc hn
  refine ⟨t.setColor n .black, tn.setColor .black, ?_, sameItems_setColor t _ _, hloc',
    inorder_setColor .black tn, hvalid⟩
  rw [rbTreeInsertCase1, hparent, if_pos rfl]

/-- A black parent takes the red node. -/
theorem rbTreeInsertCase1_black {f : Frame P} {tn : ColorTree P} {n : P} {fuel k : ℕ}
    (hloc : Located t.cells t.root (f :: fs) tn) (hn : tn.root = some n)
    (hf : f.color = .black) (hpath : PathValid (f :: fs) k) (hblacks : tn.Blacks k)
    (hnrr : tn.NoRedRed) :
    ∃ t' T, rbTreeInsertCase1 (fuel + 1) t n = some t' ∧ SameItems t t'
      ∧ Located t'.cells t'.root [] T ∧ T.inorder = (plug (f :: fs) tn).inorder ∧ T.Valid := by
  have hparent : (t.node n).parent = some f.p := located_parent hloc hn
  refine ⟨t, _, ?_, .refl t, located_plug.mp hloc, rfl,
    valid_plug_iff.mpr ⟨k, hpath, hblacks, hnrr, fun _ => hf⟩⟩
  rw [rbTreeInsertCase1, hparent, if_neg (Option.some_ne_none f.p), rbTreeInsertCase2, hparent,
    Option.bind_some, located_color hloc, if_pos hf]

/-- **The way up by recolouring** ends with a valid tree, of the same nodes in the same
order. -/
theorem rbTreeInsertCase1_recolours {fuel : ℕ} {t : RbTree P κ ν} {fs : List (Frame P)}
    {tn : ColorTree P} {n : P} {k : ℕ} (hloc : Located t.cells t.root fs tn)
    (hn : tn.root = some n) (hred : tn.isRed = true) (hpath : PathValid fs k)
    (hblacks : tn.Blacks k) (hnrr : tn.NoRedRed) (hrec : Recolours fs)
    (hfuel : fs.length < fuel) :
    ∃ t' T, rbTreeInsertCase1 fuel t n = some t' ∧ SameItems t t'
      ∧ Located t'.cells t'.root [] T ∧ T.inorder = (plug fs tn).inorder ∧ T.Valid := by
  induction fuel generalizing t fs tn n k with
  | zero => exact absurd hfuel (Nat.not_lt_zero _)
  | succ fuel ih =>
    match fs with
    | [] => exact rbTreeInsertCase1_root hloc hn hred hblacks hnrr
    | [f] => exact rbTreeInsertCase1_black hloc hn hrec hpath hblacks hnrr
    | f :: g :: fs =>
      rcases hrec with hf | ⟨hf, hg, hrec⟩
      · exact rbTreeInsertCase1_black hloc hn hf hpath hblacks hnrr
      · obtain ⟨t₁, heq, hsame, hloc₁⟩ := rbTreeInsertCase3_red hloc hn hg
        obtain ⟨hpath₁, hblacks₁, hnrr₁⟩ := recolour_step hf hg hpath hblacks hnrr
        rw [List.length_cons, List.length_cons] at hfuel
        obtain ⟨t', T, heq', hsame', hT, hinorder, hvalid⟩ := ih hloc₁ (root_bin ..)
          (by rw [isRed_bin]; rfl) hpath₁ hblacks₁ hnrr₁ hrec (by omega)
        refine ⟨t', T, ?_, hsame.trans hsame', hT, ?_, hvalid⟩
        · rw [rbTreeInsertCase1_red hloc hn hf, heq, heq']
        · rw [hinorder]
          refine inorder_plug_congr ?_ fs
          refine inorder_bin_congr ?_ (inorder_setColor _ _) _ _ _ _
          exact inorder_bin_congr rfl rfl _ _ _ _

/-- `rb_tree_insert_case3` where the uncle is not red. -/
theorem rbTreeInsertCase3_black {f g : Frame P} {tn : ColorTree P} {n : P}
    {case1 : RbTree P κ ν → P → Option (RbTree P κ ν)}
    (hloc : Located t.cells t.root (f :: g :: fs) tn) (hn : tn.root = some n)
    (hg : g.other.isRed = false) : rbTreeInsertCase3 case1 t n = t.rbTreeInsertCase4 n := by
  rw [rbTreeInsertCase3]
  cases huncle : t.uncle n with
  | none => rfl
  | some u =>
    show (if (t.node u).color = .red then _ else _) = _
    exact if_neg (located_uncle_black hloc hn hg huncle)

/-- **Case 5 below the new leaf's grandparent** `g`, with nothing beside the lower two nodes,
leaves a valid tree of the same nodes in the same order. -/
theorem rbTreeInsertCase5_valid {f g h : Frame P} {tn : ColorTree P} {c : Color} {p n : P}
    (hloc : Located t.cells t.root (h :: fs)
      (bin h.side g.color (bin h.side c tn p nil) g.p g.other)) (hn : tn.root = some n)
    (hf : f.color = .red) (hg : g.other.isRed = false) (hside : g.side = h.side)
    (hpath : PathValid (f :: g :: h :: fs) 0) (hblacks : tn.Blacks 0) (hnrr : tn.NoRedRed) :
    ∃ t' T, t.rbTreeInsertCase5 n = some t' ∧ SameItems t t' ∧ Located t'.cells t'.root [] T
      ∧ T.inorder
        = (plug (h :: fs) (bin h.side g.color (bin h.side c tn p nil) g.p g.other)).inorder
      ∧ T.Valid := by
  obtain ⟨t', heq, hsame, hloc'⟩ := rbTreeInsertCase5_eq hloc hn
  obtain ⟨hvalid, -⟩ := rotated_valid hf hg hpath hblacks hnrr p
  rw [hside] at hvalid
  refine ⟨t', _, heq, hsame, located_plug.mp hloc', inorder_plug_congr ?_ (h :: fs), hvalid⟩
  cases h.side with
  | left => simp [bin, inorder]
  | right => simp [bin, inorder]

/-- **A rotation for the new leaf**, aside of the root, ends with a valid tree, of the
same nodes in the same order. -/
theorem rbTreeInsertCase1_rotates {n : P} {fuel : ℕ}
    (hloc : Located t.cells t.root fs (.node .red nil n nil)) (hpath : PathValid fs 0)
    (hrot : RotatesAside fs) :
    ∃ t' T, rbTreeInsertCase1 (fuel + 1) t n = some t' ∧ SameItems t t'
      ∧ Located t'.cells t'.root [] T ∧ T.inorder = (plug fs (.node .red nil n nil)).inorder
      ∧ T.Valid := by
  match fs with
  | [] => exact hrot.elim
  | [_] => exact hrot.elim
  | [_, _] => exact hrot.elim
  | f :: g :: h :: fs =>
    obtain ⟨hf, hg, hside⟩ := hrot
    have hleaf : (ColorTree.node .red nil n nil).Blacks 0 := ⟨rfl, rfl⟩
    have hleafRed : (ColorTree.node .red nil n nil).NoRedRed :=
      ⟨fun _ => ⟨rfl, rfl⟩, trivial, trivial⟩
    obtain ⟨-, hnil⟩ := rotated_valid hf hg hpath hleaf hleafRed f.p
    rw [rbTreeInsertCase1_red hloc rfl hf, rbTreeInsertCase3_black hloc rfl hg]
    by_cases hfg : f.side = g.side
    · -- the leaf is on the outer side
      have hplace : Located t.cells t.root (h :: fs)
          (bin h.side g.color (bin h.side f.color (.node .red nil n nil) f.p nil) g.p g.other) := by
        have hloc' := located_cons.mp (located_cons.mp hloc)
        rw [hnil, hfg, hside] at hloc'
        exact hloc'
      obtain ⟨t', T, heq, hsame, hT, hinorder, hvalid⟩ :=
        rbTreeInsertCase5_valid hplace rfl hf hg hside hpath hleaf hleafRed
      refine ⟨t', T, ?_, hsame, hT, hinorder.trans ?_, hvalid⟩
      · rw [rbTreeInsertCase4_outer hloc rfl hfg, heq]
      · refine inorder_plug_congr ?_ (h :: fs)
        rw [hnil, hfg, hside]
    · -- the leaf is on the inner side, and comes up by two rotations
      have hfg' : f.side = g.side.flip := Side.eq_flip_of_ne hfg
      have hplace : Located t.cells t.root
          (⟨g.side.flip, f.color, f.p, nil⟩ :: ⟨g.side, g.color, g.p, g.other⟩ :: h :: fs)
          (bin g.side .red nil n nil) := by
        have hbin : bin g.side .red nil n nil = ColorTree.node .red nil n nil := by
          cases g.side <;> rfl
        have hframe : (⟨g.side.flip, f.color, f.p, nil⟩ : Frame P) = f := by
          rw [← hnil, ← hfg']
        rw [hbin, hframe]
        exact hloc
      obtain ⟨t₁, heq₁, hsame₁, hloc₁⟩ := rbTreeInsertCase4_inner hplace
      have hplace₁ : Located t₁.cells t₁.root (h :: fs) (bin h.side g.color
          (bin h.side .red (bin g.side.flip f.color nil f.p nil) n nil) g.p g.other) := by
        have hloc₁' := located_cons.mp hloc₁
        rw [hside] at hloc₁' ⊢
        exact hloc₁'
      obtain ⟨t', T, heq, hsame, hT, hinorder, hvalid⟩ :=
        rbTreeInsertCase5_valid hplace₁ (root_bin ..) hf hg hside hpath
          (by rw [hf]; exact blacks_bin_red.mpr ⟨rfl, rfl⟩)
          (noRedRed_bin.mpr ⟨fun _ => ⟨rfl, rfl⟩, trivial, trivial⟩)
      refine ⟨t', T, by rw [heq₁, heq], hsame₁.trans hsame, hT, hinorder.trans ?_, hvalid⟩
      refine inorder_plug_congr ?_ (h :: fs)
      rw [hnil, hfg', ← hside]
      cases g.side with
      | left => simp [bin, Side.flip, inorder]
      | right => simp [bin, Side.flip, inorder]

/-! ## `bst_insert` -/

/-- Where the loop goes left. -/
def goesLeft (t : RbTree P κ ν) (key : κ) (p : P) : Bool :=
  decide (t.keyCompare key (t.node p).key < 0)

/-- **The loop of `bst_insert`** ends at the place the way down leads to. -/
theorem bstInsertLoop_eq {key : κ} {val : ν} {alloc : Option P} {T : ColorTree P} {curr : P}
    {fs : List (Frame P)} {fuel : ℕ} (hloc : Located t.cells t.root fs T)
    (hcurr : T.root = some curr) (hfuel : T.inorder.length < fuel) :
    ∃ f fs', T.descend (t.goesLeft key) fs = f :: fs'
      ∧ t.bstInsertLoop key val alloc fuel curr
        = some (t.insertLeaf key val alloc f.p f.side) := by
  induction fuel generalizing T curr fs with
  | zero => exact absurd hfuel (Nat.not_lt_zero _)
  | succ fuel ih =>
    cases T with
    | nil => exact nomatch hcurr
    | node c l p r =>
      obtain rfl : p = curr := Option.some.inj hcurr
      rw [inorder, List.length_append, List.length_cons] at hfuel
      -- the side it goes to, and the subtree there
      obtain ⟨side, sub, other, hT, hside, hdesc, hlen⟩ : ∃ side sub other,
          ColorTree.node c l p r = bin side c sub p other
            ∧ (if t.keyCompare key (t.node p).key < 0 then Side.left else .right) = side
            ∧ (ColorTree.node c l p r).descend (t.goesLeft key) fs
              = sub.descend (t.goesLeft key) (⟨side, c, p, other⟩ :: fs)
            ∧ sub.inorder.length < fuel := by
        by_cases hgo : t.keyCompare key (t.node p).key < 0
        · have hleft : t.goesLeft key p = true := decide_eq_true hgo
          refine ⟨.left, l, r, rfl, if_pos hgo, ?_, by omega⟩
          rw [descend, if_pos hleft]
        · have hright : ¬ t.goesLeft key p = true := fun hc => hgo (of_decide_eq_true hc)
          refine ⟨.right, r, l, rfl, if_neg hgo, ?_, by omega⟩
          rw [descend, if_neg hright]
      have hsub : Located t.cells t.root (⟨side, c, p, other⟩ :: fs) sub :=
        located_cons.mpr (hT ▸ hloc)
      have hchild : (t.node p).child side = sub.root := (located_child hsub).1
      rw [bstInsertLoop, hdesc, hside, hchild]
      cases sub with
      | nil => exact ⟨_, _, rfl, rfl⟩
      | node c' l' next r' => exact ih hsub rfl hlen

/-- **The new leaf**, in memory. -/
theorem insertLeaf_located {key : κ} {val : ν} {n : P} {f : Frame P}
    (hloc : Located t.cells t.root (f :: fs) nil) (hn : n ∉ pathNodes (f :: fs)) :
    ∃ t', t.insertLeaf key val (some n) f.p f.side = (1, some n, t') ∧ t'.root = t.root
      ∧ Located t'.cells t'.root (f :: fs) (.node .red nil n nil) := by
  have hne : f.p ≠ n := fun heq => hn (heq ▸ List.mem_append_left _ List.mem_cons_self)
  have hcells : ((t.rbNodeAlloc n key val (some f.p)).setChild f.p f.side (some n)).cells
      = Function.update (Function.update t.cells n ⟨.red, none, none, some f.p⟩) f.p
        ((t.cells f.p).withChild f.side (some n)) := by
    have halloc : (t.rbNodeAlloc n key val (some f.p)).cells
        = Function.update t.cells n ⟨.red, none, none, some f.p⟩ := cells_update t n _
    rw [cells_setChild, halloc, Function.update_of_ne hne]
  refine ⟨_, rfl, rfl, hloc.insert hn ?_ ?_ fun q hqf hqn => ?_⟩
  · rw [hcells, Function.update_self, hloc.path.1, Cell.of_withChild]
  · rw [hcells, Function.update_of_ne hne.symm, Function.update_self]
  · rw [hcells, Function.update_of_ne hqf, Function.update_of_ne hqn]

/-- What an insertion leaves of the keys and the values: the new node has its own. -/
structure NewItem (t t' : RbTree P κ ν) (n : P) (key : κ) (val : ν) : Prop where
  keyCompare : t'.keyCompare = t.keyCompare
  log : t'.log = (n, key, val) :: t.log
  new : (t'.node n).key = key ∧ (t'.node n).val = val
  old : ∀ q ≠ n, (t'.node q).key = (t.node q).key ∧ (t'.node q).val = (t.node q).val

theorem rbNodeAlloc_newItem (t : RbTree P κ ν) (n : P) (key : κ) (val : ν) (parent : Option P) :
    NewItem t (t.rbNodeAlloc n key val parent) n key val := by
  refine ⟨rfl, rfl, ?_, fun q hq => ?_⟩
  · show (Function.update t.node n _ n).key = key ∧ (Function.update t.node n _ n).val = val
    rw [Function.update_self]
    exact ⟨rfl, rfl⟩
  · show (Function.update t.node n _ q).key = _ ∧ (Function.update t.node n _ q).val = _
    rw [Function.update_of_ne hq]
    exact ⟨rfl, rfl⟩

omit [DecidableEq P] in
theorem NewItem.same {t t₁ t' : RbTree P κ ν} {n : P} {key : κ} {val : ν}
    (h : NewItem t t₁ n key val) (hs : SameItems t₁ t') : NewItem t t' n key val :=
  ⟨hs.keyCompare.trans h.keyCompare, hs.log.trans h.log,
    ⟨(hs.item n).1.trans h.new.1, (hs.item n).2.trans h.new.2⟩, fun q hq =>
      ⟨(hs.item q).1.trans (h.old q hq).1, (hs.item q).2.trans (h.old q hq).2⟩⟩

/-- **The place**: `bst_insert` makes a root, or it hangs the leaf on a node that has nothing
there. -/
theorem bstInsert_place {key : κ} {val : ν} {T : ColorTree P} {fuel : ℕ}
    (hloc : Located t.cells t.root [] T) (hfuel : T.inorder.length < fuel) (alloc : Option P) :
    T = nil ∧ t.root = none
      ∨ ∃ f fs, T.descend (t.goesLeft key) [] = f :: fs ∧ Located t.cells t.root (f :: fs) nil
        ∧ t.bstInsert fuel key val alloc = some (t.insertLeaf key val alloc f.p f.side) := by
  cases T with
  | nil => exact Or.inl ⟨rfl, hloc.root_eq.symm⟩
  | node c l curr r =>
    have hroot : t.root = some curr := hloc.root_eq.symm
    obtain ⟨f, fs, hdesc, hloop⟩ := @bstInsertLoop_eq P κ ν _ t key val alloc _ curr [] fuel
      hloc rfl hfuel
    refine Or.inr ⟨f, fs, hdesc, ?_, ?_⟩
    · rw [located_plug, ← hdesc, plug_descend]
      exact hloc
    · unfold bstInsert
      rw [hroot]
      exact hloop

/-- **`bst_insert`** puts a red leaf at the place the way down leads to. -/
theorem bstInsert_eq {key : κ} {val : ν} {n : P} {T : ColorTree P} {fuel : ℕ}
    (hloc : Located t.cells t.root [] T) (hn : n ∉ T.inorder) (hfuel : T.inorder.length < fuel) :
    ∃ t', t.bstInsert fuel key val (some n) = some (1, some n, t') ∧ NewItem t t' n key val
      ∧ Located t'.cells t'.root (T.descend (t.goesLeft key) []) (.node .red nil n nil) := by
  rcases @bstInsert_place P κ ν _ t key val T fuel hloc hfuel (some n) with
    ⟨rfl, hroot⟩ | ⟨f, fs, hdesc, hplug, hrun⟩
  · have hnew := rbNodeAlloc_newItem t n key val none
    refine ⟨{ t.rbNodeAlloc n key val none with root := some n }, ?_,
      ⟨hnew.keyCompare, hnew.log, hnew.new, hnew.old⟩, ?_⟩
    · rw [bstInsert, hroot]
    · refine located_nil.mpr ⟨⟨?_, trivial, trivial⟩, rfl, List.nodup_singleton n⟩
      show (t.rbNodeAlloc n key val none).cells n = _
      exact (congrFun (cells_update t n _) n).trans (Function.update_self ..)
  · have hfresh : n ∉ pathNodes (f :: fs) := fun hmem => hn (mem_of_descend (hdesc ▸ hmem))
    obtain ⟨t', hleaf, -, hloc'⟩ := @insertLeaf_located P κ ν _ t fs key val n f hplug hfresh
    refine ⟨t', by rw [hrun, hleaf], ?_, hdesc ▸ hloc'⟩
    obtain rfl := congrArg (fun r => r.2.2) hleaf
    exact (rbNodeAlloc_newItem t n key val (some f.p)).same (sameItems_setChild _ _ _ _)

/-- **`_rb_tree_insert`** goes on to case 1 with the new leaf. -/
theorem rbTreeInsert_eq {t₀ : RbTree P κ ν} {key : κ} {val : ν} {n : P} {alloc : Option P}
    {fuel : ℕ} (hbst : t.bstInsert fuel key val alloc = some (1, some n, t₀)) :
    t.rbTreeInsert fuel key val alloc
      = (rbTreeInsertCase1 fuel t₀ n).map fun t' => (1, t') := by
  rw [rbTreeInsert, hbst, Option.bind_some, if_neg (show ¬ (1 : ℤ) ≤ 0 by decide),
    Option.bind_some]

end RbTree
