import Ckit.RbtreeRotate

/-!
# The parent pointers of a rotation

A rotation takes the child `y` of `x` up to the place of `x`. Five pointers are written: the
one of the parent to `x`, the parents of `y` and `x`, and the two children that `x` and `y`
have on the inside. The subtree between them goes from below `y` to below `x`, and the parent
of its root is a sixth pointer that changes, where there is such a subtree. No rotation of
`rbtree.c` writes it: all of them keep the nodes in order, and the parents are right exactly
where nothing was between `y` and `x` (`rb_tree_rotate_keeps_iff`).
-/

namespace ColorTree

variable {P : Type*} {m : P → Cell P}

theorem plug_append (fs gs : List (Frame P)) (t : ColorTree P) :
    plug (fs ++ gs) t = plug gs (plug fs t) := by
  induction fs generalizing t with
  | nil => rfl
  | cons f fs ih => exact ih _

/-- **Every node has a place.** -/
theorem exists_place {x : P} {t : ColorTree P} (hx : x ∈ t.inorder) :
    ∃ fs tx, t = plug fs tx ∧ tx.root = some x := by
  induction t with
  | nil => exact absurd hx List.not_mem_nil
  | node c l p r ihl ihr =>
    rcases List.mem_append.mp hx with hl | hr
    · obtain ⟨fs, tx, rfl, htx⟩ := ihl hl
      refine ⟨fs ++ [⟨.left, c, p, r⟩], tx, ?_, htx⟩
      rw [plug_append]
      rfl
    · rcases List.mem_cons.mp hr with rfl | hr
      · exact ⟨[], node c l x r, rfl, rfl⟩
      · obtain ⟨fs, tx, rfl, htx⟩ := ihr hr
        refine ⟨fs ++ [⟨.right, c, p, l⟩], tx, ?_, htx⟩
        rw [plug_append]
        rfl

/-- The parent of the node at the root of a tree in memory. -/
theorem Repr.parent_root {t : ColorTree P} {r : Option P} {c : P} (h : Repr m t r)
    (hc : t.root = some c) : (m c).parent = r := by
  cases t with
  | nil => exact absurd hc (Option.some_ne_none c).symm
  | node d l p q =>
    obtain rfl : p = c := Option.some.inj hc
    rw [h.1]

/-- **The parents of a tree in memory** are the nodes they are children of. -/
theorem Repr.parent_child {t : ColorTree P} {r : Option P} (h : Repr m t r) {p : P}
    (hp : p ∈ t.inorder) {s : Side} {c : P} (hc : (m p).child s = some c) :
    (m c).parent = some p := by
  induction t generalizing r with
  | nil => exact absurd hp List.not_mem_nil
  | node d a q b iha ihb =>
    obtain ⟨hq, ha, hb⟩ := h
    rcases List.mem_append.mp hp with hp | hp
    · exact iha ha hp
    · rcases List.mem_cons.mp hp with rfl | hp
      · rw [hq] at hc
        cases s with
        | left => exact ha.parent_root hc
        | right => exact hb.parent_root hc
      · exact ihb hb hp

end ColorTree

namespace RbTree

open ColorTree

variable {P κ ν : Type} [DecidableEq P] {t t' : RbTree P κ ν}

/-- The four helpers, by the side of the parent they write to and the side the node goes down
to. -/
def rotateHelper : Side → Side → RbTree P κ ν → P → Option (RbTree P κ ν)
  | .right, .right => rbTreeRotateRightSideRight
  | .left, .right => rbTreeRotateLeftSideRight
  | .right, .left => rbTreeRotateRightSideLeft
  | .left, .left => rbTreeRotateLeftSideLeft

theorem rotateHelper_eq (side dir : Side) (t : RbTree P κ ν) (x : P) :
    rotateHelper side dir t x = rbTreeRotate side dir t x := by
  cases side with
  | left => cases dir <;> rfl
  | right => cases dir <;> rfl

/-- **What a rotation should leave** of the tree `T`: the nodes in their order, and each with
its parent. -/
structure KeepsTree (t' : RbTree P κ ν) (T : ColorTree P) : Prop where
  inorder : ∃ T', Leads t'.cells T' t'.root none ∧ T'.inorder = T.inorder
  parent : ∀ p ∈ T.inorder, ∀ s c, (t'.node p).child s = some c → (t'.node c).parent = some p
  top : ∀ p, t'.root = some p → (t'.node p).parent = none

omit [DecidableEq P] in
/-- **The place of a node that is to be rotated**: its parent is above it, on the side it is the
child of, and the child that comes up is below it. -/
theorem exists_rotation_place {T : ColorTree P} (hloc : Located t.cells t.root [] T)
    {side dir : Side} {q x y : P} (hx : x ∈ T.inorder) (hparent : (t.node x).parent = some q)
    (hside : (t.node q).child side = some x) (hchild : (t.node x).child dir.flip = some y) :
    ∃ f fs cx cy u w z, f.p = q ∧ f.side = side
      ∧ T = plug (f :: fs) (bin dir.flip cx (bin dir cy u y z) x w)
      ∧ Located t.cells t.root (f :: fs) (bin dir.flip cx (bin dir cy u y z) x w) := by
  obtain ⟨fs, tx, rfl, hroot⟩ := exists_place hx
  have hplace := located_plug.mpr hloc
  rw [located_parent hplace hroot] at hparent
  cases fs with
  | nil => exact absurd hparent (Option.some_ne_none q).symm
  | cons f fs =>
    obtain rfl : f.p = q := Option.some.inj hparent
    have hfside : f.side = side := by
      by_contra hne
      rw [← Side.flip_flip side, ← Side.eq_flip_of_ne hne] at hside
      exact located_other_ne hplace hroot ((located_child hplace).2.symm.trans hside)
    obtain ⟨cx, a, w, rfl⟩ := exists_bin_of_root dir.flip hroot
    obtain ⟨hcell, -, -⟩ := repr_bin.mp hplace.repr
    have hy : a.root = some y := by
      have hleft : (t.cells x).child dir.flip = some y := hchild
      rwa [hcell, Cell.of_child] at hleft
    obtain ⟨cy, u, z, rfl⟩ := exists_bin_of_root dir hy
    exact ⟨f, fs, cx, cy, u, w, z, rfl, hfside, rfl, hplace⟩

omit [DecidableEq P] in
/-- The nodes around a rotation are different from the three it writes to. -/
theorem located_rotation_apart {f : Frame P} {fs : List (Frame P)} {dir : Side} {cx cy : Color}
    {x y : P} {u w z : ColorTree P}
    (hloc : Located t.cells t.root (f :: fs) (bin dir.flip cx (bin dir cy u y z) x w)) :
    (f.p ≠ x ∧ f.p ≠ y ∧ x ≠ y)
      ∧ ∀ p ∈ u.inorder ++ z.inorder ++ w.inorder ++ (f.other.inorder ++ pathNodes fs),
        p ≠ f.p ∧ p ≠ y ∧ p ≠ x := by
  have hy : Located t.cells t.root (⟨dir.flip, cx, x, w⟩ :: f :: fs) (bin dir cy u y z) :=
    located_cons.mpr hloc
  have hnodup := ((perm_inorder_bin dir cy u y z).append_left _).nodup_iff.mp hy.nodup
  simp only [pathNodes, List.flatMap_cons, List.nodup_append, List.nodup_cons, List.mem_append,
    List.mem_cons] at hnodup ⊢
  grind

/-- **A rotation keeps the nodes in order**, whatever is between the two nodes. -/
theorem rbTreeRotate_leads {f : Frame P} {fs : List (Frame P)} {dir : Side} {cx cy : Color}
    {x y : P} {u w z : ColorTree P}
    (hloc : Located t.cells t.root (f :: fs) (bin dir.flip cx (bin dir cy u y z) x w)) :
    ∃ t', rbTreeRotate f.side dir t x = some t'
      ∧ Turned t.cells t'.cells f.side dir.flip f.p x y
      ∧ Leads t'.cells (plug (f :: fs) (bin dir cy (bin dir.flip cx u x w) y z)) t'.root none := by
  obtain ⟨⟨hfx, hfy, hxy⟩, hapart⟩ := located_rotation_apart hloc
  obtain ⟨hx, hyz, hw⟩ := repr_bin.mp hloc.repr
  obtain ⟨hy, hu, hz⟩ := repr_bin.mp hyz
  obtain ⟨hf, ho, hfs⟩ := hloc.path
  rw [root_bin] at hx
  obtain ⟨t', hrun, hsame, hturn, -⟩ := @rbTreeRotate_turned P κ ν _ t f.side dir.flip f.p x y
    (by rw [hx, Cell.of_child]) (by rw [hx, Cell.of_parent]; rfl) hfx hfy hxy
  have hdown := hturn.down
  have hmiddle := hturn.middle
  rw [Side.flip_flip] at hrun hdown hmiddle
  have hkept : ∀ p ∈ u.inorder ++ z.inorder ++ w.inorder ++ (f.other.inorder ++ pathNodes fs),
      t'.cells p = t.cells p := by
    intro p hp
    obtain ⟨hpf, hpy, hpx⟩ := hapart p hp
    exact hturn.frame p hpf hpy hpx
  refine ⟨t', hrun, hturn, ?_⟩
  have hroot : rootOf (f :: fs) (some y) = t'.root := by
    rw [hsame.root]
    exact hloc.root_eq
  rw [← hroot]
  refine Leads.plug (leads_bin.mpr ⟨rfl, leads_bin.mpr ⟨hdown, ?_, ?_⟩, ?_⟩) ⟨hturn.up, ?_, ?_⟩
  · rw [hmiddle, hy, Cell.of_child]
    exact leads_kept hu rfl fun p hp => hkept p (by simp [hp])
  · rw [hturn.far, hx, Cell.of_child_flip]
    exact leads_kept hw rfl fun p hp => hkept p (by simp [hp])
  · rw [hturn.outer, hy, Cell.of_child_flip]
    exact leads_kept hz rfl fun p hp => hkept p (by simp [hp])
  · rw [hturn.beside, hf, Cell.of_child_flip]
    exact leads_kept ho rfl fun p hp => hkept p (by simp [hp])
  · exact hfs.pathLeads.congr fun p hp => hkept p (by simp [hp])

/-- **Where nothing is between the two nodes**, the memory holds the rotated tree. -/
theorem keepsTree_of_nil {f : Frame P} {fs : List (Frame P)} {dir : Side} {cx cy : Color}
    {x y : P} {w z : ColorTree P}
    (hloc : Located t.cells t.root (f :: fs) (bin dir.flip cx (bin dir cy nil y z) x w))
    (hrun : rbTreeRotate f.side dir t x = some t') :
    KeepsTree t' (plug (f :: fs) (bin dir.flip cx (bin dir cy nil y z) x w)) := by
  obtain ⟨t₁, hrun₁, -, hloc'⟩ := rbTreeRotate_eq hloc
  obtain rfl : t' = t₁ := Option.some.inj (hrun.symm.trans hrun₁)
  obtain ⟨hrepr, hroot, -⟩ := located_nil.mp (located_plug.mp hloc')
  have hsame := inorder_plug_congr (inorder_rotate dir cx cy cx cy nil w z x y) (f :: fs)
  refine ⟨⟨_, hroot ▸ hrepr.leads, hsame⟩, fun p hp s c hc => ?_, fun p hp => ?_⟩
  · rw [← hsame] at hp
    exact hrepr.parent_child hp hc
  · exact hrepr.parent_root (hroot.trans hp)

/-- **Rotations keep the tree exactly where nothing is between the two nodes.** For each of the
four helpers: the node `x` is the child of `q` on the side that the helper writes to, and `y`
is the child that comes up. -/
theorem rb_tree_rotate_keeps_iff {T : ColorTree P} (hloc : Located t.cells t.root [] T)
    {side dir : Side} {q x y : P} (hx : x ∈ T.inorder) (hparent : (t.node x).parent = some q)
    (hside : (t.node q).child side = some x) (hchild : (t.node x).child dir.flip = some y) :
    ∃ t', rotateHelper side dir t x = some t'
      ∧ (∃ T', Leads t'.cells T' t'.root none ∧ T'.inorder = T.inorder)
      ∧ (KeepsTree t' T ↔ (t.node y).child dir = none) := by
  obtain ⟨f, fs, cx, cy, u, w, z, rfl, rfl, rfl, hplace⟩ :=
    exists_rotation_place hloc hx hparent hside hchild
  obtain ⟨t', hrun, hturn, hleads⟩ := rbTreeRotate_leads hplace
  have hsame := inorder_plug_congr (inorder_rotate dir cx cy cx cy u w z x y) (f :: fs)
  obtain ⟨⟨-, -, hxy⟩, hapart⟩ := located_rotation_apart hplace
  obtain ⟨-, hyz, -⟩ := repr_bin.mp hplace.repr
  obtain ⟨hy, hu, -⟩ := repr_bin.mp hyz
  have hinner : (t.node y).child dir = u.root := by
    show (t.cells y).child dir = u.root
    rw [hy, Cell.of_child]
  refine ⟨t', (rotateHelper_eq f.side dir t x).trans hrun, ⟨_, hleads, hsame⟩, ?_⟩
  rw [hinner]
  constructor
  · intro hkeeps
    cases u with
    | nil => rfl
    | node c a p b =>
      -- its root still has `y` as its parent, and is a child of `x` now
      have hp : p ∈ (ColorTree.node c a p b).inorder := root_mem rfl
      have hmoved : (t'.node x).child dir.flip = some p := by
        show (t'.cells x).child dir.flip = some p
        rw [hturn.middle, Side.flip_flip]
        exact hinner
      have hstale : (t'.node p).parent = some y := by
        obtain ⟨hpf, hpy, hpx⟩ := hapart p (by simp [hp])
        show (t'.cells p).parent = some y
        rw [hturn.frame p hpf hpy hpx]
        exact hu.parent_root rfl
      exact absurd (Option.some.inj (hstale.symm.trans (hkeeps.parent x hx _ p hmoved))) hxy.symm
  · intro hnil
    cases u with
    | nil => exact keepsTree_of_nil hplace hrun
    | node c a p b => exact absurd hnil (Option.some_ne_none p)

/-- The node `1` below `0` and above `2`, which has the node `3` on the inside or nothing. -/
def turnTree (inner : Bool) : RbTree ℕ Unit Unit where
  root := some 0
  keyCompare _ _ := 0
  node p :=
    if p = 0 then ⟨⟨.black, some 1, none, none⟩, (), ()⟩
    else if p = 1 then ⟨⟨.red, some 2, none, some 0⟩, (), ()⟩
    else if p = 2 then ⟨⟨.black, none, if inner then some 3 else none, some 1⟩, (), ()⟩
    else ⟨⟨.red, none, none, some 2⟩, (), ()⟩
  log := []

/-- The tree that `turnTree` holds, with `u` on the inside. -/
def turnShape (u : ColorTree ℕ) : ColorTree ℕ :=
  .node .black (.node .red (.node .black .nil 2 u) 1 .nil) 0 .nil

/-- With nothing on the inside, `rb_tree_rotate_left_side_right` keeps the tree. -/
theorem rb_tree_rotate_kept :
    ∃ t', (turnTree false).rbTreeRotateLeftSideRight 1 = some t'
      ∧ KeepsTree t' (turnShape .nil) := by
  have hloc : Located (turnTree false).cells (turnTree false).root [] (turnShape .nil) :=
    located_nil.mpr ⟨⟨rfl, ⟨rfl, ⟨rfl, trivial, trivial⟩, trivial⟩, trivial⟩, rfl, by decide⟩
  have hx : 1 ∈ (turnShape .nil).inorder := by decide
  obtain ⟨t', hrun, -, hiff⟩ := @rb_tree_rotate_keeps_iff ℕ Unit Unit _ (turnTree false)
    (turnShape .nil) hloc .left .right 0 1 2 hx rfl rfl rfl
  exact ⟨t', hrun, hiff.mpr rfl⟩

/-- **The node `3` goes below `1`, and its parent pointer still names `2`.** -/
theorem rb_tree_rotate_stale :
    Located (turnTree true).cells (turnTree true).root [] (turnShape (.node .red .nil 3 .nil))
      ∧ ∃ t', (turnTree true).rbTreeRotateLeftSideRight 1 = some t'
        ∧ (t'.node 1).left = some 3 ∧ (t'.node 3).parent = some 2
        ∧ ¬ KeepsTree t' (turnShape (.node .red .nil 3 .nil)) := by
  refine ⟨located_nil.mpr ⟨⟨rfl, ⟨rfl, ⟨rfl, trivial, rfl, trivial, trivial⟩, trivial⟩, trivial⟩,
    rfl, by decide⟩, _, rfl, rfl, rfl, fun hkeeps => ?_⟩
  have hx : 1 ∈ (turnShape (.node .red .nil 3 .nil)).inorder := by decide
  have hparent := hkeeps.parent 1 hx .left 3 rfl
  exact absurd (Option.some.inj hparent) (by decide)

end RbTree
