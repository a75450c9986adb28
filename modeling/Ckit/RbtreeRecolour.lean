import Ckit.RbtreeParents
import Mathlib.Logic.Relation

/-!
# The recolouring loop of the insertion

The cases 1, 2 and 3 of the insertion are one loop: case 3 calls case 1 again, at the
grandparent. A call of case 1 comes to one of three things – it returns, it calls itself or
it calls case 4 (`insertRound`) – and `rbTreeInsertCase1_succ` says that case 1 is this loop.

What a call starts from is a tree that is red-black but for one node, which is red and may be
the root or have a red parent (`RedRedAt`). A call that calls itself leaves such a tree again,
with the same links and the same black height, for the grandparent (`Recoloured`). One that
returns leaves a red-black tree, and one that calls case 4 has made sure of all that the
rotations rely on without a test (`NeedsRotation`). The new leaf in a red-black tree is such a
node, so every insertion starts with this loop (`RedBlack.insert_loop`).
-/

namespace RbTree

open ColorTree

variable {P κ ν : Type} [DecidableEq P]

/-- What a call of `rb_tree_insert_case1` comes to, through the cases 2 and 3: it returns, it
calls itself, or it calls case 4. -/
inductive Round (P κ ν : Type) where
  | returns (t : RbTree P κ ν)
  | case1 (t : RbTree P κ ν) (node : P)
  | case4 (t : RbTree P κ ν) (node : P)

/-- `rb_tree_insert_case3`, up to the calls. -/
def case3Round (t : RbTree P κ ν) (node : P) : Option (Round P κ ν) :=
  match t.uncle node with
  | some u =>
    if (t.node u).color = .red then
      (t.node node).parent.bind fun p =>
        let t := (t.setColor p .black).setColor u .black
        (t.grandparent node).map fun g => .case1 (t.setColor g .red) g
    else some (.case4 t node)
  | none => some (.case4 t node)

/-- `rb_tree_insert_case1` and `rb_tree_insert_case2`, up to the calls. -/
def insertRound (t : RbTree P κ ν) (node : P) : Option (Round P κ ν) :=
  if (t.node node).parent = none then some (.returns (t.setColor node .black))
  else (t.node node).parent.bind fun p =>
    if (t.node p).color = .black then some (.returns t) else t.case3Round node

/-- The rest of the function, with `case1` for the recursive call. -/
def Round.next (case1 : RbTree P κ ν → P → Option (RbTree P κ ν)) :
    Round P κ ν → Option (RbTree P κ ν)
  | .returns t => some t
  | .case1 t node => case1 t node
  | .case4 t node => t.rbTreeInsertCase4 node

theorem rbTreeInsertCase3_eq (case1 : RbTree P κ ν → P → Option (RbTree P κ ν))
    (t : RbTree P κ ν) (node : P) :
    rbTreeInsertCase3 case1 t node = (t.case3Round node).bind (Round.next case1) := by
  unfold rbTreeInsertCase3 case3Round
  cases t.uncle node with
  | none => rfl
  | some u =>
    dsimp only
    split
    · rw [Option.bind_assoc]
      refine congrArg _ (funext fun p => ?_)
      rw [Option.bind_map]
      rfl
    · rfl

/-- **Case 1 is the loop of its rounds.** -/
theorem rbTreeInsertCase1_succ (fuel : ℕ) (t : RbTree P κ ν) (node : P) :
    rbTreeInsertCase1 (fuel + 1) t node
      = (t.insertRound node).bind (Round.next (rbTreeInsertCase1 fuel)) := by
  rw [rbTreeInsertCase1, insertRound]
  split
  · rfl
  · rw [rbTreeInsertCase2, Option.bind_assoc]
    refine congrArg _ (funext fun p => ?_)
    split
    · rfl
    · exact rbTreeInsertCase3_eq _ t node

/-- The recursive call: from a state and a node to the next ones. -/
def CallsCase1 (c c' : RbTree P κ ν × P) : Prop :=
  c.1.insertRound c.2 = some (.case1 c'.1 c'.2)

variable {t t' t'' : RbTree P κ ν} {fs : List (Frame P)} {tn T : ColorTree P} {x : P}

/-- Nothing but colours is different. -/
structure SameLinks (t t' : RbTree P κ ν) : Prop where
  root : t'.root = t.root
  left : ∀ q, (t'.node q).left = (t.node q).left
  right : ∀ q, (t'.node q).right = (t.node q).right
  parent : ∀ q, (t'.node q).parent = (t.node q).parent

omit [DecidableEq P] in
theorem SameLinks.refl (t : RbTree P κ ν) : SameLinks t t :=
  ⟨rfl, fun _ => rfl, fun _ => rfl, fun _ => rfl⟩

omit [DecidableEq P] in
theorem SameLinks.trans (h : SameLinks t t') (h' : SameLinks t' t'') : SameLinks t t'' :=
  ⟨h'.root.trans h.root, fun q => (h'.left q).trans (h.left q),
    fun q => (h'.right q).trans (h.right q), fun q => (h'.parent q).trans (h.parent q)⟩

theorem sameLinks_setColor (t : RbTree P κ ν) (p : P) (c : Color) :
    SameLinks t (t.setColor p c) :=
  ⟨rfl, fun q => (setColor_links t p c q).1 .left, fun q => (setColor_links t p c q).1 .right,
    fun q => (setColor_links t p c q).2⟩

/-- **A red-black tree, but for the red node `x`**: it may be the root, and it may have a red
parent. -/
structure RedRedAt (t : RbTree P κ ν) (T : ColorTree P) (x : P) : Prop where
  located : Located t.cells t.root [] T
  mem : x ∈ T.inorder
  red : (t.node x).color = .red
  valid : T.ValidOff (· = x)

/-- The same, at the place of the node: the subtree `tn` is red, and the path does not mind but
for that. -/
structure RedPlace (t : RbTree P κ ν) (fs : List (Frame P)) (tn : ColorTree P) (x : P) :
    Prop where
  located : Located t.cells t.root fs tn
  root : tn.root = some x
  red : tn.isRed = true
  noRedRed : tn.NoRedRed
  blacks : ∃ n, PathValid fs n ∧ tn.Blacks n

omit [DecidableEq P] in
/-- **The node at its place.** -/
theorem redRedAt_plug_iff (hx : tn.root = some x) :
    RedRedAt t (plug fs tn) x ↔ RedPlace t fs tn x := by
  have hmem : x ∈ tn.inorder := root_mem hx
  have hplug : x ∈ (plug fs tn).inorder :=
    (perm_plug fs tn).symm.subset (List.mem_append_right _ hmem)
  -- the node is in the subtree, and so not on the path
  have hoff (hloc : Located t.cells t.root fs tn) : ∀ p ∈ pathNodes fs, ¬ p = x :=
    fun p hp heq => (List.nodup_append.mp hloc.nodup).2.2 p hp x hmem heq
  have hnodup (hloc : Located t.cells t.root fs tn) : tn.inorder.Nodup :=
    (List.nodup_append.mp hloc.nodup).2.1
  constructor
  · rintro ⟨hloc, -, hred, hvalid⟩
    replace hloc := located_plug.mpr hloc
    obtain ⟨n, hpath, hblacks, hnrr, -⟩ := (validOff_plug_iff (hoff hloc)).mp hvalid
    exact ⟨hloc, hx, (repr_isRed hloc.repr hx).mpr hred,
      (noRedRedOff_root_iff hx (hnodup hloc)).mp hnrr, n, hpath, hblacks⟩
  · rintro ⟨hloc, -, hred, hnrr, n, hpath, hblacks⟩
    refine ⟨located_plug.mp hloc, hplug, (repr_isRed hloc.repr hx).mp hred,
      (validOff_plug_iff (hoff hloc)).mpr ⟨n, hpath, hblacks,
        (noRedRedOff_root_iff hx (hnodup hloc)).mpr hnrr, fun hoffRed => ?_⟩⟩
    obtain ⟨c, l, r, rfl⟩ := exists_bin_of_root .left hx
    exact absurd rfl (redOff_bin.mp hoffRed).2

/-! ## One round -/

/-- **What case 4 relies on** without a test: it is at a red node with a red parent, a black
grandparent, and an uncle that is black where there is one. -/
structure NeedsRotation (t : RbTree P κ ν) (y : P) : Prop where
  red : (t.node y).color = .red
  parent : ∃ p, (t.node y).parent = some p ∧ (t.node p).color = .red
  grandparent : ∃ g, t.grandparent y = some g ∧ (t.node g).color = .black
  uncle : ∀ u, t.uncle y = some u → (t.node u).color = .black

/-- **What a recolouring does**: the links and the black height stay, and the one red node that
may have a red parent is now the grandparent. -/
structure Recoloured (c c' : RbTree P κ ν × P) : Prop where
  grandparent : c.1.grandparent c.2 = some c'.2
  links : SameLinks c.1 c'.1
  trees : ∃ T T' n, RedRedAt c.1 T c.2 ∧ RedRedAt c'.1 T' c'.2 ∧ T.Blacks n ∧ T'.Blacks n

/-- **How the loop ends** that began with `t`, in its last call `c`: with a red-black tree, or
at a node that needs a rotation. -/
def EndsWell (t : RbTree P κ ν) (c : RbTree P κ ν × P) : Round P κ ν → Prop
  | .returns t' => SameLinks t t' ∧ ∃ T, Located t'.cells t'.root [] T ∧ T.Valid
  | .case4 t' y => SameLinks t t' ∧ NeedsRotation t' y ∧ c = (t', y)
  | .case1 _ _ => False

/-- At the root. -/
theorem RedPlace.round_root (h : RedPlace t [] tn x) :
    ∃ r, t.insertRound x = some r ∧ EndsWell t (t, x) r := by
  obtain ⟨n, -, hblacks⟩ := h.blacks
  obtain ⟨hloc, hvalid⟩ := setColor_root h.located h.root h.red hblacks h.noRedRed
  have hparent : (t.node x).parent = none := located_parent h.located h.root
  refine ⟨.returns (t.setColor x .black), ?_, sameLinks_setColor t x .black,
    tn.setColor .black, hloc, hvalid⟩
  rw [insertRound, if_pos hparent]

/-- Below a black node. -/
theorem RedPlace.round_black {f : Frame P} (h : RedPlace t (f :: fs) tn x)
    (hf : f.color = .black) : ∃ r, t.insertRound x = some r ∧ EndsWell t (t, x) r := by
  obtain ⟨n, hpath, hblacks⟩ := h.blacks
  have hparent : (t.node x).parent = some f.p := located_parent h.located h.root
  refine ⟨.returns t, ?_, .refl t, plug (f :: fs) tn, located_plug.mp h.located,
    valid_plug_iff.mpr ⟨n, hpath, hblacks, h.noRedRed, fun _ => hf⟩⟩
  rw [insertRound, hparent, if_neg (Option.some_ne_none f.p), Option.bind_some,
    if_pos ((located_color h.located).trans hf)]

/-- Below a red node, there is a black one above that. -/
theorem RedPlace.exists_grandparent {f : Frame P} (h : RedPlace t (f :: fs) tn x)
    (hf : f.color = .red) :
    t.insertRound x = t.case3Round x ∧ ∃ g fs', fs = g :: fs' ∧ g.color = .black := by
  obtain ⟨n, ⟨-, -, hred, -⟩, -⟩ := h.blacks
  have hparent : (t.node x).parent = some f.p := located_parent h.located h.root
  constructor
  · rw [insertRound, hparent, if_neg (Option.some_ne_none f.p), Option.bind_some, if_neg]
    rw [located_color h.located, hf]
    exact fun hc => Color.noConfusion hc
  · have htop := (hred hf).2
    cases fs with
    | nil => exact htop.elim
    | cons g fs' => exact ⟨g, fs', rfl, htop⟩

/-- With an uncle that is not red. -/
theorem RedPlace.round_rotation {f g : Frame P} (h : RedPlace t (f :: g :: fs) tn x)
    (hf : f.color = .red) (hg : g.color = .black) (hu : g.other.isRed = false) :
    t.case3Round x = some (.case4 t x) ∧ NeedsRotation t x := by
  have hblack (u : P) (huncle : t.uncle x = some u) : (t.node u).color ≠ .red :=
    located_uncle_black h.located h.root hu huncle
  constructor
  · unfold case3Round
    cases huncle : t.uncle x with
    | none => rfl
    | some u => exact if_neg (hblack u huncle)
  · refine ⟨(repr_isRed h.located.repr h.root).mp h.red, ⟨f.p, located_parent h.located h.root,
      (located_color h.located).trans hf⟩, ⟨g.p, located_grandparent h.located h.root,
      (located_color (located_cons.mp h.located)).trans hg⟩, fun u huncle => ?_⟩
    cases hc : (t.node u).color with
    | black => rfl
    | red => exact absurd hc (hblack u huncle)

/-- **With a red uncle**, the place goes up by two nodes. -/
theorem RedPlace.round_recolour {f g : Frame P} (h : RedPlace t (f :: g :: fs) tn x)
    (hf : f.color = .red) (hg : g.color = .black) (hu : g.other.isRed = true) :
    ∃ t' tn', t.case3Round x = some (.case1 t' g.p) ∧ RedPlace t' fs tn' g.p
      ∧ Recoloured (t, x) (t', g.p) := by
  obtain ⟨n, hpath, hblacks⟩ := h.blacks
  obtain ⟨a, u, b, hother, huncle, hcolor⟩ := located_uncle_red h.located h.root hu
  obtain ⟨hgrand, hloc⟩ := recolour_located h.located h.root hother
  obtain ⟨hpath', hblacks', hnrr'⟩ := recolour_step hf hu hpath hblacks h.noRedRed
  have hparent : (t.node x).parent = some f.p := located_parent h.located h.root
  have hplace : RedPlace (((t.setColor f.p .black).setColor u .black).setColor g.p .red) fs
      (bin g.side .red (bin f.side .black tn f.p f.other) g.p (g.other.setColor .black)) g.p :=
    ⟨hloc, root_bin .., by rw [isRed_bin, decide_eq_true_iff], hnrr', n + 1, hpath', hblacks'⟩
  refine ⟨_, _, ?_, hplace, located_grandparent h.located h.root, ?_, ?_⟩
  · rw [case3Round, huncle]
    dsimp only
    rw [if_pos hcolor, hparent, Option.bind_some, hgrand, Option.map_some]
  · exact ((sameLinks_setColor t _ _).trans (sameLinks_setColor _ _ _)).trans
      (sameLinks_setColor _ _ _)
  · obtain ⟨m, hm⟩ := plug_blacks hpath'
    refine ⟨_, _, m, (redRedAt_plug_iff h.root).mpr h, (redRedAt_plug_iff hplace.root).mpr hplace,
      hm _ ?_, hm _ hblacks'⟩
    have hheight : g.color.above (f.color.above n) = n + 1 := by rw [hf, hg]; rfl
    rw [← hheight]
    exact blacks_bin (blacks_bin hblacks hpath.1) hpath.2.2.2.1

/-- **One round**: the loop ends well, or the next call is at a place further up. -/
theorem RedPlace.round (h : RedPlace t fs tn x) :
    (∃ r, t.insertRound x = some r ∧ EndsWell t (t, x) r)
      ∨ ∃ c' fs' tn', CallsCase1 (t, x) c' ∧ RedPlace c'.1 fs' tn' c'.2
        ∧ fs'.length < fs.length ∧ Recoloured (t, x) c' := by
  cases fs with
  | nil => exact Or.inl h.round_root
  | cons f fs =>
    cases hf : f.color with
    | black => exact Or.inl (h.round_black hf)
    | red =>
      obtain ⟨hround, g, fs', rfl, hg⟩ := h.exists_grandparent hf
      cases hu : g.other.isRed with
      | false =>
        obtain ⟨hcase4, hneeds⟩ := h.round_rotation hf hg hu
        exact Or.inl ⟨_, hround.trans hcase4, .refl t, hneeds, rfl⟩
      | true =>
        obtain ⟨t', tn', hcase1, hplace, hrec⟩ := h.round_recolour hf hg hu
        refine Or.inr ⟨(t', g.p), fs', tn', hround.trans hcase1, hplace, ?_, hrec⟩
        rw [List.length_cons, List.length_cons]
        omega

/-! ## The loop -/

omit [DecidableEq P] in
theorem RedRedAt.exists_place (h : RedRedAt t T x) :
    ∃ fs tn, T = plug fs tn ∧ RedPlace t fs tn x := by
  obtain ⟨fs, tn, rfl, hx⟩ := ColorTree.exists_place h.mem
  exact ⟨fs, tn, rfl, (redRedAt_plug_iff hx).mp h⟩

/-- **Every recursive call comes after a recolouring.** -/
theorem RedRedAt.recoloured (h : RedRedAt t T x) {c : RbTree P κ ν × P}
    (hcall : CallsCase1 (t, x) c) : Recoloured (t, x) c := by
  obtain ⟨fs, tn, -, hplace⟩ := h.exists_place
  rcases hplace.round with ⟨r, hr, hend⟩ | ⟨⟨t', g⟩, fs', tn', hr, -, -, hrec⟩
  · obtain rfl := Option.some.inj (hr.symm.trans hcall)
    exact hend.elim
  · obtain ⟨ht, hg⟩ := Round.case1.inj (Option.some.inj (hr.symm.trans hcall))
    obtain rfl : (t', g) = c := Prod.ext ht hg
    exact hrec

/-- **The invariant of the loop**: in every call there is one node only that may have a red
parent, and it is the one the call is for. -/
theorem RedRedAt.reaches (h : RedRedAt t T x) {c : RbTree P κ ν × P}
    (hreach : Relation.ReflTransGen CallsCase1 (t, x) c) : ∃ T', RedRedAt c.1 T' c.2 := by
  induction hreach with
  | refl => exact ⟨T, h⟩
  | tail _ hcall ih =>
    obtain ⟨T₁, h₁⟩ := ih
    obtain ⟨-, T', -, -, h', -⟩ := (h₁.recoloured hcall).trees
    exact ⟨T', h'⟩

theorem EndsWell.of_sameLinks (hlinks : SameLinks t t') {c : RbTree P κ ν × P}
    {r : Round P κ ν} (h : EndsWell t' c r) : EndsWell t c r := by
  cases r with
  | returns t₁ => exact ⟨hlinks.trans h.1, h.2⟩
  | case1 t₁ y => exact h
  | case4 t₁ y => exact ⟨hlinks.trans h.1, h.2⟩

/-- Where the loop ends, no recursive call is left. -/
theorem EndsWell.next_eq {c : RbTree P κ ν × P} {r : Round P κ ν} (h : EndsWell t c r)
    (case1 case1' : RbTree P κ ν → P → Option (RbTree P κ ν)) : r.next case1 = r.next case1' := by
  cases r with
  | returns t₁ => rfl
  | case1 t₁ y => exact h.elim
  | case4 t₁ y => rfl

/-- **The loop ends**, after as many calls as the path is long at most. -/
theorem RedPlace.run (h : RedPlace t fs tn x) :
    ∃ c r, Relation.ReflTransGen CallsCase1 (t, x) c ∧ c.1.insertRound c.2 = some r
      ∧ EndsWell t c r
      ∧ ∀ fuel, fs.length < fuel → rbTreeInsertCase1 fuel t x = r.next fun _ _ => none := by
  induction hlen : fs.length using Nat.strong_induction_on generalizing t fs tn x with
  | _ len ih =>
    subst hlen
    rcases h.round with ⟨r, hr, hend⟩ | ⟨c', fs', tn', hcall, hplace, hshort, hrec⟩
    · refine ⟨(t, x), r, .refl, hr, hend, fun fuel hfuel => ?_⟩
      obtain ⟨fuel, rfl⟩ := Nat.exists_eq_add_of_lt hfuel
      rw [rbTreeInsertCase1_succ, hr, Option.bind_some]
      exact hend.next_eq _ _
    · obtain ⟨c, r, hreach, hr, hend, hrun⟩ := ih fs'.length hshort hplace rfl
      refine ⟨c, r, .head hcall hreach, hr, hend.of_sameLinks hrec.links, fun fuel hfuel => ?_⟩
      obtain ⟨fuel, rfl⟩ := Nat.exists_eq_add_of_lt hfuel
      have hcall' : t.insertRound x = some (.case1 c'.1 c'.2) := hcall
      rw [rbTreeInsertCase1_succ, hcall', Option.bind_some]
      exact hrun _ (by omega)

/-- **The recolouring loop.** Started at the one red node that may have a red parent, every
recursive call is for the grandparent, after a recolouring that keeps the links and the black
height and leaves the grandparent as the one such node. The recursion ends, however deep the
tree is: with a red-black tree, or in case 4 at a node that needs a rotation. -/
theorem rb_tree_insert_recolours (h : RedRedAt t T x) :
    (∀ c c', Relation.ReflTransGen CallsCase1 (t, x) c → CallsCase1 c c' → Recoloured c c')
      ∧ ∃ c r, Relation.ReflTransGen CallsCase1 (t, x) c ∧ c.1.insertRound c.2 = some r
        ∧ EndsWell t c r
        ∧ ∀ fuel, T.inorder.length < fuel →
          rbTreeInsertCase1 fuel t x = r.next fun _ _ => none := by
  constructor
  · intro c c' hreach hcall
    obtain ⟨T', h'⟩ := h.reaches hreach
    exact h'.recoloured hcall
  · obtain ⟨fs, tn, rfl, hplace⟩ := h.exists_place
    obtain ⟨c, r, hreach, hr, hend, hrun⟩ := hplace.run
    refine ⟨c, r, hreach, hr, hend, fun fuel hfuel => hrun fuel ?_⟩
    have hlength := length_le_inorder fs tn
    omega

/-- The red nodes `1` and `2` below `0`, and a red leaf below `1`. -/
def grownTree : RbTree ℕ Unit Unit where
  root := some 0
  keyCompare _ _ := 0
  node p :=
    if p = 0 then ⟨⟨.black, some 1, some 2, none⟩, (), ()⟩
    else if p = 1 then ⟨⟨.red, some 3, none, some 0⟩, (), ()⟩
    else if p = 2 then ⟨⟨.red, none, none, some 0⟩, (), ()⟩
    else ⟨⟨.red, none, none, some 1⟩, (), ()⟩
  log := []

/-- The leaf has a red uncle, and the next call is for the root. -/
theorem rb_tree_insert_recolours_up :
    Recoloured (grownTree, 3)
        (((grownTree.setColor 1 .black).setColor 2 .black).setColor 0 .red, 0)
      ∧ ∃ c r, Relation.ReflTransGen CallsCase1 (grownTree, 3) c
        ∧ c.1.insertRound c.2 = some r ∧ EndsWell grownTree c r
        ∧ rbTreeInsertCase1 5 grownTree 3 = r.next fun _ _ => none := by
  have hloc : Located grownTree.cells grownTree.root []
      (.node .black (.node .red (.node .red nil 3 nil) 1 nil) 0 (.node .red nil 2 nil)) :=
    located_nil.mpr ⟨⟨rfl, ⟨rfl, ⟨rfl, trivial, trivial⟩, trivial⟩, rfl, trivial, trivial⟩, rfl,
      by decide⟩
  have hred : RedRedAt grownTree
      (.node .black (.node .red (.node .red nil 3 nil) 1 nil) 0 (.node .red nil 2 nil)) 3 := by
    refine ⟨hloc, by decide, rfl, id, ⟨fun hc => Color.noConfusion hc, ⟨fun _ => ?_, ?_, trivial⟩,
      fun _ => ⟨id, id⟩, trivial, trivial⟩, 1, 0, rfl, ⟨⟨rfl, rfl⟩, rfl⟩, rfl, rfl⟩
    · exact ⟨fun hoff => hoff rfl, id⟩
    · exact ⟨fun _ => ⟨id, id⟩, trivial, trivial⟩
  obtain ⟨hsteps, c, r, hreach, hr, hend, hrun⟩ := rb_tree_insert_recolours hred
  exact ⟨hsteps _ _ .refl rfl, c, r, hreach, hr, hend, hrun 5 (by decide)⟩

/-! ## After `bst_insert` -/

/-- **The loop starts at the new leaf** of a red-black tree, and the insertion is the loop and
what case 4 makes of its end. -/
theorem RedBlack.insert_loop (h : RedBlack t T) {n : P} (hn : n ∉ T.inorder) {fuel : ℕ}
    (hfuel : T.inorder.length < fuel) (key : κ) (val : ν) :
    ∃ t₀ T₀ c r, t.bstInsert fuel key val (some n) = some (1, some n, t₀) ∧ RedRedAt t₀ T₀ n
      ∧ Relation.ReflTransGen CallsCase1 (t₀, n) c ∧ c.1.insertRound c.2 = some r
      ∧ EndsWell t₀ c r
      ∧ t.rbTreeInsert fuel key val (some n)
        = (r.next fun _ _ => none).map fun t' => (1, t') := by
  obtain ⟨t₀, hbst, -, hloc⟩ := @bstInsert_eq P κ ν _ t key val n T fuel h.located hn hfuel
  have hplace : RedPlace t₀ (T.descend (t.goesLeft key) []) (.node .red nil n nil) n :=
    ⟨hloc, rfl, rfl, ⟨fun _ => ⟨rfl, rfl⟩, trivial, trivial⟩, 0,
      pathValid_descend h.valid (t.goesLeft key), rfl, rfl⟩
  obtain ⟨c, r, hreach, hr, hend, hrun⟩ := hplace.run
  refine ⟨t₀, _, c, r, hbst, (redRedAt_plug_iff rfl).mpr hplace, hreach, hr, hend, ?_⟩
  have hlength := length_descend_le (t.goesLeft key) T
  rw [rbTreeInsert_eq hbst, hrun fuel (Nat.lt_of_le_of_lt hlength hfuel)]

end RbTree
