import Ckit.RbtreeRun

/-!
# Rotations below the root

An insertion recolours on its way up until it comes to a red node with a red parent whose
uncle is not red. There it rotates, at the grandparent `g`, and `rb_tree_insert_case5` picks
the rotation by the side of `g` that the two red nodes are on. But its rotations also write to
the parent `h` of `g`, and they write to the *same* side of it. Where `g` is on that side of
`h` the tree has the nodes it had. Where it is not, the pointer that is written is that to the
sibling of `g`, which is lost with all that is below it, and `g` is below `h` twice
(`rb_tree_insert_keeps_nodes_iff`).

Below the place of the rotation there are arbitrary subtrees, and the rotations leave the parent
pointers of those that move as they were. So this is about the child pointers alone (`Leads`).
-/

namespace ColorTree

variable {P : Type*}

/-- **Where an insertion rotates**, going up a path by recolouring: the grandparent, and the path
above it. -/
def rotationPoint : List (Frame P) → Option (Frame P × List (Frame P))
  | f :: g :: fs =>
    if f.color = .black then none
    else if g.other.isRed then rotationPoint fs
    else some (g, fs)
  | _ => none

/-- The nodes of a path are different, and not among those beside it and below. -/
theorem Located.apart {m : P → Cell P} {root : Option P} {f g h : Frame P} {fs : List (Frame P)}
    {t : ColorTree P} (hloc : Located m root (f :: g :: h :: fs) t) :
    (h.p ≠ g.p ∧ h.p ≠ f.p ∧ g.p ≠ f.p)
      ∧ ∀ z ∈ t.inorder ++ f.other.inorder ++ g.other.inorder ++ (h.other.inorder ++ pathNodes fs),
        z ≠ h.p ∧ z ≠ f.p ∧ z ≠ g.p := by
  have hnodup := hloc.nodup
  simp only [pathNodes, List.flatMap_cons, List.nodup_append, List.nodup_cons, List.mem_append,
    List.mem_cons] at hnodup ⊢
  grind

/-- What is beside a path of three nodes, or further up. -/
theorem mem_pathNodes_of_beside {f g h : Frame P} {fs : List (Frame P)} {z : P}
    (hz : z ∈ f.other.inorder ++ g.other.inorder ++ (h.other.inorder ++ pathNodes fs)) :
    z ∈ pathNodes (f :: g :: h :: fs) := by
  simp only [List.mem_append] at hz
  simp only [pathNodes, List.flatMap_cons, List.mem_append, List.mem_cons]
  rcases hz with (hz | hz) | hz | hz
  · exact Or.inl (Or.inr hz)
  · exact Or.inr (Or.inl (Or.inr hz))
  · exact Or.inr (Or.inr (Or.inl (Or.inr hz)))
  · exact Or.inr (Or.inr (Or.inr hz))

end ColorTree

namespace RbTree

open ColorTree

variable {P κ ν : Type} [DecidableEq P] {t t' : RbTree P κ ν} {fs : List (Frame P)}

/-! ## What the rotations do to the child pointers -/

/-- **A rotation, by its child pointers**: the child `y` of `x` on side `d` comes up, to `side`
of `q`, and `x` goes down to the other side of `y`. -/
structure Turned (m m' : P → Cell P) (side d : Side) (q x y : P) : Prop where
  up : (m' q).child side = some y
  beside : (m' q).child side.flip = (m q).child side.flip
  outer : (m' y).child d = (m y).child d
  down : (m' y).child d.flip = some x
  middle : (m' x).child d = (m y).child d.flip
  far : (m' x).child d.flip = (m x).child d.flip
  frame : ∀ z, z ≠ q → z ≠ y → z ≠ x → m' z = m z

theorem rbTreeRotate_turned {side d : Side} {q x y : P} (hchild : (t.cells x).child d = some y)
    (hparent : (t.cells x).parent = some q) (hqx : q ≠ x) (hqy : q ≠ y) (hxy : x ≠ y) :
    ∃ t', rbTreeRotate side d.flip t x = some t' ∧ SameItems t t'
      ∧ Turned t.cells t'.cells side d q x y ∧ (t'.cells y).parent = some q
      ∧ (t'.cells x).parent = some y ∧ (t'.cells q).parent = (t.cells q).parent := by
  obtain ⟨t', hrun, hsame, hq, hy, hx, hframe⟩ := @rbTreeRotate_cells P κ ν _ t side d.flip q x y
    (by rw [Side.flip_flip]; exact hchild) hparent hqx hqy hxy
  rw [Side.flip_flip] at hx
  refine ⟨t', hrun, hsame, ⟨?_, ?_, ?_, ?_, ?_, ?_, hframe⟩, ?_, ?_, ?_⟩
  · rw [hq, Cell.withChild_child]
  · rw [hq, Cell.withChild_child_flip]
  · rw [hy, Cell.withChild_flip_child, Cell.withParent_child]
  · rw [hy, Cell.withChild_child]
  · rw [hx, Cell.withChild_child]
  · rw [hx, Cell.withChild_child_flip, Cell.withParent_child]
  · rw [hy, Cell.withChild_parent]
  · rw [hx, Cell.withChild_parent]
  · rw [hq, Cell.withChild_parent]

/-- A recolouring changes no pointer. -/
theorem setColor_links (t : RbTree P κ ν) (p : P) (c : Color) (z : P) :
    (∀ s, ((t.setColor p c).cells z).child s = (t.cells z).child s)
      ∧ ((t.setColor p c).cells z).parent = (t.cells z).parent := by
  rw [cells_setColor]
  by_cases hz : z = p
  · rw [hz, Function.update_self]
    exact ⟨fun s => Cell.withColor_child _ s c, rfl⟩
  · rw [Function.update_of_ne hz]
    exact ⟨fun _ => rfl, rfl⟩

/-- What case 5 reads around `n`: its parent `p`, on side `d` of the grandparent `g`, and the
parent `q` of `g`. -/
structure Chain (m : P → Cell P) (d : Side) (q g p n : P) : Prop where
  parent : (m n).parent = some p
  grand : (m p).parent = some g
  great : (m g).parent = some q
  child : (m p).child d = some n
  only : (m p).child d.flip ≠ some n
  below : (m g).child d = some p
  ne : q ≠ g ∧ q ≠ p ∧ g ≠ p

/-- **Case 5**, by its child pointers: `p` comes up to side `d` of `q`, on whichever side `g`
was. -/
theorem rbTreeInsertCase5_turned {d : Side} {q g p n : P} (hc : Chain t.cells d q g p n) :
    ∃ t', t.rbTreeInsertCase5 n = some t' ∧ SameItems t t'
      ∧ Turned t.cells t'.cells d d q g p := by
  obtain ⟨hqg, hqp, hgp⟩ := hc.ne
  have hlinks : ∀ z, (∀ s, (((t.setColor p .black).setColor g .red).cells z).child s
      = (t.cells z).child s)
        ∧ (((t.setColor p .black).setColor g .red).cells z).parent = (t.cells z).parent := by
    intro z
    obtain ⟨hchild, hparent⟩ := setColor_links (t.setColor p .black) g .red z
    obtain ⟨hchild', hparent'⟩ := setColor_links t p .black z
    exact ⟨fun s => (hchild s).trans (hchild' s), hparent.trans hparent'⟩
  obtain ⟨t', hrun, hsame, hturn, -⟩ := @rbTreeRotate_turned P κ ν _
    ((t.setColor p .black).setColor g .red) d d q g p (by rw [(hlinks g).1]; exact hc.below)
    (by rw [(hlinks g).2]; exact hc.great) hqg hqp hgp
  have hparent : (t.node n).parent = some p := hc.parent
  have hgrand : t.grandparent n = some g := by
    unfold grandparent
    rw [hparent]
    exact hc.grand
  refine ⟨t', ?_, ((sameItems_setColor t p .black).trans (sameItems_setColor _ g .red)).trans hsame,
    ⟨hturn.up, ?_, ?_, hturn.down, ?_, ?_, fun z hzq hzp hzg => ?_⟩⟩
  · unfold rbTreeInsertCase5
    rw [hparent, hgrand]
    have hleft : (((t.setColor p .black).setColor g .red).node p).left = (t.cells p).child .left :=
      (hlinks p).1 .left
    show (if (((t.setColor p .black).setColor g .red).node p).left = some n then _ else _) = _
    rw [hleft]
    cases d with
    | left =>
      rw [if_pos hc.child]
      exact hrun
    | right =>
      rw [if_neg (show (t.cells p).child .left ≠ some n from hc.only)]
      exact hrun
  · rw [hturn.beside, (hlinks q).1]
  · rw [hturn.outer, (hlinks p).1]
  · rw [hturn.middle, (hlinks p).1]
  · rw [hturn.far, (hlinks g).1]
  · rw [hturn.frame z hzq hzp hzg, cells_setColor, Function.update_of_ne hzg, cells_setColor,
      Function.update_of_ne hzp]

/-! ## The rotation at the place -/

/-- **The rotation at `g`, below `h`**: the tree `s`, with `top` at its root, has come up to the
side of `h` that `g` has its red child on. -/
structure Risen (m m' : P → Cell P) (g h : Frame P) (fs : List (Frame P)) (top : P)
    (s : ColorTree P) : Prop where
  up : (m' h.p).child g.side = some top
  beside : (m' h.p).child g.side.flip = (m h.p).child g.side.flip
  down : (m' top).child g.side.flip = some g.p
  leads : Leads m' s (some top) none
  frame : ∀ z ∈ h.other.inorder ++ pathNodes fs, m' z = m z

omit [DecidableEq P] in
/-- A subtree in memory that a rotation leaves alone. -/
theorem leads_kept {m m' : P → Cell P} {a : ColorTree P} {r b : Option P} (h : Repr m a r)
    (hb : b = a.root) (hframe : ∀ z ∈ a.inorder, m' z = m z) : Leads m' a b none := by
  rw [hb]
  refine h.leads.congr fun z hz => ?_
  rw [hframe z hz]
  exact ⟨rfl, rfl⟩

/-- **The rotation of two nodes on one side.** -/
theorem rbTreeInsertCase4_outer_risen {f g h : Frame P} {tn : ColorTree P} {n : P}
    (hloc : Located t.cells t.root (f :: g :: h :: fs) tn) (hn : tn.root = some n)
    (hside : f.side = g.side) :
    ∃ t', t.rbTreeInsertCase4 n = some t' ∧ SameItems t t'
      ∧ Risen t.cells t'.cells g h fs f.p
        (bin g.side .black tn f.p (bin g.side .red f.other g.p g.other)) := by
  have hg := located_cons.mp hloc
  have hh := located_cons.mp hg
  obtain ⟨hne, hapart⟩ := hloc.apart
  obtain ⟨hfchild, hfother⟩ := located_child hloc
  obtain ⟨hgchild, hgother⟩ := located_child hg
  rw [hside] at hfchild hfother
  obtain ⟨t', hrun, hsame, hturn⟩ := @rbTreeInsertCase5_turned P κ ν _ t g.side h.p g.p f.p n
    ⟨located_parent hloc hn, located_parent hg (root_bin ..), located_parent hh (root_bin ..),
      hfchild.trans hn, fun heq => located_other_ne hloc hn (hfother.symm.trans heq),
      hgchild.trans (root_bin ..), hne⟩
  have hkept : ∀ z ∈ tn.inorder ++ f.other.inorder ++ g.other.inorder
      ++ (h.other.inorder ++ pathNodes fs), t'.cells z = t.cells z := by
    intro z hz
    obtain ⟨hzh, hzf, hzg⟩ := hapart z hz
    exact hturn.frame z hzh hzf hzg
  refine ⟨t', ?_, hsame, hturn.up, hturn.beside, hturn.down, ?_, fun z hz => ?_⟩
  · rw [rbTreeInsertCase4_outer hloc hn hside, hrun]
  · refine leads_bin.mpr ⟨rfl, ?_, leads_bin.mpr ⟨hturn.down, ?_, ?_⟩⟩
    · refine leads_kept hloc.repr (hturn.outer.trans hfchild) fun z hz => hkept z ?_
      simp [hz]
    · refine leads_kept hloc.path.2.1 (hturn.middle.trans hfother) fun z hz => hkept z ?_
      simp [hz]
    · refine leads_kept hg.path.2.1 (hturn.far.trans hgother) fun z hz => hkept z ?_
      simp [hz]
  · exact hkept z (List.mem_append_right _ hz)

/-- **The first rotation of two nodes on different sides**: `n` comes up to `g`, and its parent
`f` goes down below it. -/
structure Lowered (m m' : P → Cell P) (f g : Frame P) (a b : ColorTree P) (n : P) : Prop where
  up : (m' g.p).child g.side = some n
  beside : (m' g.p).child g.side.flip = g.other.root
  down : (m' n).child g.side = some f.p
  outer : (m' n).child g.side.flip = b.root
  middle : (m' f.p).child g.side.flip = a.root
  far : (m' f.p).child g.side = f.other.root
  parents : (m' f.p).parent = some n ∧ (m' n).parent = some g.p
    ∧ (m' g.p).parent = (m g.p).parent
  frame : ∀ z, z ≠ g.p → z ≠ n → z ≠ f.p → m' z = m z

theorem rbTreeRotate_lowers {f g h : Frame P} {c : Color} {a b : ColorTree P} {n : P}
    (hloc : Located t.cells t.root (f :: g :: h :: fs) (bin g.side c a n b))
    (hside : f.side = g.side.flip) :
    ∃ t', rbTreeRotate g.side g.side t f.p = some t' ∧ SameItems t t'
      ∧ Lowered t.cells t'.cells f g a b n := by
  have hg := located_cons.mp hloc
  obtain ⟨⟨-, -, hgf⟩, hapart⟩ := hloc.apart
  obtain ⟨hfchild, hfother⟩ := located_child hloc
  rw [hside, Side.flip_flip] at hfother
  rw [hside] at hfchild
  obtain ⟨hcell, -, -⟩ := repr_bin.mp hloc.repr
  obtain ⟨-, hnf, hng⟩ := hapart n (by simp [mem_inorder_bin])
  obtain ⟨t', hrot, hsame, hturn, hnparent, hfparent, hgparent⟩ :=
    @rbTreeRotate_turned P κ ν _ t g.side g.side.flip g.p f.p n (hfchild.trans (root_bin ..))
      (located_parent hg (root_bin ..)) hgf hng.symm hnf.symm
  have hdown := hturn.down
  have hfar := hturn.far
  rw [Side.flip_flip] at hrot hdown hfar
  refine ⟨t', hrot, hsame, hturn.up, ?_, hdown, ?_, ?_, hfar.trans hfother,
    ⟨hfparent, hnparent, hgparent⟩, hturn.frame⟩
  · rw [hturn.beside]
    exact (located_child hg).2
  · rw [hturn.outer, hcell, Cell.of_child_flip]
  · rw [hturn.middle, Side.flip_flip, hcell, Cell.of_child]

/-- **The rotations of two nodes on different sides**: the lower one comes up twice. -/
theorem rbTreeInsertCase4_inner_risen {f g h : Frame P} {c : Color} {a b : ColorTree P} {n : P}
    (hloc : Located t.cells t.root (f :: g :: h :: fs) (bin g.side c a n b))
    (hside : f.side = g.side.flip) :
    ∃ t', t.rbTreeInsertCase4 n = some t' ∧ SameItems t t'
      ∧ Risen t.cells t'.cells g h fs n (bin g.side .black (bin g.side f.color f.other f.p a) n
        (bin g.side .red b g.p g.other)) := by
  have hn : (bin g.side c a n b).root = some n := root_bin ..
  have hg := located_cons.mp hloc
  have hh := located_cons.mp hg
  obtain ⟨⟨hhg, hhf, hgf⟩, hapart⟩ := hloc.apart
  obtain ⟨-, ha, hb⟩ := repr_bin.mp hloc.repr
  obtain ⟨hpath, hna, hnb, -⟩ := hloc.nodes
  have hmem : ∀ z, z = n ∨ z ∈ a.inorder ∨ z ∈ b.inorder →
      z ∈ (bin g.side c a n b).inorder := fun z hz => mem_inorder_bin.mpr hz
  obtain ⟨hnh, hnf, hng⟩ := hapart n (by simp [hmem n (Or.inl rfl)])
  -- first the parent goes down, below `n`
  obtain ⟨t₁, hrot, hsame₁, hlow⟩ := rbTreeRotate_lowers hloc hside
  obtain ⟨hfparent, hnparent, hgparent⟩ := hlow.parents
  have hbf : f.p ∉ b.inorder := fun hf =>
    (hapart f.p (by simp [hmem f.p (Or.inr (Or.inr hf))])).2.1 rfl
  -- then the grandparent
  obtain ⟨t', hrun, hsame, hturn⟩ := @rbTreeInsertCase5_turned P κ ν _ t₁ g.side h.p g.p n f.p
    ⟨hfparent, hnparent, hgparent.trans (located_parent hh (root_bin ..)), hlow.down,
      fun heq => hbf (root_mem (hlow.outer.symm.trans heq)), hlow.up, hhg, hnh.symm, hng.symm⟩
  have hkept : ∀ z ∈ (bin g.side c a n b).inorder ++ f.other.inorder ++ g.other.inorder
      ++ (h.other.inorder ++ pathNodes fs), z ≠ n → t'.cells z = t.cells z := by
    intro z hz hzn
    obtain ⟨hzh, hzf, hzg⟩ := hapart z hz
    rw [hturn.frame z hzh hzn hzg, hlow.frame z hzg hzn hzf]
  have hother : ∀ z ∈ f.other.inorder ++ g.other.inorder ++ (h.other.inorder ++ pathNodes fs),
      t'.cells z = t.cells z := by
    intro z hz
    refine hkept z ?_ fun heq => hpath (heq ▸ mem_pathNodes_of_beside hz)
    simp only [List.append_assoc] at hz ⊢
    exact List.mem_append_right _ hz
  have hf' : t'.cells f.p = t₁.cells f.p := hturn.frame f.p hhf.symm hnf.symm hgf.symm
  have hbeside : (t'.cells h.p).child g.side.flip = (t.cells h.p).child g.side.flip := by
    rw [hturn.beside, hlow.frame h.p hhg hnh.symm hhf]
  refine ⟨t', ?_, hsame₁.trans hsame, hturn.up, hbeside, hturn.down, ?_, fun z hz => ?_⟩
  · rw [rbTreeInsertCase4_of_rotate hloc hn rfl hside hrot hlow.down, hrun]
  · refine leads_bin.mpr ⟨rfl, ?_, leads_bin.mpr ⟨hturn.down, ?_, ?_⟩⟩
    · refine leads_bin.mpr ⟨hturn.outer.trans hlow.down, ?_, ?_⟩
      · rw [hf']
        refine leads_kept hloc.path.2.1 hlow.far fun z hz => hother z ?_
        simp [hz]
      · rw [hf']
        refine leads_kept ha hlow.middle fun z hz => hkept z ?_ fun heq => hna (heq ▸ hz)
        simp [hmem z (Or.inr (Or.inl hz))]
    · refine leads_kept hb (hturn.middle.trans hlow.outer) fun z hz =>
        hkept z ?_ fun heq => hnb (heq ▸ hz)
      simp [hmem z (Or.inr (Or.inr hz))]
    · refine leads_kept hg.path.2.1 (hturn.far.trans hlow.beside) fun z hz => hother z ?_
      simp [hz]
  · exact hother z (List.mem_append_right _ hz)

/-- **The rotation**, on either side, keeps the nodes of the subtree in order. -/
theorem rbTreeInsertCase4_risen {f g h : Frame P} {tn : ColorTree P} {n : P}
    (hloc : Located t.cells t.root (f :: g :: h :: fs) tn) (hn : tn.root = some n) :
    ∃ t' top s, t.rbTreeInsertCase4 n = some t' ∧ SameItems t t'
      ∧ Risen t.cells t'.cells g h fs top s
      ∧ s.inorder
        = (bin g.side g.color (bin f.side f.color tn f.p f.other) g.p g.other).inorder := by
  by_cases hside : f.side = g.side
  · obtain ⟨t', hrun, hsame, hrisen⟩ := rbTreeInsertCase4_outer_risen hloc hn hside
    refine ⟨t', _, _, hrun, hsame, hrisen, ?_⟩
    rw [hside]
    cases g.side with
    | left => simp [bin, inorder]
    | right => simp [bin, inorder]
  · have hflip : f.side = g.side.flip := Side.eq_flip_of_ne hside
    obtain ⟨c, a, b, rfl⟩ := exists_bin_of_root g.side hn
    obtain ⟨t', hrun, hsame, hrisen⟩ := rbTreeInsertCase4_inner_risen hloc hflip
    refine ⟨t', _, _, hrun, hsame, hrisen, ?_⟩
    rw [hflip]
    cases g.side with
    | left => simp [bin, Side.flip, inorder]
    | right => simp [bin, Side.flip, inorder]

/-- **The way up to a rotation.** -/
theorem rbTreeInsertCase1_climbs {fuel : ℕ} {t : RbTree P κ ν} {fs rest : List (Frame P)}
    {g : Frame P} {tn : ColorTree P} {n : P} (hloc : Located t.cells t.root fs tn)
    (hn : tn.root = some n) (hrot : rotationPoint fs = some (g, rest))
    (hfuel : fs.length < fuel) :
    ∃ t₁ f tn₁ n₁, rbTreeInsertCase1 fuel t n = t₁.rbTreeInsertCase4 n₁ ∧ SameItems t t₁
      ∧ Located t₁.cells t₁.root (f :: g :: rest) tn₁ ∧ tn₁.root = some n₁
      ∧ (plug (f :: g :: rest) tn₁).inorder = (plug fs tn).inorder := by
  induction fuel generalizing t fs tn n with
  | zero => exact absurd hfuel (Nat.not_lt_zero _)
  | succ fuel ih =>
    match fs with
    | [] => exact nomatch hrot
    | [_] => exact nomatch hrot
    | f :: g' :: fs =>
      rw [rotationPoint] at hrot
      split at hrot
      · exact nomatch hrot
      · next hf =>
        have hred : f.color = .red := by
          cases hc : f.color with
          | black => exact absurd hc hf
          | red => rfl
        rw [rbTreeInsertCase1_red hloc hn hred]
        split at hrot
        · next hg =>
          obtain ⟨t₁, heq, hsame, hloc₁⟩ := rbTreeInsertCase3_red hloc hn hg
          rw [List.length_cons, List.length_cons] at hfuel
          obtain ⟨t₂, f', tn₂, n₂, heq', hsame', hloc₂, hn₂, hinorder⟩ := ih hloc₁ (root_bin ..)
            hrot (by omega)
          refine ⟨t₂, f', tn₂, n₂, heq.trans heq', hsame.trans hsame', hloc₂, hn₂, ?_⟩
          rw [hinorder]
          refine inorder_plug_congr ?_ fs
          refine inorder_bin_congr ?_ (inorder_setColor _ _) _ _ _ _
          exact inorder_bin_congr rfl rfl _ _ _ _
        · next hg =>
          obtain ⟨rfl, rfl⟩ := Prod.mk.inj (Option.some.inj hrot)
          refine ⟨t, f, tn, n, ?_, .refl t, hloc, hn, rfl⟩
          exact rbTreeInsertCase3_black hloc hn (Bool.eq_false_iff.mpr hg)

/-! ## The whole insertion -/

/-- **The insertion loses no node**: what is read from the root after `_rb_tree_insert` is a tree
of different nodes, in the order in which `bst_insert` alone leaves them. -/
def KeepsNodes (fuel : ℕ) (t : RbTree P κ ν) (key : κ) (val : ν) (n : P) : Prop :=
  ∃ t₀ T₀ t' T', t.bstInsert fuel key val (some n) = some (1, some n, t₀)
    ∧ Leads t₀.cells T₀ t₀.root none
    ∧ t.rbTreeInsert fuel key val (some n) = some (1, t') ∧ Leads t'.cells T' t'.root none
    ∧ T'.inorder = T₀.inorder ∧ T'.inorder.Nodup

omit [DecidableEq P] in
/-- **Where `g` is on the side that is written to**, the whole tree is read. -/
theorem Risen.leads_plug {m m' : P → Cell P} {root : Option P} {f g h : Frame P} {top : P}
    {tn s : ColorTree P} (hr : Risen m m' g h fs top s)
    (hloc : Located m root (f :: g :: h :: fs) tn) (hside : g.side = h.side) :
    Leads m' (plug (h :: fs) s) root none := by
  obtain ⟨hcell, hother, hpath⟩ := (located_cons.mp (located_cons.mp hloc)).path
  have hroot : rootOf (h :: fs) (some top) = root := hloc.root_eq
  rw [← hroot]
  refine hr.leads.plug ⟨?_, ?_, ?_⟩
  · rw [← hside]
    exact hr.up
  · have hbeside := hr.beside
    rw [hside, hcell, Cell.of_child_flip] at hbeside
    exact leads_kept hother hbeside fun z hz => hr.frame z (List.mem_append_left _ hz)
  · exact hpath.pathLeads.congr fun z hz => hr.frame z (List.mem_append_right _ hz)

omit [DecidableEq P] in
/-- **Where it is not**, what is read is no tree: `g` is below its old parent twice. -/
theorem Risen.not_nodup {m m' : P → Cell P} {root : Option P} {f g h : Frame P} {top : P}
    {tn s T' : ColorTree P} (hr : Risen m m' g h fs top s)
    (hloc : Located m root (f :: g :: h :: fs) tn) (hside : g.side ≠ h.side)
    (hT' : Leads m' T' root none) : ¬ T'.inorder.Nodup := by
  obtain ⟨hcell, -, hpath⟩ := (located_cons.mp (located_cons.mp hloc)).path
  have hroot : rootOf fs (some h.p) = root := hloc.root_eq
  rw [← hroot] at hT'
  refine hT'.not_nodup (hpath.pathLeads.congr fun z hz => ?_) hr.up hr.down ?_
  · exact hr.frame z (List.mem_append_right _ hz)
  · have hflip : g.side.flip = h.side := by
      rw [Side.eq_flip_of_ne hside, Side.flip_flip]
    rw [hr.beside, hflip, hcell, Cell.of_child, root_bin]

omit [DecidableEq P] in
/-- All the same there is an end to what is read, and it is of nodes that were there. -/
theorem Risen.leads_twice {m m' : P → Cell P} {root : Option P} {f g h : Frame P} {top : P}
    {tn s : ColorTree P} (hr : Risen m m' g h fs top s)
    (hloc : Located m root (f :: g :: h :: fs) tn) (hside : g.side ≠ h.side) :
    ∃ T', Leads m' T' root none ∧ ∀ z ∈ T'.inorder, z ∈ (plug (h :: fs) s).inorder := by
  obtain ⟨hcell, -, hpath⟩ := (located_cons.mp (located_cons.mp hloc)).path
  have hroot : rootOf fs (some h.p) = root := hloc.root_eq
  have hflip : g.side.flip = h.side := by
    rw [Side.eq_flip_of_ne hside, Side.flip_flip]
  have hbelow : (m' h.p).child g.side.flip = some g.p := by
    rw [hr.beside, hflip, hcell, Cell.of_child, root_bin]
  -- the subtree at `g`, which is below `top` and below `h`
  obtain ⟨a, b, -, hb, hperm⟩ := hr.leads.children g.side
  rw [hr.down, ← hbelow] at hb
  refine ⟨plug (⟨g.side, h.color, h.p, b⟩ :: fs) s, ?_, fun z hz => ?_⟩
  · rw [← hroot]
    exact hr.leads.plug ⟨hr.up, hb, hpath.pathLeads.congr fun z hz =>
      hr.frame z (List.mem_append_right _ hz)⟩
  · have hbs : z ∈ b.inorder → z ∈ s.inorder := fun hz => hperm.mem_iff.mpr
      (List.mem_cons_of_mem _ (List.mem_append_left _ hz))
    rw [(perm_plug _ _).mem_iff] at hz ⊢
    simp only [pathNodes, List.flatMap_cons, List.mem_append, List.mem_cons] at hz ⊢
    tauto

/-- **A rotation below the root keeps the nodes exactly where `g` is on the same side of its
parent as its red child is of it.** -/
theorem rb_tree_insert_keeps_nodes_iff (t : RbTree P κ ν) (T : ColorTree P) (key : κ) (val : ν)
    (n : P) (fuel : ℕ) (hloc : Located t.cells t.root [] T) (hn : n ∉ T.inorder)
    (hfuel : T.inorder.length < fuel) (g h : Frame P) (rest : List (Frame P))
    (hrot : rotationPoint (T.descend (t.goesLeft key) []) = some (g, h :: rest)) :
    KeepsNodes fuel t key val n ↔ g.side = h.side := by
  obtain ⟨t₀, hbst, -, hloc₀⟩ := @bstInsert_eq P κ ν _ t key val n T fuel hloc hn hfuel
  have hlength := length_descend_le (t.goesLeft key) T
  obtain ⟨t₁, f, tn, n₁, hup, hsame, hloc₁, hn₁, hinorder⟩ := rbTreeInsertCase1_climbs hloc₀ rfl
    hrot (Nat.lt_of_le_of_lt hlength hfuel)
  obtain ⟨t', top, s, hrun, hsame', hrisen, horder⟩ := rbTreeInsertCase4_risen hloc₁ hn₁
  have hinsert : t.rbTreeInsert fuel key val (some n) = some (1, t') := by
    rw [rbTreeInsert_eq hbst, hup, hrun]
    rfl
  have hwhole := located_nil.mp (located_plug.mp hloc₀)
  constructor
  · rintro ⟨-, -, t'', T', -, -, hinsert', hT', -, hnodup⟩
    obtain rfl : t'' = t' :=
      (Prod.mk.inj (Option.some.inj (hinsert'.symm.trans hinsert))).2
    by_contra hside
    rw [hsame'.root] at hT'
    exact hrisen.not_nodup hloc₁ hside hT' hnodup
  · intro hside
    have hleads := hrisen.leads_plug hloc₁ hside
    rw [← hsame'.root] at hleads
    have horder' : (plug (h :: rest) s).inorder
        = (plug (T.descend (t.goesLeft key) []) (.node .red nil n nil)).inorder :=
      (inorder_plug_congr horder (h :: rest)).trans hinorder
    refine ⟨t₀, _, t', _, hbst, ?_, hinsert, hleads, horder', ?_⟩
    · rw [← hwhole.2.1]
      exact hwhole.1.leads
    · rw [horder']
      exact hwhole.2.2

/-- Four numbers in a red-black tree, with a red `k` below `5`. -/
def fourTree (side : Side) (k : ℕ) : ColorTree ℕ :=
  .node .black (bin side .black (.node .red nil k nil) 5 nil) 10 (.node .black nil 15 nil)

theorem fourTree_valid (side : Side) (k : ℕ) : (fourTree side k).Valid := by
  refine ⟨rfl, ⟨(fun hc => nomatch hc), noRedRed_bin.mpr ⟨(fun hc => nomatch hc), ?_, trivial⟩, ?_⟩,
    2, 1, rfl, blacks_bin_black.mpr ⟨0, rfl, ⟨rfl, rfl⟩, rfl⟩, 0, rfl, rfl, rfl⟩
  · exact ⟨fun _ => ⟨rfl, rfl⟩, trivial, trivial⟩
  · exact ⟨(fun hc => nomatch hc), trivial, trivial⟩

/-- Below `5`, which is on the left of `10`, the numbers `3` and `2` go to the left. -/
theorem rb_tree_insert_keeps_nodes_left :
    ∃ t, run (step 9) natTree (natInserts [10, 5, 15, 3]) = some t
      ∧ KeepsNodes 9 t 2 () 2 := by
  refine ⟨_, rfl, (rb_tree_insert_keeps_nodes_iff _ (fourTree .left 3) 2 () 2 9 ?_ (by decide)
    (by decide) ⟨.left, .black, 5, nil⟩ ⟨.left, .black, 10, .node .black nil 15 nil⟩ [] rfl).mpr
    rfl⟩
  exact ⟨⟨rfl, ⟨rfl, ⟨rfl, trivial, trivial⟩, trivial⟩, rfl, trivial, trivial⟩, trivial, rfl,
    by decide⟩

/-- **A node is lost**: below `5`, which is on the left of `10`, the numbers `7` and `8` go to the
right. The rotation at `5` writes `7` over the right child of `10`, which was `15`, and `5` is
still its left child, besides being that of `7`. -/
theorem rb_tree_insert_loses_node :
    ∃ t t', run (step 9) natTree (natInserts [10, 5, 15, 7]) = some t
      ∧ Located t.cells t.root [] (fourTree .right 7) ∧ (fourTree .right 7).Valid
      ∧ rotationPoint ((fourTree .right 7).descend (t.goesLeft 8) [])
        = some (⟨.right, .black, 5, nil⟩, [⟨.left, .black, 10, .node .black nil 15 nil⟩])
      ∧ t.rbTreeInsert 9 8 () (some 8) = some (1, t')
      ∧ (t'.node 10).right = some 7 ∧ (t'.node 10).left = some 5 ∧ (t'.node 7).left = some 5
      ∧ ¬ KeepsNodes 9 t 8 () 8 := by
  refine ⟨_, _, rfl, ?_, fourTree_valid .right 7, rfl, rfl, rfl, rfl, rfl, ?_⟩
  · exact ⟨⟨rfl, ⟨rfl, trivial, ⟨rfl, trivial, trivial⟩⟩, rfl, trivial, trivial⟩, trivial, rfl,
      by decide⟩
  · rintro ⟨-, -, t', T', -, -, hrun, hT', -, hnodup⟩
    obtain rfl := (Prod.mk.inj (Option.some.inj hrun)).2
    have hread : Leads _ T' (rootOf [] (some 10)) none := hT'
    exact hread.not_nodup (g := 5) (d := .right) trivial rfl rfl rfl hnodup

end RbTree
