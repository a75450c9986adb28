import Mathlib.Data.List.Perm.Basic
import Mathlib.Tactic.Common

/-!
# Red-black trees and paths into them

A tree is coloured, and its nodes carry a `P` – a pointer, or whatever names a node. A
place in a tree is a *path*: the frames from the place up to the root, each with the
node passed, the side it was left at and what is on its other side. `plug` puts a tree
back in its place.

A tree is *valid* when its root is black, no red node has a red child, and all paths to
the leaves have as many black nodes. `valid_plug_iff` takes this apart at a place: the
path expects a black height (`PathValid`), the tree has it, and only a path that ends at
a black node takes a red tree.

`Recolours` and `RotatesAside` are about a red tree that comes to a place that does not
take it: the first says that recolouring alone puts it right on the way up, and the
second that a red leaf is one rotation away from a valid tree, at a grandparent that is
on the same side of its own parent as its child is of it.
-/

/-- A side of a node. -/
inductive Side where
  | left
  | right
deriving DecidableEq, Repr

/-- The other side. -/
def Side.flip : Side → Side
  | .left => .right
  | .right => .left

@[simp] theorem Side.flip_flip (s : Side) : s.flip.flip = s := by
  cases s <;> rfl

theorem Side.flip_ne (s : Side) : s.flip ≠ s := by
  cases s <;> exact fun h => nomatch h

theorem Side.eq_flip_of_ne {s d : Side} (h : s ≠ d) : s = d.flip := by
  cases s <;> cases d <;> first | rfl | exact absurd rfl h

/-- The colour of a node. -/
inductive Color where
  | black
  | red
deriving DecidableEq, Repr

/-- The black height above a node. -/
def Color.above : Color → ℕ → ℕ
  | .black, n => n + 1
  | .red, n => n

/-- A tree of coloured nodes. -/
inductive ColorTree (P : Type*) where
  | nil
  | node (color : Color) (left : ColorTree P) (p : P) (right : ColorTree P)
deriving DecidableEq, Repr

namespace ColorTree

variable {P : Type*}

/-- A node with `t` on side `s` and `o` on the other. -/
def bin (s : Side) (c : Color) (t : ColorTree P) (p : P) (o : ColorTree P) : ColorTree P :=
  match s with
  | .left => node c t p o
  | .right => node c o p t

theorem bin_flip (s : Side) (c : Color) (t : ColorTree P) (p : P) (o : ColorTree P) :
    bin s.flip c t p o = bin s c o p t := by
  cases s <;> rfl

/-- The node at the root. -/
def root : ColorTree P → Option P
  | nil => none
  | node _ _ p _ => some p

@[simp] theorem root_bin (s : Side) (c : Color) (t : ColorTree P) (p : P) (o : ColorTree P) :
    (bin s c t p o).root = some p := by
  cases s <;> rfl

/-- The nodes, in order. -/
def inorder : ColorTree P → List P
  | nil => []
  | node _ l p r => l.inorder ++ p :: r.inorder

theorem perm_inorder_bin (s : Side) (c : Color) (t : ColorTree P) (p : P) (o : ColorTree P) :
    (bin s c t p o).inorder.Perm (p :: (o.inorder ++ t.inorder)) := by
  cases s with
  | left => exact List.perm_middle.trans (List.perm_append_comm.cons p)
  | right => exact List.perm_middle

theorem mem_inorder_bin {s : Side} {c : Color} {t : ColorTree P} {p : P} {o : ColorTree P} {z : P} :
    z ∈ (bin s c t p o).inorder ↔ z = p ∨ z ∈ t.inorder ∨ z ∈ o.inorder := by
  rw [(perm_inorder_bin s c t p o).mem_iff, List.mem_cons, List.mem_append,
    or_comm (a := z ∈ t.inorder)]

/-- The order does not depend on colours. -/
theorem inorder_bin_congr {t t' o o' : ColorTree P} (ht : t'.inorder = t.inorder)
    (ho : o'.inorder = o.inorder) (s : Side) (c c' : Color) (p : P) :
    (bin s c' t' p o').inorder = (bin s c t p o).inorder := by
  cases s with
  | left => rw [bin, bin, inorder, inorder, ht, ho]
  | right => rw [bin, bin, inorder, inorder, ht, ho]

theorem root_mem {t : ColorTree P} {p : P} (h : t.root = some p) : p ∈ t.inorder := by
  cases t with
  | nil => exact nomatch h
  | node c l q r =>
    obtain rfl : q = p := Option.some.inj h
    exact List.mem_append_right _ List.mem_cons_self

/-- A tree with a root, from either side of it. -/
theorem exists_bin_of_root {t : ColorTree P} {p : P} (s : Side) (h : t.root = some p) :
    ∃ c a b, t = bin s c a p b := by
  cases t with
  | nil => exact absurd h (Option.some_ne_none p).symm
  | node c l q r =>
    obtain rfl : q = p := Option.some.inj h
    cases s with
    | left => exact ⟨c, l, r, rfl⟩
    | right => exact ⟨c, r, l, rfl⟩

/-- The root is red. -/
def isRed : ColorTree P → Bool
  | node .red _ _ _ => true
  | _ => false

@[simp] theorem isRed_bin (s : Side) (c : Color) (t : ColorTree P) (p : P) (o : ColorTree P) :
    (bin s c t p o).isRed = decide (c = .red) := by
  cases s <;> cases c <;> rfl

theorem exists_of_isRed {t : ColorTree P} (h : t.isRed = true) :
    ∃ l p r, t = node .red l p r := by
  cases t with
  | nil => exact absurd h Bool.false_ne_true
  | node c l p r =>
    cases c with
    | red => exact ⟨l, p, r, rfl⟩
    | black => exact absurd h Bool.false_ne_true

/-- The tree with its root recoloured. -/
def setColor (c : Color) : ColorTree P → ColorTree P
  | nil => nil
  | node _ l p r => node c l p r

theorem inorder_setColor (c : Color) (t : ColorTree P) : (t.setColor c).inorder = t.inorder := by
  cases t <;> rfl

/-- All paths to the leaves have `n` black nodes. -/
def Blacks : ColorTree P → ℕ → Prop
  | nil, n => n = 0
  | node .red l _ r, n => l.Blacks n ∧ r.Blacks n
  | node .black l _ r, n => ∃ m, n = m + 1 ∧ l.Blacks m ∧ r.Blacks m

/-- No red node has a red child. -/
def NoRedRed : ColorTree P → Prop
  | nil => True
  | node c l _ r =>
    (c = .red → l.isRed = false ∧ r.isRed = false) ∧ l.NoRedRed ∧ r.NoRedRed

/-- **A red-black tree.** -/
structure Valid (t : ColorTree P) : Prop where
  root : t.isRed = false
  noRedRed : t.NoRedRed
  blacks : ∃ n, t.Blacks n

variable {s : Side} {c : Color} {t o : ColorTree P} {p : P} {n : ℕ}

theorem blacks_bin_red : (bin s .red t p o).Blacks n ↔ t.Blacks n ∧ o.Blacks n := by
  cases s with
  | left => exact Iff.rfl
  | right => exact and_comm

theorem blacks_bin_black :
    (bin s .black t p o).Blacks n ↔ ∃ m, n = m + 1 ∧ t.Blacks m ∧ o.Blacks m := by
  cases s with
  | left => exact Iff.rfl
  | right => exact exists_congr fun m => and_congr_right fun _ => and_comm

theorem noRedRed_bin : (bin s c t p o).NoRedRed
    ↔ (c = .red → t.isRed = false ∧ o.isRed = false) ∧ t.NoRedRed ∧ o.NoRedRed := by
  cases s with
  | left => exact Iff.rfl
  | right => exact and_congr (imp_congr_right fun _ => and_comm) and_comm

/-- A tree with no black node and a root that is not red is empty. -/
theorem eq_nil_of_blacks_zero (h : t.Blacks 0) (hred : t.isRed = false) : t = nil := by
  cases t with
  | nil => rfl
  | node c l p r =>
    cases c with
    | red => exact nomatch hred
    | black =>
      obtain ⟨m, hm, -⟩ := h
      exact nomatch hm

/-- A red tree with its root made black. -/
theorem setColor_black (h : t.Blacks n) (hnrr : t.NoRedRed) (hred : t.isRed = true) :
    (t.setColor .black).Blacks (n + 1) ∧ (t.setColor .black).NoRedRed
      ∧ (t.setColor .black).isRed = false := by
  obtain ⟨l, p, r, rfl⟩ := exists_of_isRed hred
  exact ⟨⟨n, rfl, h⟩, ⟨(fun hc => nomatch hc), hnrr.2⟩, rfl⟩

/-! ## Paths -/

/-- A node passed on the way down: it was left at `side`. -/
structure Frame (P : Type*) where
  side : Side
  color : Color
  p : P
  other : ColorTree P

/-- The tree with `t` at the place of the path. -/
def plug : List (Frame P) → ColorTree P → ColorTree P
  | [], t => t
  | f :: fs, t => plug fs (bin f.side f.color t f.p f.other)

/-- The nodes of a path and of what is beside it. -/
def pathNodes (fs : List (Frame P)) : List P := fs.flatMap fun f => f.p :: f.other.inorder

/-- The nodes before the place. -/
def before : List (Frame P) → List P
  | [] => []
  | f :: fs => before fs ++ match f.side with
    | .left => []
    | .right => f.other.inorder ++ [f.p]

/-- The nodes after the place. -/
def after : List (Frame P) → List P
  | [] => []
  | f :: fs => (match f.side with
    | .left => f.p :: f.other.inorder
    | .right => []) ++ after fs

variable {fs : List (Frame P)}

/-- **The order of the nodes, at a place.** -/
theorem inorder_plug (fs : List (Frame P)) (t : ColorTree P) :
    (plug fs t).inorder = before fs ++ t.inorder ++ after fs := by
  induction fs generalizing t with
  | nil => rw [before, after, plug, List.nil_append, List.append_nil]
  | cons f fs ih =>
    obtain ⟨side, color, p, other⟩ := f
    rw [plug, ih]
    cases side with
    | left => simp [before, after, bin, inorder]
    | right => simp [before, after, bin, inorder]

open scoped List in
theorem perm_plug (fs : List (Frame P)) (t : ColorTree P) :
    (plug fs t).inorder.Perm (pathNodes fs ++ t.inorder) := by
  induction fs generalizing t with
  | nil => exact List.Perm.refl _
  | cons f fs ih =>
    refine (ih _).trans ?_
    have hmk := perm_inorder_bin f.side f.color t f.p f.other
    have hcons : pathNodes (f :: fs) = (f.p :: f.other.inorder) ++ pathNodes fs :=
      List.flatMap_cons
    calc pathNodes fs ++ (bin f.side f.color t f.p f.other).inorder
      _ ~ pathNodes fs ++ (f.p :: f.other.inorder ++ t.inorder) := hmk.append_left _
      _ = pathNodes fs ++ (f.p :: f.other.inorder) ++ t.inorder := (List.append_assoc ..).symm
      _ ~ f.p :: f.other.inorder ++ pathNodes fs ++ t.inorder :=
        List.perm_append_comm.append_right _
      _ = pathNodes (f :: fs) ++ t.inorder := by rw [hcons]

/-- A path is as long as there are nodes on it. -/
theorem length_le_inorder (fs : List (Frame P)) (t : ColorTree P) :
    fs.length + t.inorder.length ≤ (plug fs t).inorder.length := by
  rw [(perm_plug fs t).length_eq, List.length_append]
  refine Nat.add_le_add_right ?_ _
  induction fs with
  | nil => exact Nat.zero_le _
  | cons f fs ih =>
    rw [pathNodes, List.flatMap_cons, List.length_append, List.length_cons, List.length_cons]
    rw [pathNodes] at ih
    omega

/-- The way down by a test that says where to go left. -/
def descend (goLeft : P → Bool) : ColorTree P → List (Frame P) → List (Frame P)
  | nil, fs => fs
  | node c l p r, fs =>
    if goLeft p then descend goLeft l (⟨.left, c, p, r⟩ :: fs)
    else descend goLeft r (⟨.right, c, p, l⟩ :: fs)

/-- It ends where nothing is. -/
theorem plug_descend (goLeft : P → Bool) (t : ColorTree P) (fs : List (Frame P)) :
    plug (t.descend goLeft fs) nil = plug fs t := by
  induction t generalizing fs with
  | nil => rfl
  | node c l p r ihl ihr =>
    rw [descend]
    split
    · exact ihl _
    · exact ihr _

/-- The nodes along the way down are nodes of the tree. -/
theorem mem_of_descend {goLeft : P → Bool} {t : ColorTree P} {p : P}
    (hp : p ∈ pathNodes (t.descend goLeft [])) : p ∈ t.inorder := by
  have hmem := (perm_plug (t.descend goLeft []) nil).symm.subset (List.mem_append_left _ hp)
  rwa [plug_descend] at hmem

/-- The way down is no longer than the tree has nodes. -/
theorem length_descend_le (goLeft : P → Bool) (t : ColorTree P) :
    (t.descend goLeft []).length ≤ t.inorder.length := by
  have hlength := length_le_inorder (t.descend goLeft []) nil
  rwa [plug_descend] at hlength

/-- The nodes of a tree are those before the place the way down leads to, and those after. -/
theorem inorder_descend (goLeft : P → Bool) (t : ColorTree P) :
    t.inorder = before (t.descend goLeft []) ++ after (t.descend goLeft []) := by
  have hplug := congrArg inorder (plug_descend goLeft t [])
  rw [inorder_plug] at hplug
  rw [← List.append_nil (before _)]
  exact hplug.symm

/-- A leaf at that place comes between the two. -/
theorem inorder_plug_leaf (fs : List (Frame P)) (c : Color) (p : P) :
    (plug fs (node c nil p nil)).inorder = before fs ++ p :: after fs := by
  rw [inorder_plug, List.append_assoc]
  rfl

/-- **The way down parts the nodes**: where the test is decided by a bound that the order
of the nodes respects, all nodes before the place are below it and all after it are
above. -/
theorem descend_parts {R : P → P → Prop} {goLeft : P → Bool} {lo hi : P → Prop}
    (hhi : ∀ p, goLeft p = true → hi p) (hlo : ∀ p, goLeft p = false → lo p)
    (hup : ∀ p q, R p q → hi p → hi q) (hdown : ∀ p q, R p q → lo q → lo p) {t : ColorTree P}
    {fs : List (Frame P)} (hs : t.inorder.Pairwise R) (hb : ∀ p ∈ before fs, lo p)
    (ha : ∀ p ∈ after fs, hi p) :
    (∀ p ∈ before (t.descend goLeft fs), lo p) ∧ ∀ p ∈ after (t.descend goLeft fs), hi p := by
  induction t generalizing fs with
  | nil => exact ⟨hb, ha⟩
  | node c l p r ihl ihr =>
    obtain ⟨hl, hpr, hlpr⟩ := List.pairwise_append.mp hs
    obtain ⟨hp, hr⟩ := List.pairwise_cons.mp hpr
    rw [descend]
    cases hgo : goLeft p with
    | true =>
      rw [if_pos rfl]
      refine ihl hl (fun q hq => ?_) fun q hq => ?_
      · exact hb q (by simpa [before] using hq)
      · rcases List.mem_append.mp hq with hq | hq
        · rcases List.mem_cons.mp hq with rfl | hq
          · exact hhi q hgo
          · exact hup p q (hp q hq) (hhi p hgo)
        · exact ha q hq
    | false =>
      rw [if_neg Bool.false_ne_true]
      refine ihr hr (fun q hq => ?_) fun q hq => ?_
      · rcases List.mem_append.mp hq with hq | hq
        · exact hb q hq
        · rcases List.mem_append.mp hq with hq | hq
          · exact hdown q p (hlpr q hq p List.mem_cons_self) (hlo p hgo)
          · rw [List.mem_singleton.mp hq]
            exact hlo p hgo
      · exact ha q (by simpa [after] using hq)

/-! ## Validity at a place -/

/-- The path ends at a black node. -/
def TopBlack : List (Frame P) → Prop
  | [] => False
  | f :: _ => f.color = .black

/-- **A path that expects a tree of black height `n`.** -/
def PathValid : List (Frame P) → ℕ → Prop
  | [], _ => True
  | f :: fs, n => f.other.Blacks n ∧ f.other.NoRedRed
      ∧ (f.color = .red → f.other.isRed = false ∧ TopBlack fs) ∧ PathValid fs (f.color.above n)

theorem blacks_bin {f : Frame P} (ht : t.Blacks n) (ho : f.other.Blacks n) :
    (bin f.side f.color t f.p f.other).Blacks (f.color.above n) := by
  cases hc : f.color with
  | red => exact blacks_bin_red.mpr ⟨ht, ho⟩
  | black => exact blacks_bin_black.mpr ⟨n, rfl, ht, ho⟩

/-- The black height of the whole tree is decided by the path. -/
theorem plug_blacks (hpath : PathValid fs n) :
    ∃ m, ∀ t : ColorTree P, t.Blacks n → (plug fs t).Blacks m := by
  induction fs generalizing n with
  | nil => exact ⟨n, fun _ => id⟩
  | cons f fs ih =>
    obtain ⟨hother, -, -, hpath⟩ := hpath
    obtain ⟨m, hm⟩ := ih hpath
    exact ⟨m, fun t ht => hm _ (blacks_bin ht hother)⟩

/-- The root is red, and none of the nodes `X`. -/
def RedOff (X : P → Prop) : ColorTree P → Prop
  | node .red _ p _ => ¬ X p
  | _ => False

/-- No red node has a red child, but for the nodes `X`. -/
def NoRedRedOff (X : P → Prop) : ColorTree P → Prop
  | nil => True
  | node c l _ r =>
    (c = .red → ¬ l.RedOff X ∧ ¬ r.RedOff X) ∧ l.NoRedRedOff X ∧ r.NoRedRedOff X

/-- **A red-black tree, but for the nodes `X`**, which may be red at the root or below a red
node. -/
structure ValidOff (X : P → Prop) (t : ColorTree P) : Prop where
  root : ¬ t.RedOff X
  noRedRed : t.NoRedRedOff X
  blacks : ∃ n, t.Blacks n

variable {X : P → Prop}

theorem redOff_bin : (bin s c t p o).RedOff X ↔ c = .red ∧ ¬ X p := by
  have hblack : ¬ (Color.black = .red ∧ ¬ X p) := fun h => Color.noConfusion h.1
  cases s with
  | left =>
    cases c with
    | red => exact (and_iff_right rfl).symm
    | black => exact (iff_false_intro hblack).symm
  | right =>
    cases c with
    | red => exact (and_iff_right rfl).symm
    | black => exact (iff_false_intro hblack).symm

theorem noRedRedOff_bin : (bin s c t p o).NoRedRedOff X
    ↔ (c = .red → ¬ t.RedOff X ∧ ¬ o.RedOff X) ∧ t.NoRedRedOff X ∧ o.NoRedRedOff X := by
  cases s with
  | left => exact Iff.rfl
  | right => exact and_congr (imp_congr_right fun _ => and_comm) and_comm

/-- A tree that has none of the nodes. -/
theorem not_redOff_iff (hX : ∀ p ∈ t.inorder, ¬ X p) : ¬ t.RedOff X ↔ t.isRed = false := by
  cases t with
  | nil => exact iff_of_true id rfl
  | node c l p r =>
    cases c with
    | red =>
      refine iff_of_false (fun h => h ?_) fun h => Bool.noConfusion h
      exact hX p (List.mem_append_right _ List.mem_cons_self)
    | black => exact iff_of_true id rfl

theorem noRedRedOff_iff (hX : ∀ p ∈ t.inorder, ¬ X p) : t.NoRedRedOff X ↔ t.NoRedRed := by
  induction t with
  | nil => exact Iff.rfl
  | node c l p r ihl ihr =>
    have hl : ∀ q ∈ l.inorder, ¬ X q := fun q hq => hX q (List.mem_append_left _ hq)
    have hr : ∀ q ∈ r.inorder, ¬ X q := fun q hq =>
      hX q (List.mem_append_right _ (List.mem_cons_of_mem _ hq))
    refine and_congr (imp_congr_right fun _ => ?_) (and_congr (ihl hl) (ihr hr))
    exact and_congr (not_redOff_iff hl) (not_redOff_iff hr)

/-- A tree that has none of the nodes but at its root. -/
theorem noRedRedOff_root_iff {x : P} (hx : t.root = some x) (hnodup : t.inorder.Nodup) :
    t.NoRedRedOff (· = x) ↔ t.NoRedRed := by
  obtain ⟨c, l, r, rfl⟩ := exists_bin_of_root .left hx
  have hnot : x ∉ r.inorder ++ l.inorder :=
    (List.nodup_cons.mp ((perm_inorder_bin .left c l x r).nodup_iff.mp hnodup)).1
  have hl : ∀ q ∈ l.inorder, ¬ q = x := fun q hq heq =>
    hnot (List.mem_append_right _ (heq ▸ hq))
  have hr : ∀ q ∈ r.inorder, ¬ q = x := fun q hq heq =>
    hnot (List.mem_append_left _ (heq ▸ hq))
  rw [noRedRedOff_bin, noRedRed_bin, not_redOff_iff hl, not_redOff_iff hr, noRedRedOff_iff hl,
    noRedRedOff_iff hr]

/-- **A tree that is valid but for some nodes, at a place** none of them is on the way to. -/
theorem validOff_plug_iff {fs : List (Frame P)} {t : ColorTree P}
    (hX : ∀ p ∈ pathNodes fs, ¬ X p) :
    (plug fs t).ValidOff X ↔ ∃ n, PathValid fs n ∧ t.Blacks n ∧ t.NoRedRedOff X
      ∧ (t.RedOff X → TopBlack fs) := by
  induction fs generalizing t with
  | nil =>
    constructor
    · rintro ⟨hroot, hnrr, n, hn⟩
      exact ⟨n, trivial, hn, hnrr, hroot⟩
    · rintro ⟨n, -, hn, hnrr, hred⟩
      exact ⟨hred, hnrr, n, hn⟩
  | cons f fs ih =>
    have hp : ¬ X f.p := hX f.p (List.mem_append_left _ List.mem_cons_self)
    have hother : ∀ q ∈ f.other.inorder, ¬ X q := fun q hq =>
      hX q (List.mem_append_left _ (List.mem_cons_of_mem _ hq))
    have hfs : ∀ q ∈ pathNodes fs, ¬ X q := fun q hq => hX q (List.mem_append_right _ hq)
    rw [plug, ih hfs]
    constructor
    · rintro ⟨m, hpath, hblacks, hnrr, hred⟩
      obtain ⟨hcolor, htn, hon⟩ := noRedRedOff_bin.mp hnrr
      rw [noRedRedOff_iff hother] at hon
      cases hc : f.color with
      | red =>
        rw [hc] at hblacks
        obtain ⟨ht, ho⟩ := blacks_bin_red.mp hblacks
        have htop : TopBlack fs := hred (redOff_bin.mpr ⟨hc, hp⟩)
        have hor : f.other.isRed = false := (not_redOff_iff hother).mp (hcolor hc).2
        refine ⟨m, ⟨ho, hon, fun _ => ⟨hor, htop⟩, ?_⟩, ht, htn,
          fun htr => absurd htr (hcolor hc).1⟩
        rw [hc]
        exact hpath
      | black =>
        rw [hc] at hblacks
        obtain ⟨k, rfl, ht, ho⟩ := blacks_bin_black.mp hblacks
        refine ⟨k, ⟨ho, hon, (fun hr => nomatch hc.symm.trans hr), ?_⟩, ht, htn, fun _ => hc⟩
        rw [hc]
        exact hpath
    · rintro ⟨k, ⟨ho, hon, hred, hpath⟩, ht, htn, htop⟩
      refine ⟨f.color.above k, hpath, blacks_bin ht ho,
        noRedRedOff_bin.mpr ⟨fun hc => ⟨fun htr => ?_, (not_redOff_iff hother).mpr (hred hc).1⟩,
          htn, (noRedRedOff_iff hother).mpr hon⟩, fun hr => ?_⟩
      · exact nomatch hc.symm.trans (htop htr)
      · exact (hred (redOff_bin.mp hr).1).2

/-- A tree that is valid but for no node. -/
theorem validOff_iff_valid (hX : ∀ p ∈ t.inorder, ¬ X p) : t.ValidOff X ↔ t.Valid := by
  constructor
  · rintro ⟨hroot, hnrr, hblacks⟩
    exact ⟨(not_redOff_iff hX).mp hroot, (noRedRedOff_iff hX).mp hnrr, hblacks⟩
  · rintro ⟨hroot, hnrr, hblacks⟩
    exact ⟨(not_redOff_iff hX).mpr hroot, (noRedRedOff_iff hX).mpr hnrr, hblacks⟩

/-- **A valid tree, at a place.** -/
theorem valid_plug_iff {fs : List (Frame P)} {t : ColorTree P} :
    (plug fs t).Valid ↔ ∃ n, PathValid fs n ∧ t.Blacks n ∧ t.NoRedRed
      ∧ (t.isRed = true → TopBlack fs) := by
  have hnone {t : ColorTree P} : ∀ p ∈ t.inorder, ¬ False := fun _ _ => id
  have hred : t.RedOff (fun _ => False) ↔ t.isRed = true := by
    rw [← not_iff_not, not_redOff_iff hnone, Bool.not_eq_true]
  rw [← validOff_iff_valid hnone, validOff_plug_iff fun _ _ => id, hred, noRedRedOff_iff hnone]

/-- The place of a new leaf in a valid tree takes a tree with no black node. -/
theorem pathValid_descend (h : t.Valid) (goLeft : P → Bool) :
    PathValid (t.descend goLeft []) 0 := by
  have hplug : plug (t.descend goLeft []) nil = t := plug_descend goLeft t []
  rw [← hplug] at h
  obtain ⟨n, hpath, hblacks, -⟩ := valid_plug_iff.mp h
  obtain rfl : n = 0 := hblacks
  exact hpath

/-! ## A red tree at a place that does not take it -/

/-- Recolouring alone puts it right: going up, the uncles are red until the root or a
black parent is met. -/
def Recolours : List (Frame P) → Prop
  | [] => True
  | [f] => f.color = .black
  | f :: g :: fs => f.color = .black ∨ f.color = .red ∧ g.other.isRed = true ∧ Recolours fs

/-- A leaf is put right by a rotation at its grandparent, which is on the same side of its
parent as its child on the path is of it. -/
def RotatesAside : List (Frame P) → Prop
  | f :: g :: h :: _ => f.color = .red ∧ g.other.isRed = false ∧ g.side = h.side
  | _ => False

instance decidableRecolours : ∀ fs : List (Frame P), Decidable (Recolours fs)
  | [] => .isTrue trivial
  | [f] => inferInstanceAs (Decidable (f.color = .black))
  | f :: g :: fs =>
    have := decidableRecolours fs
    inferInstanceAs (Decidable
      (f.color = .black ∨ f.color = .red ∧ g.other.isRed = true ∧ Recolours fs))

instance (fs : List (Frame P)) : Decidable (RotatesAside fs) :=
  match fs with
  | [] | [_] | [_, _] => .isFalse id
  | f :: g :: h :: _ => inferInstanceAs (Decidable
      (f.color = .red ∧ g.other.isRed = false ∧ g.side = h.side))

/-- **One level of recolouring**: the red tree goes up by two nodes. -/
theorem recolour_step {f g : Frame P} (hf : f.color = .red) (hg : g.other.isRed = true)
    (hpath : PathValid (f :: g :: fs) n) (ht : t.Blacks n) (hnrr : t.NoRedRed) :
    PathValid fs (n + 1)
      ∧ (bin g.side .red (bin f.side .black t f.p f.other) g.p (g.other.setColor .black)).Blacks
        (n + 1)
      ∧ (bin g.side .red (bin f.side .black t f.p f.other) g.p
        (g.other.setColor .black)).NoRedRed := by
  obtain ⟨hfo, hfn, hfred, hpath⟩ := hpath
  rw [hf] at hpath
  obtain ⟨hgo, hgn, -, hpath⟩ := hpath
  have hgc : g.color = .black := (hfred hf).2
  rw [hgc] at hpath
  obtain ⟨hub, hun, hur⟩ := setColor_black hgo hgn hg
  refine ⟨hpath, blacks_bin_red.mpr ⟨blacks_bin_black.mpr ⟨n, rfl, ht, hfo⟩, hub⟩, ?_⟩
  refine noRedRed_bin.mpr ⟨fun _ => ⟨?_, hur⟩, noRedRed_bin.mpr ⟨?_, hnrr, hfn⟩, hun⟩
  · rw [isRed_bin]
    rfl
  · exact fun hc => nomatch hc

/-- **A rotation keeps the order**: the child `y` comes up and `x` goes down to `d`, with
what was between them. -/
theorem inorder_rotate (d : Side) (cx cy cx' cy' : Color) (u w z : ColorTree P) (x y : P) :
    (bin d cy' (bin d.flip cx' u x w) y z).inorder
      = (bin d.flip cx (bin d cy u y z) x w).inorder := by
  cases d with
  | left => simp [bin, Side.flip, inorder]
  | right => simp [bin, Side.flip, inorder]

/-- The nodes of equal trees at one place. -/
theorem inorder_plug_congr {t' : ColorTree P} (h : t'.inorder = t.inorder) (fs : List (Frame P)) :
    (plug fs t').inorder = (plug fs t).inorder := by
  rw [inorder_plug, inorder_plug, h]

/-- **After the rotation** the tree is valid, with a black `q` in the place of the
grandparent, which is now its child. Nothing was beside the leaf. -/
theorem rotated_valid {f g : Frame P} (hf : f.color = .red) (hg : g.other.isRed = false)
    (hpath : PathValid (f :: g :: fs) 0) {a : ColorTree P} (ha : a.Blacks 0) (han : a.NoRedRed)
    (q : P) : (plug fs (bin g.side .black a q (bin g.side .red nil g.p g.other))).Valid
      ∧ f.other = nil := by
  obtain ⟨hfo, -, hfred, hpath⟩ := hpath
  rw [hf] at hpath
  obtain ⟨hgo, hgn, -, hpath⟩ := hpath
  have hgc : g.color = .black := (hfred hf).2
  rw [hgc] at hpath
  refine ⟨valid_plug_iff.mpr ⟨1, hpath, ?_, ?_, ?_⟩, eq_nil_of_blacks_zero hfo (hfred hf).1⟩
  · exact blacks_bin_black.mpr ⟨0, rfl, ha, blacks_bin_red.mpr ⟨rfl, hgo⟩⟩
  · refine noRedRed_bin.mpr ⟨(fun hc => nomatch hc), han, noRedRed_bin.mpr ⟨fun _ => ⟨rfl, hg⟩, ?_⟩⟩
    exact ⟨trivial, hgn⟩
  · rw [isRed_bin]
    exact fun h => nomatch h

end ColorTree
