import Ckit.RedBlack
import Mathlib.Data.List.Nodup
import Mathlib.Logic.Function.Basic

/-!
# Trees with parent pointers in memory

A node in memory – a `Cell` – has its colour, pointers to its children and a pointer to
its parent. `Repr` says that the memory holds a tree, and `Located` that it holds one
with the tree `t` at the place of a path: every node of the tree is once in memory, with
the pointers the tree says.

What the memory holds is changed at a place by what the new memory reads there:
`Located.recolour` for the colour of the node at the place, `Located.rotate` for a
rotation, and `Located.insert` for a new leaf. The rotation is one whose middle subtree
is empty. Where it is not, the parent pointer of its root has to be written as well.

`Leads` is about the child pointers alone: a pointer leads through a tree, and at the end of
the right spine to wherever the last pointer goes, which is `NULL` in a tree as such and a
node further up in one that has been *threaded*.
-/

/-- A node of a tree, in memory. -/
@[ext] structure Cell (P : Type*) where
  color : Color
  left : Option P
  right : Option P
  parent : Option P

namespace Cell

variable {P : Type*}

/-- The pointer to the child on a side. -/
def child (x : Cell P) : Side → Option P
  | .left => x.left
  | .right => x.right

/-- A cell with `a` on side `s` and `b` on the other. -/
def of (s : Side) (c : Color) (a b parent : Option P) : Cell P :=
  match s with
  | .left => ⟨c, a, b, parent⟩
  | .right => ⟨c, b, a, parent⟩

@[simp] theorem of_color (s : Side) (c : Color) (a b r : Option P) : (of s c a b r).color = c := by
  cases s <;> rfl

@[simp] theorem of_parent (s : Side) (c : Color) (a b r : Option P) :
    (of s c a b r).parent = r := by
  cases s <;> rfl

@[simp] theorem of_child (s : Side) (c : Color) (a b r : Option P) :
    (of s c a b r).child s = a := by
  cases s <;> rfl

@[simp] theorem of_child_flip (s : Side) (c : Color) (a b r : Option P) :
    (of s c a b r).child s.flip = b := by
  cases s <;> rfl

/-- The cell with another child on a side. -/
def withChild (x : Cell P) (s : Side) (q : Option P) : Cell P :=
  match s with
  | .left => { x with left := q }
  | .right => { x with right := q }

@[simp] theorem of_withChild (s : Side) (c : Color) (a b r q : Option P) :
    (of s c a b r).withChild s q = of s c q b r := by
  cases s <;> rfl

@[simp] theorem withChild_child (x : Cell P) (s : Side) (q : Option P) :
    (x.withChild s q).child s = q := by
  cases s <;> rfl

@[simp] theorem withChild_child_flip (x : Cell P) (s : Side) (q : Option P) :
    (x.withChild s q).child s.flip = x.child s.flip := by
  cases s <;> rfl

@[simp] theorem withChild_flip_child (x : Cell P) (s : Side) (q : Option P) :
    (x.withChild s.flip q).child s = x.child s := by
  cases s <;> rfl

@[simp] theorem withChild_parent (x : Cell P) (s : Side) (q : Option P) :
    (x.withChild s q).parent = x.parent := by
  cases s <;> rfl

@[simp] theorem withParent_child (x : Cell P) (s : Side) (q : Option P) :
    { x with parent := q }.child s = x.child s := by
  cases s <;> rfl

@[simp] theorem withColor_child (x : Cell P) (s : Side) (c : Color) :
    { x with color := c }.child s = x.child s := by
  cases s <;> rfl

@[simp] theorem of_withParent (s : Side) (c : Color) (a b r q : Option P) :
    { of s c a b r with parent := q } = of s c a b q := by
  cases s <;> rfl

end Cell

namespace ColorTree

variable {P : Type*} {m m' : P → Cell P} {fs : List (Frame P)} {t o : ColorTree P}

/-- **The memory holds the tree**, below `parent`. -/
def Repr (m : P → Cell P) : ColorTree P → Option P → Prop
  | nil, _ => True
  | node c l p r, parent =>
    m p = ⟨c, l.root, r.root, parent⟩ ∧ Repr m l (some p) ∧ Repr m r (some p)

/-- The node a path ends at. -/
def parentOf : List (Frame P) → Option P
  | [] => none
  | f :: _ => some f.p

/-- The root of a tree with the node `a` at the place of the path. -/
def rootOf : List (Frame P) → Option P → Option P
  | [], a => a
  | f :: fs, _ => rootOf fs (some f.p)

/-- The memory holds the path, with the node `a` at its place, and what is beside it. -/
def PathRepr (m : P → Cell P) : List (Frame P) → Option P → Prop
  | [], _ => True
  | f :: fs, a => m f.p = Cell.of f.side f.color a f.other.root (parentOf fs)
      ∧ Repr m f.other (some f.p) ∧ PathRepr m fs (some f.p)

theorem repr_bin {s : Side} {c : Color} {p : P} {r : Option P} : Repr m (bin s c t p o) r
    ↔ m p = Cell.of s c t.root o.root r ∧ Repr m t (some p) ∧ Repr m o (some p) := by
  cases s with
  | left => exact Iff.rfl
  | right => exact and_congr_right fun _ => and_comm

/-- A tree in memory depends on its own nodes only. -/
theorem Repr.congr {r : Option P} (h : Repr m t r) (heq : ∀ p ∈ t.inorder, m' p = m p) :
    Repr m' t r := by
  induction t generalizing r with
  | nil => trivial
  | node c l p q ihl ihr =>
    obtain ⟨hp, hl, hr⟩ := h
    refine ⟨?_, ihl hl fun x hx => ?_, ihr hr fun x hx => ?_⟩
    · rw [heq p (List.mem_append_right _ List.mem_cons_self)]
      exact hp
    · exact heq x (List.mem_append_left _ hx)
    · exact heq x (List.mem_append_right _ (List.mem_cons_of_mem _ hx))

/-- A path in memory depends on its own nodes and those beside it. -/
theorem PathRepr.congr {a : Option P} (h : PathRepr m fs a)
    (heq : ∀ p ∈ pathNodes fs, m' p = m p) : PathRepr m' fs a := by
  induction fs generalizing a with
  | nil => trivial
  | cons f fs ih =>
    obtain ⟨hp, ho, hfs⟩ := h
    have hmem : pathNodes (f :: fs) = (f.p :: f.other.inorder) ++ pathNodes fs :=
      List.flatMap_cons
    rw [hmem] at heq
    refine ⟨?_, ho.congr fun x hx => ?_, ih hfs fun x hx => ?_⟩
    · rw [heq f.p List.mem_cons_self]
      exact hp
    · exact heq x (List.mem_append_left _ (List.mem_cons_of_mem _ hx))
    · exact heq x (List.mem_append_right _ hx)

/-- **The memory holds a tree with `t` at the place of the path.** -/
structure Located (m : P → Cell P) (root : Option P) (fs : List (Frame P)) (t : ColorTree P) :
    Prop where
  repr : Repr m t (parentOf fs)
  path : PathRepr m fs t.root
  root_eq : rootOf fs t.root = root
  nodup : (pathNodes fs ++ t.inorder).Nodup

variable {root : Option P}

/-- **The same tree, from one node further up.** -/
theorem located_cons {f : Frame P} : Located m root (f :: fs) t
    ↔ Located m root fs (bin f.side f.color t f.p f.other) := by
  have hperm : (pathNodes (f :: fs) ++ t.inorder).Perm
      (pathNodes fs ++ (bin f.side f.color t f.p f.other).inorder) :=
    (perm_plug (f :: fs) t).symm.trans (perm_plug fs _)
  constructor
  · rintro ⟨hrepr, ⟨hp, ho, hfs⟩, hroot, hnodup⟩
    refine ⟨repr_bin.mpr ⟨hp, hrepr, ho⟩, ?_, ?_, hperm.nodup_iff.mp hnodup⟩
    · rw [root_bin]
      exact hfs
    · rw [root_bin]
      exact hroot
  · rintro ⟨hrepr, hfs, hroot, hnodup⟩
    obtain ⟨hp, ht, ho⟩ := repr_bin.mp hrepr
    rw [root_bin] at hfs hroot
    exact ⟨ht, ⟨hp, ho, hfs⟩, hroot, hperm.nodup_iff.mpr hnodup⟩

/-- The whole tree. -/
theorem located_nil : Located m root [] t ↔ Repr m t none ∧ t.root = root ∧ t.inorder.Nodup :=
  ⟨fun h => ⟨h.repr, h.root_eq, h.nodup⟩, fun h => ⟨h.1, trivial, h.2.1, h.2.2⟩⟩

theorem located_plug : Located m root fs t ↔ Located m root [] (plug fs t) := by
  induction fs generalizing t with
  | nil => exact Iff.rfl
  | cons f fs ih => exact located_cons.trans ih

/-- The nodes at a place are in it once, and not on the path. -/
theorem Located.nodes {s : Side} {c : Color} {x : P} (h : Located m root fs (bin s c t x o)) :
    x ∉ pathNodes fs ∧ x ∉ t.inorder ∧ x ∉ o.inorder
      ∧ (∀ q ∈ t.inorder, q ∉ pathNodes fs ∧ q ∉ o.inorder)
      ∧ ∀ q ∈ o.inorder, q ∉ pathNodes fs := by
  have hperm := (perm_inorder_bin s c t x o).append_left (pathNodes fs)
  have hnodup := hperm.nodup_iff.mp h.nodup
  obtain ⟨-, hmk, hdisj⟩ := List.nodup_append'.mp hnodup
  obtain ⟨hx, hot⟩ := List.nodup_cons.mp hmk
  obtain ⟨-, -, hdisj'⟩ := List.nodup_append'.mp hot
  refine ⟨fun hm => hdisj hm List.mem_cons_self, fun hm => hx (List.mem_append_right _ hm),
    fun hm => hx (List.mem_append_left _ hm), fun q hq => ⟨fun hm => ?_, fun hm => hdisj' hm hq⟩,
    fun q hq hm => ?_⟩
  · exact hdisj hm (List.mem_cons_of_mem _ (List.mem_append_right _ hq))
  · exact hdisj hm (List.mem_cons_of_mem _ (List.mem_append_left _ hq))

/-- **The node at the place gets another colour.** -/
theorem Located.recolour {s : Side} {c d : Color} {x : P}
    (h : Located m root fs (bin s c t x o)) (hx : m' x = { m x with color := d })
    (hframe : ∀ q, q ≠ x → m' q = m q) : Located m' root fs (bin s d t x o) := by
  obtain ⟨hcell, ht, ho⟩ := repr_bin.mp h.repr
  obtain ⟨hxp, hxt, hxo, -, -⟩ := h.nodes
  have hsame : (bin s d t x o).inorder = (bin s c t x o).inorder := by
    cases s <;> rfl
  refine ⟨repr_bin.mpr ⟨?_, ht.congr fun q hq => ?_, ho.congr fun q hq => ?_⟩, ?_, ?_, ?_⟩
  · rw [hx, hcell]
    cases s <;> rfl
  · exact hframe q fun heq => hxt (heq ▸ hq)
  · exact hframe q fun heq => hxo (heq ▸ hq)
  · have hpath := h.path
    rw [root_bin] at hpath ⊢
    exact hpath.congr fun q hq => hframe q fun heq => hxp (heq ▸ hq)
  · have hroot := h.root_eq
    rw [root_bin] at hroot ⊢
    exact hroot
  · rw [hsame]
    exact h.nodup

/-- **A rotation** of the node `x` at the place, which goes down to `d`, with its child
`y`, which has nothing on that side. -/
theorem Located.rotate {f : Frame P} {d : Side} {cx cy : Color} {x y : P} {w z : ColorTree P}
    (h : Located m root (f :: fs) (bin d.flip cx (bin d cy nil y z) x w))
    (hf : m' f.p = Cell.of f.side f.color (some y) f.other.root (parentOf fs))
    (hy : m' y = Cell.of d cy (some x) z.root (some f.p))
    (hx : m' x = Cell.of d.flip cx none w.root (some y))
    (hframe : ∀ q, q ≠ f.p → q ≠ y → q ≠ x → m' q = m q) :
    Located m' root (f :: fs) (bin d cy (bin d.flip cx nil x w) y z) := by
  obtain ⟨-, hy', hw⟩ := repr_bin.mp h.repr
  obtain ⟨-, -, hz⟩ := repr_bin.mp hy'
  obtain ⟨-, ho, hfs⟩ := h.path
  -- the nodes, seen from the place of `y`
  have hnodup : (x :: w.inorder ++ (f.p :: f.other.inorder ++ pathNodes fs)
      ++ (y :: (z.inorder ++ []))).Nodup := by
    have hy : Located m root (⟨d.flip, cx, x, w⟩ :: f :: fs) (bin d cy nil y z) :=
      located_cons.mpr h
    exact ((perm_inorder_bin d cy nil y z).append_left _).nodup_iff.mp hy.nodup
  have hkept : ∀ q ∈ z.inorder ++ w.inorder ++ f.other.inorder ++ pathNodes fs,
      m' q = m q := by
    intro q hq
    refine hframe q ?_ ?_ ?_
    all_goals
      rintro rfl
      simp only [List.nodup_append, List.nodup_cons, List.mem_append, List.mem_cons] at hnodup hq
      grind
  refine ⟨repr_bin.mpr ⟨?_, repr_bin.mpr ⟨hx, trivial, hw.congr fun q hq => hkept q ?_⟩,
    hz.congr fun q hq => hkept q ?_⟩, ⟨?_, ho.congr fun q hq => hkept q ?_, hfs.congr fun q hq =>
    hkept q ?_⟩, ?_, ?_⟩
  · rw [root_bin]
    exact hy
  · simp [hq]
  · simp [hq]
  · rw [root_bin]
    exact hf
  · simp [hq]
  · simp [hq]
  · exact h.root_eq
  · rw [inorder_rotate d cx cy cx cy]
    exact h.nodup

/-- **A leaf comes to a place where nothing is**, below a node. -/
theorem Located.insert {f : Frame P} {n : P} (h : Located m root (f :: fs) nil)
    (hn : n ∉ pathNodes (f :: fs))
    (hf : m' f.p = Cell.of f.side f.color (some n) f.other.root (parentOf fs))
    (hcell : m' n = ⟨.red, none, none, some f.p⟩) (hframe : ∀ q, q ≠ f.p → q ≠ n → m' q = m q) :
    Located m' root (f :: fs) (node .red nil n nil) := by
  obtain ⟨-, ho, hfs⟩ := h.path
  have hnodes := h.nodup
  have hcons : pathNodes (f :: fs) = f.p :: f.other.inorder ++ pathNodes fs := List.flatMap_cons
  have hkept : ∀ q ∈ f.other.inorder ++ pathNodes fs, m' q = m q := by
    intro q hq
    refine hframe q ?_ ?_
    · rintro rfl
      rw [hcons, List.cons_append, List.cons_append, List.nodup_cons] at hnodes
      exact hnodes.1 (List.mem_append_left _ hq)
    · rintro rfl
      rw [hcons] at hn
      exact hn (List.mem_cons_of_mem _ hq)
  refine ⟨⟨hcell, trivial, trivial⟩, ⟨hf, ho.congr fun q hq => hkept q ?_, hfs.congr fun q hq =>
    hkept q ?_⟩, h.root_eq, ?_⟩
  · exact List.mem_append_left _ hq
  · exact List.mem_append_right _ hq
  · rw [show (nil : ColorTree P).inorder = [] from rfl, List.append_nil] at hnodes
    have hdisj : List.Disjoint (pathNodes (f :: fs)) [n] := List.disjoint_singleton.mpr hn
    exact hnodes.append (List.nodup_singleton n) hdisj

/-! ## Child pointers alone -/

/-- **The pointer `a` leads through the tree, and out to `e`**, by the child pointers. -/
def Leads (m : P → Cell P) : ColorTree P → Option P → Option P → Prop
  | nil, a, e => a = e
  | node _ l p r, a, e => a = some p ∧ Leads m l (m p).left none ∧ Leads m r (m p).right e

/-- What a pointer leads through depends on the child pointers of the nodes there only. -/
theorem Leads.congr {a e : Option P} (h : Leads m t a e)
    (heq : ∀ p ∈ t.inorder, (m' p).left = (m p).left ∧ (m' p).right = (m p).right) :
    Leads m' t a e := by
  induction t generalizing a e with
  | nil => exact h
  | node c l p r ihl ihr =>
    obtain ⟨hp, hl, hr⟩ := h
    have hroot := heq p (List.mem_append_right _ List.mem_cons_self)
    refine ⟨hp, ?_, ?_⟩
    · rw [hroot.1]
      exact ihl hl fun x hx => heq x (List.mem_append_left _ hx)
    · rw [hroot.2]
      exact ihr hr fun x hx => heq x (List.mem_append_right _ (List.mem_cons_of_mem _ hx))

/-- A tree in memory is one its root leads through. -/
theorem Repr.leads {r : Option P} (h : Repr m t r) : Leads m t t.root none := by
  induction t generalizing r with
  | nil => rfl
  | node c l p q ihl ihr =>
    obtain ⟨hp, hl, hr⟩ := h
    refine ⟨rfl, ?_, ?_⟩
    · rw [hp]
      exact ihl hl
    · rw [hp]
      exact ihr hr

/-- The last node of the right spine of `p`, with the tree `t` on its right. -/
def spineEnd (p : P) : ColorTree P → P
  | nil => p
  | node _ _ q r => spineEnd q r

theorem spineEnd_mem (p : P) (t : ColorTree P) : spineEnd p t = p ∨ spineEnd p t ∈ t.inorder := by
  induction t generalizing p with
  | nil => exact Or.inl rfl
  | node c l q r _ ihr =>
    refine Or.inr (List.mem_append_right _ (List.mem_cons.mpr ?_))
    exact ihr q

/-- The way out is the right pointer at the end of the spine. -/
theorem Leads.spineEnd_right {p : P} {e : Option P} (h : Leads m t (m p).right e) :
    (m (spineEnd p t)).right = e := by
  induction t generalizing p with
  | nil => exact h
  | node c l q r _ ihr => exact ihr h.2.2

/-- **Another way out**: where the pointer at the end of the spine is written, the tree leads
there. -/
theorem Leads.rethread {c : Color} {l r : ColorTree P} {p : P} {a e e' : Option P}
    (h : Leads m (node c l p r) a e) (hnodup : (node c l p r).inorder.Nodup)
    (hend : (m' (spineEnd p r)).left = (m (spineEnd p r)).left ∧ (m' (spineEnd p r)).right = e')
    (hframe : ∀ q, q ≠ spineEnd p r → m' q = m q) : Leads m' (node c l p r) a e' := by
  induction r generalizing c l p a e with
  | nil =>
    obtain ⟨ha, hl, -⟩ := h
    refine ⟨ha, ?_, hend.2⟩
    rw [show (m' p).left = (m p).left from hend.1]
    refine hl.congr fun q hq => ?_
    have hne : q ≠ p := fun heq =>
      (List.nodup_append'.mp hnodup).2.2 hq (heq ▸ List.mem_cons_self)
    rw [hframe q hne]
    exact ⟨rfl, rfl⟩
  | node c' l' q r' _ ihr =>
    obtain ⟨ha, hl, hr⟩ := h
    obtain ⟨-, hpr, hdisj⟩ := List.nodup_append'.mp hnodup
    obtain ⟨hp, hnodup'⟩ := List.nodup_cons.mp hpr
    have hmem : spineEnd q r' ∈ (node c' l' q r').inorder := by
      rcases spineEnd_mem q r' with heq | hmem
      · rw [heq]
        exact List.mem_append_right _ List.mem_cons_self
      · exact List.mem_append_right _ (List.mem_cons_of_mem _ hmem)
    have hp' : m' p = m p := hframe p fun heq => hp (heq.symm ▸ hmem)
    refine ⟨ha, ?_, ?_⟩
    · rw [hp']
      refine hl.congr fun x hx => ?_
      rw [hframe x fun heq => hdisj hx (heq.symm ▸ List.mem_cons_of_mem _ hmem)]
      exact ⟨rfl, rfl⟩
    · rw [hp']
      exact ihr hr hnodup' hend hframe

/-! ## Child pointers at a place -/

theorem leads_bin {s : Side} {c : Color} {p : P} {a : Option P} :
    Leads m (bin s c t p o) a none
      ↔ a = some p ∧ Leads m t ((m p).child s) none ∧ Leads m o ((m p).child s.flip) none := by
  cases s with
  | left => exact Iff.rfl
  | right => exact and_congr_right fun _ => and_comm

/-- What a pointer leads through does not depend on how it is described. -/
theorem Leads.inorder_eq {t' : ColorTree P} {a : Option P} (h : Leads m t a none)
    (h' : Leads m t' a none) : t'.inorder = t.inorder := by
  induction t generalizing t' a with
  | nil =>
    obtain rfl : a = none := h
    cases t' with
    | nil => rfl
    | node c' l' p' r' => exact absurd h'.1 (Option.some_ne_none p').symm
  | node c l p r ihl ihr =>
    obtain ⟨rfl, hl, hr⟩ := h
    cases t' with
    | nil => exact absurd h' (Option.some_ne_none p)
    | node c' l' p' r' =>
      obtain ⟨hp, hl', hr'⟩ := h'
      obtain rfl := Option.some.inj hp
      rw [inorder, inorder, ihl hl hl', ihr hr hr']

/-- There is no more below a node than below one it is below of. -/
theorem Leads.exists_at {p : P} {a : Option P} (h : Leads m t a none) (hp : p ∈ t.inorder) :
    ∃ b, Leads m b (some p) none ∧ b.inorder.length ≤ t.inorder.length := by
  induction t generalizing a with
  | nil => exact absurd hp List.not_mem_nil
  | node c l q r ihl ihr =>
    have hlen : (node c l q r).inorder.length = l.inorder.length + (r.inorder.length + 1) := by
      rw [inorder, List.length_append, List.length_cons]
    rcases List.mem_append.mp hp with hp | hp
    · obtain ⟨b, hb, hle⟩ := ihl h.2.1 hp
      exact ⟨b, hb, by omega⟩
    · rcases List.mem_cons.mp hp with rfl | hp
      · exact ⟨_, h.1 ▸ h, Nat.le_refl _⟩
      · obtain ⟨b, hb, hle⟩ := ihr h.2.2 hp
        exact ⟨b, hb, by omega⟩

/-- **No node is below itself.** -/
theorem Leads.notMem {c : Color} {l r : ColorTree P} {p : P} {a : Option P}
    (h : Leads m (node c l p r) a none) : p ∉ l.inorder ∧ p ∉ r.inorder := by
  have hlen : (node c l p r).inorder.length = l.inorder.length + (r.inorder.length + 1) := by
    rw [inorder, List.length_append, List.length_cons]
  obtain ⟨rfl, hl, hr⟩ := id h
  constructor
  · intro hp
    obtain ⟨b, hb, hle⟩ := hl.exists_at hp
    rw [h.inorder_eq hb] at hle
    omega
  · intro hp
    obtain ⟨b, hb, hle⟩ := hr.exists_at hp
    rw [h.inorder_eq hb] at hle
    omega

/-- The path leads to its place, where the pointer is `a`, by the child pointers. -/
def PathLeads (m : P → Cell P) : List (Frame P) → Option P → Prop
  | [], _ => True
  | f :: fs, a => (m f.p).child f.side = a ∧ Leads m f.other ((m f.p).child f.side.flip) none
      ∧ PathLeads m fs (some f.p)

theorem PathRepr.pathLeads {a : Option P} (h : PathRepr m fs a) : PathLeads m fs a := by
  induction fs generalizing a with
  | nil => trivial
  | cons f fs ih =>
    obtain ⟨hp, ho, hfs⟩ := h
    refine ⟨by rw [hp, Cell.of_child], ?_, ih hfs⟩
    rw [hp, Cell.of_child_flip]
    exact ho.leads

theorem PathLeads.congr {a : Option P} (h : PathLeads m fs a)
    (heq : ∀ p ∈ pathNodes fs, m' p = m p) : PathLeads m' fs a := by
  induction fs generalizing a with
  | nil => trivial
  | cons f fs ih =>
    obtain ⟨hp, ho, hfs⟩ := h
    have hcons : pathNodes (f :: fs) = f.p :: f.other.inorder ++ pathNodes fs := List.flatMap_cons
    rw [hcons] at heq
    have hf : m' f.p = m f.p := heq f.p List.mem_cons_self
    refine ⟨by rw [hf]; exact hp, ?_, ih hfs fun x hx => heq x (List.mem_append_right _ hx)⟩
    rw [hf]
    refine ho.congr fun x hx => ?_
    rw [heq x (List.mem_append_left _ (List.mem_cons_of_mem _ hx))]
    exact ⟨rfl, rfl⟩

/-- **A tree at a place**: where the path leads to it, the root leads through the whole. -/
theorem Leads.plug {a : Option P} (h : Leads m t a none) (hpath : PathLeads m fs a) :
    Leads m (plug fs t) (rootOf fs a) none := by
  induction fs generalizing t a with
  | nil => exact h
  | cons f fs ih =>
    obtain ⟨rfl, ho, hfs⟩ := hpath
    exact ih (leads_bin.mpr ⟨rfl, h, ho⟩) hfs

/-- The trees below a node that a pointer leads to. -/
theorem Leads.children {p : P} (h : Leads m t (some p) none) (s : Side) :
    ∃ a b, Leads m a ((m p).child s) none ∧ Leads m b ((m p).child s.flip) none
      ∧ t.inorder.Perm (p :: (b.inorder ++ a.inorder)) := by
  cases t with
  | nil => exact nomatch h
  | node c l q r =>
    obtain ⟨hq, hl, hr⟩ := h
    obtain rfl := Option.some.inj hq
    cases s with
    | left => exact ⟨l, r, hl, hr, perm_inorder_bin .left c l p r⟩
    | right => exact ⟨r, l, hr, hl, perm_inorder_bin .right c r p l⟩

theorem Leads.root_mem {p : P} {e : Option P} (h : Leads m t (some p) e) (he : e ≠ some p) :
    p ∈ t.inorder := by
  cases t with
  | nil => exact absurd h.symm he
  | node c l q r =>
    obtain rfl := Option.some.inj h.1
    exact List.mem_append_right _ List.mem_cons_self

/-- **What is read at a place is read in the whole**, wherever else it may be read. -/
theorem Leads.at_place {p : P} (h : Leads m t (rootOf fs (some p)) none)
    (hpath : PathLeads m fs (some p)) :
    ∃ b, Leads m b (some p) none ∧ b.inorder.Sublist t.inorder := by
  induction fs generalizing p with
  | nil => exact ⟨t, h, List.Sublist.refl _⟩
  | cons f fs ih =>
    obtain ⟨hp, -, hfs⟩ := hpath
    obtain ⟨b, hb, hsub⟩ := ih h hfs
    cases b with
    | nil => exact nomatch hb
    | node c l q r =>
      obtain ⟨hq, hl, hr⟩ := hb
      obtain rfl := Option.some.inj hq
      cases hs : f.side with
      | left =>
        rw [hs] at hp
        refine ⟨l, (show (m f.p).left = some p from hp) ▸ hl, .trans ?_ hsub⟩
        exact List.sublist_append_left _ _
      | right =>
        rw [hs] at hp
        refine ⟨r, (show (m f.p).right = some p from hp) ▸ hr, .trans ?_ hsub⟩
        exact (List.sublist_cons_self _ _).trans (List.sublist_append_right _ _)

/-- **A node with two ways to it**: a tree that is read through two pointers of one node to the
same node is no tree. -/
theorem Leads.not_nodup {q g top : P} {d : Side} (h : Leads m t (rootOf fs (some q)) none)
    (hpath : PathLeads m fs (some q)) (htop : (m q).child d = some top)
    (hdown : (m top).child d.flip = some g) (hg : (m q).child d.flip = some g) :
    ¬ t.inorder.Nodup := by
  intro hnodup
  obtain ⟨b, hb, hsub⟩ := h.at_place hpath
  obtain ⟨x, y, hx, hy, hperm⟩ := hb.children d
  rw [htop] at hx
  rw [hg] at hy
  obtain ⟨w, z, -, hz, hperm'⟩ := hx.children d
  rw [hdown] at hz
  -- `g` is both in `x` and in `y`
  have hgy : g ∈ y.inorder := hy.root_mem (Option.some_ne_none g).symm
  have hgz : g ∈ z.inorder := hz.root_mem (Option.some_ne_none g).symm
  have hgx : g ∈ x.inorder :=
    hperm'.symm.subset (List.mem_cons_of_mem _ (List.mem_append_left _ hgz))
  have hnd := hperm.nodup_iff.mp (hnodup.sublist hsub)
  exact (List.nodup_append'.mp (List.nodup_cons.mp hnd).2).2.2 hgy hgx

end ColorTree
