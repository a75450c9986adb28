import Ckit.LinkedTree
import Ckit.Run

/-!
# The tree of `rbtree.c`

The functions of `rbtree.c` that insert into a tree, assignment by assignment, over a
memory of nodes. A pointer is an `Option P`, with `none` for `NULL`.

A function has no outcome (`none`) when it goes through a `NULL` pointer, and when a loop
or a recursion does not end; those have a bound on the number of their rounds as an
argument. The four rotations differ in two sides only, the one of the parent they write
to and the one the node goes down to, and so do the two branches of the loop of
`bst_insert`.

`log` is the history of the insertions: the nodes `rb_node_alloc` has got, with their
keys and values.
-/

/-- `struct rb_node`: the links of a `Cell`, a key and a value. -/
structure RbNode (P κ ν : Type) extends Cell P where
  key : κ
  val : ν

/-- `struct rb_tree`, with the memory of the nodes. -/
structure RbTree (P κ ν : Type) where
  root : Option P
  keyCompare : κ → κ → ℤ
  node : P → RbNode P κ ν
  log : List (P × κ × ν)

namespace RbTree

variable {P κ ν : Type} [DecidableEq P]

/-- The write `p->color = color`. -/
def setColor (t : RbTree P κ ν) (p : P) (color : Color) : RbTree P κ ν :=
  { t with node := Function.update t.node p { t.node p with color := color } }

/-- The writes `p->left = q` and `p->right = q`. -/
def setChild (t : RbTree P κ ν) (p : P) (side : Side) (q : Option P) : RbTree P κ ν :=
  { t with node := Function.update t.node p (match side with
    | .left => { t.node p with left := q }
    | .right => { t.node p with right := q }) }

/-- The write `p->parent = q`. -/
def setParent (t : RbTree P κ ν) (p : P) (q : Option P) : RbTree P κ ν :=
  { t with node := Function.update t.node p { t.node p with parent := q } }

/-- `rb_node_alloc`, where `malloc` returns `n`. -/
def rbNodeAlloc (t : RbTree P κ ν) (n : P) (key : κ) (val : ν) (parent : Option P) :
    RbTree P κ ν :=
  { t with
    node := Function.update t.node n ⟨⟨.red, none, none, parent⟩, key, val⟩
    log := (n, key, val) :: t.log }

/-! ## `bst_insert` -/

/-- The new leaf on one side of `parent`; where `malloc` fails, `NULL` is written. With
the return value, the new node. -/
def insertLeaf (t : RbTree P κ ν) (key : κ) (val : ν) (alloc : Option P) (parent : P)
    (side : Side) : ℤ × Option P × RbTree P κ ν :=
  match alloc with
  | some n => (1, some n, (t.rbNodeAlloc n key val (some parent)).setChild parent side (some n))
  | none => (-1, none, t.setChild parent side none)

/-- The loop of `bst_insert`, at the node `curr`. -/
def bstInsertLoop (t : RbTree P κ ν) (key : κ) (val : ν) (alloc : Option P) :
    ℕ → P → Option (ℤ × Option P × RbTree P κ ν)
  | 0, _ => none
  | fuel + 1, curr =>
    let side := if t.keyCompare key (t.node curr).key < 0 then Side.left else .right
    match (t.node curr).child side with
    | some next => bstInsertLoop t key val alloc fuel next
    | none => some (t.insertLeaf key val alloc curr side)

/-- `bst_insert`, with its return value and the new node. -/
def bstInsert (fuel : ℕ) (t : RbTree P κ ν) (key : κ) (val : ν) (alloc : Option P) :
    Option (ℤ × Option P × RbTree P κ ν) :=
  match t.root with
  | none =>
    match alloc with
    | some n => some (1, some n, { t.rbNodeAlloc n key val none with root := some n })
    | none => some (-1, none, { t with root := none })
  | some curr => t.bstInsertLoop key val alloc fuel curr

/-! ## The relatives of a node -/

/-- `grandparent`. -/
def grandparent (t : RbTree P κ ν) (node : P) : Option P :=
  (t.node node).parent.bind fun p => (t.node p).parent

/-- `uncle`. -/
def uncle (t : RbTree P κ ν) (node : P) : Option P :=
  (t.grandparent node).bind fun gp =>
    if (t.node node).parent = (t.node gp).left then (t.node gp).right else (t.node gp).left

/-! ## The rotations -/

/-- The rotations: `node`, which is to be the child on `side` of its parent, goes down to
`dir`. -/
def rbTreeRotate (side dir : Side) (t : RbTree P κ ν) (node : P) : Option (RbTree P κ ν) :=
  match (t.node node).child dir.flip with
  | none => some t
  | some child =>
    (t.node node).parent.map fun parent =>
      let t := t.setChild parent side (some child)
      let t := t.setParent child (some parent)
      let t := t.setParent node (some child)
      let t := t.setChild node dir.flip ((t.node child).child dir)
      t.setChild child dir (some node)

/-- `rb_tree_rotate_right_side_right`. -/
def rbTreeRotateRightSideRight (t : RbTree P κ ν) (node : P) : Option (RbTree P κ ν) :=
  rbTreeRotate .right .right t node

/-- `rb_tree_rotate_left_side_right`. -/
def rbTreeRotateLeftSideRight (t : RbTree P κ ν) (node : P) : Option (RbTree P κ ν) :=
  rbTreeRotate .left .right t node

/-- `rb_tree_rotate_right_side_left`. -/
def rbTreeRotateRightSideLeft (t : RbTree P κ ν) (node : P) : Option (RbTree P κ ν) :=
  rbTreeRotate .right .left t node

/-- `rb_tree_rotate_left_side_left`. -/
def rbTreeRotateLeftSideLeft (t : RbTree P κ ν) (node : P) : Option (RbTree P κ ν) :=
  rbTreeRotate .left .left t node

/-! ## The cases of the insertion -/

/-- `rb_tree_insert_case5`. -/
def rbTreeInsertCase5 (t : RbTree P κ ν) (node : P) : Option (RbTree P κ ν) :=
  (t.node node).parent.bind fun p =>
    (t.grandparent node).bind fun g =>
      let t := (t.setColor p .black).setColor g .red
      if (t.node p).left = some node then t.rbTreeRotateLeftSideRight g
      else t.rbTreeRotateRightSideLeft g

/-- The test of `rb_tree_insert_case4` that `node` is the child on `side` of its parent `p`
and `p` that on the other side of the grandparent, which is only read where the first
holds. -/
def isInner (t : RbTree P κ ν) (node p : P) (side : Side) : Option Bool :=
  if (t.node p).child side = some node then
    (t.grandparent node).map fun g => decide ((t.node g).child side.flip = some p)
  else some false

/-- `rb_tree_insert_case4`. -/
def rbTreeInsertCase4 (t : RbTree P κ ν) (node : P) : Option (RbTree P κ ν) :=
  (t.node node).parent.bind fun p => do
    if ← t.isInner node p .right then
      let t ← t.rbTreeRotateLeftSideLeft p
      match (t.node node).left with
      | some node => t.rbTreeInsertCase5 node
      | none => return t
    else if ← t.isInner node p .left then
      let t ← t.rbTreeRotateRightSideRight p
      match (t.node node).right with
      | some node => t.rbTreeInsertCase5 node
      | none => return t
    else
      t.rbTreeInsertCase5 node

/-- `rb_tree_insert_case3`, which calls `rb_tree_insert_case1` again. -/
def rbTreeInsertCase3 (case1 : RbTree P κ ν → P → Option (RbTree P κ ν)) (t : RbTree P κ ν)
    (node : P) : Option (RbTree P κ ν) :=
  match t.uncle node with
  | some u =>
    if (t.node u).color = .red then
      (t.node node).parent.bind fun p =>
        let t := (t.setColor p .black).setColor u .black
        (t.grandparent node).bind fun g => case1 (t.setColor g .red) g
    else t.rbTreeInsertCase4 node
  | none => t.rbTreeInsertCase4 node

/-- `rb_tree_insert_case2`. -/
def rbTreeInsertCase2 (case1 : RbTree P κ ν → P → Option (RbTree P κ ν)) (t : RbTree P κ ν)
    (node : P) : Option (RbTree P κ ν) :=
  (t.node node).parent.bind fun p =>
    if (t.node p).color = .black then some t else rbTreeInsertCase3 case1 t node

/-- `rb_tree_insert_case1`. -/
def rbTreeInsertCase1 : ℕ → RbTree P κ ν → P → Option (RbTree P κ ν)
  | 0, _, _ => none
  | fuel + 1, t, node =>
    if (t.node node).parent = none then some (t.setColor node .black)
    else rbTreeInsertCase2 (rbTreeInsertCase1 fuel) t node

/-- `_rb_tree_insert`, with its return value. -/
def rbTreeInsert (fuel : ℕ) (t : RbTree P κ ν) (key : κ) (val : ν) (alloc : Option P) :
    Option (ℤ × RbTree P κ ν) :=
  (t.bstInsert fuel key val alloc).bind fun r =>
    if r.1 ≤ 0 then some (r.1, r.2.2)
    else r.2.1.bind fun newNode =>
      (rbTreeInsertCase1 fuel r.2.2 newNode).map fun t => (r.1, t)

/-- An insertion as a step: `malloc` returns memory that is not in use. -/
def step (fuel : ℕ) (t : RbTree P κ ν) (e : P × κ × ν) : Option (RbTree P κ ν) :=
  if e.1 ∈ t.log.map Prod.fst then none
  else (t.rbTreeInsert fuel e.2.1 e.2.2 (some e.1)).map Prod.snd

/-- The tree that is read in memory. -/
def toTree (t : RbTree P κ ν) : ℕ → Option P → Option (ColorTree P)
  | 0, _ => none
  | _ + 1, none => some .nil
  | fuel + 1, some p => do
    let l ← toTree t fuel (t.node p).left
    let r ← toTree t fuel (t.node p).right
    return .node (t.node p).color l p r

end RbTree
