import Ckit.RedBlack
import Mathlib.Algebra.Order.Ring.Nat
import Mathlib.Data.Nat.Log

/-!
# The height of a red-black tree

The height is the number of nodes on the longest way down. A tree of black height `n` has
`n` black nodes on every way, and no two red nodes in a row, so that its height is at most
`2 * n` below a black root (`Blacks.height_le`); and it has all the nodes of the full tree
of height `n` (`Blacks.pow_le`). The two together bound the height of a valid tree by twice
the logarithm of the number of its nodes (`Valid.height_le`).

`length_descend_le_height` brings this to the paths: whatever test decides the way down, the
path it leaves is no longer than the tree is high.
-/

namespace ColorTree

variable {P : Type*} {t : ColorTree P} {n : ℕ}

/-- The number of nodes on the longest way down. -/
def height : ColorTree P → ℕ
  | nil => 0
  | node _ l _ r => max l.height r.height + 1

theorem height_left_lt (c : Color) (l : ColorTree P) (p : P) (r : ColorTree P) :
    l.height < (node c l p r).height :=
  Nat.lt_succ_of_le (Nat.le_max_left _ _)

theorem height_right_lt (c : Color) (l : ColorTree P) (p : P) (r : ColorTree P) :
    r.height < (node c l p r).height :=
  Nat.lt_succ_of_le (Nat.le_max_right _ _)

/-- No tree is higher than it has nodes. -/
theorem height_le_length (t : ColorTree P) : t.height ≤ t.inorder.length := by
  induction t with
  | nil => exact Nat.le_refl 0
  | node c l p r ihl ihr =>
    rw [height, inorder, List.length_append, List.length_cons]
    omega

/-- The way down is no longer than the tree is high. -/
theorem length_descend_le_height (goLeft : P → Bool) (t : ColorTree P) (fs : List (Frame P)) :
    (t.descend goLeft fs).length ≤ t.height + fs.length := by
  induction t generalizing fs with
  | nil => exact Nat.le_add_left _ _
  | node c l p r ihl ihr =>
    have hl := height_left_lt c l p r
    have hr := height_right_lt c l p r
    rw [descend]
    split
    · have hlen := ihl (⟨.left, c, p, r⟩ :: fs)
      rw [List.length_cons] at hlen
      omega
    · have hlen := ihr (⟨.right, c, p, l⟩ :: fs)
      rw [List.length_cons] at hlen
      omega

/-- The height that a colour adds at the root. -/
def redHeight (t : ColorTree P) : ℕ := if t.isRed then 1 else 0

theorem redHeight_le_one (t : ColorTree P) : t.redHeight ≤ 1 := by
  unfold redHeight
  split
  · exact Nat.le_refl 1
  · exact Nat.zero_le 1

/-- **At most every second node is red.** -/
theorem Blacks.height_le (h : t.Blacks n) (hnrr : t.NoRedRed) :
    t.height ≤ 2 * n + t.redHeight := by
  induction t generalizing n with
  | nil => exact Nat.zero_le _
  | node c l p r ihl ihr =>
    obtain ⟨hcolor, hln, hrn⟩ := hnrr
    cases c with
    | red =>
      obtain ⟨hl, hr⟩ := h
      obtain ⟨hlr, hrr⟩ := hcolor rfl
      have hlh := ihl hl hln
      have hrh := ihr hr hrn
      rw [redHeight, hlr, if_neg Bool.false_ne_true] at hlh
      rw [redHeight, hrr, if_neg Bool.false_ne_true] at hrh
      exact Nat.succ_le_succ (max_le hlh hrh)
    | black =>
      obtain ⟨m, rfl, hl, hr⟩ := h
      have hlh := ihl hl hln
      have hrh := ihr hr hrn
      have hl1 := redHeight_le_one l
      have hr1 := redHeight_le_one r
      have hmax : max l.height r.height ≤ 2 * m + 1 := max_le (by omega) (by omega)
      rw [height]
      omega

/-- **All ways down have `n` nodes**, and so there are as many as in the full tree. -/
theorem Blacks.pow_le (h : t.Blacks n) : 2 ^ n ≤ t.inorder.length + 1 := by
  induction t generalizing n with
  | nil =>
    obtain rfl : n = 0 := h
    exact Nat.le_refl _
  | node c l p r ihl ihr =>
    rw [inorder, List.length_append, List.length_cons]
    cases c with
    | red =>
      have hlp := ihl h.1
      omega
    | black =>
      obtain ⟨m, rfl, hl, hr⟩ := h
      have hlp := ihl hl
      have hrp := ihr hr
      rw [pow_succ]
      omega

/-- **The height of a valid tree** is at most twice the logarithm of the number of its nodes. -/
theorem Valid.height_le (h : t.Valid) : t.height ≤ 2 * Nat.log 2 (t.inorder.length + 1) := by
  obtain ⟨n, hblacks⟩ := h.blacks
  have hlog : n ≤ Nat.log 2 (t.inorder.length + 1) :=
    (Nat.le_log_iff_pow_le Nat.one_lt_two (Nat.succ_ne_zero _)).mpr hblacks.pow_le
  have hheight := hblacks.height_le h.noRedRed
  rw [redHeight, h.root, if_neg Bool.false_ne_true] at hheight
  omega

end ColorTree
