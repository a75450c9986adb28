import Ckit.Hash
import Mathlib.Algebra.Order.Ring.Abs
import Mathlib.Algebra.Order.Ring.Int
import Mathlib.RingTheory.Coprime.Lemmas
import Mathlib.Tactic.Linarith

/-!
# What the hashes tell apart

A hash is the value of a polynomial at `65599`, modulo a power of two. The multiplier is odd,
so that what stands behind two pieces multiplies their difference by a unit, and what stands
before them takes no part in it: two strings that differ in one piece only have the same hash
exactly where the pieces have it.

Of short pieces the value itself is at hand (`valueFrom`), since it is too small to wrap. The
bytes of two pieces differ by `255` at most, signed or not, which is less than `65599`, so
that the value has the bytes as its digits (`valueFrom_inj`). This is why a change within a few
bytes that stand together never goes unnoticed (`hashes_tell_bursts_apart`), wherever it is
and however long the string: within two bytes with an `unsigned long` of 32 bits, and within
four with one of 64.
-/

/-! ## Values -/

/-- A byte as a number, signed or not. -/
def charValue (signed : Bool) (c : BitVec 8) : ℤ := if signed then c.toInt else c.toNat

/-- The value of a piece at `65599`, with what stands before it. -/
def valueFrom (signed : Bool) (v : ℤ) (s : List (BitVec 8)) : ℤ :=
  s.foldl (fun v c => charValue signed c + 65599 * v) v

/-- The sum of the powers that the bytes of a piece are multiplied by. -/
def powerSum : ℕ → ℕ
  | 0 => 0
  | k + 1 => 65599 ^ k + powerSum k

variable {w : ℕ} {signed : Bool}

theorem valueFrom_cons (v : ℤ) (c : BitVec 8) (s : List (BitVec 8)) :
    valueFrom signed v (c :: s) = valueFrom signed (charValue signed c + 65599 * v) s := by
  rw [valueFrom, List.foldl_cons]
  rfl

/-- Two bytes are not far apart. -/
theorem abs_charValue_sub_le (signed : Bool) (c d : BitVec 8) :
    |charValue signed c - charValue signed d| ≤ 255 := by
  have hc := c.isLt
  have hd := d.isLt
  unfold charValue
  rw [abs_le]
  cases signed with
  | false =>
    rw [if_neg Bool.false_ne_true, if_neg Bool.false_ne_true]
    omega
  | true =>
    rw [if_pos rfl, if_pos rfl, BitVec.toInt_eq_toNat_cond, BitVec.toInt_eq_toNat_cond]
    split_ifs <;> omega

theorem charValue_inj (signed : Bool) {c d : BitVec 8}
    (h : charValue signed c = charValue signed d) : c = d := by
  cases signed with
  | false =>
    have hnat : (c.toNat : ℤ) = d.toNat := h
    exact BitVec.eq_of_toNat_eq (Int.ofNat_inj.mp hnat)
  | true => exact BitVec.eq_of_toInt_eq h

/-- **The bytes are the digits of the value.** -/
theorem valueFrom_inj {a b : List (BitVec 8)} (hlen : a.length = b.length) {u v : ℤ}
    (h : valueFrom signed u a = valueFrom signed v b) : u = v ∧ a = b := by
  induction a generalizing b u v with
  | nil =>
    obtain rfl := List.length_eq_zero_iff.mp hlen.symm
    exact ⟨h, rfl⟩
  | cons c a ih =>
    cases b with
    | nil => exact absurd hlen (Nat.succ_ne_zero _)
    | cons d b =>
      rw [valueFrom_cons, valueFrom_cons] at h
      obtain ⟨hhead, rfl⟩ := ih (Nat.succ.inj hlen) h
      -- the two heads are the same modulo `65599`
      have habs := abs_le.mp (abs_charValue_sub_le signed c d)
      have huv : u = v := by omega
      refine ⟨huv, ?_⟩
      have hcd : charValue signed c = charValue signed d := by omega
      rw [charValue_inj signed hcd]

/-- **The values of two pieces** are no further apart than their bytes allow. -/
theorem abs_valueFrom_sub_le (signed : Bool) {a b : List (BitVec 8)}
    (hlen : a.length = b.length) (u v : ℤ) :
    |valueFrom signed u a - valueFrom signed v b|
      ≤ 65599 ^ a.length * |u - v| + 255 * powerSum a.length := by
  induction a generalizing b u v with
  | nil =>
    obtain rfl := List.length_eq_zero_iff.mp hlen.symm
    simp [valueFrom, powerSum]
  | cons c a ih =>
    cases b with
    | nil => exact absurd hlen (Nat.succ_ne_zero _)
    | cons d b =>
      rw [valueFrom_cons, valueFrom_cons]
      refine (ih (Nat.succ.inj hlen) _ _).trans ?_
      have hhead : |charValue signed c + 65599 * u - (charValue signed d + 65599 * v)|
          ≤ 255 + 65599 * |u - v| := by
        have hsplit : charValue signed c + 65599 * u - (charValue signed d + 65599 * v)
            = charValue signed c - charValue signed d + 65599 * (u - v) := by ring
        rw [hsplit]
        refine (abs_add_le _ _).trans (add_le_add (abs_charValue_sub_le signed c d) ?_)
        rw [abs_mul]
        exact le_rfl
      have hpow : (0 : ℤ) ≤ 65599 ^ a.length := pow_nonneg (by decide) a.length
      have hmul := mul_le_mul_of_nonneg_left hhead hpow
      rw [List.length_cons, powerSum, pow_succ]
      push_cast
      linarith

/-! ## Hashes -/

/-- A byte is hashed by its value. -/
theorem charToUlong_eq_cast (w : ℕ) (signed : Bool) (c : BitVec 8) :
    charToUlong w signed c = ((charValue signed c : ℤ) : BitVec w) := by
  cases signed with
  | false =>
    rw [charToUlong_unsigned, charValue, if_neg Bool.false_ne_true, Int.cast_natCast]
  | true => rfl

/-- **The hash of a piece is its value**, modulo `2 ^ w`. -/
theorem hashFrom_eq_cast (v : ℤ) (s : List (BitVec 8)) :
    hashFrom (charToUlong w signed) (v : BitVec w) s = (valueFrom signed v s : BitVec w) := by
  induction s generalizing v with
  | nil => rfl
  | cons c s ih =>
    have hhead : partialByteHash (charToUlong w signed c) (v : BitVec w)
        = ((charValue signed c + 65599 * v : ℤ) : BitVec w) := by
      rw [partialByteHash_eq, charToUlong_eq_cast]
      push_cast
      rfl
    rw [hashFrom_cons, hhead, ih, valueFrom_cons]

/-- Two numbers with one image are a multiple of `2 ^ w` apart. -/
theorem cast_eq_iff_dvd {u v : ℤ} : (u : BitVec w) = (v : BitVec w) ↔ (2 : ℤ) ^ w ∣ u - v := by
  have hpos : ((2 ^ w : ℕ) : ℤ) ≠ 0 := by positivity
  have hnat (x : ℤ) : ((BitVec.ofInt w x).toNat : ℤ) = x % (2 ^ w : ℕ) := by
    rw [BitVec.toNat_ofInt, Int.toNat_of_nonneg (Int.emod_nonneg x hpos)]
  have hpow : ((2 ^ w : ℕ) : ℤ) = 2 ^ w := by push_cast; rfl
  rw [Int.dvd_iff_emod_eq_zero, ← Int.emod_eq_emod_iff_emod_sub_eq_zero, ← hpow, ← hnat u, ← hnat v,
    Int.ofNat_inj, BitVec.toNat_inj]
  exact Iff.rfl

/-- What stands behind two pieces multiplies their difference. -/
theorem valueFrom_sub (u v : ℤ) (s : List (BitVec 8)) :
    valueFrom signed u s - valueFrom signed v s = 65599 ^ s.length * (u - v) := by
  induction s generalizing u v with
  | nil => exact (one_mul (u - v)).symm
  | cons c s ih =>
    rw [valueFrom_cons, valueFrom_cons, ih, List.length_cons, pow_succ]
    ring

theorem valueFrom_append (v : ℤ) (a b : List (BitVec 8)) :
    valueFrom signed v (a ++ b) = valueFrom signed (valueFrom signed v a) b := by
  unfold valueFrom
  rw [List.foldl_append]

/-- **Two strings that differ in one piece only**, which is short: they have the same hash
exactly where the pieces are the same. -/
theorem hashFrom_piece_iff (p s : List (BitVec 8)) {a b : List (BitVec 8)}
    (hlen : a.length = b.length) (hshort : 255 * powerSum a.length < 2 ^ w) :
    hashFrom (charToUlong w signed) 0 (p ++ a ++ s)
        = hashFrom (charToUlong w signed) 0 (p ++ b ++ s) ↔ a = b := by
  refine ⟨fun h => ?_, fun h => by rw [h]⟩
  have hcast (t : List (BitVec 8)) : hashFrom (charToUlong w signed) 0 t
      = (valueFrom signed 0 t : BitVec w) := hashFrom_eq_cast 0 t
  rw [hcast, hcast, cast_eq_iff_dvd, valueFrom_append, valueFrom_append _ (p ++ b), valueFrom_sub,
    valueFrom_append, valueFrom_append] at h
  -- the factor is odd, so the pieces themselves are a multiple apart
  have hodd : IsCoprime ((2 : ℤ) ^ w) (65599 ^ s.length) :=
    (Int.isCoprime_iff_gcd_eq_one.mpr rfl).pow
  have hdvd := hodd.dvd_of_dvd_mul_left h
  have hbound := abs_valueFrom_sub_le signed hlen (valueFrom signed 0 p)
    (valueFrom signed 0 p)
  rw [sub_self, abs_zero, mul_zero, zero_add] at hbound
  have hlt : |valueFrom signed (valueFrom signed 0 p) a - valueFrom signed (valueFrom signed 0 p) b|
      < 2 ^ w := hbound.trans_lt (by exact_mod_cast hshort)
  exact (valueFrom_inj hlen (sub_eq_zero.mp (Int.eq_zero_of_abs_lt_dvd hdvd hlt))).2

/-- **A change within a few bytes is never missed**: for a width of `w` bits and a piece of `k`
bytes with `255 * (1 + 65599 + … + 65599 ^ (k - 1)) < 2 ^ w`, two arrays, and two strings, that
differ within the piece only have different hashes, whatever stands before it and behind it. -/
theorem hashes_tell_bursts_apart (w : ℕ) (p a b s : List (BitVec 8)) (hlen : a.length = b.length)
    (hshort : 255 * powerSum a.length < 2 ^ w) (rest rest' : List (BitVec 8)) :
    (byteArrayHash w ((p ++ a ++ s) ++ rest) (p ++ a ++ s).length
        = byteArrayHash w ((p ++ b ++ s) ++ rest') (p ++ b ++ s).length ↔ a = b)
      ∧ ((∀ c ∈ p ++ a ++ s, c ≠ 0) → (∀ c ∈ p ++ b ++ s, c ≠ 0) → ∀ signed,
        (stringHash w signed ((p ++ a ++ s) ++ 0 :: rest)
          = stringHash w signed ((p ++ b ++ s) ++ 0 :: rest') ↔ a = b)) := by
  constructor
  · rw [byteArrayHash, byteArrayHash, byteArrayHashLoop_eq, byteArrayHashLoop_eq,
      Option.some_inj]
    exact hashFrom_piece_iff p s hlen hshort
  · intro ha hb signed
    rw [stringHash, stringHash, stringHashLoop_eq signed ha, stringHashLoop_eq signed hb,
      Option.some_inj]
    exact hashFrom_piece_iff p s hlen hshort

/-- Two bytes within 32 bits, and four within 64. -/
theorem powerSum_short : 255 * powerSum 2 < 2 ^ 32 ∧ 255 * powerSum 4 < 2 ^ 64 := by decide

/-- Two strings that differ in two letters, in 32 bits. -/
theorem hashes_tell_bursts_apart_ab :
    (byteArrayHash 32 [0x63, 0x61, 0x62, 0x64] 4 = byteArrayHash 32 [0x63, 0x62, 0x61, 0x64] 4
        ↔ ([0x61, 0x62] : List (BitVec 8)) = [0x62, 0x61])
      ∧ ((∀ c ∈ ([0x63, 0x61, 0x62, 0x64] : List (BitVec 8)), c ≠ 0)
        → (∀ c ∈ ([0x63, 0x62, 0x61, 0x64] : List (BitVec 8)), c ≠ 0) → ∀ signed,
        (stringHash 32 signed [0x63, 0x61, 0x62, 0x64, 0]
          = stringHash 32 signed [0x63, 0x62, 0x61, 0x64, 0]
            ↔ ([0x61, 0x62] : List (BitVec 8)) = [0x62, 0x61])) :=
  hashes_tell_bursts_apart 32 [0x63] [0x61, 0x62] [0x62, 0x61] [0x64] rfl powerSum_short.1 [] []
