import Mathlib.Algebra.Order.Ring.Int
import Mathlib.Order.RelClasses

/-!
# Time stamps

The macros of `time.h` on `struct timespec` and on `struct timeval`. The fields are signed;
`/` and `%` truncate. An overflow of the seconds has no meaning in the source, and they are
unbounded here.

A time is a number with two digits, the seconds and a fraction of a second. The macros add
digit by digit and then carry at most once, up or down. One carry is enough because the
digits they add are at most one unit of seconds away from the range of a fraction, also where
a negative amount is split by truncating division (`Carry.frac_carry`).
-/

/-- Conversion to `long`. -/
def i64 (n : ℤ) : ℤ := Int.bmod n (2 ^ 64)

/-- Conversion to `unsigned long`. -/
def ulong (n : ℤ) : ℕ := (n % 2 ^ 64).toNat

/-- The number is a `long`, also where that has 32 bits. -/
def FitsLong (n : ℤ) : Prop := -2 ^ 31 ≤ n ∧ n < 2 ^ 31

def nsecPerSec : ℤ := 1000000000

def usecPerSec : ℤ := 1000000

/-- `struct timespec`. -/
structure Timespec where
  tvSec : ℤ
  tvNsec : ℤ
deriving DecidableEq, Repr

/-- `struct timeval`. -/
structure Timeval where
  tvSec : ℤ
  tvUsec : ℤ
deriving DecidableEq, Repr

/-! ## Seconds and a fraction -/

namespace Carry

variable {unit sec frac sec₁ frac₁ sec₂ frac₂ : ℤ}

/-- A time in fractions of a second, of which a second has `unit`. -/
def value (unit sec frac : ℤ) : ℤ := sec * unit + frac

/-- The seconds after a single carry or borrow. -/
def carrySec (unit sec frac : ℤ) : ℤ :=
  if unit ≤ frac then sec + 1 else if frac < 0 then sec - 1 else sec

/-- The fraction after a single carry or borrow. -/
def carryFrac (unit frac : ℤ) : ℤ :=
  if unit ≤ frac then frac - unit else if frac < 0 then frac + unit else frac

theorem value_carry (unit sec frac : ℤ) :
    value unit (carrySec unit sec frac) (carryFrac unit frac) = value unit sec frac := by
  unfold value carrySec carryFrac
  split
  · rw [add_mul, one_mul]
    omega
  · split
    · rw [sub_mul, one_mul]
      omega
    · rfl

/-- **One carry is enough** for a fraction that is at most a second out of its range. -/
theorem frac_carry (hge : -unit ≤ frac) (hlt : frac < 2 * unit) :
    0 ≤ carryFrac unit frac ∧ carryFrac unit frac < unit := by
  unfold carryFrac
  split
  · omega
  · split
    · omega
    · omega

/-- A fraction is less than a second either way, … -/
theorem lt_of_digit (h : 0 ≤ frac ∧ frac < unit) : -unit < frac ∧ frac < unit := by omega

/-- … and so is what is left of an amount by truncating division. -/
theorem lt_of_tmod (hpos : 0 < unit) (n : ℤ) : -unit < n.tmod unit ∧ n.tmod unit < unit :=
  ⟨Int.lt_tmod_of_pos n hpos, Int.tmod_lt_of_pos n hpos⟩

/-- **Less than a second, added to a fraction or taken from it, leaves one carry to do.** -/
theorem frac_carry_shift {x : ℤ} (h : 0 ≤ frac ∧ frac < unit) (hx : -unit < x ∧ x < unit) :
    (0 ≤ carryFrac unit (frac + x) ∧ carryFrac unit (frac + x) < unit)
      ∧ 0 ≤ carryFrac unit (frac - x) ∧ carryFrac unit (frac - x) < unit :=
  ⟨frac_carry (by omega) (by omega), frac_carry (by omega) (by omega)⟩

/-- An amount split by truncating division is the amount again. -/
theorem value_split (unit n : ℤ) : value unit (n.tdiv unit) (n.tmod unit) = n := by
  rw [value, mul_comm]
  exact Int.mul_tdiv_add_tmod n unit

theorem value_add (unit sec₁ frac₁ sec₂ frac₂ : ℤ) :
    value unit (sec₁ + sec₂) (frac₁ + frac₂) = value unit sec₁ frac₁ + value unit sec₂ frac₂ := by
  unfold value
  rw [add_mul]
  omega

theorem value_sub (unit sec₁ frac₁ sec₂ frac₂ : ℤ) :
    value unit (sec₁ - sec₂) (frac₁ - frac₂) = value unit sec₁ frac₁ - value unit sec₂ frac₂ := by
  unfold value
  rw [sub_mul]
  omega

/-- More seconds are more time, whatever the fractions. -/
theorem value_lt_of_sec_lt (hpos : 0 < unit) (h₁ : frac₁ < unit) (h₂ : 0 ≤ frac₂)
    (hlt : sec₁ < sec₂) : value unit sec₁ frac₁ < value unit sec₂ frac₂ := by
  have hle : (sec₁ + 1) * unit ≤ sec₂ * unit :=
    Int.mul_le_mul_of_nonneg_right hlt hpos.le
  rw [add_mul, one_mul] at hle
  unfold value
  omega

/-- **The order of the digits is the order of the times.** -/
theorem lex_iff (hpos : 0 < unit) (h₁ : 0 ≤ frac₁ ∧ frac₁ < unit) (h₂ : 0 ≤ frac₂ ∧ frac₂ < unit) :
    sec₁ < sec₂ ∨ sec₁ = sec₂ ∧ frac₁ < frac₂
      ↔ value unit sec₁ frac₁ < value unit sec₂ frac₂ := by
  rcases lt_trichotomy sec₁ sec₂ with hlt | rfl | hgt
  · exact iff_of_true (.inl hlt) (value_lt_of_sec_lt hpos h₁.2 h₂.1 hlt)
  · unfold value
    omega
  · have hback := value_lt_of_sec_lt hpos h₂.2 h₁.1 hgt
    omega

/-- A time has one pair of digits. -/
theorem digits_iff (hpos : 0 < unit) (h₁ : 0 ≤ frac₁ ∧ frac₁ < unit)
    (h₂ : 0 ≤ frac₂ ∧ frac₂ < unit) :
    sec₁ = sec₂ ∧ frac₁ = frac₂ ↔ value unit sec₁ frac₁ = value unit sec₂ frac₂ := by
  constructor
  · rintro ⟨rfl, rfl⟩
    rfl
  · intro heq
    have hle : ¬ (sec₁ < sec₂ ∨ sec₁ = sec₂ ∧ frac₁ < frac₂) := fun h =>
      absurd ((lex_iff hpos h₁ h₂).mp h) heq.not_lt
    have hge : ¬ (sec₂ < sec₁ ∨ sec₂ = sec₁ ∧ frac₂ < frac₁) := fun h =>
      absurd ((lex_iff hpos h₂ h₁).mp h) heq.not_gt
    omega

/-- What is added to a fraction or taken from it leaves a `long`. -/
theorem fits_long (hpos : 0 < unit) (hle : unit ≤ nsecPerSec) (h₁ : 0 ≤ frac₁ ∧ frac₁ < unit)
    (h₂ : 0 ≤ frac₂ ∧ frac₂ < unit) (n : ℤ) :
    FitsLong (frac₁ + frac₂) ∧ FitsLong (frac₁ - frac₂)
      ∧ FitsLong (frac₁ + n.tmod unit) ∧ FitsLong (frac₁ - n.tmod unit) := by
  have hn := lt_of_tmod hpos n
  unfold FitsLong nsecPerSec at *
  omega

end Carry

/-- **What time arithmetic is for.** `value` reads a time as a number and `Normal` times are
those a clock gives. Sums, differences and amounts are exact and normal, the comparisons are
those of the numbers, and a sum can be taken back. What a macro holds in the fraction `frac`
before it carries is a `long`. -/
structure ExactTime {τ : Type} (unit : ℤ) (frac value : τ → ℤ) (Normal : τ → Prop)
    (add sub : τ → τ → τ) (addFrac : τ → ℤ → τ) (lt gt le ge eq : τ → τ → Bool) : Prop where
  add_exact : ∀ a b, Normal a → Normal b →
    Normal (add a b) ∧ value (add a b) = value a + value b
  sub_exact : ∀ a b, Normal a → Normal b →
    Normal (sub a b) ∧ value (sub a b) = value a - value b
  addFrac_exact : ∀ a n, Normal a →
    Normal (addFrac a n) ∧ value (addFrac a n) = value a + n
  lt_exact : ∀ a b, Normal a → Normal b → (lt a b = true ↔ value a < value b)
  gt_exact : ∀ a b, Normal a → Normal b → (gt a b = true ↔ value a > value b)
  le_exact : ∀ a b, Normal a → Normal b → (le a b = true ↔ value a ≤ value b)
  ge_exact : ∀ a b, Normal a → Normal b → (ge a b = true ↔ value a ≥ value b)
  eq_exact : ∀ a b, Normal a → Normal b → (eq a b = true ↔ value a = value b)
  add_sub : ∀ a b, Normal a → Normal b → sub (add a b) b = a
  fits : ∀ a b (n : ℤ), Normal a → Normal b →
    FitsLong (frac a + frac b) ∧ FitsLong (frac a - frac b)
      ∧ FitsLong (frac a + n.tmod unit) ∧ FitsLong (frac a - n.tmod unit)

/-! ## `struct timespec` -/

namespace Timespec

/-- `timespec_normalize`. -/
def normalize (t : Timespec) : Timespec :=
  if nsecPerSec ≤ t.tvNsec then
    ⟨t.tvSec + 1, t.tvNsec - nsecPerSec⟩
  else if t.tvNsec < 0 then
    ⟨t.tvSec - 1, t.tvNsec + nsecPerSec⟩
  else
    t

/-- `timespec_add_nsec`. -/
def addNsec (t : Timespec) (nsec : ℤ) : Timespec :=
  normalize ⟨t.tvSec + nsec.tdiv nsecPerSec, t.tvNsec + nsec.tmod nsecPerSec⟩

/-- `timespec_add`. -/
def add (t₁ t₂ : Timespec) : Timespec :=
  normalize ⟨t₁.tvSec + t₂.tvSec, t₁.tvNsec + t₂.tvNsec⟩

/-- `timespec_sub`. -/
def sub (t₁ t₂ : Timespec) : Timespec :=
  normalize ⟨t₁.tvSec - t₂.tvSec, t₁.tvNsec - t₂.tvNsec⟩

/-- `timespec_lt`. -/
def lt (t₁ t₂ : Timespec) : Bool :=
  t₁.tvSec < t₂.tvSec || (t₁.tvSec == t₂.tvSec && t₁.tvNsec < t₂.tvNsec)

/-- `timespec_gt`. -/
def gt (t₁ t₂ : Timespec) : Bool := lt t₂ t₁

/-- `timespec_ge`. -/
def ge (t₁ t₂ : Timespec) : Bool := !lt t₁ t₂

/-- `timespec_le`. -/
def le (t₁ t₂ : Timespec) : Bool := !gt t₁ t₂

/-- `timespec_eq`. -/
def eq (t₁ t₂ : Timespec) : Bool := t₁.tvSec == t₂.tvSec && t₁.tvNsec == t₂.tvNsec

/-- The time in nanoseconds. -/
def toNsec (t : Timespec) : ℤ := t.tvSec * nsecPerSec + t.tvNsec

/-- The nanoseconds are less than a second, as a clock and the macros leave them. -/
def Normal (t : Timespec) : Prop := 0 ≤ t.tvNsec ∧ t.tvNsec < nsecPerSec

instance (t : Timespec) : Decidable t.Normal := inferInstanceAs (Decidable (_ ∧ _))

theorem nsecPerSec_pos : 0 < nsecPerSec := by decide

theorem normalize_eq (t : Timespec) :
    t.normalize = ⟨Carry.carrySec nsecPerSec t.tvSec t.tvNsec,
      Carry.carryFrac nsecPerSec t.tvNsec⟩ := by
  unfold normalize Carry.carrySec Carry.carryFrac
  split
  · rfl
  · split
    · rfl
    · rfl

theorem toNsec_normalize (t : Timespec) : t.normalize.toNsec = t.toNsec := by
  rw [normalize_eq]
  exact Carry.value_carry nsecPerSec t.tvSec t.tvNsec

theorem normal_normalize {t : Timespec}
    (h : 0 ≤ Carry.carryFrac nsecPerSec t.tvNsec
      ∧ Carry.carryFrac nsecPerSec t.tvNsec < nsecPerSec) :
    t.normalize.Normal := by
  rw [normalize_eq]
  exact h

theorem toNsec_add (t u : Timespec) : (t.add u).toNsec = t.toNsec + u.toNsec := by
  rw [add, toNsec_normalize]
  exact Carry.value_add nsecPerSec t.tvSec t.tvNsec u.tvSec u.tvNsec

theorem toNsec_sub (t u : Timespec) : (t.sub u).toNsec = t.toNsec - u.toNsec := by
  rw [sub, toNsec_normalize]
  exact Carry.value_sub nsecPerSec t.tvSec t.tvNsec u.tvSec u.tvNsec

theorem toNsec_addNsec (t : Timespec) (nsec : ℤ) : (t.addNsec nsec).toNsec = t.toNsec + nsec := by
  rw [addNsec, toNsec_normalize]
  refine (Carry.value_add nsecPerSec t.tvSec t.tvNsec _ _).trans ?_
  rw [Carry.value_split]
  rfl

theorem normal_add {t u : Timespec} (ht : t.Normal) (hu : u.Normal) : (t.add u).Normal :=
  normal_normalize (Carry.frac_carry_shift ht (Carry.lt_of_digit hu)).1

theorem normal_addNsec {t : Timespec} (h : t.Normal) (nsec : ℤ) : (t.addNsec nsec).Normal :=
  normal_normalize (Carry.frac_carry_shift h (Carry.lt_of_tmod nsecPerSec_pos nsec)).1

theorem normal_sub {t u : Timespec} (ht : t.Normal) (hu : u.Normal) : (t.sub u).Normal :=
  normal_normalize (Carry.frac_carry_shift ht (Carry.lt_of_digit hu)).2

/-- `timespec_lt` is the order of the nanoseconds. -/
theorem lt_iff {t u : Timespec} (ht : t.Normal) (hu : u.Normal) :
    t.lt u = true ↔ t.toNsec < u.toNsec := by
  unfold lt
  simp only [Bool.or_eq_true, Bool.and_eq_true, decide_eq_true_eq, beq_iff_eq]
  exact Carry.lex_iff nsecPerSec_pos ht hu

/-- A time is determined by its nanoseconds. -/
theorem eq_iff {t u : Timespec} (ht : t.Normal) (hu : u.Normal) :
    t = u ↔ t.toNsec = u.toNsec := by
  refine Iff.trans ?_ (Carry.digits_iff nsecPerSec_pos ht hu)
  obtain ⟨sec₁, nsec₁⟩ := t
  obtain ⟨sec₂, nsec₂⟩ := u
  rw [Timespec.mk.injEq]

theorem exactTime : ExactTime nsecPerSec tvNsec toNsec Normal add sub addNsec lt gt le ge eq where
  add_exact a b ha hb := ⟨normal_add ha hb, toNsec_add a b⟩
  sub_exact a b ha hb := ⟨normal_sub ha hb, toNsec_sub a b⟩
  addFrac_exact a n ha := ⟨normal_addNsec ha n, toNsec_addNsec a n⟩
  lt_exact a b ha hb := lt_iff ha hb
  gt_exact a b ha hb := lt_iff hb ha
  le_exact a b ha hb := by
    rw [le, gt, Bool.not_eq_true', ← Bool.not_eq_true, lt_iff hb ha, not_lt]
  ge_exact a b ha hb := by
    rw [ge, Bool.not_eq_true', ← Bool.not_eq_true, lt_iff ha hb, not_lt]
  eq_exact a b ha hb := by
    rw [eq, Bool.and_eq_true, beq_iff_eq, beq_iff_eq]
    exact Carry.digits_iff nsecPerSec_pos ha hb
  add_sub a b ha hb := by
    rw [eq_iff (normal_sub (normal_add ha hb) hb) ha, toNsec_sub, toNsec_add, add_sub_cancel_right]
  fits a b n ha hb := Carry.fits_long nsecPerSec_pos le_rfl ha hb n

end Timespec

/-! ## `struct timeval` -/

namespace Timeval

/-- `timeval_normalize`. -/
def normalize (t : Timeval) : Timeval :=
  if usecPerSec ≤ t.tvUsec then
    ⟨t.tvSec + 1, t.tvUsec - usecPerSec⟩
  else if t.tvUsec < 0 then
    ⟨t.tvSec - 1, t.tvUsec + usecPerSec⟩
  else
    t

/-- `timeval_add_usec`. -/
def addUsec (t : Timeval) (usec : ℤ) : Timeval :=
  normalize ⟨t.tvSec + usec.tdiv usecPerSec, t.tvUsec + usec.tmod usecPerSec⟩

/-- `timeval_sub_usec`. -/
def subUsec (t : Timeval) (usec : ℤ) : Timeval :=
  normalize ⟨t.tvSec - usec.tdiv usecPerSec, t.tvUsec - usec.tmod usecPerSec⟩

/-- `timeval_add`. -/
def add (t₁ t₂ : Timeval) : Timeval :=
  normalize ⟨t₁.tvSec + t₂.tvSec, t₁.tvUsec + t₂.tvUsec⟩

/-- `timeval_sub`. -/
def sub (t₁ t₂ : Timeval) : Timeval :=
  normalize ⟨t₁.tvSec - t₂.tvSec, t₁.tvUsec - t₂.tvUsec⟩

/-- `timeval_lt`. -/
def lt (t₁ t₂ : Timeval) : Bool :=
  t₁.tvSec < t₂.tvSec || (t₁.tvSec == t₂.tvSec && t₁.tvUsec < t₂.tvUsec)

/-- `timeval_gt`. -/
def gt (t₁ t₂ : Timeval) : Bool := lt t₂ t₁

/-- `timeval_ge`. -/
def ge (t₁ t₂ : Timeval) : Bool := !lt t₁ t₂

/-- `timeval_le`. -/
def le (t₁ t₂ : Timeval) : Bool := !gt t₁ t₂

/-- `timeval_eq`. -/
def eq (t₁ t₂ : Timeval) : Bool := t₁.tvSec == t₂.tvSec && t₁.tvUsec == t₂.tvUsec

/-- The time in microseconds. -/
def toUsec (t : Timeval) : ℤ := t.tvSec * usecPerSec + t.tvUsec

/-- The microseconds are less than a second. -/
def Normal (t : Timeval) : Prop := 0 ≤ t.tvUsec ∧ t.tvUsec < usecPerSec

instance (t : Timeval) : Decidable t.Normal := inferInstanceAs (Decidable (_ ∧ _))

theorem usecPerSec_pos : 0 < usecPerSec := by decide

theorem normalize_eq (t : Timeval) :
    t.normalize = ⟨Carry.carrySec usecPerSec t.tvSec t.tvUsec,
      Carry.carryFrac usecPerSec t.tvUsec⟩ := by
  unfold normalize Carry.carrySec Carry.carryFrac
  split
  · rfl
  · split
    · rfl
    · rfl

theorem toUsec_normalize (t : Timeval) : t.normalize.toUsec = t.toUsec := by
  rw [normalize_eq]
  exact Carry.value_carry usecPerSec t.tvSec t.tvUsec

theorem normal_normalize {t : Timeval}
    (h : 0 ≤ Carry.carryFrac usecPerSec t.tvUsec
      ∧ Carry.carryFrac usecPerSec t.tvUsec < usecPerSec) :
    t.normalize.Normal := by
  rw [normalize_eq]
  exact h

theorem toUsec_add (t u : Timeval) : (t.add u).toUsec = t.toUsec + u.toUsec := by
  rw [add, toUsec_normalize]
  exact Carry.value_add usecPerSec t.tvSec t.tvUsec u.tvSec u.tvUsec

theorem toUsec_sub (t u : Timeval) : (t.sub u).toUsec = t.toUsec - u.toUsec := by
  rw [sub, toUsec_normalize]
  exact Carry.value_sub usecPerSec t.tvSec t.tvUsec u.tvSec u.tvUsec

theorem toUsec_addUsec (t : Timeval) (usec : ℤ) : (t.addUsec usec).toUsec = t.toUsec + usec := by
  rw [addUsec, toUsec_normalize]
  refine (Carry.value_add usecPerSec t.tvSec t.tvUsec _ _).trans ?_
  rw [Carry.value_split]
  rfl

theorem toUsec_subUsec (t : Timeval) (usec : ℤ) : (t.subUsec usec).toUsec = t.toUsec - usec := by
  rw [subUsec, toUsec_normalize]
  refine (Carry.value_sub usecPerSec t.tvSec t.tvUsec _ _).trans ?_
  rw [Carry.value_split]
  rfl

theorem normal_add {t u : Timeval} (ht : t.Normal) (hu : u.Normal) : (t.add u).Normal :=
  normal_normalize (Carry.frac_carry_shift ht (Carry.lt_of_digit hu)).1

theorem normal_sub {t u : Timeval} (ht : t.Normal) (hu : u.Normal) : (t.sub u).Normal :=
  normal_normalize (Carry.frac_carry_shift ht (Carry.lt_of_digit hu)).2

theorem normal_addUsec {t : Timeval} (h : t.Normal) (usec : ℤ) : (t.addUsec usec).Normal :=
  normal_normalize (Carry.frac_carry_shift h (Carry.lt_of_tmod usecPerSec_pos usec)).1

theorem normal_subUsec {t : Timeval} (h : t.Normal) (usec : ℤ) : (t.subUsec usec).Normal :=
  normal_normalize (Carry.frac_carry_shift h (Carry.lt_of_tmod usecPerSec_pos usec)).2

/-- `timeval_lt` is the order of the microseconds. -/
theorem lt_iff {t u : Timeval} (ht : t.Normal) (hu : u.Normal) :
    t.lt u = true ↔ t.toUsec < u.toUsec := by
  unfold lt
  simp only [Bool.or_eq_true, Bool.and_eq_true, decide_eq_true_eq, beq_iff_eq]
  exact Carry.lex_iff usecPerSec_pos ht hu

theorem eq_iff {t u : Timeval} (ht : t.Normal) (hu : u.Normal) :
    t = u ↔ t.toUsec = u.toUsec := by
  refine Iff.trans ?_ (Carry.digits_iff usecPerSec_pos ht hu)
  obtain ⟨sec₁, usec₁⟩ := t
  obtain ⟨sec₂, usec₂⟩ := u
  rw [Timeval.mk.injEq]

theorem exactTime : ExactTime usecPerSec tvUsec toUsec Normal add sub addUsec lt gt le ge eq where
  add_exact a b ha hb := ⟨normal_add ha hb, toUsec_add a b⟩
  sub_exact a b ha hb := ⟨normal_sub ha hb, toUsec_sub a b⟩
  addFrac_exact a n ha := ⟨normal_addUsec ha n, toUsec_addUsec a n⟩
  lt_exact a b ha hb := lt_iff ha hb
  gt_exact a b ha hb := lt_iff hb ha
  le_exact a b ha hb := by
    rw [le, gt, Bool.not_eq_true', ← Bool.not_eq_true, lt_iff hb ha, not_lt]
  ge_exact a b ha hb := by
    rw [ge, Bool.not_eq_true', ← Bool.not_eq_true, lt_iff ha hb, not_lt]
  eq_exact a b ha hb := by
    rw [eq, Bool.and_eq_true, beq_iff_eq, beq_iff_eq]
    exact Carry.digits_iff usecPerSec_pos ha hb
  add_sub a b ha hb := by
    rw [eq_iff (normal_sub (normal_add ha hb) hb) ha, toUsec_sub, toUsec_add, add_sub_cancel_right]
  fits a b n ha hb := Carry.fits_long usecPerSec_pos (by decide) ha hb n

end Timeval

/-- **Time arithmetic is exact and stays normal**, in nanoseconds and in microseconds. -/
theorem time_arithmetic_exact :
    ExactTime nsecPerSec Timespec.tvNsec Timespec.toNsec Timespec.Normal Timespec.add
        Timespec.sub Timespec.addNsec Timespec.lt Timespec.gt Timespec.le Timespec.ge Timespec.eq
      ∧ ExactTime usecPerSec Timeval.tvUsec Timeval.toUsec Timeval.Normal Timeval.add
        Timeval.sub Timeval.addUsec Timeval.lt Timeval.gt Timeval.le Timeval.ge Timeval.eq
      ∧ ∀ (t : Timeval) (usec : ℤ), t.Normal →
        (t.subUsec usec).Normal ∧ (t.subUsec usec).toUsec = t.toUsec - usec :=
  ⟨Timespec.exactTime, Timeval.exactTime,
    fun t usec h => ⟨Timeval.normal_subUsec h usec, Timeval.toUsec_subUsec t usec⟩⟩

