import Mathlib.Algebra.BigOperators.Fin
import Mathlib.Data.BitVec
import Mathlib.Tactic.Ring

/-!
# The hash functions of `hash.h`

Both hash the bytes they are given one after the other, each with the hash of the bytes
before it. `byte_array_hash` takes a number of bytes and reads them as `unsigned char`;
`string_hash` takes the bytes before a NUL and reads them as `char`, which the compiler takes
to be signed or not. An `unsigned long` has `w` bits.

The shifts and the subtraction of `partial_byte_hash` are a multiplication by `65599`, so a
hash is the value of a polynomial there. A byte from `0x80` on is `256` less as a signed
`char`, and the two hashes differ by `256` times the value of the polynomial with a one where
such a byte is. This is how the two may agree on a string that has such bytes, and they agree
on no string with an odd number of them (`string_hash_eq_byte_array_hash_iff`,
`not_dvd_highSum`). It is also how an array may be hashed in pieces: what was hashed before a
piece counts as its first coefficient (`byte_array_hash_append`).
-/

variable {w : ℕ}

/-- `partial_byte_hash`. -/
def partialByteHash (c hash : BitVec w) : BitVec w := c + (hash <<< 6) + (hash <<< 16) - hash

/-- The conversion of a `char` to `unsigned long`. -/
def charToUlong (w : ℕ) (signed : Bool) (c : BitVec 8) : BitVec w :=
  if signed then c.signExtend w else c.setWidth w

/-- The loop of `byte_array_hash`, on the memory from `ptr` on. -/
def byteArrayHashLoop : ℕ → List (BitVec 8) → BitVec w → Option (BitVec w)
  | 0, _, hash => some hash
  | _ + 1, [], _ => none
  | len + 1, b :: mem, hash => byteArrayHashLoop len mem (partialByteHash (b.setWidth w) hash)

/-- `byte_array_hash`, which has no outcome where it would leave the memory. -/
def byteArrayHash (w : ℕ) (mem : List (BitVec 8)) (len : ℕ) : Option (BitVec w) :=
  byteArrayHashLoop len mem 0

/-- The loop of `string_hash`, on the memory from `str` on. -/
def stringHashLoop (signed : Bool) : List (BitVec 8) → BitVec w → Option (BitVec w)
  | [], _ => none
  | c :: mem, hash =>
    if c = 0 then some hash
    else stringHashLoop signed mem (partialByteHash (charToUlong w signed c) hash)

/-- `string_hash`, with a `char` that is signed or not. -/
def stringHash (w : ℕ) (signed : Bool) (mem : List (BitVec 8)) : Option (BitVec w) :=
  stringHashLoop signed mem 0

/-- `strlen`. -/
def strlen : List (BitVec 8) → Option ℕ
  | [] => none
  | c :: mem => if c = 0 then some 0 else (strlen mem).map (· + 1)

/-! ## Polynomials -/

/-- The hash of the bytes that `conv` converts, one after the other. -/
def hashFrom (conv : BitVec 8 → BitVec w) (hash : BitVec w) (s : List (BitVec 8)) : BitVec w :=
  s.foldl (fun hash c => partialByteHash (conv c) hash) hash

theorem hashFrom_nil (conv : BitVec 8 → BitVec w) (hash : BitVec w) :
    hashFrom conv hash [] = hash := rfl

theorem hashFrom_cons (conv : BitVec 8 → BitVec w) (hash : BitVec w) (c : BitVec 8)
    (s : List (BitVec 8)) :
    hashFrom conv hash (c :: s) = hashFrom conv (partialByteHash (conv c) hash) s := by
  unfold hashFrom
  rw [List.foldl_cons]

theorem shiftLeft_eq_mul (x : BitVec w) (n : ℕ) : x <<< n = x * ((2 ^ n : ℕ) : BitVec w) := by
  apply BitVec.eq_of_toNat_eq
  rw [BitVec.toNat_shiftLeft, Nat.shiftLeft_eq, BitVec.toNat_mul, BitVec.natCast_eq_ofNat,
    BitVec.toNat_ofNat, Nat.mul_mod_mod]

/-- **The shifts are a multiplication.** -/
theorem partialByteHash_eq (c hash : BitVec w) : partialByteHash c hash = c + 65599 * hash := by
  rw [partialByteHash, shiftLeft_eq_mul, shiftLeft_eq_mul]
  push_cast
  ring

/-- A memory with a NUL is the string before it, the NUL and what follows. -/
theorem strlen_eq_some {mem : List (BitVec 8)} {n : ℕ} (h : strlen mem = some n) :
    ∃ s rest, mem = s ++ 0 :: rest ∧ s.length = n ∧ ∀ c ∈ s, c ≠ 0 := by
  induction mem generalizing n with
  | nil => exact absurd h (Option.some_ne_none n).symm
  | cons c mem ih =>
    rw [strlen] at h
    split_ifs at h with hc
    · obtain rfl : 0 = n := Option.some.inj h
      exact ⟨[], mem, congrArg (· :: mem) hc, rfl, fun c hmem => absurd hmem List.not_mem_nil⟩
    · obtain ⟨m, hm, rfl⟩ := Option.map_eq_some_iff.mp h
      obtain ⟨s, rest, rfl, rfl, hs⟩ := ih hm
      refine ⟨c :: s, rest, rfl, rfl, fun d hd => ?_⟩
      rcases List.mem_cons.mp hd with rfl | hd
      · exact hc
      · exact hs d hd

theorem byteArrayHashLoop_eq (s mem : List (BitVec 8)) (hash : BitVec w) :
    byteArrayHashLoop s.length (s ++ mem) hash
      = some (hashFrom (charToUlong w false) hash s) := by
  induction s generalizing hash with
  | nil => rfl
  | cons b s ih =>
    rw [List.cons_append, List.length_cons, byteArrayHashLoop, ih, hashFrom_cons, charToUlong,
      if_neg Bool.false_ne_true]

theorem stringHashLoop_eq (signed : Bool) {s : List (BitVec 8)} (hs : ∀ c ∈ s, c ≠ 0)
    (rest : List (BitVec 8)) (hash : BitVec w) :
    stringHashLoop signed (s ++ 0 :: rest) hash
      = some (hashFrom (charToUlong w signed) hash s) := by
  induction s generalizing hash with
  | nil => exact if_pos rfl
  | cons c s ih =>
    rw [List.cons_append, stringHashLoop, if_neg (hs c List.mem_cons_self),
      ih (fun d hd => hs d (List.mem_cons_of_mem c hd)), hashFrom_cons]

/-! ## Bytes from `0x80` on -/

/-- The value at `65599` of the polynomial that has a one for each byte from `0x80` on. -/
def highSum : List (BitVec 8) → ℕ
  | [] => 0
  | c :: s => (if c.msb then 65599 ^ s.length else 0) + highSum s

/-- The multiplier is odd, so each of these bytes counts for the parity. -/
theorem highSum_mod_two (s : List (BitVec 8)) : highSum s % 2 = s.countP BitVec.msb % 2 := by
  induction s with
  | nil => rfl
  | cons c s ih =>
    have hodd : 65599 ^ s.length % 2 = 1 := by
      rw [Nat.pow_mod, show 65599 % 2 = 1 from rfl, Nat.one_pow]
    rw [highSum, List.countP_cons]
    split_ifs
    · omega
    · omega

/-- No string with an odd number of these bytes is hashed alike by a signed `char`. -/
theorem not_dvd_highSum (hw : 8 < w) {s : List (BitVec 8)} (hs : s.countP BitVec.msb % 2 = 1) :
    ¬ 2 ^ w ∣ 256 * highSum s := by
  intro h
  have hdvd : 2 ^ 8 * 2 ∣ 2 ^ 8 * highSum s := (pow_succ 2 8 ▸ Nat.pow_dvd_pow 2 hw).trans h
  have hmod := highSum_mod_two s
  have htwo := Nat.dvd_of_mul_dvd_mul_left (by decide) hdvd
  omega

/-- **A signed `char` from `0x80` on is `256` less.** -/
theorem charToUlong_signed (w : ℕ) (c : BitVec 8) :
    charToUlong w true c + 256 * (if c.msb then 1 else 0) = charToUlong w false c := by
  rw [charToUlong, charToUlong, if_pos rfl, if_neg Bool.false_ne_true]
  by_cases hmsb : c.msb = true
  · have hint : c.toInt = (c.toNat : ℤ) - 256 := by
      rw [BitVec.toInt_eq_msb_cond, if_pos hmsb]
      rfl
    have hsigned : c.signExtend w = ((c.toNat : ℤ) - 256 : ℤ) := by
      rw [← hint]
      rfl
    rw [if_pos hmsb, hsigned, ← BitVec.ofNat_toNat, ← BitVec.natCast_eq_ofNat]
    push_cast
    ring
  · rw [if_neg hmsb, mul_zero, add_zero]
    exact BitVec.signExtend_eq_setWidth_of_msb_false (Bool.not_eq_true _ ▸ hmsb)

/-- **The two hashes of a string**, from hashes that differ by `256 * e`. -/
theorem hashFrom_signed (s : List (BitVec 8)) {hash₁ hash₂ e : BitVec w}
    (h : hash₁ + 256 * e = hash₂) :
    hashFrom (charToUlong w true) hash₁ s + 256 * (65599 ^ s.length * e + (highSum s : BitVec w))
      = hashFrom (charToUlong w false) hash₂ s := by
  induction s generalizing hash₁ hash₂ e with
  | nil =>
    rw [hashFrom_nil, hashFrom_nil, List.length_nil, pow_zero, one_mul, highSum, Nat.cast_zero,
      add_zero, h]
  | cons c s ih =>
    -- a byte adds its own difference to `65599` times the one before it
    have hstep : partialByteHash (charToUlong w true c) hash₁
        + 256 * ((if c.msb then 1 else 0) + 65599 * e)
          = partialByteHash (charToUlong w false c) hash₂ := by
      rw [partialByteHash_eq, partialByteHash_eq, ← charToUlong_signed, ← h]
      ring
    rw [hashFrom_cons, hashFrom_cons, ← ih hstep, highSum, List.length_cons]
    split_ifs
    · push_cast
      ring
    · push_cast
      ring

theorem natCast_eq_zero_iff_dvd (n : ℕ) : (n : BitVec w) = 0 ↔ 2 ^ w ∣ n := by
  rw [Nat.dvd_iff_mod_eq_zero, ← BitVec.toNat_inj, BitVec.natCast_eq_ofNat, BitVec.toNat_ofNat]
  exact Iff.rfl

/-- **The string and the byte hash agree exactly** where `char` is unsigned, or where `2 ^ w`
divides `256` times the polynomial of the bytes from `0x80` on. -/
theorem string_hash_eq_byte_array_hash_iff (w : ℕ) (signed : Bool) {mem : List (BitVec 8)} {n : ℕ}
    (hmem : strlen mem = some n) :
    (∃ hash, stringHash w signed mem = some hash ∧ byteArrayHash w mem n = some hash)
      ↔ signed = false ∨ 2 ^ w ∣ 256 * highSum (mem.take n) := by
  obtain ⟨s, rest, rfl, rfl, hs⟩ := strlen_eq_some hmem
  have hdiff : hashFrom (charToUlong w true) 0 s + ((256 * highSum s : ℕ) : BitVec w)
      = hashFrom (charToUlong w false) 0 s := by
    have hzero : (0 : BitVec w) + 256 * 0 = 0 := by rw [mul_zero, add_zero]
    rw [← hashFrom_signed s hzero, mul_zero, zero_add, Nat.cast_mul, Nat.cast_ofNat]
  rw [stringHash, byteArrayHash, stringHashLoop_eq signed hs, byteArrayHashLoop_eq,
    List.take_left]
  cases signed with
  | false => exact iff_of_true ⟨_, rfl, rfl⟩ (.inl rfl)
  | true =>
    rw [← natCast_eq_zero_iff_dvd, ← hdiff]
    constructor
    · rintro ⟨hash, hstring, hbytes⟩
      have heq := Option.some.inj (hbytes.trans hstring.symm)
      exact .inr (add_eq_left.mp heq)
    · rintro (hfalse | hzero)
      · exact Bool.noConfusion hfalse
      · rw [hzero, add_zero]
        exact ⟨_, rfl, rfl⟩

/-- A string of 58 bytes, each `a` or `0x80`. -/
def highString : List (BitVec 8) :=
  (List.range 58).map fun i => if Nat.testBit 0x2345da5a5b18a5a (57 - i) then 0x80 else 0x61

/-- Some strings with bytes from `0x80` on have the same hash as `unsigned char` and as signed
`char`, also in 64 bits. -/
theorem string_hash_of_high :
    highString.count 0x80 = 28 ∧ 2 ^ 64 ∣ 256 * highSum highString
      ∧ ∃ hash, stringHash 64 true (highString ++ [0]) = some hash
        ∧ byteArrayHash 64 (highString ++ [0]) 58 = some hash := by
  have hmem : strlen (highString ++ [0]) = some 58 := by decide +kernel
  have htake : (highString ++ [0]).take 58 = highString := by decide +kernel
  have hdvd : 2 ^ 64 ∣ 256 * highSum highString := by decide +kernel
  refine ⟨by decide +kernel, hdvd, ?_⟩
  exact (string_hash_eq_byte_array_hash_iff 64 true hmem).mpr (.inr (htake.symm ▸ hdvd))

/-- The string with the one byte `0x80` is hashed to `0x80` as bytes, and with a signed `char`
to a number whose upper bits are all ones, in 32 and in 64 bits. -/
theorem string_hash_of_0x80 :
    strlen [0x80, 0] = some 1
      ∧ stringHash 64 true [0x80, 0] = some 0xffffffffffffff80
      ∧ byteArrayHash 64 [0x80, 0] 1 = some 0x80
      ∧ stringHash 32 true [0x80, 0] = some 0xffffff80
      ∧ byteArrayHash 32 [0x80, 0] 1 = some 0x80
      ∧ stringHash 64 true [0x80, 0] ≠ byteArrayHash 64 [0x80, 0] 1
      ∧ stringHash 32 true [0x80, 0] ≠ byteArrayHash 32 [0x80, 0] 1 := by
  decide

/-! ## Pieces -/

theorem hashFrom_append (conv : BitVec 8 → BitVec w) (hash : BitVec w) (s t : List (BitVec 8)) :
    hashFrom conv hash (s ++ t) = hashFrom conv (hashFrom conv hash s) t := by
  unfold hashFrom
  rw [List.foldl_append]

/-- **A hash to start from counts as the first coefficient**: each byte after it multiplies it
by `65599` once more. -/
theorem hashFrom_eq_add (conv : BitVec 8 → BitVec w) (hash : BitVec w) (s : List (BitVec 8)) :
    hashFrom conv hash s = hash * 65599 ^ s.length + hashFrom conv 0 s := by
  induction s generalizing hash with
  | nil => rw [hashFrom_nil, hashFrom_nil, List.length_nil, pow_zero, mul_one, add_zero]
  | cons c s ih =>
    rw [hashFrom_cons, hashFrom_cons, ih, ih (partialByteHash (conv c) 0), partialByteHash_eq,
      partialByteHash_eq, List.length_cons]
    ring

/-- **The hash is the value of the polynomial** whose coefficients are the bytes. -/
theorem hashFrom_eq_sum (conv : BitVec 8 → BitVec w) (s : List (BitVec 8)) :
    hashFrom conv 0 s = ∑ i : Fin s.length, conv (s.get i) * 65599 ^ (s.length - 1 - i) := by
  induction s with
  | nil => rfl
  | cons c s ih =>
    have hhead : partialByteHash (conv c) 0 = conv c := by
      rw [partialByteHash_eq, mul_zero, add_zero]
    have htail (i : Fin s.length) :
        conv ((c :: s).get i.succ) * 65599 ^ ((c :: s).length - 1 - i.succ)
          = conv (s.get i) * 65599 ^ (s.length - 1 - i) := by
      rw [List.get_cons_succ', List.length_cons, Fin.val_succ, Nat.add_sub_cancel, Nat.sub_sub,
        Nat.add_comm 1]
    rw [hashFrom_cons, hhead, hashFrom_eq_add, ih]
    refine Eq.trans ?_ (Fin.sum_univ_succ _).symm
    rw [Finset.sum_congr rfl fun i _ => htail i]
    rfl

theorem charToUlong_unsigned (w : ℕ) (c : BitVec 8) :
    charToUlong w false c = (c.toNat : BitVec w) := by
  rw [charToUlong, if_neg Bool.false_ne_true, ← BitVec.ofNat_toNat, BitVec.natCast_eq_ofNat]

/-- **The byte hash is a polynomial, and can be computed in pieces.** Each array stands in a
memory of its own, which may go on after it. -/
theorem byte_array_hash_append (w : ℕ) (a b restA restB restAB : List (BitVec 8)) :
    ∃ hashA hashB : BitVec w,
      byteArrayHash w (a ++ restA) a.length = some hashA
        ∧ hashA.toNat
            = (∑ i : Fin a.length, (a.get i).toNat * 65599 ^ (a.length - 1 - i)) % 2 ^ w
        ∧ byteArrayHash w (b ++ restB) b.length = some hashB
        ∧ byteArrayHash w ((a ++ b) ++ restAB) (a ++ b).length
            = some (b.foldl (fun hash c => partialByteHash (c.setWidth w) hash) hashA)
        ∧ (b.foldl (fun hash c => partialByteHash (c.setWidth w) hash) hashA).toNat
            = (hashA.toNat * 65599 ^ b.length + hashB.toNat) % 2 ^ w := by
  have hcont (hash : BitVec w) :
      b.foldl (fun hash c => partialByteHash (c.setWidth w) hash) hash
        = hashFrom (charToUlong w false) hash b := rfl
  have hsum : hashFrom (charToUlong w false) 0 a
      = ((∑ i : Fin a.length, (a.get i).toNat * 65599 ^ (a.length - 1 - i) : ℕ) : BitVec w) := by
    rw [hashFrom_eq_sum]
    push_cast
    refine Finset.sum_congr rfl fun i _ => ?_
    rw [charToUlong_unsigned]
  refine ⟨hashFrom (charToUlong w false) 0 a, hashFrom (charToUlong w false) 0 b,
    byteArrayHashLoop_eq a restA 0, ?_, byteArrayHashLoop_eq b restB 0, ?_, ?_⟩
  · rw [hsum, BitVec.natCast_eq_ofNat, BitVec.toNat_ofNat]
  · rw [byteArrayHash, byteArrayHashLoop_eq, hashFrom_append, hcont]
  · rw [hcont, hashFrom_eq_add, ← BitVec.toNat_ofNat, ← BitVec.natCast_eq_ofNat]
    push_cast
    rw [BitVec.natCast_eq_ofNat, BitVec.natCast_eq_ofNat, BitVec.ofNat_toNat, BitVec.ofNat_toNat,
      BitVec.setWidth_eq, BitVec.setWidth_eq]
