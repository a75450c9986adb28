import Mathlib.Algebra.Order.Ring.Int
import Mathlib.Data.List.Basic
import Ckit.Cells

/-!
# `hexdump`

`hexdump` of `debug.h` prints bytes into a buffer, two at a time, with one `snprintf` for each
pair. It adds up what `snprintf` returns, the length of the text also where that was cut off,
and goes on at that length with what is left of the buffer.

As long as the sum does not pass the end of the buffer this is right: the text is cut off at
the end, and a call that finds no room left writes nothing. Past the end what is left is
negative, and a huge number as a `size_t`, so a pair is printed behind the buffer. With `n`
pairs this happens where the first `n - 1` of them are longer than the buffer
(`hexdump_right_iff`).

An `int` that overflows has no outcome. `size_t` has `w` bits, at least as many as an `int`.
-/

/-- The terminating character. -/
def nul : Char := Char.ofNat 0

/-- A digit of `%x`. -/
def hexDigit (d : ℕ) : Char := if d < 10 then Char.ofNat (48 + d) else Char.ofNat (87 + d)

/-- The text of `%02x%02x ` for two bytes. -/
def hexPair (a b : UInt8) : List Char :=
  [hexDigit (a.toNat / 16), hexDigit (a.toNat % 16), hexDigit (b.toNat / 16),
    hexDigit (b.toNat % 16), Char.ofNat 32]

/-- The memory from `buf` on, and the offsets that were written. -/
structure DumpBuf where
  mem : ℕ → Char
  written : List ℕ

/-- The conversion to a `size_t` of `w` bits. -/
def sizeT (w : ℕ) (n : ℤ) : ℕ := (n % 2 ^ w).toNat

/-- `snprintf` to the offset `pos`, with its return value. -/
def snprintf (b : DumpBuf) (pos size : ℕ) (text : List Char) : ℕ × DumpBuf :=
  if size = 0 then (text.length, b)
  else
    let out := text.take (size - 1) ++ [nul]
    (text.length, ⟨Cells.write b.mem pos out, b.written ++ List.range' pos out.length⟩)

/-- The loop of `hexdump`. -/
def hexdumpLoop (w : ℕ) (data : List UInt8) (buflen : ℕ) (i len : ℕ) (b : DumpBuf) :
    Option DumpBuf :=
  if _ : i < data.length then
    let c := if _ : i + 1 < data.length then data[i + 1] else 0
    let r := snprintf b len (sizeT w (buflen - len)) (hexPair data[i] c)
    if len + r.1 < 2 ^ 31 ∧ i + 2 < 2 ^ 31 then
      hexdumpLoop w data buflen (i + 2) (len + r.1) r.2
    else
      none
  else
    some b
termination_by data.length - i

/-- `hexdump`, of `datalen` bytes into a buffer of `buflen`. -/
def hexdump (w : ℕ) (data : List UInt8) (buf : ℕ → Char) (buflen : ℕ) : Option DumpBuf :=
  hexdumpLoop w data buflen 0 0 ⟨buf, []⟩

/-! ## What the buffer should hold -/

/-- The whole dump of the data. -/
def fullDump : List UInt8 → List Char
  | [] => []
  | [a] => hexPair a 0
  | a :: b :: rest => hexPair a b ++ fullDump rest

/-- The characters of `s` and a NUL are at the front of the memory. -/
structure IsCString (mem : ℕ → Char) (s : List Char) : Prop where
  text : Cells.read mem 0 s.length = s
  nonzero : ∀ c ∈ s, c ≠ nul
  terminated : mem s.length = nul

/-- **What `hexdump` should do**: it returns, has written only inside the buffer, and leaves
there the longest prefix of the dump that fits. -/
def HexdumpRight (w : ℕ) (data : List UInt8) (buf : ℕ → Char) (buflen : ℕ) : Prop :=
  ∃ b, hexdump w data buf buflen = some b ∧ (∀ j ∈ b.written, j < buflen)
    ∧ IsCString b.mem ((fullDump data).take (buflen - 1))

/-! ## One round -/

@[simp] theorem length_hexPair (a b : UInt8) : (hexPair a b).length = 5 := rfl

theorem hexDigit_ne_nul : ∀ d < 16, hexDigit d ≠ nul := by decide

theorem hexPair_ne_nul (a b : UInt8) : ∀ c ∈ hexPair a b, c ≠ nul := by
  have ha := a.toNat_lt
  have hb := b.toNat_lt
  intro c hc
  simp only [hexPair, List.mem_cons, List.not_mem_nil, or_false] at hc
  rcases hc with rfl | rfl | rfl | rfl | rfl
  · exact hexDigit_ne_nul _ (by omega)
  · exact hexDigit_ne_nul _ (by omega)
  · exact hexDigit_ne_nul _ (by omega)
  · exact hexDigit_ne_nul _ (by omega)
  · decide

theorem snprintf_fst (b : DumpBuf) (pos size : ℕ) (text : List Char) :
    (snprintf b pos size text).1 = text.length := by
  unfold snprintf
  split
  · rfl
  · rfl

/-- A dump is that of a pair and of what follows it. -/
theorem fullDump_drop {data : List UInt8} {i : ℕ} (hi : i < data.length) :
    fullDump (data.drop i) = hexPair data[i] (if h : i + 1 < data.length then data[i + 1] else 0)
      ++ fullDump (data.drop (i + 2)) := by
  rw [List.drop_eq_getElem_cons hi]
  by_cases h : i + 1 < data.length
  · rw [dif_pos h, List.drop_eq_getElem_cons h]
    rfl
  · rw [dif_neg h, List.drop_eq_nil_of_le (by omega), List.drop_eq_nil_of_le (by omega)]
    rfl

section Round

variable {w buflen i len : ℕ} {data : List UInt8} {b : DumpBuf} {T text : List Char}

/-- What the round at `i` prints. -/
def roundText (data : List UInt8) (i : ℕ) (hi : i < data.length) : List Char :=
  hexPair data[i] (if h : i + 1 < data.length then data[i + 1] else 0)

theorem hexdumpLoop_done (hi : ¬ i < data.length) : hexdumpLoop w data buflen i len b = some b := by
  rw [hexdumpLoop, dif_neg hi]

theorem hexdumpLoop_overflow (hi : i < data.length) (h : ¬ (len + 5 < 2 ^ 31 ∧ i + 2 < 2 ^ 31)) :
    hexdumpLoop w data buflen i len b = none := by
  rw [hexdumpLoop, dif_pos hi]
  dsimp only
  rw [snprintf_fst, length_hexPair, if_neg h]

/-- **One round**: the loop goes on behind the text, whether there was room for it or not. -/
theorem hexdumpLoop_round (hi : i < data.length) (h : len + 5 < 2 ^ 31 ∧ i + 2 < 2 ^ 31) :
    hexdumpLoop w data buflen i len b
      = hexdumpLoop w data buflen (i + 2) (len + 5)
        (snprintf b len (sizeT w (buflen - len)) (roundText data i hi)).2 := by
  rw [hexdumpLoop, dif_pos hi]
  dsimp only
  rw [snprintf_fst, length_hexPair, if_pos h]
  rfl

theorem sizeT_of_le (hw : 32 ≤ w) (hbuf : buflen < 2 ^ 31) (hle : len ≤ buflen) :
    sizeT w (buflen - len) = buflen - len := by
  have hpow : (2 : ℤ) ^ 32 ≤ 2 ^ w := by exact_mod_cast Nat.pow_le_pow_right Nat.two_pos hw
  rw [sizeT, Int.emod_eq_of_lt (by omega) (by omega)]
  omega

/-- What is left of a buffer that was passed is a lot. -/
theorem lt_sizeT_of_gt (hw : 32 ≤ w) (hgt : buflen < len) (hlen : len < 2 ^ 31) :
    0 < sizeT w (buflen - len) := by
  have hpow : (2 : ℤ) ^ 32 ≤ 2 ^ w := by exact_mod_cast Nat.pow_le_pow_right Nat.two_pos hw
  rw [sizeT, ← Int.add_emod_right, Int.emod_eq_of_lt (by omega) (by omega)]
  omega

/-- What was written stays written. -/
theorem written_snprintf (b : DumpBuf) (pos size : ℕ) (text : List Char) {j : ℕ}
    (hj : j ∈ b.written) : j ∈ (snprintf b pos size text).2.written := by
  unfold snprintf
  split
  · exact hj
  · exact List.mem_append_left _ hj

/-- Inside the buffer, `snprintf` stays inside. -/
theorem written_snprintf_lt (hpos : len ≤ buflen) (hb : ∀ j ∈ b.written, j < buflen) :
    ∀ j ∈ (snprintf b len (buflen - len) text).2.written, j < buflen := by
  unfold snprintf
  split
  · exact hb
  · intro j hj
    rcases List.mem_append.mp hj with hj | hj
    · exact hb j hj
    · rw [List.mem_range'_1, List.length_append, List.length_take, List.length_singleton] at hj
      omega

/-- Behind the buffer, `snprintf` writes there. -/
theorem mem_written_snprintf {size : ℕ} (hsize : 0 < size) :
    len ∈ (snprintf b len size text).2.written := by
  rw [snprintf, if_neg hsize.ne']
  refine List.mem_append_right _ (List.mem_range'_1.mpr ⟨le_rfl, ?_⟩)
  rw [List.length_append, List.length_singleton]
  omega

/-- The text so far is in the buffer, as far as it fits. -/
def Dumped (buflen : ℕ) (mem : ℕ → Char) (T : List Char) : Prop :=
  T = [] ∨ IsCString mem (T.take (buflen - 1))

theorem Dumped.nonzero {mem : ℕ → Char} (h : Dumped buflen mem T) :
    ∀ c ∈ T.take (buflen - 1), c ≠ nul := by
  rcases h with rfl | h
  · intro c hc
    rw [List.take_nil] at hc
    exact absurd hc List.not_mem_nil
  · exact h.nonzero

/-- **A round appends its text**, as far as it fits. -/
theorem Dumped.append (hbuf : 1 ≤ buflen) (h : Dumped buflen b.mem T) (hT : T.length ≤ buflen)
    (htext : ∀ c ∈ text, c ≠ nul) :
    IsCString (snprintf b T.length (buflen - T.length) text).2.mem
      ((T ++ text).take (buflen - 1)) := by
  have hnonzero : ∀ c ∈ (T ++ text).take (buflen - 1), c ≠ nul := by
    intro c hc
    rw [List.take_append] at hc
    rcases List.mem_append.mp hc with hc | hc
    · exact h.nonzero c hc
    · exact htext c (List.mem_of_mem_take hc)
  rcases Nat.eq_or_lt_of_le hT with hfull | hroom
  · -- no room is left, and nothing is written
    have hne : T ≠ [] := by
      rintro rfl
      exact absurd hfull (by rw [List.length_nil]; omega)
    rw [snprintf, if_pos (by omega), List.take_append_of_le_length (by omega)]
    exact h.resolve_left hne
  · have hmem : Cells.read b.mem 0 T.length = T := by
      rcases h with rfl | h
      · rfl
      · have htake := h.text
        rwa [List.take_of_length_le (by omega)] at htake
    have htake : (T ++ text).take (buflen - 1) = T ++ text.take (buflen - T.length - 1) := by
      rw [List.take_append, List.take_of_length_le (by omega)]
      congr 2
      omega
    rw [snprintf, if_neg (by omega)]
    dsimp only
    rw [htake] at hnonzero ⊢
    generalize text.take (buflen - T.length - 1) = out at hnonzero ⊢
    have hout := Cells.read_write b.mem T.length (out ++ [nul])
    rw [List.length_append, Cells.read_add] at hout
    obtain ⟨hout, -⟩ := List.append_inj hout (Cells.length_read _ _ _)
    refine ⟨?_, hnonzero, ?_⟩
    · rw [List.length_append, Cells.read_add, Nat.zero_add, hout,
        Cells.read_write_of_disjoint _ (.inl (by omega)), hmem]
    · rw [List.length_append, Cells.write_add b.mem T.length (by simp),
        List.getElem_concat_length rfl]

end Round

/-! ## All rounds -/

section Loop

variable {w buflen i len r : ℕ} {data : List UInt8} {b b' : DumpBuf} {T : List Char}

/-- All of `r` rounds from the length `len` on begin inside the buffer or at its end, and
their lengths add up to an `int`. -/
def RoundsFit (buflen len r : ℕ) : Prop := r = 0 ∨ len + 5 * (r - 1) ≤ buflen ∧ len + 5 * r < 2 ^ 31

/-- **Rounds that fit** stay inside the buffer and leave there what fits of the dump. -/
theorem hexdumpLoop_of_fit (hw : 32 ≤ w) (hbuf : 1 ≤ buflen) (hint : buflen < 2 ^ 31)
    (hr : (data.length - i + 1) / 2 = r) (hi : 2 * T.length = 5 * i)
    (hfit : RoundsFit buflen T.length r) (hT : Dumped buflen b.mem T)
    (hb : ∀ j ∈ b.written, j < buflen) :
    ∃ b', hexdumpLoop w data buflen i T.length b = some b' ∧ (∀ j ∈ b'.written, j < buflen)
      ∧ Dumped buflen b'.mem (T ++ fullDump (data.drop i)) := by
  induction r generalizing i T b with
  | zero =>
    refine ⟨b, hexdumpLoop_done (by omega), hb, ?_⟩
    rw [List.drop_eq_nil_of_le (by omega), fullDump, List.append_nil]
    exact hT
  | succ r ih =>
    obtain ⟨hroom, hlen⟩ := hfit.resolve_left (Nat.succ_ne_zero r)
    have hlt : i < data.length := by omega
    rw [hexdumpLoop_round hlt (by omega), sizeT_of_le hw hint (by omega),
      fullDump_drop hlt, ← List.append_assoc]
    have htext : (T ++ roundText data i hlt).length = T.length + 5 := List.length_append
    rw [← htext]
    refine ih (by omega) (by omega) ?_ (.inr ?_) (written_snprintf_lt (by omega) hb)
    · unfold RoundsFit
      omega
    · exact hT.append hbuf (by omega) (hexPair_ne_nul _ _)

/-- **Rounds that stay inside the buffer fit.** -/
theorem fit_of_hexdumpLoop (hw : 32 ≤ w) (hr : (data.length - i + 1) / 2 = r)
    (h : hexdumpLoop w data buflen i len b = some b') :
    (∀ j ∈ b.written, j ∈ b'.written)
      ∧ ((∀ j ∈ b'.written, j < buflen) → RoundsFit buflen len r) := by
  induction r generalizing i len b with
  | zero =>
    rw [hexdumpLoop_done (by omega)] at h
    obtain rfl : b = b' := Option.some.inj h
    exact ⟨fun j hj => hj, fun _ => .inl rfl⟩
  | succ r ih =>
    have hlt : i < data.length := by omega
    by_cases hover : len + 5 < 2 ^ 31 ∧ i + 2 < 2 ^ 31
    · rw [hexdumpLoop_round hlt hover] at h
      obtain ⟨hkept, hfit⟩ := ih (by omega) h
      refine ⟨fun j hj => hkept j (written_snprintf b _ _ _ hj), fun hb' => .inr ?_⟩
      have hle : len ≤ buflen := by
        by_contra hgt
        have hmem := hkept len (mem_written_snprintf (lt_sizeT_of_gt hw (by omega) (by omega)))
        exact absurd (hb' len hmem) (by omega)
      have hrest := hfit hb'
      unfold RoundsFit at hrest
      omega
    · rw [hexdumpLoop_overflow hlt hover] at h
      exact absurd h (Option.some_ne_none b').symm

end Loop

/-- **`hexdump` is right exactly where the pairs before the last do not pass the buffer**, and
the length of the dump is an `int`. -/
theorem hexdump_right_iff {w : ℕ} (hw : 32 ≤ w) {data : List UInt8} (hdata : 1 ≤ data.length)
    (buf : ℕ → Char) {buflen : ℕ} (hbuf : 1 ≤ buflen) (hint : buflen < 2 ^ 31) :
    HexdumpRight w data buf buflen
      ↔ 5 * ((data.length + 1) / 2 - 1) ≤ buflen ∧ 5 * ((data.length + 1) / 2) < 2 ^ 31 := by
  have hr : (data.length - 0 + 1) / 2 = (data.length + 1) / 2 := rfl
  constructor
  · rintro ⟨b, hloop, hinside, -⟩
    have hfit := (fit_of_hexdumpLoop hw hr hloop).2 hinside
    unfold RoundsFit at hfit
    omega
  · rintro ⟨hroom, hlen⟩
    have hfit : RoundsFit buflen ([] : List Char).length ((data.length + 1) / 2) := by
      rw [List.length_nil]
      exact .inr (by omega)
    obtain ⟨b, hloop, hinside, hdumped⟩ := hexdumpLoop_of_fit (b := ⟨buf, []⟩) hw hbuf hint hr rfl
      hfit (.inl rfl) (fun j hj => absurd hj List.not_mem_nil)
    refine ⟨b, hloop, hinside, hdumped.resolve_left fun hnil => ?_⟩
    have hpair := fullDump_drop hdata
    rw [List.nil_append] at hnil
    rw [hnil] at hpair
    exact absurd hpair.symm (List.append_ne_nil_of_left_ne_nil (List.cons_ne_nil _ _) _)

/-- Three bytes in a buffer of eight characters: the dump is cut off in its second pair. -/
theorem hexdump_right_three : HexdumpRight 64 [0xde, 0xad, 0xbe] (fun _ => nul) 8 :=
  (hexdump_right_iff (by decide) (by decide) _ (by decide) (by decide)).mpr (by decide)

/-- **Three bytes in a buffer of four characters**: the first pair is cut off, and the second
is printed from offset `5` on. -/
theorem hexdump_past_buffer :
    (∃ b, hexdump 64 [0xde, 0xad, 0xbe] (fun _ => nul) 4 = some b ∧ 5 ∈ b.written)
      ∧ ¬ HexdumpRight 64 [0xde, 0xad, 0xbe] (fun _ => nul) 4 := by
  constructor
  · rw [hexdump, hexdumpLoop_round (by decide) (by decide),
      hexdumpLoop_round (by decide) (by decide), hexdumpLoop_done (by decide)]
    exact ⟨_, rfl, mem_written_snprintf (by decide)⟩
  · rintro ⟨b, hloop, hinside, -⟩
    have hfit := (fit_of_hexdumpLoop (r := 2) (by decide) (by decide) hloop).2 hinside
    unfold RoundsFit at hfit
    omega
