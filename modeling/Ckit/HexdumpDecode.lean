import Mathlib.Tactic.IntervalCases
import Ckit.Hexdump

/-!
# Reading a dump back

What `hexdump` leaves in a buffer is text for a reader, and the reader wants the
bytes. The dump prints bytes two at a time and makes up a zero where the last one
is alone, so that a dump of an odd number of bytes cannot be told from one with a
zero more; and a buffer that is too short cuts it off anywhere, in the middle of a
byte or before a space. `nibbles` is the data as the dump has it, half bytes with
the zero added.

`readDump` gives back exactly the half bytes whose digits fitted
(`readDump_take`), and the text is made of nothing else (`spell_take`). So two
dumps in buffers of one length are the same text if and only if the data agree on
as many half bytes as there is room for digits, and that is all a dump tells.
-/

/-- The value of a digit of `%x`; other characters have none. -/
def hexValue (c : Char) : Option ℕ :=
  if 48 ≤ c.toNat ∧ c.toNat ≤ 57 then some (c.toNat - 48)
  else if 97 ≤ c.toNat ∧ c.toNat ≤ 102 then some (c.toNat - 87)
  else none

/-- **Reading a dump**: the values of its digits. -/
def readDump (s : List Char) : List ℕ := s.filterMap hexValue

/-- The half bytes of two bytes, as `%02x%02x` prints them. -/
def pairNibbles (a b : UInt8) : List ℕ :=
  [a.toNat / 16, a.toNat % 16, b.toNat / 16, b.toNat % 16]

/-- **The data as half bytes**, two bytes at a time, with a zero for the byte that is missing. -/
def nibbles : List UInt8 → List ℕ
  | [] => []
  | [a] => pairNibbles a 0
  | a :: b :: rest => pairNibbles a b ++ nibbles rest

/-- How many of the first `n` characters of a dump are digits. -/
def digitsIn (n : ℕ) : ℕ := 4 * (n / 5) + min (n % 5) 4

/-- The text of a dump, from its half bytes. -/
def spell : List ℕ → List Char
  | a :: b :: c :: d :: rest =>
    [hexDigit a, hexDigit b, hexDigit c, hexDigit d, Char.ofNat 32] ++ spell rest
  | l => l.map hexDigit

theorem hexValue_hexDigit : ∀ d < 16, hexValue (hexDigit d) = some d := by decide

theorem readDump_append (s t : List Char) : readDump (s ++ t) = readDump s ++ readDump t :=
  List.filterMap_append

/-- The digits of a pair, cut off after `n` characters. -/
theorem readDump_take_hexPair (a b : UInt8) (n : ℕ) :
    readDump ((hexPair a b).take n) = (pairNibbles a b).take (digitsIn n) := by
  have ha := a.toNat_lt
  have hb := b.toNat_lt
  have h₁ := hexValue_hexDigit (a.toNat / 16) (by omega)
  have h₂ := hexValue_hexDigit (a.toNat % 16) (by omega)
  have h₃ := hexValue_hexDigit (b.toNat / 16) (by omega)
  have h₄ := hexValue_hexDigit (b.toNat % 16) (by omega)
  have hspace : hexValue (Char.ofNat 32) = none := by decide
  have hall : readDump (hexPair a b) = pairNibbles a b := by
    simp [readDump, hexPair, pairNibbles, h₁, h₂, h₃, h₄, hspace]
  by_cases hn : 5 ≤ n
  · rw [List.take_of_length_le (by rw [length_hexPair]; exact hn), hall,
      List.take_of_length_le (by show 4 ≤ digitsIn n; unfold digitsIn; omega)]
  · unfold readDump hexPair pairNibbles digitsIn
    interval_cases n <;> simp [h₁, h₂, h₃, h₄]

/-- A pair and the rest of a dump, cut off together. -/
theorem take_digitsIn (a b : UInt8) (l : List ℕ) (n : ℕ) :
    (pairNibbles a b ++ l).take (digitsIn n)
      = (pairNibbles a b).take (digitsIn n) ++ l.take (digitsIn (n - 5)) := by
  rw [List.take_append]
  congr 2
  show digitsIn n - 4 = digitsIn (n - 5)
  unfold digitsIn
  omega

/-- **A dump reads back** as the half bytes whose digits are there. -/
theorem readDump_take (data : List UInt8) (n : ℕ) :
    readDump ((fullDump data).take n) = (nibbles data).take (digitsIn n) := by
  induction data using fullDump.induct generalizing n with
  | case1 => rw [fullDump, nibbles, List.take_nil, List.take_nil]; rfl
  | case2 a => exact readDump_take_hexPair a 0 n
  | case3 a b rest ih =>
    rw [fullDump, nibbles, List.take_append, readDump_append, readDump_take_hexPair,
      length_hexPair, ih, take_digitsIn]

theorem spell_pair (a b : UInt8) (l : List ℕ) :
    spell (pairNibbles a b ++ l) = hexPair a b ++ spell l := rfl

theorem spell_take_pair (a b : UInt8) (n : ℕ) :
    (hexPair a b).take n = (spell ((pairNibbles a b).take (digitsIn n))).take n := by
  by_cases hn : 5 ≤ n
  · have hall : (pairNibbles a b).take (digitsIn n) = pairNibbles a b ++ [] := by
      rw [List.append_nil]
      exact List.take_of_length_le (by show 4 ≤ digitsIn n; unfold digitsIn; omega)
    rw [hall, spell_pair]
    exact congrArg (List.take n) (List.append_nil _).symm
  · unfold digitsIn
    interval_cases n <;> rfl

/-- **A dump is made of its half bytes**, wherever it is cut off. -/
theorem spell_take (data : List UInt8) (n : ℕ) :
    (fullDump data).take n = (spell ((nibbles data).take (digitsIn n))).take n := by
  induction data using fullDump.induct generalizing n with
  | case1 =>
    rw [fullDump, nibbles, List.take_nil, List.take_nil]
    exact (List.take_nil).symm
  | case2 a => exact spell_take_pair a 0 n
  | case3 a b rest ih =>
    rw [fullDump, nibbles, take_digitsIn]
    by_cases hn : 5 ≤ n
    · have hall : (pairNibbles a b).take (digitsIn n) = pairNibbles a b :=
        List.take_of_length_le (by show 4 ≤ digitsIn n; unfold digitsIn; omega)
      rw [hall, spell_pair, List.take_append, List.take_append, length_hexPair, ih]
    · -- the cut is in this pair, and nothing of the rest is left
      have hzero : digitsIn (n - 5) = 0 := by
        unfold digitsIn
        omega
      rw [hzero, List.take_zero, List.append_nil,
        List.take_append_of_le_length (by rw [length_hexPair]; omega)]
      exact spell_take_pair a b n

/-! ## Two dumps -/

/-- The text in a buffer is one. -/
theorem IsCString.unique {mem : ℕ → Char} {s t : List Char} (hs : IsCString mem s)
    (ht : IsCString mem t) : s = t := by
  have key : ∀ {s t : List Char}, IsCString mem s → IsCString mem t → t.length ≤ s.length := by
    intro s t hs ht
    by_contra hlt
    have hread : s.length < (Cells.read mem 0 t.length).length := by
      rw [Cells.length_read]
      omega
    have hmem : mem s.length ∈ Cells.read mem 0 t.length := by
      have hget := List.getElem_mem hread
      rwa [Cells.getElem_read, Nat.zero_add] at hget
    rw [ht.text] at hmem
    exact ht.nonzero _ hmem hs.terminated
  have hlen : s.length = t.length := Nat.le_antisymm (key ht hs) (key hs ht)
  rw [← hs.text, hlen, ht.text]

/-- **The lengths for which `hexdump` is right**: all pairs but the last are inside the buffer, and
the length of the dump is an `int`. -/
def DumpFits (data : List UInt8) (buflen : ℕ) : Prop :=
  1 ≤ data.length ∧ 5 * ((data.length + 1) / 2 - 1) ≤ buflen ∧ 5 * ((data.length + 1) / 2) < 2 ^ 31

instance (data : List UInt8) (buflen : ℕ) : Decidable (DumpFits data buflen) :=
  inferInstanceAs (Decidable (_ ∧ _ ∧ _))

/-- What `hexdump` leaves in the buffer then. -/
theorem hexdump_text {w : ℕ} (hw : 32 ≤ w) {data : List UInt8} {buflen : ℕ} (hbuf : 1 ≤ buflen)
    (hint : buflen < 2 ^ 31) (hfit : DumpFits data buflen) (buf : ℕ → Char) :
    ∃ b, hexdump w data buf buflen = some b
      ∧ IsCString b.mem ((fullDump data).take (buflen - 1)) := by
  obtain ⟨hdata, hroom, hlen⟩ := hfit
  have hrounds : RoundsFit buflen ([] : List Char).length ((data.length + 1) / 2) := by
    rw [List.length_nil]
    exact .inr (by omega)
  obtain ⟨b, hloop, -, hdumped⟩ := hexdumpLoop_of_fit (b := ⟨buf, []⟩) hw hbuf hint
    (show (data.length - 0 + 1) / 2 = (data.length + 1) / 2 from rfl) rfl hrounds (.inl rfl)
    (fun j hj => absurd hj List.not_mem_nil)
  refine ⟨b, hloop, hdumped.resolve_left fun hnil => ?_⟩
  have hpair := fullDump_drop hdata
  rw [List.nil_append] at hnil
  rw [hnil] at hpair
  exact absurd hpair.symm (List.append_ne_nil_of_left_ne_nil (List.cons_ne_nil _ _) _)

/-- **What a dump tells.** Any two byte arrays dumped into buffers of one length, for which
`hexdump` is right, whatever the buffers held: what is in the first buffer reads back as the half
bytes of the first array for which there was room, and the two texts are the same if and only if
the arrays agree on these. -/
theorem hexdump_tells_iff {w : ℕ} (hw : 32 ≤ w) {buflen : ℕ} (hbuf : 1 ≤ buflen)
    (hint : buflen < 2 ^ 31) {data₁ data₂ : List UInt8} (hfit₁ : DumpFits data₁ buflen)
    (hfit₂ : DumpFits data₂ buflen) (buf₁ buf₂ : ℕ → Char) :
    ∃ b₁ b₂ s₁ s₂, hexdump w data₁ buf₁ buflen = some b₁ ∧ hexdump w data₂ buf₂ buflen = some b₂
      ∧ (∀ s, IsCString b₁.mem s ↔ s = s₁) ∧ (∀ s, IsCString b₂.mem s ↔ s = s₂)
      ∧ readDump s₁ = (nibbles data₁).take (digitsIn (buflen - 1))
      ∧ (s₁ = s₂ ↔ (nibbles data₁).take (digitsIn (buflen - 1))
        = (nibbles data₂).take (digitsIn (buflen - 1))) := by
  obtain ⟨b₁, hrun₁, htext₁⟩ := hexdump_text hw hbuf hint hfit₁ buf₁
  obtain ⟨b₂, hrun₂, htext₂⟩ := hexdump_text hw hbuf hint hfit₂ buf₂
  have hone : ∀ {mem : ℕ → Char} {t : List Char}, IsCString mem t → ∀ s, IsCString mem s ↔ s = t :=
    fun ht s => ⟨fun hs => hs.unique ht, fun heq => heq ▸ ht⟩
  refine ⟨b₁, b₂, _, _, hrun₁, hrun₂, hone htext₁, hone htext₂, readDump_take _ _,
    fun heq => ?_, fun heq => ?_⟩
  · rw [← readDump_take, ← readDump_take, heq]
  · rw [spell_take, heq, ← spell_take]

/-- Three bytes, and the same with a zero behind them, in a buffer with room for all of the
dump. -/
theorem hexdump_tells_three :
    ∃ b₁ b₂ s₁ s₂, hexdump 64 [0xde, 0xad, 0xbe] (fun _ => nul) 11 = some b₁
      ∧ hexdump 64 [0xde, 0xad, 0xbe, 0] (fun _ => nul) 11 = some b₂
      ∧ (∀ s, IsCString b₁.mem s ↔ s = s₁) ∧ (∀ s, IsCString b₂.mem s ↔ s = s₂)
      ∧ readDump s₁ = [13, 14, 10, 13, 11, 14, 0, 0] ∧ s₁ = s₂ := by
  obtain ⟨b₁, b₂, s₁, s₂, hrun₁, hrun₂, htext₁, htext₂, hread, hiff⟩ := hexdump_tells_iff
    (w := 64) (by decide) (show 1 ≤ 11 by decide) (by decide)
    (show DumpFits [0xde, 0xad, 0xbe] 11 by decide)
    (show DumpFits [0xde, 0xad, 0xbe, 0] 11 by decide)
    (fun _ => nul) (fun _ => nul)
  exact ⟨b₁, b₂, s₁, s₂, hrun₁, hrun₂, htext₁, htext₂, hread, hiff.mpr rfl⟩
