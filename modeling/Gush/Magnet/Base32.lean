import Gush.Lib.Bits
import Gush.Magnet.Link

/-!
# Base32

`base32ToRaw` collects five bits for each character in a word that it never masks, and takes out
bytes as soon as there are eight bits. `base32ToRaw_spec` says that this is the decoding of the
alphabet bit by bit, so that the strings of 32 characters are the strings of 20 bytes.
-/

namespace Gush.Magnet

open Cxx Bits

variable {s : Bytes}

/-- The alphabet of base32. -/
def base32Alphabet : Bytes := ascii "ABCDEFGHIJKLMNOPQRSTUVWXYZ234567"

/-- The five-bit value of a character. -/
def symbolValue (c : UInt8) : ℕ := base32Alphabet.idxOf c

/-- The bits of a string of the alphabet. -/
def symbolBits (s : Bytes) : List Bool := wordBits 5 (s.map symbolValue)

/-- The bits of a string of bytes. -/
def byteBits (data : Bytes) : List Bool := wordBits 8 (data.map UInt8.toNat)

theorem symbolBits_cons (c : UInt8) (s : Bytes) :
    symbolBits (c :: s) = toBits 5 (symbolValue c) ++ symbolBits s := rfl

theorem byteBits_cons (b : UInt8) (data : Bytes) :
    byteBits (b :: data) = toBits 8 b.toNat ++ byteBits data := rfl

theorem length_symbolBits (s : Bytes) : (symbolBits s).length = 5 * s.length := by
  rw [symbolBits, length_wordBits, List.length_map]

theorem length_byteBits (data : Bytes) : (byteBits data).length = 8 * data.length := by
  rw [byteBits, length_wordBits, List.length_map]

theorem byteBits_injective {data data' : Bytes} (h : byteBits data = byteBits data') :
    data = data' := by
  have hlt : ∀ data : Bytes, ∀ n ∈ data.map UInt8.toNat, n < 2 ^ 8 := by
    intro data n hn
    obtain ⟨b, -, rfl⟩ := List.mem_map.1 hn
    exact b.toNat_lt
  exact List.map_injective_iff.2 (fun _ _ => UInt8.toNat_inj.1)
    (wordBits_injective (by omega) (hlt data) (hlt data') h)

theorem decodeTable_symbol : ∀ c ∈ base32Alphabet,
    c ≠ '='.toUInt8 ∧ decodeTable c = some (symbolValue c) ∧ symbolValue c < 2 ^ 5 := by
  decide +kernel

/-- The bits of a byte that is cut off the word, and the bits that are left. -/
theorem toBits_cut {k : ℕ} (buffer : ℕ) :
    toBits 8 (UInt8.ofNat (buffer >>> k)).toNat ++ toBits k buffer = toBits (8 + k) buffer := by
  rw [UInt8.toNat_ofNat', toBits_mod le_rfl, toBits_add]

/-- What the loop writes: as many bytes as there are bits for, those in the word first. The bits of
the word above `bitsLeft` do not matter. -/
theorem base32Loop_spec (h : ∀ c ∈ s, c ∈ base32Alphabet) {buffer bitsLeft : ℕ} (hleft : bitsLeft < 8) :
    (base32Loop s buffer bitsLeft).length = (bitsLeft + 5 * s.length) / 8 ∧
      byteBits (base32Loop s buffer bitsLeft) = (toBits bitsLeft buffer ++ symbolBits s).take
        (8 * ((bitsLeft + 5 * s.length) / 8)) := by
  induction s generalizing buffer bitsLeft with
  | nil =>
    have hnone : (bitsLeft + 5 * 0) / 8 = 0 := by omega
    rw [List.length_nil, hnone]
    exact ⟨rfl, rfl⟩
  | cons c s ih =>
    obtain ⟨hc, hs⟩ := List.forall_mem_cons.1 h
    obtain ⟨hpad, hval, hlt⟩ := decodeTable_symbol c hc
    rw [base32Loop, if_neg hpad, hval]
    dsimp only
    generalize hbuffer : (buffer <<< 5) % 2 ^ 32 ||| symbolValue c = buffer'
    -- five bits are shifted in, and what is shifted out is not looked at any more
    have hbits : toBits (bitsLeft + 5) buffer' = toBits bitsLeft buffer ++ toBits 5 (symbolValue c) := by
      rw [← toBits_shiftLeft_or hlt, ← hbuffer]
      apply toBits_congr
      intro i hi
      have hmod : ((buffer <<< 5) % 2 ^ 32).testBit i = (buffer <<< 5).testBit i := by
        rw [Nat.testBit_mod_two_pow, decide_eq_true (show i < 32 by omega), Bool.true_and]
      rw [Nat.testBit_or, Nat.testBit_or, hmod]
    rw [symbolBits_cons, ← List.append_assoc, ← hbits, List.length_cons]
    split_ifs with hfull
    · obtain ⟨hlen, hrest⟩ := @ih hs buffer' (bitsLeft + 5 - 8) (by omega)
      have hcount : (bitsLeft + 5 * (s.length + 1)) / 8 =
          (bitsLeft + 5 - 8 + 5 * s.length) / 8 + 1 := by omega
      have hword : 8 + (bitsLeft + 5 - 8) = bitsLeft + 5 := by omega
      have hcut := @toBits_cut (bitsLeft + 5 - 8) buffer'
      rw [hword] at hcut
      generalize UInt8.ofNat (buffer' >>> (bitsLeft + 5 - 8)) = b at hcut ⊢
      have htake : 8 * ((bitsLeft + 5 - 8 + 5 * s.length) / 8 + 1) =
          (toBits 8 b.toNat).length + 8 * ((bitsLeft + 5 - 8 + 5 * s.length) / 8) := by
        rw [length_toBits, Nat.mul_succ, Nat.add_comm]
      rw [hcount, List.length_cons, hlen, byteBits_cons, hrest, ← hcut, List.append_assoc, htake,
        List.take_length_add_append]
      exact ⟨rfl, rfl⟩
    · have hcount : (bitsLeft + 5 * (s.length + 1)) / 8 = (bitsLeft + 5 + 5 * s.length) / 8 := by
        omega
      rw [hcount]
      exact ih hs (by omega)

/-- Decoding bit by bit: as many bytes as there are bits for, and they have the first bits. -/
theorem base32ToRaw_bits (h : ∀ c ∈ s, c ∈ base32Alphabet) :
    (base32ToRaw s).length = 5 * s.length / 8 ∧
      byteBits (base32ToRaw s) = (symbolBits s).take (8 * (5 * s.length / 8)) := by
  have hspec := @base32Loop_spec s h 0 0 (Nat.zero_lt_succ 7)
  rw [Nat.zero_add, toBits_zero, List.nil_append] at hspec
  exact hspec

/-! ### The strings of 32 characters -/

/-- The character of a five-bit value. -/
def symbolOf (v : ℕ) : UInt8 := base32Alphabet.getD v 0

theorem symbolOf_spec : ∀ v < 2 ^ 5,
    symbolOf v ∈ base32Alphabet ∧ symbolValue (symbolOf v) = v := by
  decide +kernel

theorem symbolOf_symbolValue : ∀ c ∈ base32Alphabet, symbolOf (symbolValue c) = c := by
  decide +kernel

/-- A string is determined by the values of its characters. -/
theorem map_symbolOf (h : ∀ c ∈ s, c ∈ base32Alphabet) : (s.map symbolValue).map symbolOf = s := by
  have hid : s.map (symbolOf ∘ symbolValue) = s.map id :=
    List.map_congr_left fun c hc => symbolOf_symbolValue c (h c hc)
  rw [List.map_map, hid, List.map_id]

theorem symbolBits_injective {s s' : Bytes} (h : ∀ c ∈ s, c ∈ base32Alphabet)
    (h' : ∀ c ∈ s', c ∈ base32Alphabet) (heq : symbolBits s = symbolBits s') : s = s' := by
  have hlt : ∀ {s : Bytes}, (∀ c ∈ s, c ∈ base32Alphabet) → ∀ n ∈ s.map symbolValue, n < 2 ^ 5 := by
    intro s h n hn
    obtain ⟨c, hc, rfl⟩ := List.mem_map.1 hn
    exact (decodeTable_symbol c (h c hc)).2.2
  have hvalues := wordBits_injective (by omega) (hlt h) (hlt h') heq
  rw [← map_symbolOf h, hvalues, map_symbolOf h']

/-- Every string of bits of the right length is written in the alphabet. -/
theorem exists_symbolBits {bits : List Bool} {k : ℕ} (h : bits.length = 5 * k) :
    ∃ s : Bytes, s.length = k ∧ (∀ c ∈ s, c ∈ base32Alphabet) ∧ symbolBits s = bits := by
  obtain ⟨ws, hlen, hws, hbits⟩ := exists_wordBits h
  have hid : ws.map (symbolValue ∘ symbolOf) = ws.map id :=
    List.map_congr_left fun v hv => (symbolOf_spec v (hws v hv)).2
  have hvalues : (ws.map symbolOf).map symbolValue = ws := by rw [List.map_map, hid, List.map_id]
  refine ⟨ws.map symbolOf, by rw [List.length_map, hlen], fun c hc => ?_, ?_⟩
  · obtain ⟨v, hv, rfl⟩ := List.mem_map.1 hc
    exact (symbolOf_spec v (hws v hv)).1
  · rw [symbolBits, hvalues, hbits]

theorem bijOn_base32ToRaw : Set.BijOn base32ToRaw
    {s | s.length = 32 ∧ ∀ c ∈ s, c ∈ base32Alphabet} {data | data.length = 20} := by
  -- 32 characters have exactly the bits of 20 bytes
  have hbits : ∀ s : Bytes, s.length = 32 → (∀ c ∈ s, c ∈ base32Alphabet) →
      (base32ToRaw s).length = 20 ∧ byteBits (base32ToRaw s) = symbolBits s := by
    intro s hlen hs
    obtain ⟨hcount, htake⟩ := base32ToRaw_bits hs
    have hall : (symbolBits s).length = 160 := by rw [length_symbolBits, hlen]
    rw [hlen] at hcount htake
    exact ⟨hcount, by rw [htake, List.take_of_length_le hall.le]⟩
  refine ⟨?_, ?_, ?_⟩
  · rintro s ⟨hlen, hs⟩
    exact (hbits s hlen hs).1
  · rintro s ⟨hlen, hs⟩ s' ⟨hlen', hs'⟩ heq
    apply symbolBits_injective hs hs'
    rw [← (hbits s hlen hs).2, ← (hbits s' hlen' hs').2, heq]
  · intro data hdata
    have hlength : (byteBits data).length = 5 * 32 := by
      rw [length_byteBits, show data.length = 20 from hdata]
    obtain ⟨s, hlen, hs, hsymbols⟩ := exists_symbolBits hlength
    refine ⟨s, ⟨hlen, hs⟩, byteBits_injective ?_⟩
    rw [(hbits s hlen hs).2, hsymbols]

/-- **Main result.** A string of the alphabet is decoded bit by bit, whatever its length, and the
strings of 32 characters are the strings of 20 bytes. -/
theorem base32ToRaw_spec (h : ∀ c ∈ s, c ∈ base32Alphabet) :
    (base32ToRaw s).length = 5 * s.length / 8 ∧
      byteBits (base32ToRaw s) = (symbolBits s).take (8 * (5 * s.length / 8)) ∧
      Set.BijOn base32ToRaw {s | s.length = 32 ∧ ∀ c ∈ s, c ∈ base32Alphabet}
        {data | data.length = 20} :=
  ⟨(base32ToRaw_bits h).1, (base32ToRaw_bits h).2, bijOn_base32ToRaw⟩

/-- Four characters have the bits of two bytes, and four bits more. -/
theorem base32ToRaw_spec_four :
    (base32ToRaw (ascii "JBSW")).length = 2 ∧
      byteBits (base32ToRaw (ascii "JBSW")) = (symbolBits (ascii "JBSW")).take 16 :=
  have hspec := @base32ToRaw_spec (ascii "JBSW") (by decide +kernel)
  ⟨hspec.1, hspec.2.1⟩

end Gush.Magnet
