import Gush.Magnet.Base32

/-!
# The info hash of a magnet link

The handshakes copy 20 bytes of `infoHashRaw` and check nothing, so its length must follow from the
parser: `hashKept_parseMagnetLink`.
-/

namespace Gush.Magnet

open Cxx Utils

/-- There is no info hash, or it has 20 bytes and the text of the link stands for it. -/
def HashKept (magnet : MagnetLink) : Prop :=
  magnet.infoHashRaw = [] ∨ (magnet.infoHashRaw.length = 20 ∧ magnet.infoHash.length = 40 ∧
    (∀ c ∈ magnet.infoHash, isxdigit c = true) ∧ fromHex magnet.infoHash = magnet.infoHashRaw)

/-! ### The two spellings -/

/-- Two digits make one byte. -/
theorem fromHexLoop_digits {n : ℕ} {hex : Bytes} (hlen : hex.length = 2 * n)
    (hdigits : ∀ c ∈ hex, isxdigit c = true) :
    ∃ data, fromHexLoop hex = some data ∧ data.length = n := by
  induction n generalizing hex with
  | zero =>
    obtain rfl := List.length_eq_zero_iff.1 hlen
    exact ⟨[], rfl, rfl⟩
  | succ n ih =>
    match hex, hlen with
    | c₁ :: c₂ :: hex, hlen =>
      obtain ⟨h₁, hrest⟩ := List.forall_mem_cons.1 hdigits
      obtain ⟨h₂, hrest⟩ := List.forall_mem_cons.1 hrest
      obtain ⟨high, hhigh⟩ := Option.isSome_iff_exists.1 h₁
      obtain ⟨low, hlow⟩ := Option.isSome_iff_exists.1 h₂
      obtain ⟨data, hdata, hcount⟩ := ih (by simpa [Nat.mul_succ] using hlen) hrest
      refine ⟨UInt8.ofNat (16 * high + low) :: data, ?_, by rw [List.length_cons, hcount]⟩
      rw [fromHexLoop, hhigh, hlow]
      simp [hdata]

theorem length_hexToRaw {hash : Bytes} (h : isValidHex hash = true) :
    hash.length = 40 ∧ (∀ c ∈ hash, isxdigit c = true) ∧ (hexToRaw hash).length = 20 := by
  rw [isValidHex, Bool.and_eq_true, decide_eq_true_eq, List.all_eq_true] at h
  obtain ⟨hlen, hdigits⟩ := h
  obtain ⟨data, hdata, hcount⟩ := @fromHexLoop_digits 20 hash hlen hdigits
  refine ⟨hlen, hdigits, ?_⟩
  rw [hexToRaw, fromHex, if_neg (by omega), hdata]
  exact hcount

theorem mem_base32Alphabet : ∀ n < 256, (65 ≤ n ∧ n ≤ 90) ∨ (50 ≤ n ∧ n ≤ 55) →
    UInt8.ofNat n ∈ base32Alphabet := by
  decide +kernel

theorem length_base32ToRaw {hash : Bytes} (h : isValidBase32 hash = true) :
    (base32ToRaw hash).length = 20 := by
  rw [isValidBase32, Bool.and_eq_true, decide_eq_true_eq, List.all_eq_true] at h
  obtain ⟨hlen, hsymbols⟩ := h
  have hmem : ∀ c ∈ hash, c ∈ base32Alphabet := by
    intro c hc
    have hrange := mem_base32Alphabet c.toNat c.toNat_lt (by simpa using hsymbols c hc)
    rwa [UInt8.ofNat_toNat] at hrange
  rw [(base32ToRaw_bits hmem).1, hlen]

/-! ### Every parameter keeps it -/

theorem hashKept_processParameter {magnet : MagnetLink} (h : HashKept magnet) (name value : Bytes) :
    HashKept (processParameter magnet name value) := by
  unfold processParameter
  by_cases hhash : name = ascii "xt" ∧ substr value 0 9 = ascii "urn:btih:"
  · rw [if_pos hhash]
    dsimp only
    split_ifs with hhex hbase32
    · obtain ⟨hlen, hdigits, hraw⟩ := length_hexToRaw hhex
      exact .inr ⟨hraw, hlen, hdigits, rfl⟩
    · have hraw := length_base32ToRaw hbase32
      refine .inr ⟨hraw, ?_, fun c hc => isxdigit_of_mem_toHex hc, fromHex_toHex _⟩
      rw [length_toHex, hraw]
    · exact h
  rw [if_neg hhash]
  -- the other parameters do not touch the info hash
  split_ifs
  · exact h
  · cases stoll value <;> exact h
  · exact h
  · exact h
  · exact h
  · exact h

/-- What every parameter keeps holds of the result of the loop. -/
theorem parseLoop_keeps {P : MagnetLink → Prop}
    (h : ∀ magnet name value, P magnet → P (processParameter magnet name value)) (query : Bytes)
    (pos : ℕ) (magnet : MagnetLink) (hmagnet : P magnet) : P (parseLoop query pos magnet) := by
  fun_induction parseLoop query pos magnet with
  | case1 => exact hmagnet
  | case2 => exact h _ _ _ hmagnet
  | case3 pos magnet hpos eq heq name next hnext ih => exact ih (h _ _ _ hmagnet)
  | case4 => exact hmagnet

/-- **Main result.** Whatever is parsed, the info hash is missing or has 20 bytes. -/
theorem hashKept_parseMagnetLink (s : Bytes) : HashKept (parseMagnetLink s) := by
  rw [parseMagnetLink]
  by_cases hscheme : substr s 0 8 ≠ ascii "magnet:?"
  · rw [if_pos hscheme]
    exact .inl rfl
  · rw [if_neg hscheme]
    exact parseLoop_keeps (P := HashKept)
      (fun _ name value h => hashKept_processParameter h name value) _ _ _ (.inl rfl)

end Gush.Magnet
