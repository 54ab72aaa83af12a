import Gush.Bencode.RoundTrip
import Gush.Metadata.Frames
import Mathlib.Data.Rat.Floor

/-!
# The announced size of the metadata

The `metadata_size` of a peer is a 64-bit number that becomes an `int` and is rounded up to pieces.
`sizeKept_iff` says when the rounding does not overflow and a successful exchange
leaves the size that the peer has announced.
-/

namespace Gush.MetadataDownloader

open Cxx Bencode Wire Metadata

variable {d d' : MetadataDownloader} {sock : Link} {dict : BencodeDict}

/-- The rounding up of `exchangeExtensions` on `int`; `none` is an overflow. -/
def roundUp (metadataSize : ℤ) : Option ℤ :=
  (checked32 (metadataSize + metadataPieceSize)).bind fun sum =>
    (checked32 (sum - 1)).map fun sum => Int.tdiv sum metadataPieceSize

/-- The exchange reads an extended handshake with this dictionary. -/
def Receives (sock : Link) (dict : BencodeDict) : Prop :=
  ∃ sock' payload sock'' p,
    sock.sendFull (extendedFrame extendedHandshakeId (ascii "d1:md2:ut_metadatai1ee")) =
      (true, sock') ∧
    readExtendedMessage sock' extendedHandshakeId = (some payload, sock'') ∧
    Parses payload 0 (.ok (.dict dict, p))

/-- The exchange comes to round up a size, and the arithmetic on `int` overflows. -/
def Overflows (sock : Link) : Prop :=
  ∃ dict size, Receives sock dict ∧ dictGetInt dict (ascii "metadata_size") = some size ∧
    roundUp (int32 size) = none

/-! ### The rounding -/

theorem roundUp_eq_none_iff {metadataSize : ℤ} (h : -2 ^ 31 ≤ metadataSize) :
    roundUp metadataSize = none ↔ 2 ^ 31 ≤ metadataSize + 16384 := by
  have hc : ((metadataPieceSize : ℕ) : ℤ) = 16384 := rfl
  rw [roundUp, hc]
  by_cases hsum : metadataSize + 16384 < 2 ^ 31
  · rw [checked32_eq_some.2 ⟨rfl, by omega, hsum⟩, Option.bind_some,
      checked32_eq_some.2 ⟨rfl, by omega, by omega⟩]
    simpa using hsum
  · have hnone : checked32 (metadataSize + 16384) = none := if_neg fun h => hsum h.2
    rw [hnone]
    simpa using hsum

/-- Without an overflow, the number of pieces is computed exactly. -/
theorem pieceCount_of_lt {metadataSize : ℤ} (hpos : 0 < metadataSize)
    (h : metadataSize + 16384 < 2 ^ 31) :
    pieceCount metadataSize = ⌈(metadataSize : ℚ) / 16384⌉ := by
  have hc : ((metadataPieceSize : ℕ) : ℤ) = 16384 := rfl
  have hceil : ⌈(metadataSize : ℚ) / (16384 : ℕ)⌉ = -(-metadataSize / (16384 : ℕ)) :=
    Rat.ceil_intCast_div_natCast metadataSize 16384
  rw [pieceCount, hc, int32_of_range (by omega) h, int32_of_range (by omega) (by omega),
    Int.tdiv_eq_ediv_of_nonneg (by omega)]
  push_cast at hceil
  rw [hceil]
  omega

/-! ### The exchange -/

/-- What is read from a socket does not depend on the state of the download. -/
theorem Receives.unique {dict' : BencodeDict} (h : Receives sock dict) (h' : Receives sock dict') :
    dict = dict' := by
  obtain ⟨sock₁, payload, sock₂, p, hsend, hread, hparse⟩ := h
  obtain ⟨sock₁', payload', sock₂', p', hsend', hread', hparse'⟩ := h'
  obtain ⟨-, rfl⟩ := Prod.mk.inj (hsend.symm.trans hsend')
  obtain ⟨hpayload, -⟩ := Prod.mk.inj (hread.symm.trans hread')
  obtain rfl := Option.some.inj hpayload
  have heq := hparse.unique hparse'
  simp only [Except.ok.injEq, Prod.mk.injEq, BencodeValue.dict.injEq] at heq
  exact heq.1

/-- What the exchange does with the handshake that it reads. -/
theorem exchangeExtensions_receives (d : MetadataDownloader) (h : Receives sock dict) :
    (∃ fuel, (d.exchangeExtensions fuel sock).isSome) ∧
      ∀ fuel out, d.exchangeExtensions fuel sock = some out →
        (out.1, out.2.1) = match d.announceSize dict with
          | (false, d') => (none, d')
          | (true, d') => (if announcedId dict > 0 ∧ d'.metadataSize > 0 then
              some (announcedId dict) else none, d') := by
  obtain ⟨sock', payload, sock'', p, hsend, hread, hparse⟩ := h
  constructor
  · obtain ⟨fuel, hfuel⟩ := hparse
    exact ⟨fuel, by simp [exchangeExtensions, hsend, hread, hfuel]⟩
  · intro fuel out hout
    rw [exchangeExtensions, hsend] at hout
    dsimp only at hout
    rw [hread] at hout
    obtain ⟨r, hr, rfl⟩ := Option.map_eq_some_iff.1 hout
    obtain rfl := Parses.unique ⟨fuel, hr⟩ hparse
    rw [readHandshake]
    rcases d.announceSize dict with ⟨_ | _, d'⟩ <;> rfl

/-- An announced size is set, unless the pieces cannot be resized. -/
theorem announceSize_cases {size : ℤ}
    (hsize : dictGetInt dict (ascii "metadata_size") = some size) :
    (pieceCount (int32 size) < 0 ∧ (d.announceSize dict).1 = false) ∨
      0 ≤ pieceCount (int32 size) ∧ ∃ pieces, d.announceSize dict =
        (true, { d with
          metadataSize := int32 size
          numPieces := pieceCount (int32 size)
          pieces }) := by
  rw [announceSize, hsize]
  dsimp only
  by_cases hneg : pieceCount (int32 size) < 0
  · rw [resizePieces, if_pos hneg]
    exact .inl ⟨hneg, rfl⟩
  · rw [resizePieces, if_neg hneg]
    exact .inr ⟨not_lt.1 hneg, _, rfl⟩

/-- The size in an extended handshake is handled without overflow, and it is the size of the metadata
behind an exchange that succeeds. -/
structure SizeKept (d : MetadataDownloader) (sock : Link) (size : ℤ) : Prop where
  noOverflow : ¬ Overflows sock
  returns : ∀ fuel metadataExtId d' sock',
    d.exchangeExtensions fuel sock = some (some metadataExtId, d', sock') →
      0 < size ∧ d'.metadataSize = size ∧ d'.numPieces = ⌈(size : ℚ) / 16384⌉

/-- **Main result.** A size that becomes a positive `int` must be that `int`, and small enough to be
rounded up; or the handshake must announce no identifier. -/
theorem sizeKept_iff (d : MetadataDownloader) {size : ℤ} (h : Receives sock dict)
    (hsize : dictGetInt dict (ascii "metadata_size") = some size) :
    SizeKept d sock size ↔ int32 size + 16384 < 2 ^ 31 ∧
      (0 < int32 size → 0 < announcedId dict → int32 size = size) := by
  have hlow : -2 ^ 31 ≤ int32 size := Int.le_bmod (by decide)
  have hover : Overflows sock ↔ 2 ^ 31 ≤ int32 size + 16384 := by
    rw [← roundUp_eq_none_iff hlow]
    constructor
    · rintro ⟨dict', size', h', hsize', hnone⟩
      obtain rfl := h.unique h'
      obtain rfl := Option.some.inj (hsize.symm.trans hsize')
      exact hnone
    · exact fun hnone => ⟨dict, size, h, hsize, hnone⟩
  obtain ⟨⟨fuel, hfuel⟩, hout⟩ := exchangeExtensions_receives d h
  constructor
  · intro hkept
    have hlt : int32 size + 16384 < 2 ^ 31 := not_le.1 fun hle => hkept.noOverflow (hover.2 hle)
    refine ⟨hlt, fun hpos hid => ?_⟩
    have hcount := pieceCount_of_lt hpos hlt
    have hceil : 0 ≤ ⌈(int32 size : ℚ) / 16384⌉ := Int.ceil_nonneg (by positivity)
    obtain ⟨⟨id, d', sock'⟩, hexchange⟩ := Option.isSome_iff_exists.1 hfuel
    have heq := hout fuel _ hexchange
    rcases announceSize_cases (d := d) hsize with ⟨hneg, -⟩ | ⟨-, pieces, hannounce⟩
    · omega
    · rw [hannounce] at heq
      dsimp only at heq
      rw [if_pos ⟨hid, hpos⟩] at heq
      obtain ⟨rfl, rfl⟩ := Prod.mk.inj heq
      exact (hkept.returns fuel _ _ _ hexchange).2.1
  · rintro ⟨hlt, hsame⟩
    refine ⟨fun hoverflows => absurd (hover.1 hoverflows) (not_le.2 hlt), ?_⟩
    intro fuel metadataExtId d' sock' hexchange
    have heq := hout fuel _ hexchange
    rcases announceSize_cases (d := d) hsize with ⟨-, hfalse⟩ | ⟨-, pieces, hannounce⟩
    · rcases hannounce : d.announceSize dict with ⟨_ | _, d''⟩ <;> rw [hannounce] at hfalse heq
      · cases heq
      · cases hfalse
    · rw [hannounce] at heq
      dsimp only at heq
      by_cases hsuccess : announcedId dict > 0 ∧ int32 size > 0
      · rw [if_pos hsuccess] at heq
        obtain ⟨-, rfl⟩ := Prod.mk.inj heq
        have heq := hsame hsuccess.2 hsuccess.1
        rw [heq] at hsuccess hlt
        dsimp only
        rw [heq]
        exact ⟨hsuccess.2, rfl, pieceCount_of_lt hsuccess.2 hlt⟩
      · rw [if_neg hsuccess] at heq
        cases heq

/-! ### Two handshakes -/

/-- An extended handshake that announces a size. -/
def sizeHandshake (size : ℤ) : BencodeDict :=
  [(ascii "m", .dict [(ascii "ut_metadata", .int 1)]), (ascii "metadata_size", .int size)]

/-- A socket on which the handshake arrives. -/
def sizeLink (size : ℤ) : Link where
  turns := [some (extendedFrame extendedHandshakeId (encode (.dict (sizeHandshake size))))]

theorem receives_sizeLink {size : ℤ} (h : -2 ^ 63 ≤ size) (h' : size < 2 ^ 63)
    (hlen : 2 + (encode (.dict (sizeHandshake size))).length ≤ maxFrame) :
    Receives (sizeLink size) (sizeHandshake size) := by
  have hmax : maxFrame = 4194304 := rfl
  have hkeys : ascii "m" < ascii "metadata_size" := by decide
  have hvalid : (BencodeValue.dict (sizeHandshake size)).Valid := by
    refine .dict (fun e he => ?_) (List.pairwise_pair.2 hkeys)
    rcases List.mem_pair.1 he with rfl | rfl
    · refine .dict (fun e he => ?_) (List.pairwise_singleton _ _)
      rw [List.mem_singleton.1 he]
      exact .int (by norm_num) (by norm_num)
    · exact .int h h'
  have hparse : Parses (encode (.dict (sizeHandshake size))) 0
      (.ok (.dict (sizeHandshake size), 0 + (encode (.dict (sizeHandshake size))).length)) :=
    parses_encode_at (by omega) hvalid (List.append_nil _).symm
  have hread : ∀ sock : Link, sock.incoming = extendedFrame extendedHandshakeId
      (encode (.dict (sizeHandshake size))) → readExtendedMessage sock extendedHandshakeId =
        (some (encode (.dict (sizeHandshake size))), sock.leave []) := by
    intro sock hsock
    have hincoming : sock.incoming = ([] : List Bytes).flatten ++ extendedFrame extendedHandshakeId
        (encode (.dict (sizeHandshake size))) ++ [] := by
      rw [hsock, List.append_nil]
      rfl
    exact readLoop_frames (by simp) (by simp) hlen hincoming
  exact ⟨_, _, _, _, rfl, hread _ rfl, hparse⟩

/-- The sum overflows for the announced size `2 ^ 31 - 16384`. -/
theorem not_forall_sizeKept : ¬ ∀ (d : MetadataDownloader) (sock : Link) (dict : BencodeDict)
    (size : ℤ), Receives sock dict → dictGetInt dict (ascii "metadata_size") = some size →
      SizeKept d sock size := by
  intro h
  have hreceives : Receives (sizeLink 2147467264) (sizeHandshake 2147467264) :=
    receives_sizeLink (by norm_num) (by norm_num) (by decide)
  exact (h { magnet := {} } _ _ _ hreceives rfl).noOverflow ⟨_, _, hreceives, rfl, by decide⟩

theorem sizeKept_iff_hundred : SizeKept { magnet := {} } (sizeLink 100) 100 ↔
    int32 100 + 16384 < 2 ^ 31 ∧
      (0 < int32 100 → 0 < announcedId (sizeHandshake 100) → int32 100 = 100) :=
  sizeKept_iff { magnet := {} } (receives_sizeLink (by norm_num) (by norm_num) (by decide)) rfl

end Gush.MetadataDownloader
