import Mathlib.Algebra.Order.Floor.Ring
import Gush.Downloader.State
import Gush.Lib.Chunks

/-!
# The sizes of the pieces

`validateTorrentInfo` leaves torrents whose pieces cut the data into ranges that are never empty and
never longer than the piece length. `validateTorrentInfo_spec` says so, together with what is
accepted and with the absence of overflows. For the latter, the functions are written once more with
arithmetic that fails where it overflows.
-/

namespace Gush

open Cxx

/-! ### Without overflow -/

/-- `totalLength`, failing on an overflow. -/
def TorrentInfo.totalLengthChecked (t : TorrentInfo) : Option ℤ :=
  if t.isMultiFile then
    t.files.foldlM (fun total file => checked64 (total + file.length.toInt)) 0
  else some t.fileLength.toInt

/-- `checkFiles`, failing on an overflow. -/
def checkFilesChecked : List FileEntry → ℤ → Option (Except Exn ℤ)
  | [], total => some (.ok total)
  | entry :: files, total =>
    if entry.path = [] then some (throwRuntime "Invalid torrent: empty file path")
    else if entry.length.toInt < 0 then some (throwRuntime "Invalid torrent: negative file length")
    else do
      let room ← checked64 ((2 ^ 63 - 1) - total)
      if entry.length.toInt > room then some (throwRuntime "Invalid torrent: total length overflow")
      else
        let total ← checked64 (total + entry.length.toInt)
        checkFilesChecked files total

/-- `checkLengths`, failing on an overflow. -/
def checkLengthsChecked (t : TorrentInfo) : Option (Except Exn ℤ) :=
  if t.isMultiFile then checkFilesChecked t.files 0
  else if t.fileLength.toInt < 0 then some (throwRuntime "Invalid torrent: negative file length")
  else some (.ok t.fileLength.toInt)

/-- `expectedPieces`, failing where `uint64_t` wraps around. -/
def expectedPiecesChecked (total pieceLength : ℤ) : Option ℤ :=
  if total = 0 then some 0
  else do
    let total ← checkedU64 total
    let last ← checkedU64 (total - 1)
    let pieceLength ← checkedU64 pieceLength
    checkedU64 (1 + last / pieceLength)

/-- `validateTorrentInfo`, failing on an overflow. -/
def validateTorrentInfoChecked (t : TorrentInfo) : Option (Except Exn Unit) :=
  if t.name = [] then some (throwRuntime "Invalid torrent: empty name")
  else if t.pieceLength.toInt ≤ 0 then
    some (throwRuntime "Invalid torrent: piece length must be positive")
  else if t.pieces.length % 20 ≠ 0 then
    some (throwRuntime "Invalid torrent: pieces length is not a multiple of 20")
  else do
    match ← checkLengthsChecked t with
    | .error e => some (.error e)
    | .ok total =>
      let expected ← expectedPiecesChecked total t.pieceLength.toInt
      if (t.numPieces : ℤ) ≠ expected then
        some (throwRuntime "Invalid torrent: piece hash count does not match total length")
      else some (.ok ())

/-- The guard in the loop keeps the running total in range. -/
theorem checkFilesChecked_eq {files : List FileEntry} : ∀ {total : ℤ}, 0 ≤ total → total < 2 ^ 63 →
    checkFilesChecked files total = some (checkFiles files total) := by
  induction files with
  | nil => exact fun _ _ => rfl
  | cons entry files ih =>
    intro total h0 hlt
    rw [checkFilesChecked, checkFiles, checked64_of_range (by omega) (by omega)]
    simp only [Option.bind_eq_bind, Option.bind_some]
    split_ifs with hpath hneg hbig
    · rfl
    · rfl
    · rfl
    · rw [checked64_of_range (by omega) (by omega)]
      exact ih (by omega) (by omega)

theorem checkLengthsChecked_eq (t : TorrentInfo) :
    checkLengthsChecked t = some (checkLengths t) := by
  unfold checkLengthsChecked checkLengths
  split_ifs
  · exact checkFilesChecked_eq le_rfl (by norm_num)
  · rfl
  · rfl

theorem expectedPiecesChecked_eq {total pieceLength : ℤ} (h0 : 0 ≤ total) (hlt : total < 2 ^ 63)
    (hpos : 0 < pieceLength) (hlen : pieceLength < 2 ^ 63) :
    expectedPiecesChecked total pieceLength = some (expectedPieces total pieceLength : ℤ) := by
  unfold expectedPiecesChecked expectedPieces
  split_ifs with hzero
  · rfl
  · have hle : (total - 1) / pieceLength ≤ total - 1 := Int.ediv_le_self _ (by omega)
    have hnonneg : 0 ≤ (total - 1) / pieceLength := Int.ediv_nonneg (by omega) hpos.le
    rw [checkedU64_of_range h0 (by omega)]
    simp only [Option.bind_eq_bind, Option.bind_some]
    rw [checkedU64_of_range (by omega) (by omega), Option.bind_some,
      checkedU64_of_range hpos.le (by omega), Option.bind_some,
      checkedU64_of_range (by omega) (by omega)]
    have hlast : ((total.toNat - 1 : ℕ) : ℤ) = total - 1 := by omega
    have hpiece : (pieceLength.toNat : ℤ) = pieceLength := Int.toNat_of_nonneg hpos.le
    rw [Nat.cast_add, Nat.cast_one, Int.natCast_ediv, hlast, hpiece]

/-- In either mode it is the declared lengths that must not be negative. -/
theorem lengths_nonneg_iff (t : TorrentInfo) : (∀ x ∈ t.lengths, 0 ≤ x) ↔
    (∀ f ∈ t.files, 0 ≤ f.length.toInt) ∧ (t.files = [] → 0 ≤ t.fileLength.toInt) := by
  unfold TorrentInfo.lengths
  split_ifs with hm
  · have hne : t.files ≠ [] := by simpa [TorrentInfo.isMultiFile] using hm
    simp [hne]
  · have hnil : t.files = [] := by simpa [TorrentInfo.isMultiFile] using hm
    simp [hnil]

/-- No overflow in the validation. -/
theorem validateTorrentInfoChecked_eq (t : TorrentInfo) :
    validateTorrentInfoChecked t = some (validateTorrentInfo t) := by
  unfold validateTorrentInfoChecked validateTorrentInfo
  split_ifs with hname hlen h20
  · rfl
  · rfl
  · rfl
  · rw [checkLengthsChecked_eq]
    simp only [Option.bind_eq_bind, Option.bind_some]
    cases hc : checkLengths t with
    | error e => rfl
    | ok total =>
      obtain ⟨hall, hsingle, rfl, hlt⟩ := checkLengths_eq_ok_iff.1 hc
      have h0 : 0 ≤ t.lengths.sum := List.sum_nonneg
        ((lengths_nonneg_iff t).2 ⟨fun f hf => (hall f hf).2, hsingle⟩)
      simp only
      rw [expectedPiecesChecked_eq h0 hlt (by omega) t.pieceLength.toInt_lt, Option.bind_some]
      simp only [ne_eq, Nat.cast_inj]
      split_ifs <;> rfl

/-- No overflow in the total length. -/
theorem TorrentInfo.Accepted.totalLengthChecked_eq {t : TorrentInfo} (h : t.Accepted) :
    t.totalLengthChecked = some t.lengths.sum := by
  have hfold : ∀ (files : List FileEntry) (total : ℤ), 0 ≤ total →
      (∀ f ∈ files, 0 ≤ f.length.toInt) →
      total + (files.map fun f => f.length.toInt).sum < 2 ^ 63 →
      files.foldlM (fun total file => checked64 (total + file.length.toInt)) total =
        some (total + (files.map fun f => f.length.toInt).sum) := by
    intro files
    induction files with
    | nil => simp
    | cons f files ih =>
      intro total h0 hfiles hlt
      have hf := hfiles f List.mem_cons_self
      have hrest : 0 ≤ (files.map fun f => f.length.toInt).sum :=
        List.sum_nonneg (by simpa using fun g hg => hfiles g (List.mem_cons_of_mem f hg))
      simp only [List.map_cons, List.sum_cons] at hlt ⊢
      rw [List.foldlM_cons, checked64_of_range (by omega) (by omega)]
      simp only [Option.bind_eq_bind, Option.bind_some]
      rw [ih _ (by omega) (fun g hg => hfiles g (List.mem_cons_of_mem f hg)) (by omega), add_assoc]
  have hsum := h.sum_lt
  unfold totalLengthChecked lengths at *
  split_ifs at hsum ⊢ with hm
  · rw [hfold t.files 0 le_rfl (fun f hf => (h.file_ok hf).2) (by omega), zero_add]
  · simp

/-! ### The number of pieces -/

/-- The number of pieces is the quotient, rounded up. -/
theorem expectedPieces_eq_ceil {total pieceLength : ℤ} (h0 : 0 ≤ total) (hpos : 0 < pieceLength) :
    (expectedPieces total pieceLength : ℤ) = ⌈(total : ℚ) / pieceLength⌉ := by
  have hposq : (0 : ℚ) < pieceLength := by exact_mod_cast hpos
  unfold expectedPieces
  split_ifs with hzero
  · simp [hzero]
  · symm
    have hcast : ((1 + (total.toNat - 1) / pieceLength.toNat : ℕ) : ℤ) =
        1 + (total - 1) / pieceLength := by
      have hlast : ((total.toNat - 1 : ℕ) : ℤ) = total - 1 := by omega
      have hpiece : (pieceLength.toNat : ℤ) = pieceLength := Int.toNat_of_nonneg hpos.le
      rw [Nat.cast_add, Nat.cast_one, Int.natCast_ediv, hlast, hpiece]
    rw [hcast, Int.ceil_eq_iff]
    set last := (total - 1) / pieceLength
    have hlow : last * pieceLength ≤ total - 1 := Int.ediv_mul_le _ hpos.ne'
    have hhigh : total - 1 < (last + 1) * pieceLength := Int.lt_ediv_add_one_mul_self _ hpos
    constructor
    · have hlt : (1 + last - 1) * pieceLength < total := by
        rw [add_sub_cancel_left]
        omega
      rw [lt_div_iff₀ hposq]
      exact_mod_cast hlt
    · have hle : total ≤ (1 + last) * pieceLength := by
        rw [add_comm]
        omega
      rw [div_le_iff₀ hposq]
      exact_mod_cast hle

namespace Downloader

/-! ### The sum of the sizes -/

/-- The pieces make up the torrent. -/
theorem sum_pieceSize {torrent : TorrentInfo} (h : torrent.Accepted) :
    ∑ i ∈ Finset.range torrent.numPieces, pieceSize torrent i = torrent.totalLength := by
  have hsizes : ∑ i ∈ Finset.range torrent.numPieces, pieceSize torrent i =
      ∑ i ∈ Finset.range torrent.numPieces,
        Chunks.size torrent.pieceLength.toInt torrent.totalLength i :=
    Finset.sum_congr rfl fun i hi => pieceSize_eq h (Finset.mem_range.1 hi)
  rw [hsizes, Chunks.sum_size (fun i hi => h.piece_start_lt hi) h.totalLength_nonneg,
    min_eq_right h.totalLength_le]

/-- **Main result.** What `validateTorrentInfo` accepts, and what the downloader may rely on. -/
theorem validateTorrentInfo_spec (t : TorrentInfo) :
    (validateTorrentInfo t = .ok () ↔
      t.name ≠ [] ∧ 0 < t.pieceLength.toInt ∧ 20 ∣ t.pieces.length ∧ (∀ x ∈ t.lengths, 0 ≤ x) ∧
      (∀ f ∈ t.files, f.path ≠ []) ∧ t.lengths.sum < 2 ^ 63 ∧
      ((t.pieces.length / 20 : ℕ) : ℤ) = ⌈(t.lengths.sum : ℚ) / t.pieceLength.toInt⌉) ∧
    validateTorrentInfoChecked t = some (validateTorrentInfo t) ∧
    (validateTorrentInfo t = .ok () → t.numPieces ≤ 2 ^ 32 →
      t.totalLengthChecked = some t.lengths.sum ∧ t.totalLength = t.lengths.sum ∧
      (∀ i < t.numPieces,
        checked64 (i * t.pieceLength.toInt) = some (i * t.pieceLength.toInt) ∧
        1 ≤ pieceSize t (uint32 i) ∧ pieceSize t (uint32 i) ≤ t.pieceLength.toInt) ∧
      ∑ i ∈ Finset.range t.numPieces, pieceSize t (uint32 i) = t.lengths.sum) := by
  refine ⟨?_, validateTorrentInfoChecked_eq t, fun h hmax => ?_⟩
  · rw [validateTorrentInfo_iff, lengths_nonneg_iff, ← Nat.dvd_iff_mod_eq_zero]
    constructor
    · rintro ⟨hname, hpos, h20, hfiles, hsingle, hlt, hnum⟩
      have hall := (lengths_nonneg_iff t).2 ⟨fun f hf => (hfiles f hf).2, hsingle⟩
      refine ⟨hname, hpos, h20, ⟨fun f hf => (hfiles f hf).2, hsingle⟩,
        fun f hf => (hfiles f hf).1, hlt, ?_⟩
      rw [← expectedPieces_eq_ceil (List.sum_nonneg hall) hpos, ← hnum]
      rfl
    · rintro ⟨hname, hpos, h20, ⟨hfiles, hsingle⟩, hpaths, hlt, hnum⟩
      have hall := (lengths_nonneg_iff t).2 ⟨hfiles, hsingle⟩
      refine ⟨hname, hpos, h20, fun f hf => ⟨hpaths f hf, hfiles f hf⟩, hsingle, hlt, ?_⟩
      rw [← expectedPieces_eq_ceil (List.sum_nonneg hall) hpos] at hnum
      exact_mod_cast hnum
  · have hacc : t.Accepted := h
    have hindex : ∀ i < t.numPieces, uint32 (i : ℕ) = i := fun i hi => uint32_of_lt (by omega)
    refine ⟨hacc.totalLengthChecked_eq, hacc.totalLength_eq, fun i hi => ?_, ?_⟩
    · have hstart := hacc.piece_start_lt hi
      have hlt := hacc.totalLength_lt
      have hnonneg := pieceStart_nonneg hacc i
      rw [hindex i hi]
      exact ⟨checked64_of_range (by omega) (by omega), pieceSize_pos hacc hi, pieceSize_le hacc hi⟩
    · rw [← hacc.totalLength_eq, ← sum_pieceSize hacc]
      apply Finset.sum_congr rfl
      intro i hi
      rw [hindex i (Finset.mem_range.1 hi)]

/-- Three bytes in two pieces. -/
theorem validateTorrentInfo_spec_two_pieces : ∑ i ∈ Finset.range 2, pieceSize
    { name := [97], pieceLength := 2, pieces := List.replicate 40 0, fileLength := 3 } (uint32 i)
      = 3 :=
  ((validateTorrentInfo_spec
    { name := [97], pieceLength := 2, pieces := List.replicate 40 0, fileLength := 3 }).2.2
      (by decide) (by decide)).2.2.2

end Downloader

end Gush
