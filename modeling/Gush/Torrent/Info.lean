import Gush.Cxx

/-!
# Torrent metadata and its validation

`TorrentInfo` and `validateTorrentInfo`, which both the `.torrent` path and the magnet path call
before a download starts. `validateTorrentInfo_iff` says what is accepted; the section on accepted
torrents draws the consequences that the downloader relies on without checking them again.
-/

namespace Gush

open Cxx

/-- `TorrentInfo::FileEntry`. -/
structure FileEntry where
  path : Bytes := []
  length : Int64 := 0
  deriving DecidableEq

/-- `TorrentInfo`. -/
structure TorrentInfo where
  name : Bytes := []
  comment : Bytes := []
  createdBy : Bytes := []
  pieceLength : Int64 := 0
  /-- Raw SHA1 hashes, concatenated. -/
  pieces : Bytes := []
  announceList : List Bytes := []
  /-- SHA1 of the bencoded info dictionary. -/
  infoHash : Bytes := []
  peerId : Bytes := []
  /-- Single-file mode. -/
  fileName : Bytes := []
  fileLength : Int64 := 0
  /-- Multi-file mode. -/
  files : List FileEntry := []
  deriving DecidableEq

namespace TorrentInfo

def isMultiFile (t : TorrentInfo) : Bool := !t.files.isEmpty

/-- The sum of the file lengths, on `int64_t`. -/
def totalLength (t : TorrentInfo) : ℤ :=
  if t.isMultiFile then t.files.foldl (fun total file => int64 (total + file.length.toInt)) 0
  else t.fileLength.toInt

/-- Each hash is 20 bytes. -/
def numPieces (t : TorrentInfo) : ℕ := t.pieces.length / 20

end TorrentInfo

/-- The loop of `validateTorrentInfo` over the files, with the running total. -/
def checkFiles : List FileEntry → ℤ → Except Exn ℤ
  | [], total => .ok total
  | entry :: files, total =>
    if entry.path = [] then throwRuntime "Invalid torrent: empty file path"
    else if entry.length.toInt < 0 then throwRuntime "Invalid torrent: negative file length"
    else if entry.length.toInt > (2 ^ 63 - 1) - total then
      throwRuntime "Invalid torrent: total length overflow"
    else checkFiles files (total + entry.length.toInt)

/-- The total that `validateTorrentInfo` computes, in either mode. -/
def checkLengths (t : TorrentInfo) : Except Exn ℤ :=
  if t.isMultiFile then checkFiles t.files 0
  else if t.fileLength.toInt < 0 then throwRuntime "Invalid torrent: negative file length"
  else .ok t.fileLength.toInt

/-- `expectedPieces`: the number of pieces that a total length needs. -/
def expectedPieces (total pieceLength : ℤ) : ℕ :=
  if total = 0 then 0 else 1 + (total.toNat - 1) / pieceLength.toNat

def validateTorrentInfo (t : TorrentInfo) : Except Exn Unit :=
  if t.name = [] then throwRuntime "Invalid torrent: empty name"
  else if t.pieceLength.toInt ≤ 0 then
    throwRuntime "Invalid torrent: piece length must be positive"
  else if t.pieces.length % 20 ≠ 0 then
    throwRuntime "Invalid torrent: pieces length is not a multiple of 20"
  else
    match checkLengths t with
    | .error e => .error e
    | .ok total =>
      if t.numPieces ≠ expectedPieces total t.pieceLength.toInt then
        throwRuntime "Invalid torrent: piece hash count does not match total length"
      else .ok ()

/-! ### What is accepted -/

/-- The declared lengths: those of the files, or the one of the single file. -/
def TorrentInfo.lengths (t : TorrentInfo) : List ℤ :=
  if t.isMultiFile then t.files.map fun f => f.length.toInt else [t.fileLength.toInt]

theorem checkFiles_eq_ok_iff {files : List FileEntry} {total T : ℤ} (ht : total < 2 ^ 63) :
    checkFiles files total = .ok T ↔
      (∀ f ∈ files, f.path ≠ [] ∧ 0 ≤ f.length.toInt) ∧
      T = total + (files.map fun f => f.length.toInt).sum ∧ T < 2 ^ 63 := by
  induction files generalizing total with
  | nil =>
    simp only [checkFiles, Except.ok.injEq, List.not_mem_nil, false_implies, implies_true, true_and,
      List.map_nil, List.sum_nil, add_zero]
    constructor
    · rintro rfl
      exact ⟨rfl, ht⟩
    · rintro ⟨rfl, -⟩
      rfl
  | cons f files ih =>
    rw [checkFiles]
    by_cases hpath : f.path = []
    · simp [hpath, throwRuntime]
    by_cases hneg : f.length.toInt < 0
    · simp [hpath, hneg, throwRuntime]
    -- this check keeps the running total below `2 ^ 63`
    by_cases hbig : f.length.toInt > (2 ^ 63 - 1) - total
    · simp only [hpath, hneg, hbig, if_true, if_false, throwRuntime, reduceCtorEq, false_iff]
      rintro ⟨hall, hT, hlt⟩
      have hrest : 0 ≤ (files.map fun f => f.length.toInt).sum :=
        List.sum_nonneg fun x hx => by
          obtain ⟨g, hg, rfl⟩ := List.mem_map.1 hx
          exact (hall g (List.mem_cons_of_mem f hg)).2
      simp only [List.map_cons, List.sum_cons] at hT
      omega
    · simp only [hpath, hneg, hbig, if_false]
      rw [ih (by omega)]
      simp only [List.forall_mem_cons, List.map_cons, List.sum_cons]
      constructor
      · rintro ⟨hall, hT, hlt⟩
        exact ⟨⟨⟨hpath, by omega⟩, hall⟩, by omega, hlt⟩
      · rintro ⟨⟨-, hall⟩, hT, hlt⟩
        exact ⟨hall, by omega, hlt⟩

theorem checkLengths_eq_ok_iff {t : TorrentInfo} {T : ℤ} :
    checkLengths t = .ok T ↔
      (∀ f ∈ t.files, f.path ≠ [] ∧ 0 ≤ f.length.toInt) ∧
      (t.files = [] → 0 ≤ t.fileLength.toInt) ∧ T = t.lengths.sum ∧ T < 2 ^ 63 := by
  unfold checkLengths TorrentInfo.lengths
  by_cases hm : t.isMultiFile
  · have hne : t.files ≠ [] := by simpa [TorrentInfo.isMultiFile] using hm
    simp only [hm, if_true, checkFiles_eq_ok_iff (show (0 : ℤ) < 2 ^ 63 by norm_num), hne,
      false_implies, true_and, zero_add]
  · have hnil : t.files = [] := by simpa [TorrentInfo.isMultiFile] using hm
    have hlt : t.fileLength.toInt < 2 ^ 63 := t.fileLength.toInt_lt
    by_cases hneg : t.fileLength.toInt < 0
    · simp only [hm, hneg, throwRuntime, hnil, if_true, Bool.false_eq_true, if_false, reduceCtorEq,
        false_iff]
      rintro ⟨-, h0, -⟩
      exact absurd (h0 trivial) (not_le.2 hneg)
    · simp only [hm, hneg, hnil, Except.ok.injEq, List.not_mem_nil, false_implies, implies_true,
        true_and, List.sum_singleton, Bool.false_eq_true, if_false]
      constructor
      · rintro rfl
        exact ⟨by omega, rfl, hlt⟩
      · rintro ⟨-, hT, -⟩
        exact hT.symm

/-- What `validateTorrentInfo` accepts. -/
theorem validateTorrentInfo_iff {t : TorrentInfo} :
    validateTorrentInfo t = .ok () ↔
      t.name ≠ [] ∧ 0 < t.pieceLength.toInt ∧ t.pieces.length % 20 = 0 ∧
      (∀ f ∈ t.files, f.path ≠ [] ∧ 0 ≤ f.length.toInt) ∧
      (t.files = [] → 0 ≤ t.fileLength.toInt) ∧ t.lengths.sum < 2 ^ 63 ∧
      t.numPieces = expectedPieces t.lengths.sum t.pieceLength.toInt := by
  unfold validateTorrentInfo
  by_cases hname : t.name = []
  · simp [hname, throwRuntime]
  by_cases hpl : t.pieceLength.toInt ≤ 0
  · simp only [hname, hpl, throwRuntime, if_true, if_false, reduceCtorEq, false_iff]
    rintro ⟨-, h, -⟩
    omega
  by_cases h20 : t.pieces.length % 20 = 0
  · simp only [hname, hpl, h20, ne_eq, not_true_eq_false, if_false, not_false_eq_true, true_and]
    have hpos : 0 < t.pieceLength.toInt := by omega
    cases hc : checkLengths t with
    | error e =>
      simp only [reduceCtorEq, false_iff]
      rintro ⟨-, hall, hsingle, hT, -⟩
      rw [checkLengths_eq_ok_iff.2 ⟨hall, hsingle, rfl, hT⟩] at hc
      cases hc
    | ok T =>
      obtain ⟨hall, hsingle, rfl, hT⟩ := checkLengths_eq_ok_iff.1 hc
      by_cases hn : t.numPieces = expectedPieces t.lengths.sum t.pieceLength.toInt
      · simp only [hn, not_true_eq_false, if_false, true_iff]
        exact ⟨hpos, hall, hsingle, hT, trivial⟩
      · simp [hn, throwRuntime]
  · simp [hname, hpl, h20, throwRuntime]

/-! ### Accepted torrents -/

/-- The torrents that `validateTorrentInfo` accepts. -/
def TorrentInfo.Accepted (t : TorrentInfo) : Prop := validateTorrentInfo t = .ok ()

namespace TorrentInfo.Accepted

variable {t : TorrentInfo} (h : t.Accepted)

include h

theorem name_ne_nil : t.name ≠ [] := (validateTorrentInfo_iff.1 h).1

theorem pieceLength_pos : 0 < t.pieceLength.toInt := (validateTorrentInfo_iff.1 h).2.1

theorem file_ok {f : FileEntry} (hf : f ∈ t.files) : f.path ≠ [] ∧ 0 ≤ f.length.toInt :=
  (validateTorrentInfo_iff.1 h).2.2.2.1 f hf

theorem sum_lt : t.lengths.sum < 2 ^ 63 := (validateTorrentInfo_iff.1 h).2.2.2.2.2.1

theorem numPieces_eq : t.numPieces = expectedPieces t.lengths.sum t.pieceLength.toInt :=
  (validateTorrentInfo_iff.1 h).2.2.2.2.2.2

theorem length_nonneg {x : ℤ} (hx : x ∈ t.lengths) : 0 ≤ x := by
  unfold lengths at hx
  split_ifs at hx with hm
  · obtain ⟨f, hf, rfl⟩ := List.mem_map.1 hx
    exact (h.file_ok hf).2
  · have hnil : t.files = [] := by simpa [isMultiFile] using hm
    rw [List.mem_singleton.1 hx]
    exact (validateTorrentInfo_iff.1 h).2.2.2.2.1 hnil

/-- The sum on `int64_t` is the mathematical one. -/
theorem totalLength_eq : t.totalLength = t.lengths.sum := by
  have hfold : ∀ (fs : List FileEntry) (total : ℤ), 0 ≤ total →
      (∀ f ∈ fs, 0 ≤ f.length.toInt) → total + (fs.map fun f => f.length.toInt).sum < 2 ^ 63 →
      fs.foldl (fun total file => int64 (total + file.length.toInt)) total =
        total + (fs.map fun f => f.length.toInt).sum := by
    intro fs
    induction fs with
    | nil => intro total _ _ _; simp
    | cons f fs ih =>
      intro total h0 hfs hlt
      have hf := hfs f List.mem_cons_self
      have hrest : 0 ≤ (fs.map fun f => f.length.toInt).sum :=
        List.sum_nonneg fun x hx => by
          obtain ⟨g, hg, rfl⟩ := List.mem_map.1 hx
          exact hfs g (List.mem_cons_of_mem f hg)
      simp only [List.map_cons, List.sum_cons] at hlt ⊢
      rw [List.foldl_cons, int64_of_range (by omega) (by omega),
        ih _ (by omega) (fun g hg => hfs g (List.mem_cons_of_mem f hg)) (by omega)]
      omega
  have hsum := h.sum_lt
  unfold totalLength lengths at *
  split_ifs at hsum ⊢ with hm
  · rw [hfold t.files 0 le_rfl (fun f hf => (h.file_ok hf).2) (by omega), zero_add]
  · simp

theorem totalLength_nonneg : 0 ≤ t.totalLength := by
  rw [h.totalLength_eq]
  exact List.sum_nonneg fun x hx => h.length_nonneg hx

theorem totalLength_lt : t.totalLength < 2 ^ 63 := by
  rw [h.totalLength_eq]
  exact h.sum_lt

/-- Every piece starts within the data. -/
theorem piece_start_lt {i : ℕ} (hi : i < t.numPieces) :
    (i : ℤ) * t.pieceLength.toInt < t.totalLength := by
  have h0 := h.totalLength_nonneg
  have hpl := h.pieceLength_pos
  rw [h.numPieces_eq, ← h.totalLength_eq] at hi
  unfold expectedPieces at hi
  split_ifs at hi with hz
  · omega
  · have hdiv : i ≤ (t.totalLength.toNat - 1) / t.pieceLength.toInt.toNat := by omega
    have hmul : i * t.pieceLength.toInt.toNat ≤ t.totalLength.toNat - 1 :=
      (Nat.le_div_iff_mul_le (by omega)).1 hdiv
    have hcast : ((i * t.pieceLength.toInt.toNat : ℕ) : ℤ) = (i : ℤ) * t.pieceLength.toInt := by
      rw [Nat.cast_mul, Int.toNat_of_nonneg hpl.le]
    omega

/-- The pieces cover the data. -/
theorem totalLength_le : t.totalLength ≤ (t.numPieces : ℤ) * t.pieceLength.toInt := by
  have h0 := h.totalLength_nonneg
  have hpl := h.pieceLength_pos
  rw [h.numPieces_eq, ← h.totalLength_eq]
  unfold expectedPieces
  split_ifs with hz
  · simp [hz]
  · have hlt := Nat.lt_mul_div_succ (t.totalLength.toNat - 1)
      (show 0 < t.pieceLength.toInt.toNat by omega)
    set q := (t.totalLength.toNat - 1) / t.pieceLength.toInt.toNat
    have hcast : ((t.pieceLength.toInt.toNat * (q + 1) : ℕ) : ℤ) =
        ((1 + q : ℕ) : ℤ) * t.pieceLength.toInt := by
      rw [Nat.cast_mul, Int.toNat_of_nonneg hpl.le, mul_comm, add_comm q 1]
    omega

end TorrentInfo.Accepted

end Gush
