import Gush.Downloader.Messages

/-!
# What the functions leave alone

`Frame` relates two states that differ in nothing but pending requests, request flags, connections
and the endgame flag. Everything that manages requests stays within it; the lemmas here say so, and
how flags and pending requests change.
-/

namespace Gush.Downloader

open Cxx Posix

/-! ### Piece states -/

section PieceStates

variable (d : Downloader)

theorem pieceState_modifyPiece (i j : ℕ) (f : PieceState → PieceState) :
    (d.modifyPiece i f).pieceState j =
      if i = j ∧ j < d.pieceStates.length then f (d.pieceState j) else d.pieceState j := by
  unfold pieceState modifyPiece
  simp only [List.getD_eq_getElem?_getD, List.getElem?_modify]
  by_cases hj : j < d.pieceStates.length
  · by_cases hij : i = j <;> simp [hj, hij]
  · simp [hj]

theorem pieceState_of_le {i : ℕ} (h : d.pieceStates.length ≤ i) : d.pieceState i = {} := by
  simp [pieceState, List.getD_eq_getElem?_getD, h]

theorem blockCount_of_le {i : ℕ} (h : d.pieceStates.length ≤ i) : d.blockCount i = 0 := by
  rw [blockCount, pieceState_of_le d h]
  rfl

theorem lt_of_lt_blockCount {i b : ℕ} (h : b < d.blockCount i) : i < d.pieceStates.length := by
  by_contra hle
  rw [blockCount_of_le d (not_lt.1 hle)] at h
  omega

/-- Only the pieces of the torrent have blocks. -/
theorem WellFormed.lt_numPieces {d : Downloader} (hd : d.WellFormed) {i b : ℕ}
    (h : b < d.blockCount i) : i < d.torrent.numPieces :=
  hd.states_length ▸ lt_of_lt_blockCount d h

end PieceStates

/-! ### The frame -/

/-- Two states that agree on everything but requests, connections and the endgame flag. -/
structure Frame (d d' : Downloader) : Prop where
  torrent : d'.torrent = d.torrent
  options : d'.options = d.options
  piecesCompleted : d'.piecesCompleted = d.piecesCompleted
  piecesCompletedCount : d'.piecesCompletedCount = d.piecesCompletedCount
  downloadedBytes : d'.downloadedBytes = d.downloadedBytes
  outputFiles : d'.outputFiles = d.outputFiles
  world : d'.world = d.world
  states_length : d'.pieceStates.length = d.pieceStates.length
  blocksReceived : ∀ i, (d'.pieceState i).blocksReceived = (d.pieceState i).blocksReceived
  totalBlocks : ∀ i, (d'.pieceState i).totalBlocks = (d.pieceState i).totalBlocks
  receivedBlocks : ∀ i, (d'.pieceState i).receivedBlocks = (d.pieceState i).receivedBlocks
  requested_length : ∀ i,
    (d'.pieceState i).blocksRequested.length = (d.pieceState i).blocksRequested.length

namespace Frame

variable {d d' d'' : Downloader}

theorem refl (d : Downloader) : Frame d d := by
  constructor <;> simp

theorem trans (h : Frame d d') (h' : Frame d' d'') : Frame d d'' where
  torrent := h'.torrent.trans h.torrent
  options := h'.options.trans h.options
  piecesCompleted := h'.piecesCompleted.trans h.piecesCompleted
  piecesCompletedCount := h'.piecesCompletedCount.trans h.piecesCompletedCount
  downloadedBytes := h'.downloadedBytes.trans h.downloadedBytes
  outputFiles := h'.outputFiles.trans h.outputFiles
  world := h'.world.trans h.world
  states_length := h'.states_length.trans h.states_length
  blocksReceived := fun i => (h'.blocksReceived i).trans (h.blocksReceived i)
  totalBlocks := fun i => (h'.totalBlocks i).trans (h.totalBlocks i)
  receivedBlocks := fun i => (h'.receivedBlocks i).trans (h.receivedBlocks i)
  requested_length := fun i => (h'.requested_length i).trans (h.requested_length i)

theorem blockReceived (h : Frame d d') (i b : ℕ) : d'.blockReceived i b = d.blockReceived i b := by
  rw [Downloader.blockReceived, Downloader.blockReceived, h.blocksReceived]

theorem blockCount (h : Frame d d') (i : ℕ) : d'.blockCount i = d.blockCount i := by
  rw [Downloader.blockCount, Downloader.blockCount, h.totalBlocks]

theorem wellFormed (h : Frame d d') (hd : d.WellFormed) : d'.WellFormed where
  completed_length := by rw [h.piecesCompleted, h.torrent, hd.completed_length]
  states_length := by rw [h.states_length, h.torrent, hd.states_length]
  totalBlocks := by
    intro i hi
    rw [h.torrent] at hi ⊢
    rw [h.totalBlocks, hd.totalBlocks i hi]
  requested_length := by
    intro i
    rw [h.requested_length, h.blockCount, hd.requested_length]
  received_length := by
    intro i
    rw [h.blocksReceived, h.blockCount, hd.received_length]

end Frame

/-! ### Flags -/

theorem frame_setRequested (d : Downloader) (i b : ℕ) (value : Bool) :
    Frame d (d.setRequested i b value) := by
  constructor
  case states_length => simp [setRequested, modifyPiece]
  case blocksReceived | totalBlocks | receivedBlocks | requested_length =>
    intro j
    rw [setRequested, pieceState_modifyPiece]
    split_ifs <;> simp
  all_goals rfl

theorem blockRequested_setRequested (d : Downloader) (i b j c : ℕ) (value : Bool) :
    (d.setRequested i b value).blockRequested j c =
      if i = j ∧ b = c ∧ c < (d.pieceState j).blocksRequested.length then value
      else d.blockRequested j c := by
  have hlen : ∀ k, (d.pieceState k).blocksRequested.length ≠ 0 → k < d.pieceStates.length := by
    intro k hk
    by_contra hle
    rw [pieceState_of_le d (not_lt.1 hle)] at hk
    exact hk rfl
  rw [blockRequested, setRequested, pieceState_modifyPiece, blockRequested]
  by_cases hij : i = j
  · by_cases hj : j < d.pieceStates.length
    · rw [if_pos ⟨hij, hj⟩]
      simp only [List.getD_eq_getElem?_getD, List.getElem?_set]
      by_cases hbc : b = c
      · subst hbc
        by_cases hlt : b < (d.pieceState j).blocksRequested.length <;> simp [hij, hlt]
      · simp [hbc]
    · rw [if_neg (fun h => hj h.2), if_neg (fun h => hj (hlen j (by omega)))]
  · rw [if_neg (fun h => hij h.1), if_neg (fun h => hij h.1)]

/-- The block at an offset of a piece. -/
def blockAt (pieceIndex offset : ℕ) : ℕ × ℕ := (pieceIndex, offset / blockSize)

theorem frame_clearRequested (d : Downloader) (pieceIndex offset : ℕ) :
    Frame d (d.clearRequested pieceIndex offset) := by
  unfold clearRequested
  simp only
  split_ifs
  · exact frame_setRequested _ _ _ _
  · exact .refl d

@[simp] theorem pendingRequests_clearRequested (d : Downloader) (pieceIndex offset : ℕ) :
    (d.clearRequested pieceIndex offset).pendingRequests = d.pendingRequests := by
  unfold clearRequested
  simp only
  split_ifs <;> rfl

/-- Clearing works whether or not there is such a block: flags beyond the last block are off. -/
theorem blockRequested_clearRequested {d : Downloader} (hd : d.WellFormed)
    (pieceIndex offset j c : ℕ) :
    (d.clearRequested pieceIndex offset).blockRequested j c =
      (d.blockRequested j c && decide (blockAt pieceIndex offset ≠ (j, c))) := by
  have hoff : ¬ c < (d.pieceState j).blocksRequested.length → d.blockRequested j c = false := by
    intro h
    simp [blockRequested, List.getD_eq_getElem?_getD, not_lt.1 h]
  unfold clearRequested
  simp only
  split_ifs with hlt
  · rw [blockRequested_setRequested]
    by_cases hlen : c < (d.pieceState j).blocksRequested.length
    · by_cases hblock : pieceIndex = j ∧ offset / blockSize = c
      · rw [if_pos ⟨hblock.1, hblock.2, hlen⟩]
        simp [blockAt, hblock.1, hblock.2]
      · rw [if_neg (fun h => hblock ⟨h.1, h.2.1⟩)]
        have hne : blockAt pieceIndex offset ≠ (j, c) :=
          fun h => hblock (Prod.mk.inj h)
        simp [hne]
    · rw [if_neg (fun h => hlen h.2.2), hoff hlen]
      rfl
  · by_cases hblock : blockAt pieceIndex offset = (j, c)
    · obtain ⟨rfl, rfl⟩ := Prod.mk.inj hblock
      rw [hoff]
      · rfl
      · rw [hd.requested_length, blockCount, Int.lt_toNat]
        exact hlt
    · simp [hblock]

theorem frame_disconnect (d : Downloader) (ptr : ℕ) : Frame d (d.disconnect ptr) := by
  constructor <;> intros <;> rfl

theorem frame_sendCancel (d : Downloader) (ptr : ℕ) (failing : List ℕ) :
    Frame d (d.sendCancel ptr failing) := by
  unfold sendCancel
  split_ifs
  · exact frame_disconnect d ptr
  · exact .refl d

/-! ### Erasing requests -/

theorem eraseLoop_eq (selected : BlockRequest → Bool)
    (onErase : BlockRequest → Downloader → Downloader) (reqs : List BlockRequest) :
    ∀ d, eraseLoop selected onErase reqs d =
      (reqs.filter fun req => !selected req,
        (reqs.filter selected).foldl (fun d req => onErase req d) d) := by
  induction reqs with
  | nil => exact fun d => rfl
  | cons req reqs ih =>
    intro d
    rw [eraseLoop]
    by_cases hsel : selected req = true
    · rw [if_pos hsel, ih]
      simp [hsel]
    · rw [if_neg hsel, ih]
      simp [hsel]

/-- What is done for an erased request clears the flag of its block, and may disconnect peers. -/
structure Clears (selected : BlockRequest → Bool)
    (onErase : BlockRequest → Downloader → Downloader) : Prop where
  frame : ∀ req d, Frame d (onErase req d)
  blockRequested : ∀ req d, selected req = true → d.WellFormed → ∀ j c,
    (onErase req d).blockRequested j c =
      (d.blockRequested j c && decide (blockAt req.pieceIndex req.offset ≠ (j, c)))

section Clears

variable {selected : BlockRequest → Bool} {onErase : BlockRequest → Downloader → Downloader}

theorem Clears.frame_foldl (h : Clears selected onErase) (reqs : List BlockRequest) :
    ∀ d, Frame d (reqs.foldl (fun d req => onErase req d) d) := by
  induction reqs with
  | nil => exact fun d => .refl d
  | cons req reqs ih => exact fun d => (h.frame req d).trans (ih _)

theorem Clears.blockRequested_foldl (h : Clears selected onErase) (reqs : List BlockRequest) :
    ∀ d : Downloader, d.WellFormed → (∀ req ∈ reqs, selected req = true) → ∀ j c,
      (reqs.foldl (fun d req => onErase req d) d).blockRequested j c =
        (d.blockRequested j c &&
          !reqs.any fun req => decide (blockAt req.pieceIndex req.offset = (j, c))) := by
  induction reqs with
  | nil => simp
  | cons req reqs ih =>
    intro d hd hsel j c
    rw [List.foldl_cons, ih _ ((h.frame req d).wellFormed hd)
      (fun r hr => hsel r (List.mem_cons_of_mem req hr)),
      h.blockRequested req d (hsel req List.mem_cons_self) hd, List.any_cons, Bool.not_or]
    simp [Bool.and_assoc]

/-- Erasing stays within the frame. -/
theorem Clears.frame_eraseRequests (h : Clears selected onErase) (d : Downloader) :
    Frame d (d.eraseRequests selected onErase) := by
  rw [eraseRequests, eraseLoop_eq]
  exact (h.frame_foldl _ d).trans (by constructor <;> intros <;> rfl)

theorem pendingRequests_eraseRequests (d : Downloader) :
    (d.eraseRequests selected onErase).pendingRequests =
      d.pendingRequests.filter fun req => !selected req := by
  rw [eraseRequests, eraseLoop_eq]

/-- Erasing clears the flags of the blocks of erased requests, and no others. -/
theorem Clears.blockRequested_eraseRequests (h : Clears selected onErase) {d : Downloader}
    (hd : d.WellFormed) (j c : ℕ) :
    (d.eraseRequests selected onErase).blockRequested j c =
      (d.blockRequested j c && !d.pendingRequests.any fun req =>
        selected req && decide (blockAt req.pieceIndex req.offset = (j, c))) := by
  have hfold := h.blockRequested_foldl (d.pendingRequests.filter selected) d hd
    (fun req hreq => (List.mem_filter.1 hreq).2) j c
  rw [List.any_filter] at hfold
  rw [← hfold, eraseRequests, eraseLoop_eq]
  rfl

end Clears

/-- Timed out requests and those of a peer are erased with the flag of their own block. -/
theorem clears_own (selected : BlockRequest → Bool) :
    Clears selected fun req d => d.clearRequested req.pieceIndex req.offset where
  frame := fun req d => frame_clearRequested d req.pieceIndex req.offset
  blockRequested := fun req _ _ hd => blockRequested_clearRequested hd req.pieceIndex req.offset

/-- So are the duplicates of a block. -/
theorem clears_duplicates (pieceIndex offset keep : ℕ) (failing : List ℕ) :
    Clears
      (fun req => decide (req.pieceIndex = pieceIndex ∧ req.offset = offset ∧ req.peer ≠ keep))
      fun req d => (d.sendCancel req.peer failing).clearRequested pieceIndex offset where
  frame := fun req d =>
    (frame_sendCancel d req.peer failing).trans (frame_clearRequested _ pieceIndex offset)
  blockRequested := by
    intro req d hsel hd j c
    obtain ⟨rfl, rfl, -⟩ := of_decide_eq_true hsel
    have hsend : (d.sendCancel req.peer failing).blockRequested j c = d.blockRequested j c := by
      unfold sendCancel
      split_ifs <;> rfl
    rw [blockRequested_clearRequested ((frame_sendCancel d req.peer failing).wellFormed hd), hsend]

/-! ### The shape of the piece states -/

/-- A change of a piece state that keeps the number of blocks and of flags. -/
structure KeepsShape (f : PieceState → PieceState) : Prop where
  totalBlocks : ∀ s, (f s).totalBlocks = s.totalBlocks
  requested_length : ∀ s : PieceState, s.blocksRequested.length = s.totalBlocks.toNat →
    (f s).blocksRequested.length = s.totalBlocks.toNat
  received_length : ∀ s : PieceState, s.blocksReceived.length = s.totalBlocks.toNat →
    (f s).blocksReceived.length = s.totalBlocks.toNat

theorem blockCount_modifyPiece {f : PieceState → PieceState} (hf : KeepsShape f) (d : Downloader)
    (i j : ℕ) : (d.modifyPiece i f).blockCount j = d.blockCount j := by
  rw [blockCount, blockCount, pieceState_modifyPiece]
  split_ifs
  · rw [hf.totalBlocks]
  · rfl

theorem WellFormed.modifyPiece {d : Downloader} (hd : d.WellFormed) (i : ℕ)
    {f : PieceState → PieceState} (hf : KeepsShape f) : (d.modifyPiece i f).WellFormed where
  completed_length := hd.completed_length
  states_length := by simpa [Downloader.modifyPiece] using hd.states_length
  totalBlocks := by
    intro j hj
    rw [pieceState_modifyPiece]
    split_ifs
    · rw [hf.totalBlocks]
      exact hd.totalBlocks j hj
    · exact hd.totalBlocks j hj
  requested_length := by
    intro j
    rw [blockCount_modifyPiece hf, pieceState_modifyPiece]
    split_ifs
    · exact hf.requested_length _ (hd.requested_length j)
    · exact hd.requested_length j
  received_length := by
    intro j
    rw [blockCount_modifyPiece hf, pieceState_modifyPiece]
    split_ifs
    · exact hf.received_length _ (hd.received_length j)
    · exact hd.received_length j

/-- The shape depends on the torrent, the completion flags and the piece states only. -/
theorem WellFormed.congr {d d' : Downloader} (hd : d.WellFormed) (htorrent : d'.torrent = d.torrent)
    (hcompleted : d'.piecesCompleted.length = d.piecesCompleted.length)
    (hstates : d'.pieceStates = d.pieceStates) : d'.WellFormed := by
  have hstate : ∀ i, d'.pieceState i = d.pieceState i := by
    intro i
    rw [pieceState, pieceState, hstates]
  constructor
  · rw [hcompleted, htorrent, hd.completed_length]
  · rw [hstates, htorrent, hd.states_length]
  · intro i hi
    rw [htorrent] at hi ⊢
    rw [hstate, hd.totalBlocks i hi]
  · intro i
    rw [blockCount, hstate]
    exact hd.requested_length i
  · intro i
    rw [blockCount, hstate]
    exact hd.received_length i

/-! ### Blocks that arrive -/

theorem keepsShape_accept (b : ℕ) : KeepsShape fun state => { state with
    blocksReceived := state.blocksReceived.set b true
    receivedBlocks := int32 (state.receivedBlocks + 1) } := by
  constructor <;> intros <;> simp_all

theorem keepsShape_reset (requested received : Bool) (n : PieceState → ℤ) :
    KeepsShape fun state => { state with
      blocksRequested := List.replicate state.totalBlocks.toNat requested
      blocksReceived := List.replicate state.totalBlocks.toNat received
      receivedBlocks := n state } := by
  constructor <;> intros <;> simp_all

section Accept

variable (d : Downloader) (pieceIndex offset ptr : ℕ) (blockData : Bytes)

theorem pendingRequests_acceptBlock :
    (d.acceptBlock pieceIndex offset ptr blockData).pendingRequests =
      (d.eraseAnswered pieceIndex offset ptr).pendingRequests := rfl

theorem blockCount_acceptBlock (i : ℕ) :
    (d.acceptBlock pieceIndex offset ptr blockData).blockCount i = d.blockCount i :=
  blockCount_modifyPiece (keepsShape_accept _) _ _ _

theorem blockRequested_acceptBlock (j c : ℕ) :
    (d.acceptBlock pieceIndex offset ptr blockData).blockRequested j c = d.blockRequested j c := by
  rw [blockRequested, acceptBlock, pieceState_modifyPiece]
  split_ifs <;> rfl

variable {d offset}

theorem blockReceived_acceptBlock (hd : d.WellFormed)
    (h : offset / blockSize < d.blockCount pieceIndex) (j c : ℕ) :
    (d.acceptBlock pieceIndex offset ptr blockData).blockReceived j c =
      if blockAt pieceIndex offset = (j, c) then true else d.blockReceived j c := by
  have hstates := lt_of_lt_blockCount d h
  have hlen := hd.received_length pieceIndex
  rw [blockReceived, acceptBlock, pieceState_modifyPiece]
  by_cases hj : pieceIndex = j
  · subst hj
    rw [if_pos ⟨rfl, hstates⟩]
    show ((d.pieceState pieceIndex).blocksReceived.set (offset / blockSize) true).getD c false = _
    simp only [List.getD_eq_getElem?_getD, List.getElem?_set]
    by_cases hc : offset / blockSize = c
    · rw [if_pos hc, if_pos (by rw [hlen]; exact h), if_pos (by rw [blockAt, hc])]
      rfl
    · have hne : blockAt pieceIndex offset ≠ (pieceIndex, c) := fun heq => hc (Prod.mk.inj heq).2
      rw [if_neg hc, if_neg hne, blockReceived, List.getD_eq_getElem?_getD]
  · have hne : blockAt pieceIndex offset ≠ (j, c) := fun heq => hj (Prod.mk.inj heq).1
    rw [if_neg (fun h => hj h.1), if_neg hne]
    rfl

theorem wellFormed_acceptBlock (hd : d.WellFormed) :
    (d.acceptBlock pieceIndex offset ptr blockData).WellFormed := by
  rw [acceptBlock]
  apply WellFormed.modifyPiece _ pieceIndex (keepsShape_accept _)
  exact hd.congr rfl rfl rfl

end Accept

section Fail

variable (d : Downloader) (pieceIndex : ℕ)

theorem pendingRequests_failPiece : (d.failPiece pieceIndex).pendingRequests =
    d.pendingRequests.filter fun req => req.pieceIndex ≠ pieceIndex := rfl

theorem blockCount_failPiece (i : ℕ) : (d.failPiece pieceIndex).blockCount i = d.blockCount i :=
  blockCount_modifyPiece (keepsShape_reset false false fun _ => 0) _ _ _

/-- A failed piece starts anew. -/
theorem pieceState_failPiece (h : pieceIndex < d.pieceStates.length) (j : ℕ) :
    (d.failPiece pieceIndex).pieceState j = if pieceIndex = j then
      { d.pieceState j with
        blocksRequested := List.replicate (d.pieceState j).totalBlocks.toNat false
        blocksReceived := List.replicate (d.pieceState j).totalBlocks.toNat false
        receivedBlocks := 0 }
      else d.pieceState j := by
  show (d.modifyPiece pieceIndex _).pieceState j = _
  rw [pieceState_modifyPiece]
  by_cases hj : pieceIndex = j
  · rw [if_pos ⟨hj, hj ▸ h⟩, if_pos hj]
  · rw [if_neg fun h' => hj h'.1, if_neg hj]

/-- All flags of the piece are off, those of the others are as they were. -/
theorem flags_failPiece (h : pieceIndex < d.pieceStates.length) (j c : ℕ) :
    (d.failPiece pieceIndex).blockRequested j c =
        (if pieceIndex = j then false else d.blockRequested j c) ∧
      (d.failPiece pieceIndex).blockReceived j c =
        (if pieceIndex = j then false else d.blockReceived j c) := by
  rw [blockRequested, blockReceived, pieceState_failPiece d pieceIndex h]
  by_cases hj : pieceIndex = j
  · rw [if_pos hj, if_pos hj, if_pos hj]
    simp [List.getD_eq_getElem?_getD, List.getElem?_replicate]
    split_ifs <;> rfl
  · rw [if_neg hj, if_neg hj, if_neg hj]
    exact ⟨rfl, rfl⟩

theorem wellFormed_failPiece {d : Downloader} (hd : d.WellFormed) :
    (d.failPiece pieceIndex).WellFormed :=
  (hd.modifyPiece pieceIndex (keepsShape_reset false false fun _ => 0)).congr rfl rfl rfl

end Fail

/-- The check of a piece: it misses blocks, or it is valid, or it has failed. -/
theorem checkPiece_eq (sha1 : Bytes → Bytes) (d : Downloader) (pieceIndex : ℕ) :
    ((d.pieceState pieceIndex).receivedBlocks < (d.pieceState pieceIndex).totalBlocks ∧
      d.checkPiece sha1 pieceIndex = d) ∨
    ((d.pieceState pieceIndex).receivedBlocks ≥ (d.pieceState pieceIndex).totalBlocks ∧
      ∃ world, (verifyPiece sha1 d pieceIndex = (true, world) ∧ d.checkPiece sha1 pieceIndex = { d with
          world
          piecesCompleted := d.piecesCompleted.set pieceIndex true
          piecesCompletedCount := d.piecesCompletedCount + 1 }) ∨
        (verifyPiece sha1 d pieceIndex = (false, world) ∧
          d.checkPiece sha1 pieceIndex = failPiece { d with world } pieceIndex)) := by
  unfold checkPiece
  split_ifs with hfull
  · refine .inr ⟨hfull, ?_⟩
    split
    · rename_i world hvalid
      exact ⟨world, .inl ⟨hvalid, rfl⟩⟩
    · rename_i world hinvalid
      exact ⟨world, .inr ⟨hinvalid, rfl⟩⟩
  · exact .inl ⟨not_le.1 hfull, rfl⟩

/-- The check leaves requests and flags alone, or the piece has failed it. -/
theorem checkPiece_cases (sha1 : Bytes → Bytes) (d : Downloader) (pieceIndex : ℕ) :
    ((d.checkPiece sha1 pieceIndex).pendingRequests = d.pendingRequests ∧
      (d.checkPiece sha1 pieceIndex).pieceStates = d.pieceStates ∧
      (d.checkPiece sha1 pieceIndex).torrent = d.torrent ∧
      (d.checkPiece sha1 pieceIndex).options = d.options ∧
      (d.checkPiece sha1 pieceIndex).piecesCompleted.length = d.piecesCompleted.length) ∨
    ∃ world, d.checkPiece sha1 pieceIndex = failPiece { d with world } pieceIndex := by
  rcases checkPiece_eq sha1 d pieceIndex with ⟨-, heq⟩ | ⟨-, world, ⟨-, heq⟩ | ⟨-, heq⟩⟩
  · rw [heq]
    exact .inl ⟨rfl, rfl, rfl, rfl, rfl⟩
  · rw [heq]
    exact .inl ⟨rfl, rfl, rfl, rfl, by simp⟩
  · exact .inr ⟨world, heq⟩

theorem wellFormed_checkPiece {s : Downloader} (hs : s.WellFormed) (sha1 : Bytes → Bytes) (i : ℕ) :
    (s.checkPiece sha1 i).WellFormed := by
  rcases checkPiece_cases sha1 s i with ⟨-, hstates, htorrent, -, hcompleted⟩ | ⟨world, heq⟩
  · exact hs.congr htorrent hcompleted hstates
  · rw [heq]
    exact wellFormed_failPiece i (hs.congr rfl rfl rfl)

/-! ### Asking -/

theorem frame_addRequest (d : Downloader) (pieceIndex i ptr : ℕ) (now : ℤ) :
    Frame d (d.addRequest pieceIndex i ptr now) :=
  (frame_setRequested d pieceIndex i true).trans (by constructor <;> intros <;> rfl)

theorem frame_requestLoop (pieceIndex ptr : ℕ) (now : ℤ) (blocks : List ℕ) :
    ∀ (currentRequests : ℤ) (sends : List Bool) (d : Downloader),
      Frame d (requestLoop pieceIndex ptr now blocks currentRequests sends d) := by
  induction blocks with
  | nil => exact fun _ _ d => .refl d
  | cons i blocks ih =>
    intro currentRequests sends d
    rw [requestLoop]
    split_ifs
    · exact .refl d
    · exact ih _ _ d
    · exact ih _ _ d
    · exact (frame_addRequest d pieceIndex i ptr now).trans (ih _ _ _)
    · exact frame_disconnect d ptr

theorem frame_requestBlocksFromPeer (d : Downloader) (ptr : ℕ) (sends : List Bool) (now : ℤ) :
    Frame d (d.requestBlocksFromPeer ptr sends now) := by
  unfold requestBlocksFromPeer
  split
  · exact .refl d
  · exact frame_requestLoop _ _ _ _ _ _ d

/-- The loop only adds requests to the list, for some of its blocks in order. -/
theorem requestLoop_pending {i ptr : ℕ} {now : ℤ} {blocks : List ℕ} :
    ∀ (currentRequests : ℤ) (sends : List Bool) (d : Downloader), ∃ asked : List ℕ,
      asked.Sublist blocks ∧
      (requestLoop i ptr now blocks currentRequests sends d).pendingRequests =
        d.pendingRequests ++ asked.map (requestFor d.torrent i ptr now) := by
  induction blocks with
  | nil => exact fun _ _ d => ⟨[], .slnil, by simp [requestLoop]⟩
  | cons b blocks ih =>
    intro currentRequests sends d
    rw [requestLoop]
    split_ifs
    · exact ⟨[], List.nil_sublist _, by simp⟩
    · obtain ⟨asked, hsub, hpending⟩ := ih currentRequests sends d
      exact ⟨asked, hsub.cons b, hpending⟩
    · obtain ⟨asked, hsub, hpending⟩ := ih currentRequests sends d
      exact ⟨asked, hsub.cons b, hpending⟩
    · obtain ⟨asked, hsub, hpending⟩ := ih (currentRequests + 1) sends.tail
        (d.addRequest i b ptr now)
      refine ⟨b :: asked, hsub.cons_cons b, hpending.trans ?_⟩
      show (d.pendingRequests ++ [requestFor d.torrent i ptr now b]) ++
        asked.map (requestFor d.torrent i ptr now) = _
      simp
    · exact ⟨[], List.nil_sublist _, by simp [disconnect]⟩

/-! ### The request that a block answers -/

theorem answers_iff {pieceIndex offset ptr : ℕ} {req : BlockRequest} :
    answers pieceIndex offset ptr req = true ↔
      req.pieceIndex = pieceIndex ∧ req.offset = offset ∧ req.peer = ptr := by
  simp [answers]

/-- The request that is found is the one that is erased. -/
theorem find_answered {d : Downloader} {pieceIndex offset ptr : ℕ} {req : BlockRequest}
    (h : d.pendingRequests.find? (answers pieceIndex offset ptr) = some req) :
    req.pieceIndex = pieceIndex ∧ req.offset = offset ∧ req.peer = ptr ∧
      ∃ before after, d.pendingRequests = before ++ req :: after ∧
        (d.eraseAnswered pieceIndex offset ptr).pendingRequests = before ++ after := by
  obtain ⟨hreq, before, after, hsplit, hbefore⟩ := List.find?_eq_some_iff_append.1 h
  obtain ⟨hpiece, hoffset, hpeer⟩ := answers_iff.1 hreq
  refine ⟨hpiece, hoffset, hpeer, before, after, hsplit, ?_⟩
  show d.pendingRequests.eraseP (answers pieceIndex offset ptr) = before ++ after
  rw [hsplit, List.eraseP_append_right _ fun b hb => by simpa using hbefore b hb,
    List.eraseP_cons_of_pos hreq]

/-- The state after an accepted block, its check and the cancelling of its duplicates. -/
def settled (sha1 : Bytes → Bytes) (d : Downloader) (pieceIndex offset ptr : ℕ) (blockData : Bytes)
    (failing : List ℕ) : Downloader :=
  ((d.acceptBlock pieceIndex offset ptr blockData).checkPiece sha1
    pieceIndex).cancelDuplicateRequests pieceIndex offset ptr failing

/-- A block that answers a request, has the right length, and is missing is settled. -/
theorem handleBlock_of_missing {sha1 : Bytes → Bytes} {d : Downloader} {ptr : ℕ} {payload : Bytes}
    {failing : List ℕ} {req : BlockRequest} (hheader : 8 ≤ payload.length)
    (hfind : d.pendingRequests.find?
      (answers (bytesToInt payload) (bytesToInt (payload.drop 4)) ptr) = some req)
    (hlength : (payload.drop 8).length = req.length)
    (hinside : ((bytesToInt (payload.drop 4) / blockSize : ℕ) : ℤ) <
      (d.pieceState (bytesToInt payload)).totalBlocks)
    (hmissing : d.blockReceived (bytesToInt payload)
      (bytesToInt (payload.drop 4) / blockSize) = false) :
    d.handleBlock sha1 ptr payload failing = settled sha1 d (bytesToInt payload)
      (bytesToInt (payload.drop 4)) ptr (payload.drop 8) failing := by
  have hnew : ¬ (((bytesToInt (payload.drop 4) / blockSize : ℕ) : ℤ) ≥
      (d.pieceState (bytesToInt payload)).totalBlocks ∨
      d.blockReceived (bytesToInt payload) (bytesToInt (payload.drop 4) / blockSize) = true) := by
    rw [not_or, hmissing]
    exact ⟨not_le.2 hinside, by decide⟩
  rw [handleBlock, if_neg (not_lt.2 hheader)]
  simp only [hfind]
  rw [if_neg (not_not.2 hlength), if_neg hnew]
  rfl

/-- What a `Block` message does: nothing, unless it answers a request. Then the request goes, because
the length is wrong, because the block is there already, or because the block is accepted. -/
theorem handleBlock_cases (sha1 : Bytes → Bytes) (d : Downloader) (ptr : ℕ) (payload : Bytes)
    (failing : List ℕ) :
    d.handleBlock sha1 ptr payload failing = d ∨
    ∃ pieceIndex offset blockData req,
      d.pendingRequests.find? (answers pieceIndex offset ptr) = some req ∧
      ((blockData.length ≠ req.length ∧ d.handleBlock sha1 ptr payload failing =
          (d.clearRequested pieceIndex offset).eraseAnswered pieceIndex offset ptr) ∨
        (blockData.length = req.length ∧
          (((offset / blockSize : ℕ) : ℤ) ≥ (d.pieceState pieceIndex).totalBlocks ∨
            d.blockReceived pieceIndex (offset / blockSize) = true) ∧
          d.handleBlock sha1 ptr payload failing = d.eraseAnswered pieceIndex offset ptr) ∨
        (blockData.length = req.length ∧
          ((offset / blockSize : ℕ) : ℤ) < (d.pieceState pieceIndex).totalBlocks ∧
          d.blockReceived pieceIndex (offset / blockSize) = false ∧
          d.handleBlock sha1 ptr payload failing =
            settled sha1 d pieceIndex offset ptr blockData failing)) := by
  by_cases hshort : payload.length < 8
  · exact .inl (by rw [handleBlock, if_pos hshort])
  · cases hfind : d.pendingRequests.find?
        (answers (bytesToInt payload) (bytesToInt (payload.drop 4)) ptr) with
    | none =>
      refine .inl ?_
      rw [handleBlock, if_neg hshort]
      simp only [hfind]
    | some req =>
      refine .inr ⟨_, _, payload.drop 8, req, hfind, ?_⟩
      -- the checks in the order of the source: length first, then index and duplicate
      by_cases hlength : (payload.drop 8).length = req.length
      · by_cases hdone : ((bytesToInt (payload.drop 4) / blockSize : ℕ) : ℤ) ≥
            (d.pieceState (bytesToInt payload)).totalBlocks ∨
            d.blockReceived (bytesToInt payload) (bytesToInt (payload.drop 4) / blockSize) = true
        · refine .inr (.inl ⟨hlength, hdone, ?_⟩)
          rw [handleBlock, if_neg hshort]
          simp only [hfind]
          rw [if_neg (not_not.2 hlength), if_pos hdone]
        · have hboth := not_or.1 hdone
          have hinside := not_le.1 hboth.1
          have hmissing := Bool.eq_false_of_not_eq_true hboth.2
          exact .inr (.inr ⟨hlength, hinside, hmissing,
            handleBlock_of_missing (not_lt.1 hshort) hfind hlength hinside hmissing⟩)
      · refine .inl ⟨hlength, ?_⟩
        rw [handleBlock, if_neg hshort]
        simp only [hfind]
        rw [if_pos hlength]

/-! ### What a run never changes -/

theorem checkPiece_fields (sha1 : Bytes → Bytes) (d : Downloader) (pieceIndex : ℕ) :
    (d.checkPiece sha1 pieceIndex).torrent = d.torrent ∧
      (d.checkPiece sha1 pieceIndex).options = d.options ∧
      (d.checkPiece sha1 pieceIndex).outputFiles = d.outputFiles := by
  rcases checkPiece_eq sha1 d pieceIndex with ⟨-, heq⟩ | ⟨-, world, ⟨-, heq⟩ | ⟨-, heq⟩⟩ <;>
    rw [heq] <;> exact ⟨rfl, rfl, rfl⟩

theorem settled_fields (sha1 : Bytes → Bytes) (d : Downloader) (pieceIndex offset ptr : ℕ)
    (blockData : Bytes) (failing : List ℕ) :
    (settled sha1 d pieceIndex offset ptr blockData failing).torrent = d.torrent ∧
      (settled sha1 d pieceIndex offset ptr blockData failing).options = d.options ∧
      (settled sha1 d pieceIndex offset ptr blockData failing).outputFiles = d.outputFiles := by
  have hframe := (clears_duplicates pieceIndex offset ptr failing).frame_eraseRequests
    ((d.acceptBlock pieceIndex offset ptr blockData).checkPiece sha1 pieceIndex)
  obtain ⟨htorrent, hoptions, hfiles⟩ :=
    checkPiece_fields sha1 (d.acceptBlock pieceIndex offset ptr blockData) pieceIndex
  exact ⟨hframe.torrent.trans htorrent, hframe.options.trans hoptions,
    hframe.outputFiles.trans hfiles⟩

theorem step_fields (sha1 : Bytes → Bytes) (d : Downloader) (event : Event) :
    (step sha1 d event).torrent = d.torrent ∧ (step sha1 d event).options = d.options ∧
      (step sha1 d event).outputFiles = d.outputFiles := by
  have hof : ∀ {d' : Downloader}, Frame d d' →
      d'.torrent = d.torrent ∧ d'.options = d.options ∧ d'.outputFiles = d.outputFiles :=
    fun h => ⟨h.torrent, h.options, h.outputFiles⟩
  cases event with
  | connections peers => exact ⟨rfl, rfl, rfl⟩
  | message ptr msg faults failing =>
    show (handleMessage _ _ _ _ _).torrent = _ ∧ (handleMessage _ _ _ _ _).options = _ ∧
      (handleMessage _ _ _ _ _).outputFiles = _
    unfold handleMessage
    split
    · obtain h := (clears_own (fun req => decide (req.peer = ptr))).frame_eraseRequests
        { d with world := { d.world with faults } }
      exact ⟨h.torrent, h.options, h.outputFiles⟩
    · rcases handleBlock_cases sha1 { d with world := { d.world with faults } } ptr msg.payload
          failing with heq | ⟨i, o, data, req, -, ⟨-, heq⟩ | ⟨-, -, heq⟩ | ⟨-, -, -, heq⟩⟩ <;> rw [heq]
      · exact ⟨rfl, rfl, rfl⟩
      · have h := frame_clearRequested { d with world := { d.world with faults } } i o
        exact ⟨h.torrent, h.options, h.outputFiles⟩
      · exact ⟨rfl, rfl, rfl⟩
      · exact settled_fields sha1 _ i o ptr data failing
    · exact ⟨rfl, rfl, rfl⟩
  | request ptr sends now => exact hof (frame_requestBlocksFromPeer d ptr sends now)
  | timeouts now => exact hof ((clears_own _).frame_eraseRequests d)
  | endgame value => exact ⟨rfl, rfl, rfl⟩

/-! ### Restoring -/

/-- What a round does to the piece states, whether the piece is valid or not. -/
theorem restorePiece_states (sha1 : Bytes → Bytes) (d : Downloader) (i : ℕ) :
    (restorePiece sha1 d i).pieceStates = (d.modifyPiece i fun state => { state with
      blocksRequested := List.replicate state.totalBlocks.toNat false
      blocksReceived :=
        List.replicate state.totalBlocks.toNat (verifyPiece sha1 d (uint32 i)).1
      receivedBlocks :=
        if (verifyPiece sha1 d (uint32 i)).1 then state.totalBlocks else 0 }).pieceStates := by
  rw [restorePiece]
  simp only
  split_ifs with h <;> simp [h, modifyPiece]

/-- The fields that a round leaves alone. -/
theorem restorePiece_fields (sha1 : Bytes → Bytes) (d : Downloader) (i : ℕ) :
    (restorePiece sha1 d i).torrent = d.torrent ∧
      (restorePiece sha1 d i).options = d.options ∧
      (restorePiece sha1 d i).outputFiles = d.outputFiles ∧
      (restorePiece sha1 d i).pendingRequests = d.pendingRequests ∧
      (restorePiece sha1 d i).piecesCompleted =
        d.piecesCompleted.set i (verifyPiece sha1 d (uint32 i)).1 := by
  rw [restorePiece]
  simp only
  split_ifs with h <;> simp [h, modifyPiece]

theorem wellFormed_restorePiece {sha1 : Bytes → Bytes} {d : Downloader} (hd : d.WellFormed) (i : ℕ) :
    (restorePiece sha1 d i).WellFormed := by
  obtain ⟨htorrent, -, -, -, hcompleted⟩ := restorePiece_fields sha1 d i
  have hshape : KeepsShape fun state => { state with
      blocksRequested := List.replicate state.totalBlocks.toNat false
      blocksReceived := List.replicate state.totalBlocks.toNat (verifyPiece sha1 d (uint32 i)).1
      receivedBlocks := if (verifyPiece sha1 d (uint32 i)).1 then state.totalBlocks else 0 } :=
    keepsShape_reset _ _ fun state =>
      if (verifyPiece sha1 d (uint32 i)).1 then state.totalBlocks else 0
  refine (hd.modifyPiece i hshape).congr htorrent ?_ (restorePiece_states sha1 d i)
  rw [hcompleted]
  simp [modifyPiece]

/-- A round resets the state of its piece. -/
theorem pieceState_restorePiece (sha1 : Bytes → Bytes) (d : Downloader) {i : ℕ}
    (hi : i < d.pieceStates.length) (j : ℕ) : (restorePiece sha1 d i).pieceState j = if i = j then
      { d.pieceState j with
        blocksRequested := List.replicate (d.pieceState j).totalBlocks.toNat false
        blocksReceived :=
          List.replicate (d.pieceState j).totalBlocks.toNat (verifyPiece sha1 d (uint32 i)).1
        receivedBlocks :=
          if (verifyPiece sha1 d (uint32 i)).1 then (d.pieceState j).totalBlocks else 0 }
      else d.pieceState j := by
  rw [pieceState, restorePiece_states, ← pieceState, pieceState_modifyPiece]
  by_cases hij : i = j
  · rw [if_pos ⟨hij, hij ▸ hi⟩, if_pos hij]
  · rw [if_neg fun h => hij h.1, if_neg hij]

/-- A round sets the completion flag of its piece. -/
theorem pieceCompleted_restorePiece (sha1 : Bytes → Bytes) (d : Downloader) {i : ℕ}
    (hi : i < d.piecesCompleted.length) (j : ℕ) : (restorePiece sha1 d i).pieceCompleted j =
      if i = j then (verifyPiece sha1 d (uint32 i)).1 else d.pieceCompleted j := by
  obtain ⟨-, -, -, -, hcompleted⟩ := restorePiece_fields sha1 d i
  rw [pieceCompleted, hcompleted, List.getD_eq_getElem?_getD]
  by_cases hij : i = j
  · subst hij
    simp [hi]
  · rw [List.getElem?_set_ne hij, if_neg hij, pieceCompleted, List.getD_eq_getElem?_getD]

/-- A round switches all request flags of its piece off. -/
theorem blockRequested_restorePiece (sha1 : Bytes → Bytes) (d : Downloader) (i j c : ℕ) :
    (restorePiece sha1 d i).blockRequested j c = if i = j then false else d.blockRequested j c := by
  by_cases hi : i < d.pieceStates.length
  · rw [blockRequested, pieceState_restorePiece sha1 d hi]
    by_cases hij : i = j
    · rw [if_pos hij, if_pos hij]
      show (List.replicate _ false).getD c false = false
      rw [List.getD_eq_getElem?_getD, List.getElem?_replicate]
      split_ifs <;> rfl
    · rw [if_neg hij, if_neg hij]
      rfl
  · have hnone : (restorePiece sha1 d i).pieceStates = d.pieceStates := by
      rw [restorePiece_states, modifyPiece, List.modify_eq_self (not_lt.1 hi)]
    rw [blockRequested, pieceState, hnone, ← pieceState, ← blockRequested]
    split_ifs with hij
    · rw [blockRequested, ← hij, pieceState_of_le d (not_lt.1 hi)]
      rfl
    · rfl

/-- Restoring keeps the shape and the pending requests. -/
theorem restore_fields (sha1 : Bytes → Bytes) (d : Downloader) (rounds : ℕ) (hd : d.WellFormed) :
    (restoreCompletedPieces sha1 d rounds).WellFormed ∧
      (restoreCompletedPieces sha1 d rounds).torrent = d.torrent ∧
      (restoreCompletedPieces sha1 d rounds).options = d.options ∧
      (restoreCompletedPieces sha1 d rounds).outputFiles = d.outputFiles ∧
      (restoreCompletedPieces sha1 d rounds).pendingRequests = d.pendingRequests := by
  have hfold : ∀ (pieces : List ℕ) (d' : Downloader), d'.WellFormed →
      (pieces.foldl (restorePiece sha1) d').WellFormed ∧
        (pieces.foldl (restorePiece sha1) d').torrent = d'.torrent ∧
        (pieces.foldl (restorePiece sha1) d').options = d'.options ∧
        (pieces.foldl (restorePiece sha1) d').outputFiles = d'.outputFiles ∧
        (pieces.foldl (restorePiece sha1) d').pendingRequests = d'.pendingRequests := by
    intro pieces
    induction pieces with
    | nil => exact fun d' hd' => ⟨hd', rfl, rfl, rfl, rfl⟩
    | cons i pieces ih =>
      intro d' hd'
      obtain ⟨htorrent, hoptions, hfiles, hpending, -⟩ := restorePiece_fields sha1 d' i
      obtain ⟨hwf, h₁, h₂, h₃, h₄⟩ := ih _ (wellFormed_restorePiece hd' i)
      exact ⟨hwf, h₁.trans htorrent, h₂.trans hoptions, h₃.trans hfiles, h₄.trans hpending⟩
  exact hfold _ _ (hd.congr rfl rfl rfl)

/-- After a completed restoring no block is asked for. -/
theorem blockRequested_restore (sha1 : Bytes → Bytes) {d : Downloader} (hd : d.WellFormed)
    (j c : ℕ) :
    (restoreCompletedPieces sha1 d d.torrent.numPieces).blockRequested j c = false := by
  have hkeep : ∀ (pieces : List ℕ) (d' : Downloader), d'.blockRequested j c = false →
      (pieces.foldl (restorePiece sha1) d').blockRequested j c = false := by
    intro pieces
    induction pieces with
    | nil => exact fun d' h => h
    | cons i pieces ih =>
      intro d' h
      apply ih
      rw [blockRequested_restorePiece, h, ite_self]
  have hreset : ∀ (pieces : List ℕ) (d' : Downloader), j ∈ pieces →
      (pieces.foldl (restorePiece sha1) d').blockRequested j c = false := by
    intro pieces
    induction pieces with
    | nil => exact fun d' h => absurd h List.not_mem_nil
    | cons i pieces ih =>
      intro d' h
      rcases List.mem_cons.1 h with rfl | h
      · exact hkeep pieces _ (by rw [blockRequested_restorePiece, if_pos rfl])
      · exact ih _ h
  rw [restoreCompletedPieces, List.take_of_length_le (by simp)]
  by_cases hj : j < d.torrent.numPieces
  · exact hreset _ _ (List.mem_range.2 hj)
  · apply hkeep
    show d.blockRequested j c = false
    rw [blockRequested, pieceState_of_le d (by rw [hd.states_length]; omega)]
    rfl

end Gush.Downloader
