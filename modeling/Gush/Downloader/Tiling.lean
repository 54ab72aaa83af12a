import Gush.Downloader.Counters

/-!
# Requests tile the pieces

The blocks that the constructor counts and the ranges that `requestBlocksFromPeer` asks for are
computed with types of three widths, and `validateTorrentInfo` bounds none of the sizes.
`tiled_iff` says for which torrents the ranges of every piece follow each other from its start to
its end, without overflow anywhere. The functions are written once more with arithmetic that fails
where it overflows; `uint32_t` products wrap around as they do in the source.
-/

namespace Gush.Downloader

open Cxx Posix

/-- The number of blocks that the constructor computes for a piece, as an index bound. -/
def constructedBlocks (torrent : TorrentInfo) (i : ℕ) : ℕ :=
  (calculateBlocksForPiece torrent (uint32 i)).toNat

/-- `calculateBlocksForPiece` as the constructor calls it, failing on an overflow. -/
def calculateBlocksChecked (torrent : TorrentInfo) (i : ℕ) : Option ℤ := do
  let pieceIndex ← checkedU32 i
  let start ← checked64 (pieceIndex * torrent.pieceLength.toInt)
  let rest ← checked64 (torrent.totalLength - start)
  let bytesInPiece := min torrent.pieceLength.toInt rest
  let sum ← checked64 (bytesInPiece + blockSize)
  let sum ← checked64 (sum - 1)
  checked32 (Int.tdiv sum blockSize)

/-- `requestedRange`, failing on an overflow. -/
def requestedRangeChecked (torrent : TorrentInfo) (i b : ℕ) : Option (ℕ × ℕ) := do
  let pieceStart ← checked64 (i * torrent.pieceLength.toInt)
  let behind ← checked64 (pieceStart + torrent.pieceLength.toInt)
  let pieceSize ← checked64 (min behind torrent.totalLength - pieceStart)
  let offset := uint32 (b * blockSize)
  let rest ← checked64 (pieceSize - offset)
  let blockLen ← checkedU32 (min blockSize rest)
  some (offset, blockLen)

/-- The bytes of a piece that a request is for. -/
def requestedBytes (torrent : TorrentInfo) (i b : ℕ) : Finset ℕ :=
  Finset.Ico (requestedRange torrent i b).1
    ((requestedRange torrent i b).1 + (requestedRange torrent i b).2)

/-- The requests tile the torrent, and nothing overflows. -/
structure Tiled (torrent : TorrentInfo) : Prop where
  counted : ∀ i < torrent.numPieces,
    calculateBlocksChecked torrent i = some (calculateBlocksForPiece torrent (uint32 i))
  computed : ∀ i < torrent.numPieces, ∀ b < constructedBlocks torrent i,
    requestedRangeChecked torrent i b = some (requestedRange torrent i b)
  offset : ∀ i < torrent.numPieces, ∀ b < constructedBlocks torrent i,
    (requestedRange torrent i b).1 = b * 16384 ∧ (requestedRange torrent i b).1 / 16384 = b
  length : ∀ i < torrent.numPieces, ∀ b < constructedBlocks torrent i,
    1 ≤ (requestedRange torrent i b).2 ∧ (requestedRange torrent i b).2 ≤ 16384
  disjoint : ∀ i < torrent.numPieces, ∀ b < constructedBlocks torrent i,
    ∀ c < constructedBlocks torrent i, b ≠ c →
      Disjoint (requestedBytes torrent i b) (requestedBytes torrent i c)
  cover : ∀ i < torrent.numPieces, ∀ x : ℕ,
    (x : ℤ) < pieceSize torrent i ↔ ∃ b < constructedBlocks torrent i, x ∈ requestedBytes torrent i b
  /-- No call asks for anything else. -/
  only : ∀ d : Downloader, d.WellFormed → d.torrent = torrent → ∀ ptr sends now,
    ∀ req ∈ (d.requestBlocksFromPeer ptr sends now).pendingRequests, req ∈ d.pendingRequests ∨
      ∃ i < torrent.numPieces, ∃ b < constructedBlocks torrent i,
        req.pieceIndex = i ∧ (req.offset, req.length) = requestedRange torrent i b
  /-- Each piece can be asked for, by a single call. -/
  asked : ∀ i < torrent.numPieces, ∃ options events ptr now, ∀ sha1 savePath world,
    (run sha1 (init torrent savePath options world) events).pendingRequests = [] ∧
    ((run sha1 (init torrent savePath options world) events).requestBlocksFromPeer ptr []
      now).pendingRequests = (List.range (constructedBlocks torrent i)).map (requestFor torrent i ptr now)

/-! ### One piece -/

section Piece

variable {torrent : TorrentInfo} (h : torrent.Accepted) {i : ℕ} (hi : i < torrent.numPieces)

include h hi

theorem pieceSize_le_totalLength : pieceSize torrent i ≤ torrent.totalLength := by
  have hnonneg := pieceStart_nonneg h i
  rw [pieceSize_eq h hi]
  omega

/-- What `requestBlocksFromPeer` takes for the size of the piece. -/
theorem requested_size : min (i * torrent.pieceLength.toInt + torrent.pieceLength.toInt)
    torrent.totalLength - i * torrent.pieceLength.toInt = pieceSize torrent i := by
  rw [pieceSize_eq h hi]
  omega

variable (hindex : i < 2 ^ 32) (hsize : pieceSize torrent i ≤ 2 ^ 32)

include hindex hsize

theorem calculateBlocksChecked_of_le :
    calculateBlocksChecked torrent i = some (calculateBlocksForPiece torrent (uint32 i)) := by
  have hpos := pieceSize_pos h hi
  have hstart := h.piece_start_lt hi
  have htotal := h.totalLength_lt
  have hnonneg := pieceStart_nonneg h i
  have hsum : checked64 (pieceSize torrent i + (blockSize : ℕ)) =
      some (pieceSize torrent i + 16384) := checked64_of_range (by omega) (by unfold blockSize; omega)
  rw [uint32_of_lt hindex, calculateBlocksForPiece_of_le h hi hsize, calculateBlocksChecked,
    checkedU32_eq_some.2 ⟨rfl, hindex⟩]
  simp only [Option.bind_eq_bind, Option.bind_some]
  rw [checked64_of_range (by omega) (by omega), Option.bind_some,
    checked64_of_range (by omega) (by omega), Option.bind_some, ← pieceSize_eq h hi, hsum,
    Option.bind_some, checked64_of_range (by omega) (by omega), Option.bind_some,
    show pieceSize torrent i + 16384 - 1 = pieceSize torrent i + 16383 by omega,
    Int.tdiv_eq_ediv_of_nonneg (by omega)]
  exact checked32_eq_some.2 ⟨rfl, by unfold blockSize; omega, by unfold blockSize; omega⟩

/-- A block is one of the constructed ones if it starts before the end of its piece. -/
theorem lt_constructedBlocks_iff {b : ℕ} :
    b < constructedBlocks torrent i ↔ (b : ℤ) * 16384 < pieceSize torrent i := by
  have hpos := pieceSize_pos h hi
  rw [constructedBlocks, uint32_of_lt hindex, calculateBlocksForPiece_of_le h hi hsize]
  omega

variable (hbehind : i * torrent.pieceLength.toInt + torrent.pieceLength.toInt < 2 ^ 63) {b : ℕ}
  (hb : b < constructedBlocks torrent i)

include hbehind hb

/-- The range that is asked for is the block, and it is computed without overflow. -/
theorem requestedRange_of_le :
    (requestedRange torrent i b).1 = b * 16384 ∧
      ((requestedRange torrent i b).2 : ℤ) = Chunks.size 16384 (pieceSize torrent i) b ∧
      requestedRangeChecked torrent i b = some (requestedRange torrent i b) := by
  have hlt := (lt_constructedBlocks_iff h hi hindex hsize).1 hb
  have hstart := h.piece_start_lt hi
  have htotal := h.totalLength_lt
  have hnonneg := pieceStart_nonneg h i
  have hpos := h.pieceLength_pos
  have hrest := requested_size h hi
  have hoffset : uint32 ((b : ℤ) * blockSize) = b * 16384 := by
    unfold uint32 blockSize
    omega
  have hlength : (requestLength torrent i (b * 16384) : ℤ) =
      Chunks.size 16384 (pieceSize torrent i) b := by
    unfold requestLength Chunks.size
    simp only
    rw [int64_pieceStart h hi, int64_of_range (by omega) (by omega), hrest]
    unfold uint32 blockSize
    push_cast
    omega
  have hchunk : min ((blockSize : ℕ) : ℤ) (pieceSize torrent i - (b * 16384 : ℕ)) =
      (requestLength torrent i (b * 16384) : ℕ) := by
    rw [hlength, Chunks.size, Nat.cast_mul]
    rfl
  have hbound : requestLength torrent i (b * 16384) < 2 ^ 32 := by
    unfold Chunks.size at hlength
    omega
  refine ⟨hoffset, ?_, ?_⟩
  · rw [requestedRange, hoffset]
    exact hlength
  · rw [requestedRange, requestedRangeChecked, checked64_of_range (by omega) (by omega)]
    simp only [Option.bind_eq_bind, Option.bind_some]
    rw [checked64_of_range (by omega) (by omega), Option.bind_some, hrest,
      checked64_of_range (by omega) (by omega), Option.bind_some, hoffset,
      checked64_of_range (by omega) (by omega), Option.bind_some, hchunk,
      checkedU32_eq_some.2 ⟨rfl, hbound⟩, Option.bind_some]

theorem mem_requestedBytes {x : ℕ} : x ∈ requestedBytes torrent i b ↔
    (x : ℤ) / 16384 = b ∧ (x : ℤ) < pieceSize torrent i := by
  obtain ⟨hoffset, hlength, -⟩ := requestedRange_of_le h hi hindex hsize hbehind hb
  rw [← Chunks.mem_Ico_iff (by decide), ← hlength, requestedBytes, hoffset, Finset.mem_Ico,
    Set.mem_Ico]
  omega

end Piece

/-! ### What a call asks for -/

/-- Every call asks for ranges of blocks of one piece only. -/
theorem mem_requestBlocksFromPeer {d : Downloader} (hd : d.WellFormed) (ptr : ℕ) (sends : List Bool)
    (now : ℤ) : ∀ req ∈ (d.requestBlocksFromPeer ptr sends now).pendingRequests,
      req ∈ d.pendingRequests ∨ ∃ i < d.torrent.numPieces, ∃ b < constructedBlocks d.torrent i,
        req.pieceIndex = i ∧ (req.offset, req.length) = requestedRange d.torrent i b := by
  intro req hreq
  rw [requestBlocksFromPeer] at hreq
  split at hreq
  · exact .inl hreq
  · rename_i pieceIndex _
    rcases mem_requestLoop rfl req hreq with hold | ⟨b, hb, hpiece, hoffset, hlength⟩
    · exact .inl hold
    · rw [List.mem_range] at hb
      have hlt := hd.lt_numPieces hb
      rw [blockCount, hd.totalBlocks pieceIndex hlt] at hb
      exact .inr ⟨pieceIndex, hlt, b, hb, hpiece, Prod.ext hoffset hlength⟩

/-- A loop over free blocks that meets neither the limit nor a failing send asks for all of them. -/
theorem requestLoop_free {i ptr : ℕ} {now : ℤ} {blocks : List ℕ} :
    ∀ {currentRequests : ℤ} {d : Downloader}, blocks.Nodup →
      (∀ b ∈ blocks, d.blockReceived i b = false ∧ d.blockRequested i b = false) →
      currentRequests + blocks.length ≤ d.options.maxRequestsPerPeer →
      (requestLoop i ptr now blocks currentRequests [] d).pendingRequests =
        d.pendingRequests ++ blocks.map (requestFor d.torrent i ptr now) := by
  induction blocks with
  | nil => simp [requestLoop]
  | cons b blocks ih =>
    intro currentRequests d hnodup hfree hroom
    obtain ⟨hnew, hnodup⟩ := List.nodup_cons.1 hnodup
    obtain ⟨hreceived, hrequested⟩ := hfree b List.mem_cons_self
    have hlimit : ¬ currentRequests ≥ d.options.maxRequestsPerPeer := by
      rw [List.length_cons] at hroom
      push_cast at hroom
      omega
    -- asking for `b` leaves the other blocks free
    have hfree' : ∀ c ∈ blocks, (d.addRequest i b ptr now).blockReceived i c = false ∧
        (d.addRequest i b ptr now).blockRequested i c = false := by
      intro c hc
      have hne : b ≠ c := fun heq => hnew (heq ▸ hc)
      obtain ⟨hreceived, hrequested⟩ := hfree c (List.mem_cons_of_mem b hc)
      have hflag : (d.addRequest i b ptr now).blockRequested i c =
          (d.setRequested i b true).blockRequested i c := rfl
      rw [(frame_addRequest d i b ptr now).blockReceived, hflag, blockRequested_setRequested,
        if_neg fun h => hne h.2.1]
      exact ⟨hreceived, hrequested⟩
    rw [requestLoop, if_neg hlimit, hreceived, hrequested]
    simp only [Bool.false_and, Bool.false_eq_true, if_false, List.headD_nil, if_true, List.tail_nil]
    rw [ih hnodup hfree' (by
      rw [List.length_cons] at hroom
      push_cast at hroom
      show currentRequests + 1 + blocks.length ≤ d.options.maxRequestsPerPeer
      omega)]
    show (d.pendingRequests ++ [requestFor d.torrent i ptr now b]) ++
      blocks.map (requestFor d.torrent i ptr now) = _
    simp

/-- The piece whose blocks a call goes through: the one that is selected over all peers if this peer
has it, otherwise the first piece of the peer that misses blocks. -/
def GoesThrough (d : Downloader) (peer : PeerConnection) (i : ℕ) : Prop :=
  d.neededPieces peer ≠ [] ∧ i ≠ noPiece ∧
    if d.selectNextPiece ≠ noPiece ∧ peer.hasPiece d.selectNextPiece = true then
      i = d.selectNextPiece
    else (d.neededPieces peer).head? = some i

/-- The peer has all of its needed pieces, so the first one is taken. -/
theorem find_neededPieces (d : Downloader) (peer : PeerConnection) :
    (d.neededPieces peer).find? (fun p => peer.hasPiece p) = (d.neededPieces peer).head? := by
  cases hneeded : d.neededPieces peer with
  | nil => rfl
  | cons p rest =>
    have hp : p ∈ d.neededPieces peer := by simp [hneeded]
    obtain ⟨j, hj, rfl⟩ := List.mem_map.1 hp
    have hhas : peer.hasPiece (uint32 j) = true := by
      have hfilter := (List.mem_filter.1 hj).2
      simp only [Bool.and_eq_true] at hfilter
      exact hfilter.1.2
    rw [List.find?_cons_of_pos hhas, List.head?_cons]

theorem requestTarget_iff {d : Downloader} {ptr i : ℕ} {peer : PeerConnection}
    (hfind : d.findPeer ptr = some peer) (hconnected : peer.connected = true)
    (hchoking : peer.peerChoking = false)
    (hroom : d.currentRequests ptr < d.options.maxRequestsPerPeer) :
    d.requestTarget ptr = some i ↔ d.GoesThrough peer i := by
  rw [requestTarget, hfind, GoesThrough]
  simp only [hconnected, hchoking, Bool.not_true, Bool.or_false, Bool.false_eq_true, if_false,
    not_le.2 hroom, find_neededPieces]
  cases hneeded : d.neededPieces peer with
  | nil => simp
  | cons p rest =>
    have husable : (decide (d.selectNextPiece = noPiece) || !peer.hasPiece d.selectNextPiece) = true ↔
        ¬ (d.selectNextPiece ≠ noPiece ∧ peer.hasPiece d.selectNextPiece = true) := by
      simp only [Bool.or_eq_true, decide_eq_true_eq, Bool.not_eq_true', not_and, ne_eq,
        Bool.not_eq_true]
      tauto
    simp only [husable, reduceCtorEq, if_false, ne_eq, not_false_eq_true, true_and,
      List.head?_cons, Option.getD_some, Option.some.injEq, ite_not]
    by_cases hbest : d.selectNextPiece ≠ noPiece ∧ peer.hasPiece d.selectNextPiece = true
    · simp only [if_pos hbest]
      rw [if_neg hbest.1]
      constructor
      · rintro ⟨⟩
        exact ⟨hbest.1, rfl⟩
      · rintro ⟨-, rfl⟩
        rfl
    · simp only [if_neg hbest]
      split_ifs with hnone
      · simp only [false_iff, not_and]
        rintro hne rfl
        exact hne hnone
      · rw [Option.some.injEq]
        constructor
        · rintro rfl
          exact ⟨hnone, rfl⟩
        · exact fun h => h.2

/-- A call asks for the piece that the peer has, if that is the only one. -/
theorem requestTarget_of_only {d : Downloader} {ptr i : ℕ} {peer : PeerConnection}
    (hfind : d.findPeer ptr = some peer) (hconnected : peer.connected = true)
    (hchoking : peer.peerChoking = false)
    (hroom : d.currentRequests ptr < d.options.maxRequestsPerPeer)
    (hn : d.torrent.numPieces < 2 ^ 32) (hi : i < d.torrent.numPieces)
    (hhas : ∀ j, peer.hasPiece j = true ↔ j = i) (hopen : d.pieceCompleted i = false)
    (hmissing : (d.pieceState i).receivedBlocks < (d.pieceState i).totalBlocks) :
    d.requestTarget ptr = some i := by
  have hindex : uint32 (i : ℤ) = i := uint32_of_lt (hi.trans hn)
  have hself : peer.hasPiece i = true := (hhas i).2 rfl
  have hneeded : i ∈ d.neededPieces peer := by
    refine List.mem_map.2 ⟨i, List.mem_filter.2 ⟨List.mem_range.2 hi, ?_⟩, hindex⟩
    simp [hopen, hindex, hself, hmissing]
  have hne : i ≠ noPiece := by
    unfold noPiece
    omega
  rw [requestTarget_iff hfind hconnected hchoking hroom, GoesThrough]
  refine ⟨List.ne_nil_of_mem hneeded, hne, ?_⟩
  split_ifs with hbest
  · exact ((hhas _).1 hbest.2).symm
  · rw [← find_neededPieces]
    cases hfound : (d.neededPieces peer).find? fun p => peer.hasPiece p with
    | none => exact absurd hself (List.find?_eq_none.1 hfound i hneeded)
    | some p => rw [(hhas p).1 (List.find?_some hfound)]

/-- A peer that has just one piece. -/
def onlyPeer (i : ℕ) : PeerConnection where
  ptr := 1
  connected := true
  peerChoking := false
  bitfield := List.replicate i false ++ [true]

theorem hasPiece_onlyPeer (i j : ℕ) : (onlyPeer i).hasPiece j = true ↔ j = i := by
  rw [PeerConnection.hasPiece, onlyPeer, List.getD_eq_getElem?_getD]
  rcases lt_trichotomy j i with hlt | rfl | hgt
  · simp [List.getElem?_append_left, hlt, hlt.ne]
  · simp
  · have hnone : (List.replicate i false ++ [true])[j]? = none := by
      rw [List.getElem?_eq_none_iff]
      simp
      omega
    simp [hnone, hgt.ne']

/-- A fresh download can ask such a peer for all blocks of the piece at once. -/
theorem requestBlocksFromPeer_onlyPeer {torrent : TorrentInfo} {i : ℕ} (hi : i < torrent.numPieces)
    (hn : torrent.numPieces < 2 ^ 32) (hblocks : 0 < constructedBlocks torrent i)
    (sha1 : Bytes → Bytes) (savePath : Bytes) (world : World) :
    let options : DownloadOptions := { maxRequestsPerPeer := constructedBlocks torrent i }
    let d := run sha1 (init torrent savePath options world) [.connections [onlyPeer i]]
    (d.requestBlocksFromPeer 1 [] 0).pendingRequests =
      (List.range (constructedBlocks torrent i)).map (requestFor torrent i 1 0) := by
  intro options d
  have hstate : d.pieceState i = .ofBlocks (calculateBlocksForPiece torrent (uint32 i)) :=
    (pieceState_init torrent savePath options world i).trans (if_pos hi)
  have hcount : d.blockCount i = constructedBlocks torrent i := by
    rw [blockCount, hstate]
    rfl
  have hopen : d.pieceCompleted i = false := by
    simp [d, run, step, init, pieceCompleted, List.getD_eq_getElem?_getD, hi]
  have hfind : d.findPeer 1 = some (onlyPeer i) := rfl
  have htarget : d.requestTarget 1 = some i := by
    refine requestTarget_of_only hfind rfl rfl ?_ hn hi (hasPiece_onlyPeer i) hopen ?_
    · show (0 : ℤ) < constructedBlocks torrent i
      exact_mod_cast hblocks
    · rw [hstate]
      exact Int.lt_of_toNat_lt (by simpa [PieceState.ofBlocks, constructedBlocks] using hblocks)
  have hfree : ∀ b ∈ List.range (d.blockCount i),
      d.blockReceived i b = false ∧ d.blockRequested i b = false := by
    intro b _
    rw [blockReceived, blockRequested, hstate]
    simp [PieceState.ofBlocks, List.getD_eq_getElem?_getD]
  rw [requestBlocksFromPeer, htarget]
  simp only
  rw [requestLoop_free List.nodup_range hfree, hcount]
  · rfl
  · rw [List.length_range, hcount]
    show (0 : ℤ) + constructedBlocks torrent i ≤ constructedBlocks torrent i
    omega

/-! ### The condition -/

theorem requestTarget_ne_noPiece {d : Downloader} {ptr i : ℕ} (h : d.requestTarget ptr = some i) :
    i ≠ noPiece := by
  unfold requestTarget at h
  split at h
  · cases h
  · simp only at h
    split_ifs at h <;> cases h <;> assumption

namespace Tiled

variable {torrent : TorrentInfo} (ht : Tiled torrent)

include ht

/-- The piece `UINT32_MAX` is never asked for. -/
theorem numPieces_lt (h : torrent.Accepted) : torrent.numPieces < 2 ^ 32 := by
  by_contra hlarge
  have hi : noPiece < torrent.numPieces := by
    unfold noPiece
    omega
  obtain ⟨b, hb, -⟩ := (ht.cover noPiece hi 0).1 (pieceSize_pos h hi)
  obtain ⟨options, events, ptr, now, hasked⟩ := ht.asked noPiece hi
  obtain ⟨hempty, hall⟩ := hasked (fun _ => []) [] { fs := oneDirectory }
  set d := run (fun _ => []) (init torrent [] options { fs := oneDirectory }) events
  have hmem : requestFor torrent noPiece ptr now b ∈
      (d.requestBlocksFromPeer ptr [] now).pendingRequests := by
    rw [hall]
    exact List.mem_map_of_mem (List.mem_range.2 hb)
  rw [requestBlocksFromPeer] at hmem
  split at hmem
  · rw [hempty] at hmem
    cases hmem
  · rename_i i htarget
    rcases mem_requestLoop rfl _ hmem with hold | ⟨-, -, hpiece, -⟩
    · rw [hempty] at hold
      cases hold
    · exact requestTarget_ne_noPiece htarget hpiece.symm

/-- No byte behind the first 4 GB of a piece is asked for. -/
theorem size_le (h : torrent.Accepted) :
    min torrent.pieceLength.toInt torrent.totalLength ≤ 2 ^ 32 := by
  by_contra hlarge
  have hend := h.totalLength_le
  have hi : 0 < torrent.numPieces := by
    by_contra hnone
    have hzero : torrent.numPieces = 0 := by omega
    rw [hzero] at hend
    omega
  have hsize := pieceSize_eq h hi
  obtain ⟨b, hb, hmem⟩ := (ht.cover 0 hi (2 ^ 32)).1 (by push_cast at *; omega)
  obtain ⟨hoffset, -⟩ := ht.offset 0 hi b hb
  have hlength := ht.length 0 hi b hb
  have hlt : (requestedRange torrent 0 b).1 < 2 ^ 32 := by
    simp only [requestedRange, uint32]
    omega
  rw [requestedBytes, Finset.mem_Ico] at hmem
  omega

/-- The sum of start and piece length overflows in no piece, so not in the last one. -/
theorem end_lt (h : torrent.Accepted) :
    torrent.numPieces * torrent.pieceLength.toInt < 2 ^ 63 := by
  rcases Nat.eq_zero_or_pos torrent.numPieces with hzero | hpos
  · simp [hzero]
  · have hi : torrent.numPieces - 1 < torrent.numPieces := by omega
    obtain ⟨b, hb, -⟩ := (ht.cover _ hi 0).1 (pieceSize_pos h hi)
    have hcomputed := ht.computed _ hi b hb
    simp only [requestedRangeChecked, Option.bind_eq_bind, Option.bind_eq_some_iff] at hcomputed
    obtain ⟨start, hstart, behind, hbehind, -⟩ := hcomputed
    obtain ⟨rfl, -, -⟩ := checked64_eq_some.1 hstart
    obtain ⟨-, -, hlt⟩ := checked64_eq_some.1 hbehind
    have hcast : ((torrent.numPieces - 1 : ℕ) : ℤ) = torrent.numPieces - 1 := by omega
    rw [hcast] at hlt
    calc (torrent.numPieces : ℤ) * torrent.pieceLength.toInt
        = (torrent.numPieces - 1) * torrent.pieceLength.toInt + torrent.pieceLength.toInt := by ring
      _ < 2 ^ 63 := hlt

end Tiled

/-- **Main result.** The requests tile an accepted torrent if and only if the index of every piece
is below `UINT32_MAX`, no piece is longer than `2 ^ 32`, and the end that the last piece would have
if it were a full one is below `2 ^ 63`. -/
theorem tiled_iff {torrent : TorrentInfo} (h : validateTorrentInfo torrent = .ok ()) :
    Tiled torrent ↔ torrent.numPieces < 2 ^ 32 ∧
      min torrent.pieceLength.toInt torrent.totalLength ≤ 2 ^ 32 ∧
      torrent.numPieces * torrent.pieceLength.toInt < 2 ^ 63 := by
  have hacc : torrent.Accepted := h
  constructor
  · exact fun ht => ⟨ht.numPieces_lt hacc, ht.size_le hacc, ht.end_lt hacc⟩
  · rintro ⟨hn, hmin, hend⟩
    have hpl := hacc.pieceLength_pos
    have hindex : ∀ i < torrent.numPieces, i < 2 ^ 32 := fun i hi => hi.trans hn
    have hsize : ∀ i < torrent.numPieces, pieceSize torrent i ≤ 2 ^ 32 := by
      intro i hi
      have hle := pieceSize_le hacc hi
      have hle' := pieceSize_le_totalLength hacc hi
      omega
    have hbehind : ∀ i < torrent.numPieces,
        i * torrent.pieceLength.toInt + torrent.pieceLength.toInt < 2 ^ 63 := by
      intro i hi
      calc (i : ℤ) * torrent.pieceLength.toInt + torrent.pieceLength.toInt
          = ((i + 1 : ℕ) : ℤ) * torrent.pieceLength.toInt := by push_cast; ring
        _ ≤ torrent.numPieces * torrent.pieceLength.toInt :=
            mul_le_mul_of_nonneg_right (by exact_mod_cast hi) hpl.le
        _ < 2 ^ 63 := hend
    have hcount : ∀ i (hi : i < torrent.numPieces) b, b < constructedBlocks torrent i ↔
        (b : ℤ) * 16384 < pieceSize torrent i := fun i hi b =>
      lt_constructedBlocks_iff hacc hi (hindex i hi) (hsize i hi)
    have hrange : ∀ i (hi : i < torrent.numPieces) b, b < constructedBlocks torrent i →
        (requestedRange torrent i b).1 = b * 16384 ∧
        ((requestedRange torrent i b).2 : ℤ) = Chunks.size 16384 (pieceSize torrent i) b ∧
        requestedRangeChecked torrent i b = some (requestedRange torrent i b) :=
      fun i hi b hb => requestedRange_of_le hacc hi (hindex i hi) (hsize i hi) (hbehind i hi) hb
    have hbytes : ∀ i (hi : i < torrent.numPieces) b, b < constructedBlocks torrent i → ∀ x : ℕ,
        x ∈ requestedBytes torrent i b ↔ (x : ℤ) / 16384 = b ∧ (x : ℤ) < pieceSize torrent i :=
      fun i hi b hb x =>
        mem_requestedBytes hacc hi (hindex i hi) (hsize i hi) (hbehind i hi) hb
    constructor
    case counted => exact fun i hi => calculateBlocksChecked_of_le hacc hi (hindex i hi) (hsize i hi)
    case computed => exact fun i hi b hb => (hrange i hi b hb).2.2
    case offset =>
      intro i hi b hb
      obtain ⟨hoffset, -⟩ := hrange i hi b hb
      omega
    case length =>
      intro i hi b hb
      obtain ⟨-, hlength, -⟩ := hrange i hi b hb
      have hlt := (hcount i hi b).1 hb
      unfold Chunks.size at hlength
      omega
    case disjoint =>
      intro i hi b hb c hc hne
      rw [Finset.disjoint_left]
      intro x hx hx'
      have hquotient := ((hbytes i hi b hb x).1 hx).1
      rw [((hbytes i hi c hc x).1 hx').1] at hquotient
      exact hne (Int.natCast_inj.1 hquotient.symm)
    case cover =>
      intro i hi x
      constructor
      · intro hx
        have hb : x / 16384 < constructedBlocks torrent i := (hcount i hi _).2 (by omega)
        exact ⟨x / 16384, hb, (hbytes i hi _ hb x).2 ⟨by simp, hx⟩⟩
      · rintro ⟨b, hb, hmem⟩
        exact ((hbytes i hi b hb x).1 hmem).2
    case only =>
      rintro d hd rfl ptr sends now
      exact mem_requestBlocksFromPeer hd ptr sends now
    case asked =>
      intro i hi
      have hblocks : 0 < constructedBlocks torrent i := by
        rw [hcount i hi]
        simpa using pieceSize_pos hacc hi
      exact ⟨_, _, _, _, fun sha1 savePath world =>
        ⟨rfl, requestBlocksFromPeer_onlyPeer hi hn hblocks sha1 savePath world⟩⟩

/-- A torrent of two blocks and a byte, in two pieces. -/
def twoPieceTorrent : TorrentInfo where
  name := ascii "a"
  pieceLength := 32768
  pieces := List.replicate 40 0
  fileName := ascii "a"
  fileLength := 32769

theorem tiled_twoPieceTorrent : Tiled twoPieceTorrent :=
  (tiled_iff (by decide +kernel)).2 (by decide +kernel)

/-- A torrent of one piece that is a byte longer than 4 GB. -/
def longPieceTorrent : TorrentInfo where
  name := ascii "a"
  pieceLength := 2 ^ 33
  pieces := List.replicate 20 0
  fileName := ascii "a"
  fileLength := 2 ^ 32 + 1

/-- The last block of the piece is asked for at offset zero. -/
theorem not_forall_tiled : ¬ ∀ torrent, validateTorrentInfo torrent = .ok () → Tiled torrent := by
  intro h
  have hacc : validateTorrentInfo longPieceTorrent = .ok () := by decide +kernel
  have hlast : 2 ^ 18 < constructedBlocks longPieceTorrent 0 := by decide +kernel
  obtain ⟨hoffset, -⟩ := (h longPieceTorrent hacc).offset 0 (by decide +kernel) _ hlast
  have hzero : (requestedRange longPieceTorrent 0 (2 ^ 18)).1 = 0 := by decide +kernel
  omega

end Gush.Downloader
