import Gush.Downloader.State

/-!
# Pieces on disk

`writePiece`, `readPieceFromDisk` and `verifyPiece`. The two loops go through the output files with
an absolute offset. Behind a chunk the source looks at the same file once more: the data is used up,
or the offset has reached the end of the file, which is then left. Both are the step to the next
file here.
-/

namespace Gush

open Cxx Posix

namespace Downloader

/-- The loop of `writePiece`. -/
def writeLoop : List OutputFile → ℤ → Bytes → World → World
  | [], _, _, w => w
  | f :: files, absOffset, data, w =>
    if data = [] then w
    else if absOffset ≥ f.startOffset + f.length then writeLoop files absOffset data w
    else if absOffset < f.startOffset then w
    else
      let within := absOffset - f.startOffset
      let avail := f.length - within
      if avail ≤ 0 then writeLoop files absOffset data w
      else
        match f.handle with
        | none => w
        | some handle =>
          let chunk := min data.length avail.toNat
          match w.attempt with
          | (.error _, w) => w
          | (.ok (), w) =>
            match w.fwrite handle within.toNat (data.take chunk) with
            | (count, w) =>
              if count ≠ chunk then w
              else writeLoop files (absOffset + chunk) (data.drop chunk) w

def writePiece (d : Downloader) (index offset : ℕ) (data : Bytes) : Downloader :=
  let absOffset := int64 (index * d.torrent.pieceLength.toInt + offset)
  { d with world := writeLoop d.outputFiles absOffset data d.world }

/-- The loop of `readPieceFromDisk` for `n` bytes that are still to be read; `none` is failure. -/
def readLoop : List OutputFile → ℤ → ℕ → World → Option Bytes × World
  | [], _, n, w => (if n = 0 then some [] else none, w)
  | f :: files, absOffset, n, w =>
    if n = 0 then (some [], w)
    else if absOffset ≥ f.startOffset + f.length then readLoop files absOffset n w
    else if absOffset < f.startOffset then (none, w)
    else
      let within := absOffset - f.startOffset
      let avail := f.length - within
      if avail ≤ 0 then readLoop files absOffset n w
      else
        match f.handle with
        | none => (none, w)
        | some handle =>
          let chunk := min n avail.toNat
          match w.attempt with
          | (.error _, w) => (none, w)
          | (.ok (), w) =>
            match w.fread handle within.toNat chunk with
            | (data, w) =>
              if data.length ≠ chunk then (none, w)
              else
                match readLoop files (absOffset + chunk) (n - chunk) w with
                | (rest, w) => (rest.map (data ++ ·), w)

def readPieceFromDisk (d : Downloader) (index : ℕ) : Option Bytes × World :=
  if d.outputFiles = [] then (none, d.world)
  else
    let pieceBytes := pieceSize d.torrent index
    if pieceBytes ≤ 0 then (none, d.world)
    else
      let absOffset := int64 (index * d.torrent.pieceLength.toInt)
      readLoop d.outputFiles absOffset pieceBytes.toNat d.world

/-- The hash that the torrent gives for a piece. -/
def expectedHash (torrent : TorrentInfo) (index : ℕ) : Bytes := substr torrent.pieces (index * 20) 20

/-- `verifyPiece`, with the world after reading. -/
def verifyPiece (sha1 : Bytes → Bytes) (d : Downloader) (index : ℕ) : Bool × World :=
  match readPieceFromDisk d index with
  | (none, w) => (false, w)
  | (some data, w) =>
    if d.torrent.pieces.length < index * 20 + 20 then (false, w)
    else (sha1 data = expectedHash d.torrent index, w)

/-- The round of `restoreCompletedPieces` for one piece. -/
def restorePiece (sha1 : Bytes → Bytes) (d : Downloader) (i : ℕ) : Downloader :=
  match verifyPiece sha1 d (uint32 i) with
  | (valid, world) =>
    let d := { d with piecesCompleted := d.piecesCompleted.set i valid, world }
    let d := d.modifyPiece i fun state => { state with
      blocksRequested := List.replicate state.totalBlocks.toNat false
      blocksReceived := List.replicate state.totalBlocks.toNat valid
      receivedBlocks := if valid then state.totalBlocks else 0 }
    if valid then
      { d with
        piecesCompletedCount := d.piecesCompletedCount + 1
        downloadedBytes := int64 (d.downloadedBytes + pieceSize d.torrent (uint32 i)) }
    else d

/-- `restoreCompletedPieces`, completed unless a stop is requested after some `rounds`. -/
def restoreCompletedPieces (sha1 : Bytes → Bytes) (d : Downloader) (rounds : ℕ) : Downloader :=
  ((List.range d.torrent.numPieces).take rounds).foldl (restorePiece sha1)
    { d with piecesCompletedCount := 0, downloadedBytes := 0 }

end Downloader

end Gush
