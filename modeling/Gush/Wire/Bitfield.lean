import Mathlib.Data.Nat.Bitwise
import Gush.Lib.Flags
import Gush.Wire.Sessions

/-!
# The pieces that a peer has

A bitfield message replaces what is known of the pieces of a peer, and a have message adds one piece;
`hasPiece_iff` reads `hasPiece` off the messages since the handshake.
-/

namespace Gush.Wire

open Flags
open Downloader (bytesToInt)

/-- The messages update the state one after the other. -/
def PeerConnection.updates (fuel : ℕ) (c : PeerConnection) (msgs : List PeerMessage) :
    Option PeerConnection :=
  msgs.foldl (fun c msg => c.bind fun c =>
    (c.toPeerState.update fuel msg).map fun state => { c with toPeerState := state }) (some c)

/-! ### What the messages say -/

/-- A bit of a bitfield; the pieces are numbered from the highest bit of the first byte. -/
def HasBit (data : Bytes) (index : ℕ) : Prop :=
  index / 8 < data.length ∧ (data.getD (index / 8) 0).toNat.testBit (7 - index % 8) = true

/-- A have message for a piece. -/
def HaveFor (msg : PeerMessage) (index : ℕ) : Prop :=
  msg.id = .havePiece ∧ 4 ≤ msg.payload.length ∧ BigEndian.decode (msg.payload.take 4) = index

/-- There is a have message for the piece that no bitfield follows, or the last bitfield has the
piece. -/
def Announces (msgs : List PeerMessage) (index : ℕ) : Prop :=
  ∃ pre msg post, msgs = pre ++ msg :: post ∧ (∀ later ∈ post, later.id ≠ .bitfield) ∧
    (HaveFor msg index ∨ msg.id = .bitfield ∧ HasBit msg.payload index)

/-! ### One message -/

/-- The mask of a bit picks it out. -/
theorem and_mask_ne_zero_iff {b : UInt8} {j : ℕ} (hj : j < 8) :
    b &&& (0x80 >>> UInt8.ofNat j) ≠ 0 ↔ b.toNat.testBit (7 - j) = true := by
  have hmask : (0x80 >>> UInt8.ofNat j : UInt8).toNat = 2 ^ (7 - j) := by
    interval_cases j <;> rfl
  rw [Ne, ← UInt8.toNat_inj, UInt8.toNat_and, hmask, Nat.and_two_pow]
  cases b.toNat.testBit (7 - j) <;> simp

namespace PeerState

variable {c c' : PeerState} {flags : List Bool} {index : ℕ}

theorem setBits_eq (flags : List Bool) (b : UInt8) (i : ℕ) : setBits flags (b, i) =
    (List.range 8).foldl
      (mark (fun j => b &&& (0x80 >>> UInt8.ofNat j) ≠ 0) fun j => i * 8 + j) flags := rfl

@[simp] theorem length_setBits {entry : UInt8 × ℕ} :
    (setBits flags entry).length = flags.length := by
  rw [setBits_eq, length_marks]

/-- The inner loop sets the flags of a byte. -/
theorem getD_setBits {b : UInt8} {i : ℕ} : (setBits flags (b, i)).getD index false = true ↔
    flags.getD index false = true ∨
      index < flags.length ∧ index / 8 = i ∧ b.toNat.testBit (7 - index % 8) = true := by
  have hbit : (∃ j ∈ List.range 8, i * 8 + j = index ∧ b &&& (0x80 >>> UInt8.ofNat j) ≠ 0) ↔
      index / 8 = i ∧ b.toNat.testBit (7 - index % 8) = true := by
    constructor
    · rintro ⟨j, hj, rfl, hmask⟩
      have hj8 : j < 8 := List.mem_range.1 hj
      have hdiv : (i * 8 + j) / 8 = i := by omega
      have hmod : (i * 8 + j) % 8 = j := by omega
      rw [hmod]
      exact ⟨hdiv, (and_mask_ne_zero_iff hj8).1 hmask⟩
    · rintro ⟨rfl, hset⟩
      have hj8 : index % 8 < 8 := Nat.mod_lt index (by norm_num)
      exact ⟨index % 8, List.mem_range.2 hj8, Nat.div_add_mod' index 8,
        (and_mask_ne_zero_iff hj8).2 hset⟩
  rw [setBits_eq, getD_marks, hbit]

@[simp] theorem length_foldl_setBits (entries : List (UInt8 × ℕ)) :
    (entries.foldl setBits flags).length = flags.length := by
  induction entries generalizing flags with
  | nil => rfl
  | cons entry entries ih => rw [List.foldl_cons, ih, length_setBits]

/-- The outer loop sets the flags of all bytes. -/
theorem getD_foldl_setBits (data : Bytes) (start : ℕ) :
    ((data.zipIdx start).foldl setBits flags).getD index false = true ↔
      flags.getD index false = true ∨ index < flags.length ∧ start ≤ index / 8 ∧
        index / 8 - start < data.length ∧
        (data.getD (index / 8 - start) 0).toNat.testBit (7 - index % 8) = true := by
  induction data generalizing flags start with
  | nil => simp
  | cons b data ih =>
    rw [List.zipIdx_cons, List.foldl_cons, ih, getD_setBits, length_setBits]
    rcases lt_trichotomy (index / 8) start with hlt | heq | hgt
    · have hne : ¬ index / 8 = start := by omega
      have hle : ¬ start ≤ index / 8 := by omega
      have hle' : ¬ start + 1 ≤ index / 8 := by omega
      simp [hne, hle, hle']
    · simp [heq]
    · have hne : ¬ index / 8 = start := by omega
      have hle : start ≤ index / 8 := by omega
      have hle' : start + 1 ≤ index / 8 := by omega
      have hsub : index / 8 - start = index / 8 - (start + 1) + 1 := by omega
      simp [hne, hle, hle', hsub]

theorem length_updateBitfield (data : Bytes) :
    (c.updateBitfield data).bitfield.length = c.torrent.numPieces := by
  simp [updateBitfield]

/-- A bitfield message replaces all flags. -/
theorem getD_updateBitfield (data : Bytes) :
    (c.updateBitfield data).bitfield.getD index false = true ↔
      index < c.torrent.numPieces ∧ HasBit data index := by
  have hfresh : (List.replicate c.torrent.numPieces false).getD index false = false := by
    by_cases h : index < c.torrent.numPieces <;> simp [h]
  rw [updateBitfield, getD_foldl_setBits, hfresh]
  simp [HasBit]

/-- A have message sets one flag. -/
theorem getD_setHave {msg : PeerMessage} (h : msg.id = .havePiece) :
    (c.setHave msg.payload).bitfield.getD index false = true ↔
      c.bitfield.getD index false = true ∨ index < c.bitfield.length ∧ HaveFor msg index := by
  rw [setHave]
  split_ifs with hlen
  · rw [getD_set_true]
    refine or_congr_right ⟨fun hi => ⟨hi.2, h, hlen, hi.1⟩, fun hi => ⟨hi.2.2.2, hi.1⟩⟩
  · refine ⟨.inl, fun hi => hi.resolve_right fun hhave => hlen hhave.2.2.1⟩

theorem length_setHave (payload : Bytes) :
    (c.setHave payload).bitfield.length = c.bitfield.length := by
  rw [setHave]
  split_ifs <;> simp

theorem torrent_setHave (payload : Bytes) : (c.setHave payload).torrent = c.torrent := by
  rw [setHave]
  split_ifs <;> rfl

end PeerState

/-! ### The messages since the handshake -/

section Announces

variable {msgs : List PeerMessage} {msg : PeerMessage} {index : ℕ}

theorem announces_append_have (h : msg.id = .havePiece) :
    Announces (msgs ++ [msg]) index ↔ Announces msgs index ∨ HaveFor msg index := by
  constructor
  · rintro ⟨pre, msg', post, heq, hlast, hannounces⟩
    rcases Run.append_singleton_eq heq with ⟨-, -, rfl⟩ | ⟨post', rfl, hmsgs⟩
    · refine .inr (hannounces.resolve_right fun hbits => ?_)
      rw [h] at hbits
      cases hbits.1
    · exact .inl ⟨pre, msg', post', hmsgs,
        fun later hmem => hlast later (List.mem_append_left _ hmem), hannounces⟩
  · rintro (⟨pre, msg', post, rfl, hlast, hannounces⟩ | hhave)
    · refine ⟨pre, msg', post ++ [msg], by simp, fun later hmem => ?_, hannounces⟩
      rcases List.mem_append.1 hmem with hmem | hmem
      · exact hlast later hmem
      · rw [List.mem_singleton.1 hmem, h]
        decide
    · exact ⟨msgs, msg, [], rfl, by simp, .inl hhave⟩

theorem announces_append_bitfield (h : msg.id = .bitfield) :
    Announces (msgs ++ [msg]) index ↔ HasBit msg.payload index := by
  constructor
  · rintro ⟨pre, msg', post, heq, hlast, hannounces⟩
    rcases Run.append_singleton_eq heq with ⟨-, -, rfl⟩ | ⟨post', rfl, -⟩
    · refine (hannounces.resolve_left fun hhave => ?_).2
      have hid := hhave.1
      rw [h] at hid
      cases hid
    · exact absurd h (hlast msg (by simp))
  · intro hbit
    exact ⟨msgs, msg, [], rfl, by simp, .inr ⟨h, hbit⟩⟩

end Announces

namespace PeerConnection

variable {c c' : PeerConnection} {fuel : ℕ} {msg : PeerMessage} {msgs : List PeerMessage}

/-- A handshake that succeeds leaves a bitfield in which no piece is set. -/
theorem bitfield_performHandshake {s : Socket} {net : Network}
    (h : c.performHandshake s net = (true, c')) :
    c'.bitfield = List.replicate c.torrent.numPieces false ∧ c'.torrent = c.torrent := by
  rw [performHandshake] at h
  split_ifs at h
  · dsimp only [Socket.recvAll] at h
    split_ifs at h
    · dsimp only at h
      split_ifs at h
      · have hstate := greet_state { c with
          socket := some { incoming := s.incoming.drop 68,
                           outgoing := s.outgoing ++ handshake c.torrent.infoHash c.peerId }
          peerSupportsExtensions := (s.incoming.take 68).getD 25 0 &&& 0x10 ≠ 0
          bitfield := List.replicate c.torrent.numPieces false } net
        rw [h] at hstate
        rw [hstate]
        exact ⟨rfl, rfl⟩
      · cases h
    · cases h
  · cases h

theorem updates_append : c.updates fuel (msgs ++ [msg]) = (c.updates fuel msgs).bind fun c =>
    (c.toPeerState.update fuel msg).map fun state => { c with toPeerState := state } := by
  simp [updates]

/-- The flags are those that the messages announce. -/
structure Knows (torrent : TorrentInfo) (msgs : List PeerMessage) (c : PeerConnection) : Prop where
  torrent_eq : c.torrent = torrent
  length : c.bitfield.length = torrent.numPieces
  hasPiece : ∀ index, c.hasPiece index = true ↔ index < torrent.numPieces ∧ Announces msgs index

theorem knows_update {torrent : TorrentInfo} (fuel : ℕ) (h : Knows torrent msgs c)
    (hmsg : msg.id = .havePiece ∨ msg.id = .bitfield) :
    ∃ state, c.toPeerState.update fuel msg = some state ∧
      Knows torrent (msgs ++ [msg]) { c with toPeerState := state } := by
  rcases hmsg with hmsg | hmsg
  · refine ⟨c.toPeerState.setHave msg.payload, by rw [PeerState.update, hmsg], ?_, ?_, fun index => ?_⟩
    · exact (PeerState.torrent_setHave _).trans h.torrent_eq
    · exact (PeerState.length_setHave _).trans h.length
    · rw [announces_append_have hmsg, and_or_left, ← h.hasPiece, ← h.length]
      exact PeerState.getD_setHave hmsg
  · refine ⟨c.toPeerState.updateBitfield msg.payload, by rw [PeerState.update, hmsg], h.torrent_eq, ?_,
      fun index => ?_⟩
    · rw [← h.torrent_eq]
      exact PeerState.length_updateBitfield msg.payload
    · rw [announces_append_bitfield hmsg, ← h.torrent_eq]
      exact PeerState.getD_updateBitfield msg.payload

theorem knows_updates {torrent : TorrentInfo} (fuel : ℕ) (h : Knows torrent [] c)
    (hmsgs : ∀ msg ∈ msgs, msg.id = .havePiece ∨ msg.id = .bitfield) :
    ∃ c', c.updates fuel msgs = some c' ∧ Knows torrent msgs c' := by
  induction msgs using List.reverseRecOn with
  | nil => exact ⟨c, rfl, h⟩
  | append_singleton msgs msg ih =>
    obtain ⟨c', hrun, hc'⟩ := ih fun msg hmem => hmsgs msg (List.mem_append_left _ hmem)
    obtain ⟨state, hstate, hknows⟩ := knows_update fuel hc' (hmsgs msg (by simp))
    exact ⟨_, by rw [updates_append, hrun, Option.bind_some, hstate, Option.map_some], hknows⟩

/-- After a handshake, the connection knows exactly the pieces that the have messages and the last
bitfield announce. -/
theorem hasPiece_iff (c : PeerConnection) (s : Socket) (net : Network) (c' : PeerConnection)
    (hshake : c.performHandshake s net = (true, c')) (fuel : ℕ) (msgs : List PeerMessage)
    (hmsgs : ∀ msg ∈ msgs, msg.id = .havePiece ∨ msg.id = .bitfield) :
    ∃ c'', c'.updates fuel msgs = some c'' ∧ c''.bitfield.length = c.torrent.numPieces ∧
      ∀ index, c''.hasPiece index = true ↔
        index < c.torrent.numPieces ∧ Announces msgs index := by
  obtain ⟨hbits, htorrent⟩ := bitfield_performHandshake hshake
  have hinit : Knows c.torrent [] c' := by
    refine ⟨htorrent, by simp [hbits], fun index => ?_⟩
    by_cases h : index < c.torrent.numPieces <;>
      simp [hasPiece, hbits, Announces, h]
  obtain ⟨c'', hrun, hknows⟩ := knows_updates fuel hinit hmsgs
  exact ⟨c'', hrun, hknows.length, hknows.hasPiece⟩

/-- A connection for a torrent of two pieces. -/
def forTwoPieces : PeerConnection where
  ip := []
  port := 0
  torrent := { pieces := List.replicate 40 0 }
  peerId := []

/-- A peer that has the first piece and then the second one, too. -/
theorem hasPiece_iff_two :
    ∃ c : PeerConnection,
      (forTwoPieces.performHandshake { incoming := handshake [] [] } {}).2.updates 0
        [⟨⟨.bitfield, [0x80]⟩, 2⟩, ⟨⟨.havePiece, [0, 0, 0, 1]⟩, 5⟩] = some c ∧
      c.bitfield.length = 2 ∧ ∀ index, c.hasPiece index = true ↔
        index < 2 ∧ Announces [⟨⟨.bitfield, [0x80]⟩, 2⟩, ⟨⟨.havePiece, [0, 0, 0, 1]⟩, 5⟩] index :=
  hasPiece_iff forTwoPieces { incoming := handshake [] [] } {} _ (Prod.ext (by decide) rfl) 0 _
    (by decide)

end PeerConnection

end Gush.Wire
