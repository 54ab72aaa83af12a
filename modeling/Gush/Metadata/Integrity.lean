import Gush.Lib.Run
import Gush.Metadata.Download

/-!
# The metadata and their hash

`requestMetadata` clears the metadata when a check fails, but it leaves `complete_` as it is, and
`start` contacts peers even if the download is complete already. `complete_correct` says that
complete metadata have the hash of the magnet link, as long as no peer whose pieces fail the check
is contacted by a `start` on a complete download.
-/

namespace Gush

open Cxx Bencode Wire Metadata

namespace MetadataDownloader

variable {sha1 : Bytes → Bytes} {fuel : ℕ} {d d' : MetadataDownloader}

/-! ### What a contact changes -/

/-- Complete metadata have the hash of the magnet link. -/
def Correct (sha1 : Bytes → Bytes) (d : MetadataDownloader) : Prop :=
  d.isComplete = true → sha1 d.getTorrentData = d.magnet.infoHashRaw

/-- The pieces pass the checks of `requestMetadata`. -/
def Matches (sha1 : Bytes → Bytes) (d : MetadataDownloader) : Prop :=
  int32 d.pieces.flatten.length = d.metadataSize ∧ sha1 d.pieces.flatten = d.magnet.infoHashRaw

/-- The peer answers everything, which leads to the state `d'` with all the pieces. -/
def Fetches (fuel : ℕ) (d : MetadataDownloader) (peer : Contact) (d' : MetadataDownloader) : Prop :=
  peer.connects = true ∧ ∃ sock, d.performHandshake { turns := peer.turns } = (true, sock) ∧
    ∃ metadataExtId d₁ sock₁,
      d.exchangeExtensions fuel sock = some (some metadataExtId, d₁, sock₁) ∧
      ∃ pieces sock₂, requestLoop fuel (UInt8.ofInt metadataExtId)
          (List.range d₁.numPieces.toNat) d₁.pieces sock₁ = some (true, pieces, sock₂) ∧
        d' = { d₁ with pieces }

/-- The peer answers everything, but its pieces fail the checks. -/
def Spoils (sha1 : Bytes → Bytes) (fuel : ℕ) (d : MetadataDownloader) (peer : Contact) : Prop :=
  ∃ d', Fetches fuel d peer d' ∧ ¬ d'.Matches sha1

/-- The completion, the metadata and the magnet link are the same. -/
structure Keeps (d d' : MetadataDownloader) : Prop where
  magnet : d'.magnet = d.magnet
  complete : d'.complete = d.complete
  metadata : d'.metadata = d.metadata

theorem Keeps.refl (d : MetadataDownloader) : Keeps d d := ⟨rfl, rfl, rfl⟩

theorem Keeps.trans {d'' : MetadataDownloader} (h : Keeps d d') (h' : Keeps d' d'') : Keeps d d'' :=
  ⟨h'.magnet.trans h.magnet, h'.complete.trans h.complete, h'.metadata.trans h.metadata⟩

theorem Keeps.correct (h : Keeps d d') (hd : d.Correct sha1) : d'.Correct sha1 := by
  intro hcomplete
  rw [getTorrentData, h.metadata, h.magnet]
  exact hd (h.complete.symm.trans hcomplete)

theorem announceSize_keeps (dict : BencodeDict) : Keeps d (d.announceSize dict).2 := by
  unfold announceSize
  split
  · exact .refl d
  · dsimp only
    split <;> exact ⟨rfl, rfl, rfl⟩

theorem readHandshake_keeps (r : Outcome) : Keeps d (d.readHandshake r).2 := by
  rcases r with e | ⟨_ | _ | _ | dict, p⟩
  · exact .refl d
  · exact .refl d
  · exact .refl d
  · exact .refl d
  · have h := announceSize_keeps (d := d) dict
    rw [readHandshake]
    rcases hout : d.announceSize dict with ⟨ok, d₁⟩
    rw [hout] at h
    cases ok <;> exact h

/-- What an exchange does: it fails before there is anything to read, or the answer of the peer is
read. -/
theorem exchangeExtensions_cases {sock sock'' : Link} {metadataExtId : Option ℤ}
    (h : d.exchangeExtensions fuel sock = some (metadataExtId, d', sock'')) :
    (metadataExtId = none ∧ d' = d) ∨ ∃ sock' payload r,
      sock.sendFull (extendedFrame extendedHandshakeId (ascii "d1:md2:ut_metadatai1ee")) =
        (true, sock') ∧
      readExtendedMessage sock' extendedHandshakeId = (some payload, sock'') ∧
      d' = (d.readHandshake r).2 := by
  unfold exchangeExtensions at h
  rcases hsend : sock.sendFull (extendedFrame extendedHandshakeId
    (ascii "d1:md2:ut_metadatai1ee")) with ⟨_ | _, sock'⟩ <;> rw [hsend] at h
  · cases h
    exact .inl ⟨rfl, rfl⟩
  dsimp only at h
  rcases hread : readExtendedMessage sock' extendedHandshakeId with ⟨_ | payload, sock₂⟩ <;>
    rw [hread] at h
  · cases h
    exact .inl ⟨rfl, rfl⟩
  obtain ⟨r, -, hout⟩ := Option.map_eq_some_iff.1 h
  refine .inr ⟨sock', payload, r, rfl, hread.trans ?_, ?_⟩
  · rcases hhandshake : d.readHandshake r with ⟨_ | id, d₁⟩ <;> rw [hhandshake] at hout <;>
      exact Prod.ext rfl (congrArg (fun out => out.2.2) hout)
  · rcases hhandshake : d.readHandshake r with ⟨_ | id, d₁⟩ <;> rw [hhandshake] at hout <;>
      exact (congrArg (fun out => out.2.1) hout).symm

theorem exchangeExtensions_keeps {sock sock'' : Link} {metadataExtId : Option ℤ}
    (h : d.exchangeExtensions fuel sock = some (metadataExtId, d', sock'')) : Keeps d d' := by
  rcases exchangeExtensions_cases h with ⟨-, rfl⟩ | ⟨sock', payload, r, -, -, rfl⟩
  · exact .refl d'
  · exact readHandshake_keeps r

theorem requestMetadata_cases {sock sock' : Link} {metadataExtId : ℤ} {success : Bool}
    (h : d.requestMetadata sha1 fuel sock metadataExtId = some (success, d', sock')) :
    (success = false ∧ Keeps d d') ∨
      ∃ pieces sock₁, requestLoop fuel (UInt8.ofInt metadataExtId) (List.range d.numPieces.toNat)
          d.pieces sock = some (true, pieces, sock₁) ∧
        (success, d') = { d with pieces }.verify sha1 := by
  unfold requestMetadata at h
  rcases hloop : requestLoop fuel (UInt8.ofInt metadataExtId) (List.range d.numPieces.toNat)
    d.pieces sock with - | ⟨_ | _, pieces, sock₁⟩ <;> rw [hloop] at h
  · cases h
  · cases h
    exact .inl ⟨rfl, ⟨rfl, rfl, rfl⟩⟩
  · obtain ⟨hsuccess, hrest⟩ := Prod.mk.inj (Option.some.inj h)
    obtain ⟨hd', -⟩ := Prod.mk.inj hrest
    exact .inr ⟨pieces, sock₁, rfl, Prod.ext hsuccess.symm hd'.symm⟩

/-- What a contact does: it changes no metadata, or the peer has answered everything and the pieces
are checked. -/
theorem downloadFromPeer_cases {peer : Contact} {success : Bool}
    (h : d.downloadFromPeer sha1 fuel peer = some (success, d')) :
    (success = false ∧ Keeps d d') ∨
      ∃ d₁, Fetches fuel d peer d₁ ∧ Keeps d d₁ ∧ (success, d') = d₁.verify sha1 := by
  unfold downloadFromPeer at h
  split_ifs at h with hconnects
  · rcases hhandshake : d.performHandshake { turns := peer.turns } with ⟨_ | _, sock⟩ <;>
      rw [hhandshake] at h
    · cases h
      exact .inl ⟨rfl, .refl d⟩
    dsimp only at h
    rcases hexchange : d.exchangeExtensions fuel sock with - | ⟨- | metadataExtId, d₁, sock₁⟩ <;>
      rw [hexchange] at h
    · cases h
    · cases h
      exact .inl ⟨rfl, exchangeExtensions_keeps hexchange⟩
    have hkeeps : Keeps d d₁ := exchangeExtensions_keeps hexchange
    dsimp only at h
    split_ifs at h with hneg
    · cases h
      exact .inl ⟨rfl, hkeeps⟩
    · obtain ⟨⟨success', d₂, sock₂⟩, hrequest, hout⟩ := Option.map_eq_some_iff.1 h
      obtain ⟨rfl, rfl⟩ := Prod.mk.inj hout
      rcases requestMetadata_cases hrequest with ⟨hfalse, hkeeps'⟩ | ⟨pieces, sock₃, hloop, hverify⟩
      · exact .inl ⟨hfalse, hkeeps.trans hkeeps'⟩
      · exact .inr ⟨{ d₁ with pieces }, ⟨hconnects, sock, hhandshake, metadataExtId, d₁, sock₁,
          hexchange, pieces, sock₃, hloop, rfl⟩, hkeeps.trans ⟨rfl, rfl, rfl⟩, hverify⟩
  · cases h
    exact .inl ⟨rfl, .refl d⟩

/-- What the check of the pieces does. -/
theorem verify_cases (sha1 : Bytes → Bytes) (d : MetadataDownloader) :
    (d.Matches sha1 ∧
        d.verify sha1 = (true, { d with metadata := d.pieces.flatten, complete := true })) ∨
      ¬ d.Matches sha1 ∧ d.verify sha1 = (false, { d with metadata := [] }) := by
  unfold verify
  dsimp only
  by_cases hsize : int32 d.pieces.flatten.length = d.metadataSize
  · rw [if_neg (not_not.2 hsize)]
    by_cases hhash : sha1 d.pieces.flatten = d.magnet.infoHashRaw
    · rw [if_neg (not_not.2 hhash)]
      exact .inl ⟨⟨hsize, hhash⟩, rfl⟩
    · rw [if_pos hhash]
      exact .inr ⟨fun h => hhash h.2, rfl⟩
  · rw [if_pos hsize]
    exact .inr ⟨fun h => hsize h.1, rfl⟩

/-- A contact that fails completes nothing, and one that succeeds completes the download. -/
theorem downloadFromPeer_complete {peer : Contact} {success : Bool}
    (h : d.downloadFromPeer sha1 fuel peer = some (success, d')) :
    d'.complete = if success then true else d.complete := by
  rcases downloadFromPeer_cases h with ⟨rfl, hkeeps⟩ | ⟨d₁, -, hkeeps, hverify⟩
  · exact hkeeps.complete
  · rcases verify_cases sha1 d₁ with ⟨-, hout⟩ | ⟨-, hout⟩ <;> rw [hout] at hverify <;> cases hverify
    · rfl
    · exact hkeeps.complete

/-- A contact keeps complete metadata correct, unless it spoils them. -/
theorem downloadFromPeer_correct {peer : Contact} {success : Bool} (hd : d.Correct sha1)
    (hspoils : d.complete = true → ¬ Spoils sha1 fuel d peer)
    (h : d.downloadFromPeer sha1 fuel peer = some (success, d')) : d'.Correct sha1 := by
  rcases downloadFromPeer_cases h with ⟨-, hkeeps⟩ | ⟨d₁, hfetches, hkeeps, hverify⟩
  · exact hkeeps.correct hd
  · rcases verify_cases sha1 d₁ with ⟨hmatches, hout⟩ | ⟨hmatches, hout⟩ <;>
      rw [hout] at hverify <;> cases hverify
    · exact fun _ => hmatches.2
    · -- the metadata are gone, but `complete` is as it was
      intro hcomplete
      exact absurd ⟨d₁, hfetches, hmatches⟩ (hspoils (hkeeps.complete.symm.trans hcomplete))

/-! ### The public calls -/

/-- None of the peers that `start` contacts, up to the first success, has pieces that fail the
checks. -/
def Unspoiled (sha1 : Bytes → Bytes) (fuel : ℕ) : List Contact → MetadataDownloader → Prop
  | [], _ => True
  | peer :: peers, d => ¬ Spoils sha1 fuel d peer ∧
      ∀ d', d.downloadFromPeer sha1 fuel peer = some (false, d') → Unspoiled sha1 fuel peers d'

theorem tryPeers_correct {peers : List Contact} (hd : d.Correct sha1)
    (hpeers : d.complete = true → Unspoiled sha1 fuel peers d)
    (h : tryPeers sha1 fuel peers d = some d') : d'.Correct sha1 := by
  induction peers generalizing d with
  | nil =>
    cases h
    exact hd
  | cons peer peers ih =>
    rw [tryPeers] at h
    rcases hdownload : d.downloadFromPeer sha1 fuel peer with - | ⟨success, d₁⟩ <;>
      rw [hdownload] at h
    · cases h
    have hcorrect : d₁.Correct sha1 :=
      downloadFromPeer_correct hd (fun hcomplete => (hpeers hcomplete).1) hdownload
    have hcomplete := downloadFromPeer_complete hdownload
    dsimp only at h
    split_ifs at h with hbreak
    · cases h
      exact hcorrect
    · refine ih hcorrect (fun hcomplete₁ => ?_) h
      cases success with
      | true => exact absurd ⟨rfl, hcomplete⟩ hbreak
      | false => exact (hpeers (hcomplete.symm.trans hcomplete₁)).2 d₁ hdownload

/-- A public call, with what the peers do during it. -/
inductive Event where
  | start (fuel : ℕ) (allPeers : List Contact)
  | addPeer (fuel : ℕ) (peer : Contact)
  | stop

/-- One call; `none` if it does not return. -/
def call (sha1 : Bytes → Bytes) (d : MetadataDownloader) : Event → Option MetadataDownloader
  | .start fuel allPeers => (d.start sha1 fuel allPeers).map Prod.snd
  | .addPeer fuel peer => d.addPeer sha1 fuel peer
  | .stop => some d.stop

/-- A step of a run, which ends with a call that does not return. -/
def step (sha1 : Bytes → Bytes) (d : Option MetadataDownloader) (e : Event) :
    Option MetadataDownloader :=
  d.bind fun d => d.call sha1 e

/-- The constructor. -/
def init (magnet : MagnetLink) : MetadataDownloader where
  magnet

/-- A `start` on a complete download contacts no peer whose pieces fail the checks. -/
def StartsUnspoiled (sha1 : Bytes → Bytes) (d : Option MetadataDownloader) (e : Event) : Prop :=
  ∀ d' fuel peers, d = some d' → e = .start fuel peers → d'.complete = true →
    Unspoiled sha1 fuel peers d'

/-- What a call keeps. -/
theorem call_correct {e : Event} (hd : d.Correct sha1) (hguard : StartsUnspoiled sha1 (some d) e)
    (h : d.call sha1 e = some d') : d'.Correct sha1 := by
  cases e with
  | start fuel peers =>
    obtain ⟨⟨result, d₁⟩, hstart, rfl⟩ := Option.map_eq_some_iff.1 h
    unfold start at hstart
    split_ifs at hstart with hempty
    · cases hstart
      exact hd
    · obtain ⟨d₂, htry, hout⟩ := Option.map_eq_some_iff.1 hstart
      cases hout
      exact tryPeers_correct hd (hguard d fuel peers rfl rfl) htry
  | addPeer fuel peer =>
    replace h : d.addPeer sha1 fuel peer = some d' := h
    unfold addPeer at h
    split_ifs at h with hcomplete
    · cases h
      exact hd
    · obtain ⟨⟨success, d₁⟩, hdownload, rfl⟩ := Option.map_eq_some_iff.1 h
      exact downloadFromPeer_correct hd (fun hd => absurd hd hcomplete) hdownload
  | stop =>
    cases h
    exact nofun

/-- **Complete metadata are correct**: in every run in which no `start` on a complete download
contacts a peer whose pieces fail the checks, whatever the peers send, complete metadata have the
hash of the magnet link in every state that is reached. -/
theorem complete_correct (sha1 : Bytes → Bytes) (magnet : MagnetLink) (events : List Event)
    (hguard : Run.Along (step sha1) (StartsUnspoiled sha1) (some (init magnet)) events)
    {d : MetadataDownloader} (hrun : events.foldl (step sha1) (some (init magnet)) = some d)
    (hcomplete : d.isComplete = true) : sha1 d.getTorrentData = d.magnet.infoHashRaw := by
  have hkeeps : ∀ (s s' : MetadataDownloader) (e : Event), s.Correct sha1 →
      StartsUnspoiled sha1 (some s) e → s.call sha1 e = some s' → s'.Correct sha1 :=
    fun s s' e hs hg hcall => call_correct hs hg hcall
  have hinit : (init magnet).Correct sha1 := nofun
  exact hguard.invariant_bind (fun s e => rfl) hkeeps hinit hrun hcomplete

/-! ### A second start -/

/-- A magnet link with 20 bytes for a hash. -/
def sampleMagnet : MagnetLink where
  infoHashRaw := List.replicate 20 'a'.toUInt8

/-- The extended handshake of a peer with 20 bytes of metadata. -/
def sampleHandshake : BencodeDict :=
  [(ascii "m", .dict [(ascii "ut_metadata", .int 1)]), (ascii "metadata_size", .int 20)]

/-- A peer that serves some bytes as the only piece. -/
def serving (piece : Bytes) : Contact where
  turns := [some (handshake sampleMagnet.infoHashRaw clientId),
    some (extendedFrame 0 (encode (.dict sampleHandshake))),
    some (extendedFrame 1 (encode (.dict [(ascii "msg_type", .int 1)]) ++ piece))]

/-- A download in which every byte string is its own hash. -/
def sampleRun (events : List Event) : Option MetadataDownloader :=
  events.foldl (step id) (some (init sampleMagnet))

theorem sampleRun_start :
    (sampleRun [.start 10 [serving (List.replicate 20 'a'.toUInt8)]]).map
      (fun d => (d.complete, d.metadata)) = some (true, List.replicate 20 'a'.toUInt8) := by
  decide +kernel

/-- `complete_correct` for a download from one peer. -/
theorem complete_correct_start :
    ∃ d, sampleRun [.start 10 [serving (List.replicate 20 'a'.toUInt8)]] = some d ∧
      d.isComplete = true ∧ id d.getTorrentData = d.magnet.infoHashRaw := by
  obtain ⟨d, hrun, hd⟩ := Option.map_eq_some_iff.1 sampleRun_start
  have hcomplete : d.complete = true := (Prod.mk.inj hd).1
  have hguard : Run.Along (step id) (StartsUnspoiled id) (some (init sampleMagnet))
      [.start 10 [serving (List.replicate 20 'a'.toUInt8)]] := by
    refine ⟨?_, trivial⟩
    rintro d' fuel peers hd' - hcomplete'
    cases hd'
    cases hcomplete'
  exact ⟨d, hrun, hcomplete, complete_correct id sampleMagnet _ hguard hrun hcomplete⟩

theorem sampleRun_restart :
    (sampleRun [.start 10 [serving (List.replicate 20 'a'.toUInt8)],
      .start 10 [serving (List.replicate 20 'b'.toUInt8)]]).map
      (fun d => (d.complete, d.metadata, d.magnet.infoHashRaw)) =
        some (true, [], List.replicate 20 'a'.toUInt8) := by
  decide +kernel

/-- A complete download that is started again and then meets a peer with other pieces has no
metadata, but is still complete. -/
theorem not_forall_correct :
    ¬ ∀ (sha1 : Bytes → Bytes) (magnet : MagnetLink) (events : List Event) (d : MetadataDownloader),
      events.foldl (step sha1) (some (init magnet)) = some d → d.isComplete = true →
      sha1 d.getTorrentData = d.magnet.infoHashRaw := by
  intro h
  obtain ⟨d, hrun, hd⟩ := Option.map_eq_some_iff.1 sampleRun_restart
  obtain ⟨hcomplete, hrest⟩ := Prod.mk.inj hd
  obtain ⟨hmetadata, hhash⟩ := Prod.mk.inj hrest
  have hcorrect := h id sampleMagnet _ d hrun hcomplete
  rw [getTorrentData, hmetadata, hhash] at hcorrect
  exact absurd hcorrect (by decide)

end MetadataDownloader

end Gush
