import Gush.Torrent.InfoBytes

/-!
# Torrents from magnet links

`createTorrentFromMetadata` decodes the info dictionary a second time, check for check like
`loadTorrent` but with error texts of its own, with a rule for empty names, and with the info hash
of the magnet link in place of a search in the file. `magnet_agrees` says that both give the same
torrent for the same info dictionary.
-/

namespace Gush

open Cxx Bencode

/-- `MagnetLink`. -/
structure MagnetLink where
  /-- Hexadecimal or base32. -/
  infoHash : Bytes := []
  infoHashRaw : Bytes := []
  displayName : Bytes := []
  size : ℤ := 0
  exactTopic : Bytes := []
  exactSource : Bytes := []
  trackers : List Bytes := []

namespace Magnet

/-- The components of a file's path, joined by slashes. -/
def joinPath : List BencodeValue → Except Exn Bytes
  | [] => .ok []
  | v :: rest =>
    match v with
    | .str (c :: s) =>
      match rest with
      | [] => .ok (c :: s)
      | _ :: _ => (joinPath rest).map fun p => c :: s ++ '/'.toUInt8 :: p
    | _ => throwRuntime "Invalid metadata: invalid file path component"

/-- One element of the `files` list. -/
def readFileEntry (v : BencodeValue) : Except Exn FileEntry :=
  match v.asDict? with
  | none => throwRuntime "Invalid metadata: file entry is not a dictionary"
  | some fileDict =>
    match (dictGet fileDict (ascii "length")).bind BencodeValue.asInt? with
    | none => throwRuntime "Invalid metadata: missing file length"
    | some length =>
      match (dictGet fileDict (ascii "path")).bind BencodeValue.asList? with
      | none => throwRuntime "Invalid metadata: missing file path"
      | some [] => throwRuntime "Invalid metadata: missing file path"
      | some (c :: components) =>
        (joinPath (c :: components)).map fun path => { path, length := Int64.ofInt length }

/-- The file list, or the length of the single file. -/
def readLayout (infoDict : BencodeDict) (torrent : TorrentInfo) : Except Exn TorrentInfo :=
  match (dictGet infoDict (ascii "files")).bind BencodeValue.asList? with
  | some [] => throwRuntime "Invalid metadata: empty files list"
  | some (f :: files) =>
    ((f :: files).mapM readFileEntry).map fun entries => { torrent with files := entries }
  | none =>
    match (dictGet infoDict (ascii "length")).bind BencodeValue.asInt? with
    | none => throwRuntime "Invalid metadata: missing length"
    | some length =>
      .ok { torrent with fileLength := Int64.ofInt length, fileName := torrent.name }

/-- The display name of the magnet link in place of an empty name. -/
def withDisplayName (magnet : MagnetLink) (torrent : TorrentInfo) : TorrentInfo :=
  if torrent.name = [] ∧ magnet.displayName ≠ [] then { torrent with name := magnet.displayName }
  else torrent

/-- Everything `createTorrentFromMetadata` does with the parsed metadata. -/
def readInfo (magnet : MagnetLink) (peerId : Bytes) (root : BencodeValue) :
    Except Exn TorrentInfo :=
  match root.asDict? with
  | none => throwRuntime "Invalid metadata: root is not a dictionary"
  | some infoDict =>
    let torrent : TorrentInfo := {
      infoHash := magnet.infoHashRaw
      peerId
      announceList := magnet.trackers }
    match (dictGet infoDict (ascii "piece length")).bind BencodeValue.asInt? with
    | none => throwRuntime "Invalid metadata: missing piece length"
    | some pieceLength =>
      match (dictGet infoDict (ascii "pieces")).bind BencodeValue.asString? with
      | none => throwRuntime "Invalid metadata: missing pieces"
      | some pieces =>
        match (dictGet infoDict (ascii "name")).bind BencodeValue.asString? with
        | none => throwRuntime "Invalid metadata: missing name"
        | some name =>
          match readLayout infoDict
              { torrent with pieceLength := Int64.ofInt pieceLength, pieces, name } with
          | .error e => .error e
          | .ok torrent =>
            let torrent := withDisplayName magnet torrent
            match validateTorrentInfo torrent with
            | .error e => .error e
            | .ok () => .ok torrent

def createTorrentFromMetadata (peerId : Bytes) (fuel : ℕ) (magnet : MagnetLink)
    (metadata : Bytes) : Option (Except Exn TorrentInfo) :=
  match parseImpl fuel metadata 0 with
  | none => none
  | some (.error e) => some (.error e)
  | some (.ok (root, _)) => some (readInfo magnet peerId root)

/-! ### The two decoders step by step -/

/-- The fields that come from the info dictionary are the same. -/
structure SameInfo (t t' : TorrentInfo) : Prop where
  name : t'.name = t.name
  pieceLength : t'.pieceLength = t.pieceLength
  pieces : t'.pieces = t.pieces
  files : t'.files = t.files
  fileName : t'.fileName = t.fileName
  fileLength : t'.fileLength = t.fileLength

/-- Both fail, or both succeed with related results. -/
def Agree {α β : Type} (R : α → β → Prop) : Except Exn α → Except Exn β → Prop
  | .ok a, .ok b => R a b
  | .error _, .error _ => True
  | _, _ => False

theorem Agree.cases {α β : Type} {R : α → β → Prop} {x : Except Exn α} {y : Except Exn β}
    (h : Agree R x y) :
    (∃ e e', x = .error e ∧ y = .error e') ∨ ∃ a b, x = .ok a ∧ y = .ok b ∧ R a b := by
  cases x with
  | error e => cases y with
    | error e' => exact .inl ⟨e, e', rfl, rfl⟩
    | ok b => exact h.elim
  | ok a => cases y with
    | error e' => exact h.elim
    | ok b => exact .inr ⟨a, b, rfl, rfl, h⟩

theorem Agree.map {α β γ δ : Type} {R : α → β → Prop} {S : γ → δ → Prop} {f : α → γ} {g : β → δ}
    {x : Except Exn α} {y : Except Exn β} (h : Agree R x y) (hfg : ∀ a b, R a b → S (f a) (g b)) :
    Agree S (x.map f) (y.map g) := by
  rcases h.cases with ⟨e, e', rfl, rfl⟩ | ⟨a, b, rfl, rfl, hab⟩
  · trivial
  · exact hfg a b hab

theorem joinPath_agree (components : List BencodeValue) :
    Agree Eq (Torrent.joinPath components) (joinPath components) := by
  induction components with
  | nil => exact rfl
  | cons v rest ih =>
    match v with
    | .str [] => exact trivial
    | .str (c :: s) =>
      cases rest with
      | nil => exact rfl
      | cons w rest => exact ih.map fun p p' hp => by rw [hp]
    | .int _ => exact trivial
    | .list _ => exact trivial
    | .dict _ => exact trivial

theorem readFileEntry_agree (v : BencodeValue) :
    Agree Eq (Torrent.readFileEntry v) (readFileEntry v) := by
  unfold Torrent.readFileEntry readFileEntry
  cases v.asDict? with
  | none => exact trivial
  | some fileDict =>
    dsimp only
    cases (dictGet fileDict (ascii "length")).bind BencodeValue.asInt? with
    | none => exact trivial
    | some length =>
      dsimp only
      cases (dictGet fileDict (ascii "path")).bind BencodeValue.asList? with
      | none => exact trivial
      | some components =>
        cases components with
        | nil => exact trivial
        | cons c components => exact (joinPath_agree _).map fun p p' hp => by rw [hp]

theorem mapM_agree {α β : Type} {f g : α → Except Exn β} (h : ∀ a, Agree Eq (f a) (g a))
    (l : List α) : Agree Eq (l.mapM f) (l.mapM g) := by
  induction l with
  | nil => exact rfl
  | cons a l ih =>
    rw [List.mapM_cons, List.mapM_cons]
    rcases (h a).cases with ⟨e, e', hf, hg⟩ | ⟨b, _, hf, hg, rfl⟩ <;> rw [hf, hg]
    · trivial
    · exact ih.map (f := (b :: ·)) (g := (b :: ·)) fun x y hxy => by rw [hxy]

theorem readLayout_agree (infoDict : BencodeDict) {t t' : TorrentInfo} (h : SameInfo t t') :
    Agree SameInfo (Torrent.readLayout infoDict t) (readLayout infoDict t') := by
  unfold Torrent.readLayout readLayout
  cases (dictGet infoDict (ascii "files")).bind BencodeValue.asList? with
  | none =>
    dsimp only
    cases (dictGet infoDict (ascii "length")).bind BencodeValue.asInt? with
    | none => exact trivial
    | some length => exact { h with fileName := h.name, fileLength := rfl }
  | some files =>
    cases files with
    | nil => exact trivial
    | cons f files =>
      refine (mapM_agree readFileEntry_agree _).map fun entries entries' he => ?_
      exact { h with files := he.symm }

/-- Validation looks at nothing but the fields from the info dictionary. -/
theorem validate_congr {t t' : TorrentInfo} (h : SameInfo t t') :
    validateTorrentInfo t' = validateTorrentInfo t := by
  obtain ⟨hname, hpieceLength, hpieces, hfiles, hfileName, hfileLength⟩ := h
  cases t
  cases t'
  simp only at hname hpieceLength hpieces hfiles hfileName hfileLength
  subst hname hpieceLength hpieces hfiles hfileName hfileLength
  rfl

theorem infoHash_readLayout {infoDict : BencodeDict} {t t' : TorrentInfo}
    (h : readLayout infoDict t = .ok t') : t'.infoHash = t.infoHash := by
  unfold readLayout at h
  split at h
  · cases h
  · rename_i f files _
    cases hentries : (f :: files).mapM readFileEntry with
    | error e =>
      rw [hentries] at h
      cases h
    | ok entries =>
      rw [hentries] at h
      cases h
      rfl
  · split at h
    · cases h
    · cases h
      rfl

/-- The display name only replaces an empty name. -/
theorem withDisplayName_of_name {magnet : MagnetLink} {t : TorrentInfo} (h : t.name ≠ []) :
    withDisplayName magnet t = t :=
  if_neg fun hempty => h hempty.1

theorem withDisplayName_of_nil {magnet : MagnetLink} {t : TorrentInfo}
    (h : magnet.displayName = []) : withDisplayName magnet t = t :=
  if_neg fun hempty => hempty.2 h

/-- The root dictionary of a file that holds nothing but an info dictionary. -/
def rootOf (info : BencodeValue) : BencodeValue := .dict [(ascii "info", info)]

/-- A torrent of the file and one of the magnet link: the same fields, and the info hash of the
magnet link. -/
def FromSameInfo (magnet : MagnetLink) (info : BencodeValue) (r : TorrentInfo × BencodeValue)
    (t' : TorrentInfo) : Prop :=
  SameInfo r.1 t' ∧ t'.infoHash = magnet.infoHashRaw ∧ r.2 = info ∧ Torrent.isInfoDict info = true

/-- What the file path accepts, the magnet path accepts with the same fields; without a display
name the converse holds too. -/
def Follows (magnet : MagnetLink) (info : BencodeValue)
    (r : Except Exn (TorrentInfo × BencodeValue)) (r' : Except Exn TorrentInfo) : Prop :=
  (∀ x, r = .ok x → ∃ t', r' = .ok t' ∧ FromSameInfo magnet info x t') ∧
  (magnet.displayName = [] → (∃ e, r = .error e) → ∃ e', r' = .error e')

theorem follows_error (magnet : MagnetLink) (info : BencodeValue) (e e' : Exn) :
    Follows magnet info (.error e) (.error e') :=
  ⟨fun x hx => (by cases hx), fun _ _ => ⟨e', rfl⟩⟩

/-- The last steps of both decoders: the layout, the display name, the validation. -/
theorem finish_agree {magnet : MagnetLink} {infoDict : BencodeDict} {t t' : TorrentInfo}
    (hsame : SameInfo t t') (hhash : t'.infoHash = magnet.infoHashRaw)
    (hinfo : Torrent.isInfoDict (.dict infoDict) = true) :
    Follows magnet (.dict infoDict)
      (match Torrent.readLayout infoDict t with
        | .error e => .error e
        | .ok torrent =>
          match validateTorrentInfo torrent with
          | .error e => .error e
          | .ok () => .ok (torrent, .dict infoDict))
      (match readLayout infoDict t' with
        | .error e => .error e
        | .ok torrent =>
          match validateTorrentInfo (withDisplayName magnet torrent) with
          | .error e => .error e
          | .ok () => .ok (withDisplayName magnet torrent)) := by
  rcases (readLayout_agree infoDict hsame).cases with
    ⟨e, e', hfile, hlink⟩ | ⟨t₁, t₁', hfile, hlink, hagree⟩ <;> rw [hfile, hlink]
  · exact follows_error magnet _ e e'
  · have hvalid := validate_congr hagree
    dsimp only
    cases hv : validateTorrentInfo t₁ with
    | error e =>
      refine ⟨fun x hx => (by cases hx), fun hname _ => ⟨e, ?_⟩⟩
      rw [withDisplayName_of_nil hname, hvalid, hv]
    | ok u =>
      have haccepted : t₁.Accepted := hv
      have hname : t₁'.name ≠ [] := hagree.name ▸ haccepted.name_ne_nil
      refine ⟨fun x hx => ⟨t₁', ?_, ?_⟩, ?_⟩
      · rw [withDisplayName_of_name hname, hvalid, hv]
      · cases hx
        exact ⟨hagree, (infoHash_readLayout hlink).trans hhash, rfl, hinfo⟩
      · rintro - ⟨e, he⟩
        cases he

/-- Decoding the same dictionary on both paths. -/
theorem readInfo_agree (magnet : MagnetLink) (peerId peerId' : Bytes) (info : BencodeValue) :
    Follows magnet info (Torrent.readRoot peerId (rootOf info)) (readInfo magnet peerId' info) := by
  have hget : dictGet [(ascii "info", info)] (ascii "info") = some info := by simp [dictGet]
  unfold Torrent.readRoot readInfo rootOf
  simp only [BencodeValue.asDict?, hget]
  cases info with
  | int i => exact follows_error magnet _ _ _
  | str s => exact follows_error magnet _ _ _
  | list l => exact follows_error magnet _ _ _
  | dict infoDict =>
    dsimp only
    cases hlength : (dictGet infoDict (ascii "piece length")).bind BencodeValue.asInt? with
    | none => exact follows_error magnet _ _ _
    | some pieceLength =>
      dsimp only
      cases hpieces : (dictGet infoDict (ascii "pieces")).bind BencodeValue.asString? with
      | none => exact follows_error magnet _ _ _
      | some pieces =>
        dsimp only
        cases (dictGet infoDict (ascii "name")).bind BencodeValue.asString? with
        | none => exact follows_error magnet _ _ _
        | some name =>
          -- both mandatory keys are there
          have hsome : ∀ {α : Type} {o : Option BencodeValue} {f : BencodeValue → Option α} {a : α},
              o.bind f = some a → o.isSome = true := by
            intro α o f a h
            cases o with
            | none => cases h
            | some v => rfl
          refine finish_agree ⟨rfl, rfl, rfl, rfl, rfl, rfl⟩ rfl ?_
          rw [Torrent.isInfoDict, hsome hpieces, hsome hlength]
          rfl

/-! ### A file that holds nothing but an info dictionary -/

/-- The content of the file. -/
def torrentFile (info : BencodeValue) : Bytes := ascii "d4:info" ++ encode info ++ ascii "e"

theorem torrentFile_eq_encode (info : BencodeValue) : torrentFile info = encode (rootOf info) := by
  have hkey : encodeString (ascii "info") = ascii "4:info" := by decide
  rw [torrentFile, rootOf, encode, encodeEntries, encodeEntries, hkey, List.append_nil]
  rfl

theorem parses_torrentFile {info : BencodeValue} (hinfo : info.Valid)
    (hlen : (torrentFile info).length < 2 ^ 63) :
    Parses (torrentFile info) 0 (.ok (rootOf info, (torrentFile info).length)) := by
  have hvalid : (rootOf info).Valid := by
    refine .dict (fun e he => ?_) (List.pairwise_singleton _ _)
    rw [List.mem_singleton.1 he]
    exact hinfo
  have hdrop : (torrentFile info).drop 0 = encode (rootOf info) ++ [] := by
    rw [List.drop_zero, List.append_nil, torrentFile_eq_encode]
  have hparse := parses_encode_at hlen hvalid hdrop
  rwa [Nat.zero_add, ← torrentFile_eq_encode] at hparse

/-- The search for the info dictionary finds it behind the key of the root dictionary. -/
theorem extract_torrentFile {info : BencodeValue} (hvalid : info.Valid)
    (hlen : (torrentFile info).length < 2 ^ 63) (hinfo : Torrent.isInfoDict info = true) :
    ∃ n, ∀ fuel, n ≤ fuel →
      Torrent.extractInfoDictBytes fuel (torrentFile info) info = some (encode info) := by
  have hdrop : (torrentFile info).drop 7 = encode info ++ ascii "e" := by
    rw [torrentFile, List.append_assoc]
    rfl
  have hlen' : (torrentFile info).length = 7 + (encode info).length + 1 := by
    rw [torrentFile, List.length_append, List.length_append]
    rfl
  obtain ⟨n, hn⟩ := parses_encode_at hlen hvalid hdrop
  -- the first place with the text of the key is the key itself
  have hkey : ascii "4:info" <+: (torrentFile info).drop 1 :=
    ⟨encode info ++ ascii "e", by rw [torrentFile, List.append_assoc]; rfl⟩
  have hfind : Torrent.findPattern (torrentFile info) (ascii "4:info") 0 = some 1 := by
    cases hf : Torrent.findPattern (torrentFile info) (ascii "4:info") 0 with
    | none => exact absurd hkey (Torrent.findPattern_eq_none hf (Nat.zero_le 1))
    | some k =>
      obtain ⟨-, hprefix, hfirst⟩ := Torrent.findPattern_eq_some hf
      have hle : k ≤ 1 := by
        by_contra hgt
        exact hfirst 1 (Nat.zero_le 1) (not_le.1 hgt) hkey
      have hne : k ≠ 0 := by
        rintro rfl
        obtain ⟨t, ht⟩ := hprefix
        have hhead := congrArg List.head? ht
        have hne : '4'.toUInt8 ≠ 'd'.toUInt8 := by decide
        simp [torrentFile, ascii, hne] at hhead
      rw [show k = 1 by omega]
  have hstart : Torrent.validStart (torrentFile info) 1 = true := rfl
  refine ⟨n + 1, fun fuel hfuel => ?_⟩
  obtain ⟨fuel, rfl⟩ : ∃ m, fuel = m + 1 := ⟨fuel - 1, by omega⟩
  have hparse := parseImpl_mono (show n ≤ fuel by omega) hn
  have hbytes : substr (torrentFile info) 7 (sizeSub (7 + (encode info).length) 7) =
      encode info := by
    have hsize : sizeSub (7 + (encode info).length) 7 = (encode info).length := by
      unfold sizeSub
      omega
    rw [hsize]
    exact substr_of_drop hdrop
  rw [Torrent.extractInfoDictBytes, Torrent.extractLoop, hfind]
  simp only [hstart, if_true, Nat.reduceAdd, hparse, hinfo, hbytes]

/-- **The two paths agree**: for the content of a file with nothing but an info dictionary and a
magnet link with the hash of that dictionary, both `loadTorrent` and `createTorrentFromMetadata`
come to an end; what the first accepts, the second accepts with the same fields and the same info
hash; and if the first throws and there is no display name, the second throws too. -/
theorem magnet_agrees (sha1 : Bytes → Bytes) (peerId peerId' filename : Bytes) (info : ValidValue)
    (hlen : (torrentFile info.val).length < 2 ^ 63) (magnet : MagnetLink)
    (hhash : magnet.infoHashRaw = sha1 (encode info.val)) :
    ∃ r r', (∃ n, ∀ fuel, n ≤ fuel →
        Torrent.loadTorrent sha1 peerId fuel filename (some (torrentFile info.val)) = some r ∧
        createTorrentFromMetadata peerId' fuel magnet (encode info.val) = some r') ∧
      (∀ t, r = .ok t → ∃ t', r' = .ok t' ∧ SameInfo t t' ∧ t'.infoHash = t.infoHash) ∧
      (magnet.displayName = [] → (∃ e, r = .error e) → ∃ e', r' = .error e') := by
  obtain ⟨n, hn⟩ := parses_torrentFile info.valid hlen
  have hlen' : (encode info.val).length < 2 ^ 63 := by
    rw [torrentFile, List.length_append, List.length_append] at hlen
    omega
  have hdrop : (encode info.val).drop 0 = encode info.val ++ [] := by
    rw [List.drop_zero, List.append_nil]
  obtain ⟨m, hm⟩ := parses_encode_at hlen' info.valid hdrop
  have hlink : ∀ fuel, m ≤ fuel → createTorrentFromMetadata peerId' fuel magnet (encode info.val) =
      some (readInfo magnet peerId' info.val) := by
    intro fuel hfuel
    unfold createTorrentFromMetadata
    rw [parseImpl_mono hfuel hm]
  obtain ⟨hok, herror⟩ := readInfo_agree magnet peerId peerId' info.val
  cases hfile : Torrent.readRoot peerId (rootOf info.val) with
  | error e =>
    refine ⟨.error e, _, ⟨max n m, fun fuel hfuel => ⟨?_, hlink fuel (by omega)⟩⟩,
      fun t ht => (by cases ht), fun hname _ => herror hname ⟨e, hfile⟩⟩
    simp only [Torrent.loadTorrent, parseImpl_mono (show n ≤ fuel by omega) hn, hfile]
  | ok x =>
    obtain ⟨t', ht', hsame, hraw, hvalue, hdict⟩ := hok x hfile
    obtain ⟨k, hk⟩ := extract_torrentFile info.valid hlen hdict
    refine ⟨.ok { x.1 with infoHash := sha1 (encode info.val) }, _,
      ⟨max n (max m k), fun fuel hfuel => ⟨?_, hlink fuel (by omega)⟩⟩, fun t ht => ?_, ?_⟩
    · obtain ⟨t, v⟩ := x
      cases show v = info.val from hvalue
      simp only [Torrent.loadTorrent, parseImpl_mono (show n ≤ fuel by omega) hn, hfile,
        hk fuel (by omega), Option.map_some]
    · cases ht
      exact ⟨t', ht', ⟨hsame.name, hsame.pieceLength, hsame.pieces, hsame.files, hsame.fileName,
        hsame.fileLength⟩, hraw.trans hhash⟩
    · rintro - ⟨e, he⟩
      cases he

theorem valid_skippedInfoValue : Torrent.skippedInfoValue.Valid := by
  refine .dict (fun e he => ?_) ?_
  · simp only [List.mem_cons, List.not_mem_nil, or_false] at he
    rcases he with rfl | rfl | rfl | rfl
    · exact .int (by norm_num) (by norm_num)
    · exact .str _
    · exact .int (by norm_num) (by norm_num)
    · exact .str _
  · unfold Ascending
    decide

/-- `magnet_agrees` for an empty file named `a`. -/
theorem magnet_agrees_emptyFile :
    ∃ r r', (∃ n, ∀ fuel, n ≤ fuel →
        Torrent.loadTorrent id [] fuel [] (some (torrentFile Torrent.skippedInfoValue)) = some r ∧
        createTorrentFromMetadata [] fuel { infoHashRaw := encode Torrent.skippedInfoValue }
          (encode Torrent.skippedInfoValue) = some r') ∧
      (∀ t, r = .ok t → ∃ t', r' = .ok t' ∧ SameInfo t t' ∧ t'.infoHash = t.infoHash) ∧
      (({ infoHashRaw := encode Torrent.skippedInfoValue } : MagnetLink).displayName = [] →
        (∃ e, r = .error e) → ∃ e', r' = .error e') :=
  magnet_agrees id [] [] [] ⟨_, valid_skippedInfoValue⟩ (by decide) _ rfl

end Magnet

end Gush
