import Gush.Bencode.RoundTrip
import Gush.Bencode.Advance
import Gush.Torrent.Load

/-!
# The bytes behind the info hash

`extractInfoDictBytes` does not ask the parser where the value of the root key `info` stands; it
looks for the text `4:info` behind a `d` or an `e` and takes the first such place that is followed
by a dictionary with the mandatory keys. `Candidate` is such a place. `RootInfo` is the entry of
the root dictionary from which the value of `info` really comes, with the positions at which its
parse starts and ends.

`infoHash_iff` says exactly when the two agree.
-/

namespace Gush.Torrent

open Cxx Bencode

/-! ### The search -/

/-- A place that the search accepts, with the end of the value behind it. -/
structure Candidate (content : Bytes) (k stop : ℕ) : Prop where
  key : ascii "4:info" <+: content.drop k
  start : validStart content k = true
  value : ∃ v, Parses content (k + 6) (.ok (v, stop)) ∧ isInfoDict v = true

/-- What a search from `pos` on returns: the bytes at the first candidate, or the encoding of the
parsed value if there is no candidate. -/
def Finds (content : Bytes) (pos : ℕ) (info : BencodeValue) (bytes : Bytes) : Prop :=
  (∃ k stop, pos ≤ k ∧ Candidate content k stop ∧
    (∀ j, pos ≤ j → j < k → ∀ stop', ¬ Candidate content j stop') ∧
    substr content (k + 6) (sizeSub stop (k + 6)) = bytes) ∨
  (∀ k stop, pos ≤ k → ¬ Candidate content k stop) ∧ encode info = bytes

theorem findPattern_eq_none {content pattern : Bytes} {pos : ℕ}
    (h : findPattern content pattern pos = none) {j : ℕ} (hj : pos ≤ j) :
    ¬ pattern <+: content.drop j := by
  rw [findPattern, Option.map_eq_none_iff, List.findIdx?_eq_none_iff] at h
  have hmem : content.drop j ∈ (content.drop pos).tails := by
    rw [List.mem_tails, show j = pos + (j - pos) by omega, ← List.drop_drop]
    exact List.drop_suffix _ _
  intro hpre
  have hnot := h _ hmem
  rw [List.isPrefixOf_iff_prefix.2 hpre] at hnot
  cases hnot

theorem findPattern_eq_some {content pattern : Bytes} {pos k : ℕ}
    (h : findPattern content pattern pos = some k) :
    pos ≤ k ∧ pattern <+: content.drop k ∧
      ∀ j, pos ≤ j → j < k → ¬ pattern <+: content.drop j := by
  obtain ⟨i, hi, rfl⟩ := Option.map_eq_some_iff.1 h
  obtain ⟨hlt, hpre, hmin⟩ := List.findIdx?_eq_some_iff_getElem.1 hi
  rw [List.getElem_tails, List.drop_drop, List.isPrefixOf_iff_prefix] at hpre
  refine ⟨Nat.le_add_right pos i, hpre, fun j hpos hj hprej => ?_⟩
  have hnot := hmin (j - pos) (by omega)
  rw [List.getElem_tails, List.drop_drop, List.isPrefixOf_iff_prefix,
    show pos + (j - pos) = j by omega] at hnot
  exact hnot hprej

/-- The text `4:info` does not overlap itself, so going on six bytes later misses nothing. -/
theorem key_not_overlapping {content : Bytes} {k j : ℕ} (hk : ascii "4:info" <+: content.drop k)
    (hkj : k < j) (hj : j < k + 6) : ¬ ascii "4:info" <+: content.drop j := by
  rintro ⟨t, ht⟩
  obtain ⟨s, hs⟩ := hk
  have hcut : content.drop j = (ascii "4:info" ++ s).drop (j - k) := by
    rw [hs, List.drop_drop, Nat.add_sub_cancel' hkj.le]
  rw [hcut] at ht
  obtain ⟨i, hi⟩ : ∃ i, j - k = i + 1 := ⟨j - k - 1, by omega⟩
  have hi5 : i < 5 := by omega
  rw [hi] at ht
  have hhead := congrArg List.head? ht
  -- the text starts with '4', and none of its later bytes is a '4'
  interval_cases i <;> simp [ascii] at hhead <;> exact absurd hhead (by decide)

theorem finds_of_extractLoop {content : Bytes} {info : BencodeValue} {bytes : Bytes} (fuel : ℕ) :
    ∀ {pos : ℕ}, extractLoop fuel content pos info = some bytes → Finds content pos info bytes := by
  induction fuel with
  | zero => intro pos h; simp [extractLoop] at h
  | succ fuel ih =>
    intro pos h
    rw [extractLoop] at h
    cases hfind : findPattern content (ascii "4:info") pos with
    | none =>
      rw [hfind] at h
      exact .inr ⟨fun k stop hk hc => findPattern_eq_none hfind hk hc.key, Option.some.inj h⟩
    | some k =>
      obtain ⟨hle, hkey, hmin⟩ := findPattern_eq_some hfind
      rw [hfind] at h
      -- no place before `k` or within the six bytes from it on, `k` itself apart
      have hskip : ∀ j, pos ≤ j → j < k + 6 → j ≠ k → ∀ stop, ¬ Candidate content j stop := by
        intro j hj hlt hne stop hc
        rcases lt_or_ge j k with hjk | hjk
        · exact hmin j hj hjk hc.key
        · exact key_not_overlapping hkey (by omega) hlt hc.key
      -- if `k` is no candidate, what is found behind it is found from `pos` on
      have hnext : (∀ stop, ¬ Candidate content k stop) →
          Finds content (k + 6) info bytes → Finds content pos info bytes := by
        intro hk hf
        have hall : ∀ j, pos ≤ j → j < k + 6 → ∀ stop, ¬ Candidate content j stop := by
          intro j hj hlt
          by_cases hjk : j = k
          · exact hjk ▸ hk
          · exact hskip j hj hlt hjk
        rcases hf with ⟨k', stop, hk', hc, hfirst, hb⟩ | ⟨hnone, hb⟩
        · refine .inl ⟨k', stop, by omega, hc, fun j hj hlt => ?_, hb⟩
          rcases lt_or_ge j (k + 6) with hj6 | hj6
          · exact hall j hj hj6
          · exact hfirst j hj6 hlt
        · refine .inr ⟨fun j stop hj => ?_, hb⟩
          rcases lt_or_ge j (k + 6) with hj6 | hj6
          · exact hall j hj hj6 stop
          · exact hnone j stop hj6
      by_cases hstart : validStart content k = true
      · simp only [hstart, if_true] at h
        split at h
        · cases h
        · rename_i v stop hv
          have hparse : Parses content (k + 6) (.ok (v, stop)) := ⟨fuel, hv⟩
          split_ifs at h with hinfo
          · exact .inl ⟨k, stop, hle, ⟨hkey, hstart, v, hparse, hinfo⟩,
              fun j hj hlt => hskip j hj (by omega) (by omega), Option.some.inj h⟩
          · refine hnext (fun stop' hc => ?_) (ih h)
            obtain ⟨w, hw, hwinfo⟩ := hc.value
            cases hparse.unique hw
            exact hinfo hwinfo
        · rename_i e he
          refine hnext (fun stop' hc => ?_) (ih h)
          obtain ⟨w, hw, -⟩ := hc.value
          cases Parses.unique ⟨fuel, he⟩ hw
      · simp only [hstart, Bool.false_eq_true, if_false] at h
        exact hnext (fun stop hc => hstart hc.start) (ih h)

/-- The search has one result. -/
theorem Finds.unique {content : Bytes} {pos : ℕ} {info : BencodeValue} {b b' : Bytes}
    (h : Finds content pos info b) (h' : Finds content pos info b') : b = b' := by
  rcases h with ⟨k, stop, hk, hc, hfirst, rfl⟩ | ⟨hnone, rfl⟩ <;>
    rcases h' with ⟨k', stop', hk', hc', hfirst', rfl⟩ | ⟨hnone', rfl⟩
  · have hkk : k = k' := by
      rcases lt_trichotomy k k' with hlt | heq | hlt
      · exact absurd hc (hfirst' k hk hlt stop)
      · exact heq
      · exact absurd hc' (hfirst k' hk' hlt stop')
    subst hkk
    obtain ⟨v, hv, -⟩ := hc.value
    obtain ⟨w, hw, -⟩ := hc'.value
    cases hv.unique hw
    rfl
  · exact absurd hc (hnone' k stop hk)
  · exact absurd hc' (hnone k' stop' hk')
  · rfl

/-! ### The entries of the root dictionary -/

/-- An entry of a dictionary in the data: its key, its value, and where the value starts and
ends. -/
structure Entry where
  key : Bytes
  value : BencodeValue
  start : ℕ
  stop : ℕ

/-- The entries that the dictionary loop reads from `p` on, up to the `e` in front of `q`. -/
inductive Entries (data : Bytes) : ℕ → List Entry → ℕ → Prop
  | done {p : ℕ} (h : data[p]? = some 'e'.toUInt8) : Entries data p [] (p + 1)
  | entry {p s e q : ℕ} {key : Bytes} {v : BencodeValue} {es : List Entry} (h : More data p)
      (hk : Parses data p (.ok (.str key, s))) (hv : Parses data s (.ok (v, e)))
      (hes : Entries data e es q) : Entries data p (⟨key, v, s, e⟩ :: es) q

/-- The map that a list of entries leaves behind. -/
def toDict (es : List Entry) (dict : BencodeDict) : BencodeDict :=
  es.foldl (fun d x => dictInsert x.key x.value d) dict

/-- The value of the root key `info` that ends up in the parsed dictionary: it is read from
`start` up to `stop`, and no later entry of the root dictionary has this key. -/
def RootInfo (content : Bytes) (value : BencodeValue) (start stop : ℕ) : Prop :=
  content[0]? = some 'd'.toUInt8 ∧ ∃ before after q,
    Entries content 1 (before ++ ⟨ascii "info", value, start, stop⟩ :: after) q ∧
    ∀ x ∈ after, x.key ≠ ascii "info"

/-- The dictionary loop returns the map of the entries it reads. -/
theorem entries_of_dictLoop {data : Bytes} (fuel : ℕ) : ∀ {p q : ℕ} {dict d : BencodeDict},
    dictLoop fuel data p dict = some (.ok (.dict d, q)) →
      ∃ es, Entries data p es q ∧ d = toDict es dict := by
  induction fuel with
  | zero => intro p q dict d h; simp [dictLoop] at h
  | succ fuel ih =>
    intro p q dict d h
    rw [dictLoop] at h
    split at h
    · cases h
    · rename_i c hc
      by_cases hce : c = 'e'.toUInt8
      · subst hce
        rw [if_pos rfl] at h
        cases h
        exact ⟨[], .done hc, rfl⟩
      · rw [if_neg hce] at h
        split at h
        · cases h
        · cases h
        · rename_i key s hk
          split at h
          · cases h
          · cases h
          · rename_i v e hv
            obtain ⟨es, hes, rfl⟩ := ih h
            exact ⟨⟨key, v, s, e⟩ :: es, .entry ⟨c, hc, hce⟩ ⟨fuel, hk⟩ ⟨fuel, hv⟩ hes, rfl⟩
        · cases h

/-- The entries are determined by the data. -/
theorem Entries.unique {data : Bytes} {p q q' : ℕ} {es es' : List Entry}
    (h : Entries data p es q) (h' : Entries data p es' q') : es = es' := by
  induction h generalizing es' q' with
  | done hp =>
    cases h' with
    | done _ => rfl
    | entry hm _ _ _ =>
      obtain ⟨c, hc, hce⟩ := hm
      rw [hp] at hc
      exact absurd (Option.some.inj hc).symm hce
  | entry hm hk hv _ ih =>
    cases h' with
    | done hp =>
      obtain ⟨c, hc, hce⟩ := hm
      rw [hp] at hc
      exact absurd (Option.some.inj hc).symm hce
    | entry _ hk' hv' hes' =>
      cases hk.unique hk'
      cases hv.unique hv'
      rw [ih hes']

theorem toDict_append (es es' : List Entry) (dict : BencodeDict) :
    toDict (es ++ es') dict = toDict es' (toDict es dict) :=
  List.foldl_append

/-- Entries with other keys do not change the value of a key. -/
theorem dictGet_toDict_of_ne {key : Bytes} {es : List Entry} (h : ∀ x ∈ es, x.key ≠ key)
    (dict : BencodeDict) : dictGet (toDict es dict) key = dictGet dict key := by
  induction es generalizing dict with
  | nil => rfl
  | cons x es ih =>
    show dictGet (toDict es (dictInsert x.key x.value dict)) key = _
    rw [ih (fun y hy => h y (List.mem_cons_of_mem x hy)),
      dictGet_dictInsert_of_ne _ _ (h x List.mem_cons_self)]

/-- The last of equal keys wins. -/
theorem dictGet_toDict_last {x : Entry} {before after : List Entry}
    (h : ∀ y ∈ after, y.key ≠ x.key) (dict : BencodeDict) :
    dictGet (toDict (before ++ x :: after) dict) x.key = some x.value := by
  rw [toDict_append]
  show dictGet (toDict after (dictInsert x.key x.value (toDict before dict))) x.key = _
  rw [dictGet_toDict_of_ne h, dictGet_dictInsert_self]

/-- A key of the map comes from the last entry with that key. -/
theorem exists_last_of_dictGet {key : Bytes} {v : BencodeValue} (es : List Entry) :
    dictGet (toDict es []) key = some v →
      ∃ before s e after, es = before ++ ⟨key, v, s, e⟩ :: after ∧ ∀ y ∈ after, y.key ≠ key := by
  induction es using List.reverseRecOn with
  | nil => intro h; cases h
  | append_singleton es x ih =>
    intro h
    by_cases hx : x.key = key
    · subst hx
      have hlast : dictGet (toDict (es ++ [x]) []) x.key = some x.value :=
        dictGet_toDict_last (by simp) []
      rw [h] at hlast
      cases hlast
      exact ⟨es, x.start, x.stop, [], rfl, by simp⟩
    · have hsame : dictGet (toDict es []) key = some v := by
        rw [toDict_append] at h
        rw [← h]
        exact (dictGet_dictInsert_of_ne _ _ hx).symm
      obtain ⟨before, s, e, after, rfl, hafter⟩ := ih hsame
      refine ⟨before, s, e, after ++ [x], by simp, fun y hy => ?_⟩
      rcases List.mem_append.1 hy with hy | hy
      · exact hafter y hy
      · rw [List.mem_singleton.1 hy]
        exact hx

/-! ### What `loadTorrent` accepts -/

/-- The value that `readRoot` hands on is the one of the root key `info`. -/
theorem readRoot_ok {peerId : Bytes} {root info : BencodeValue} {t : TorrentInfo}
    (h : readRoot peerId root = .ok (t, info)) :
    ∃ d, root = .dict d ∧ dictGet d (ascii "info") = some info ∧ t.Accepted := by
  unfold readRoot at h
  split at h
  · cases h
  · rename_i d hroot
    have hd : root = .dict d := by
      cases root <;> simp [BencodeValue.asDict?] at hroot
      rw [hroot]
    split at h
    · rename_i infoDict hinfo
      refine ⟨d, hd, ?_⟩
      simp only at h
      split at h
      · cases h
      · split at h
        · cases h
        · split at h
          · cases h
          · split at h
            · cases h
            · split at h
              · cases h
              · rename_i hvalid
                cases h
                exact ⟨hinfo, hvalid⟩
    · cases h

/-- What a successful load has done: it parsed a root dictionary, validated the torrent and hashed
the bytes that the search found. -/
theorem loadTorrent_ok {sha1 : Bytes → Bytes} {peerId filename content : Bytes} {fuel : ℕ}
    {t : TorrentInfo} (h : loadTorrent sha1 peerId fuel filename (some content) = some (.ok t)) :
    ∃ d q info t₀ bytes, parseImpl fuel content 0 = some (.ok (.dict d, q)) ∧
      readRoot peerId (.dict d) = .ok (t₀, info) ∧ dictGet d (ascii "info") = some info ∧
      extractInfoDictBytes fuel content info = some bytes ∧
      t = { t₀ with infoHash := sha1 bytes } := by
  unfold loadTorrent at h
  simp only at h
  split at h
  · cases h
  · cases h
  · rename_i root q hroot
    split at h
    · cases h
    · rename_i t₀ info hread
      obtain ⟨bytes, hbytes, ht⟩ := Option.map_eq_some_iff.1 h
      obtain ⟨d, rfl, hinfo, -⟩ := readRoot_ok hread
      cases ht
      exact ⟨d, q, info, t₀, bytes, hroot, hread, hinfo, hbytes, rfl⟩

theorem entries_of_parse_dict {content : Bytes} {fuel q : ℕ} {d : BencodeDict}
    (h : parseImpl fuel content 0 = some (.ok (.dict d, q))) :
    content[0]? = some 'd'.toUInt8 ∧ ∃ es, Entries content 1 es q ∧ d = toDict es [] := by
  have hp : Parses content 0 (.ok (.dict d, q)) := ⟨fuel, h⟩
  rcases lead_cases content 0 with hc | hc | ⟨c, hc, hs⟩ | hc | hc | ⟨c, hc, hi, hs, hl, hd⟩
  · cases (parses_end hc).1 hp
  · have hr := (parses_int hc).1 hp
    unfold parseInt at hr
    split at hr
    · cases hr
    · split at hr <;> cases hr
  · obtain ⟨⟨s, hs⟩, -⟩ := parseString_ok ((parses_string hc hs).1 hp).symm
    cases hs
  · obtain ⟨n, hn⟩ := (parses_list hc).1 hp
    obtain ⟨l, hl⟩ := listLoop_ok n hn
    cases hl
  · obtain ⟨n, hn⟩ := (parses_dict hc).1 hp
    exact ⟨hc, entries_of_dictLoop n hn⟩
  · cases (parses_invalid hc hi hs hl hd).1 hp

/-- An accepted file has a root key `info`. -/
theorem rootInfo_of_loadTorrent {sha1 : Bytes → Bytes} {peerId filename content : Bytes}
    {fuel : ℕ} {t : TorrentInfo}
    (h : loadTorrent sha1 peerId fuel filename (some content) = some (.ok t)) :
    ∃ value start stop, RootInfo content value start stop := by
  obtain ⟨d, q, info, -, -, hparse, -, hinfo, -, -⟩ := loadTorrent_ok h
  obtain ⟨hlead, es, hes, rfl⟩ := entries_of_parse_dict hparse
  obtain ⟨before, s, e, after, rfl, hafter⟩ := exists_last_of_dictGet es hinfo
  exact ⟨info, s, e, hlead, before, after, q, hes, hafter⟩

/-- The info hash of an accepted file is the hash of what the search finds, with the value of the
root key `info` to fall back on. -/
theorem finds_of_loadTorrent {sha1 : Bytes → Bytes} {peerId filename content : Bytes} {fuel : ℕ}
    {t : TorrentInfo} {value : BencodeValue} {start stop : ℕ}
    (h : loadTorrent sha1 peerId fuel filename (some content) = some (.ok t))
    (hroot : RootInfo content value start stop) :
    ∃ bytes, Finds content 0 value bytes ∧
      (∀ sha1', ∃ t', loadTorrent sha1' peerId fuel filename (some content) = some (.ok t')) ∧
      ∀ sha1' t', loadTorrent sha1' peerId fuel filename (some content) = some (.ok t') →
        t'.infoHash = sha1' bytes := by
  obtain ⟨d, q, info, t₀, bytes, hparse, hread, hinfo, hbytes, -⟩ := loadTorrent_ok h
  obtain ⟨-, es, hes, rfl⟩ := entries_of_parse_dict hparse
  obtain ⟨-, before, after, q', hes', hafter⟩ := hroot
  cases hes.unique hes'
  have hvalue : info = value := by
    let x : Entry := ⟨ascii "info", value, start, stop⟩
    have hlast : dictGet (toDict (before ++ x :: after) []) x.key = some x.value :=
      dictGet_toDict_last hafter []
    exact Option.some.inj (hinfo.symm.trans hlast)
  subst hvalue
  have hload : ∀ sha1' : Bytes → Bytes,
      loadTorrent sha1' peerId fuel filename (some content) =
        some (.ok { t₀ with infoHash := sha1' bytes }) := by
    intro sha1'
    simp only [loadTorrent, hparse, hread, hbytes, Option.map_some]
  refine ⟨bytes, finds_of_extractLoop fuel hbytes, fun sha1' => ⟨_, hload sha1'⟩,
    fun sha1' t' ht' => ?_⟩
  rw [hload sha1'] at ht'
  cases ht'
  rfl

/-- **The info hash, exactly**: an accepted file has a root key `info`, and its hash is the one of
the bytes that the root parse consumed for the value of this key if and only if the search finds
just these bytes. -/
theorem infoHash_iff {sha1₀ : Bytes → Bytes} {peerId filename content : Bytes} {fuel : ℕ}
    {t₀ : TorrentInfo}
    (h : loadTorrent sha1₀ peerId fuel filename (some content) = some (.ok t₀)) :
    (∃ value start stop, RootInfo content value start stop) ∧
    ∀ value start stop, RootInfo content value start stop →
      ((∀ sha1 t, loadTorrent sha1 peerId fuel filename (some content) = some (.ok t) →
          t.infoHash = sha1 (substr content start (stop - start))) ↔
        Finds content 0 value (substr content start (stop - start))) := by
  refine ⟨rootInfo_of_loadTorrent h, fun value start stop hroot => ?_⟩
  obtain ⟨bytes, hfinds, hall, hhash⟩ := finds_of_loadTorrent h hroot
  constructor
  · intro hclaim
    obtain ⟨t, ht⟩ := hall id
    have hbytes : bytes = substr content start (stop - start) :=
      (hhash id t ht).symm.trans (hclaim id t ht)
    exact hbytes ▸ hfinds
  · intro hf sha1 t ht
    rw [hhash sha1 t ht, hfinds.unique hf]

/-! ### A file whose info hash is another one -/

/-- The root key `info` stands behind the value `1:b` of another key, so the search skips it, and
the length `00` inside does not survive the encoding of the parsed value. -/
def skippedInfo : Bytes :=
  ascii "d1:a1:b4:infod6:lengthi00e4:name1:a12:piece lengthi1e6:pieces0:ee"

/-- The value of `info` in `skippedInfo`. -/
def skippedInfoValue : BencodeValue :=
  .dict [(ascii "length", .int 0), (ascii "name", .str (ascii "a")),
    (ascii "piece length", .int 1), (ascii "pieces", .str [])]

/-- The torrent that `loadTorrent` makes of `skippedInfo`, without hashing. -/
def skippedInfoTorrent : TorrentInfo :=
  { name := ascii "a", pieceLength := 1, fileName := ascii "a", infoHash := encode skippedInfoValue }

theorem loadTorrent_skippedInfo :
    loadTorrent id [] 40 [] (some skippedInfo) = some (.ok skippedInfoTorrent) := by
  decide +kernel

theorem rootInfo_skippedInfo : RootInfo skippedInfo skippedInfoValue 13 64 := by
  have hkeyA : Parses skippedInfo 1 (.ok (.str (ascii "a"), 4)) := ⟨40, by decide +kernel⟩
  have hvalB : Parses skippedInfo 4 (.ok (.str (ascii "b"), 7)) := ⟨40, by decide +kernel⟩
  have hkey : Parses skippedInfo 7 (.ok (.str (ascii "info"), 13)) := ⟨40, by decide +kernel⟩
  have hval : Parses skippedInfo 13 (.ok (skippedInfoValue, 64)) := ⟨40, by decide +kernel⟩
  refine ⟨by decide +kernel, [⟨ascii "a", .str (ascii "b"), 4, 7⟩], [], 65, ?_, by simp⟩
  refine .entry ⟨'1'.toUInt8, by decide +kernel, by decide⟩ hkeyA hvalB ?_
  refine .entry ⟨'4'.toUInt8, by decide +kernel, by decide⟩ hkey hval ?_
  exact .done (by decide +kernel)

theorem not_forall_infoHash :
    ¬ ∀ (sha1 : Bytes → Bytes) (peerId : Bytes) (fuel : ℕ) (filename content : Bytes)
      (t : TorrentInfo) (value : BencodeValue) (start stop : ℕ),
      loadTorrent sha1 peerId fuel filename (some content) = some (.ok t) →
      RootInfo content value start stop →
      t.infoHash = sha1 (substr content start (stop - start)) := by
  intro h
  have hbad := h id [] 40 [] skippedInfo _ _ 13 64 loadTorrent_skippedInfo rootInfo_skippedInfo
  revert hbad
  decide +kernel

/-- The same without the other key. -/
def plainInfo : Bytes := ascii "d4:infod6:lengthi00e4:name1:a12:piece lengthi1e6:pieces0:ee"

theorem loadTorrent_plainInfo : loadTorrent id [] 40 [] (some plainInfo) =
    some (.ok { skippedInfoTorrent with infoHash := substr plainInfo 7 51 }) := by
  decide +kernel

theorem rootInfo_plainInfo : RootInfo plainInfo skippedInfoValue 7 58 := by
  have hkey : Parses plainInfo 1 (.ok (.str (ascii "info"), 7)) := ⟨40, by decide +kernel⟩
  have hval : Parses plainInfo 7 (.ok (skippedInfoValue, 58)) := ⟨40, by decide +kernel⟩
  refine ⟨by decide +kernel, [], [], 59, ?_, by simp⟩
  refine .entry ⟨'4'.toUInt8, by decide +kernel, by decide⟩ hkey hval ?_
  exact .done (by decide +kernel)

/-- Without the other key the search finds the bytes, and they are hashed as they stand. -/
theorem infoHash_iff_plainInfo :
    (∀ sha1 t, loadTorrent sha1 [] 40 [] (some plainInfo) = some (.ok t) →
      t.infoHash = sha1 (substr plainInfo 7 51)) ∧
    (∃ value start stop, RootInfo skippedInfo value start stop) ∧
    ∀ value start stop, RootInfo skippedInfo value start stop →
      ((∀ sha1 t, loadTorrent sha1 [] 40 [] (some skippedInfo) = some (.ok t) →
          t.infoHash = sha1 (substr skippedInfo start (stop - start))) ↔
        Finds skippedInfo 0 value (substr skippedInfo start (stop - start))) := by
  have hfinds : Finds plainInfo 0 skippedInfoValue (substr plainInfo 7 51) :=
    finds_of_extractLoop 40 (by decide +kernel)
  exact ⟨((infoHash_iff loadTorrent_plainInfo).2 skippedInfoValue 7 58 rootInfo_plainInfo).2 hfinds,
    infoHash_iff loadTorrent_skippedInfo⟩

end Gush.Torrent
