import Gush.Magnet.Percent
import Gush.Magnet.Segments
import Gush.Tracker.Http

/-!
# What a tracker reads

The URL of an announce is put together from the tracker's own URL and from the escaped values. A tracker
takes it apart again: it cuts the query at `&`, each segment at its first `=`, and decodes the values.
`parameters_requestUrl` says what it then has.
-/

namespace Gush.Tracker

open Cxx Utils Magnet

/-- The query of a URL, between the first question mark and the fragment. -/
def queryOf (url : Bytes) : Bytes :=
  ((url.takeWhile (· ≠ '#'.toUInt8)).dropWhile (· ≠ '?'.toUInt8)).drop 1

/-- The parameters of a query. -/
def decodeQuery (query : Bytes) : List (Bytes × Bytes) :=
  (query.splitOn '&'.toUInt8).filterMap fun segment =>
    (parameterOf segment).map fun p => (p.1, percentDecode p.2)

def parameters (url : Bytes) : List (Bytes × Bytes) := decodeQuery (queryOf url)

/-- The parameters of an announce. -/
def Announce.announced (a : Announce) : List (Bytes × Bytes) :=
  [(ascii "info_hash", rawInfoHash a.torrent), (ascii "peer_id", a.peerId),
    (ascii "port", ascii "6881"), (ascii "uploaded", showInt a.uploaded),
    (ascii "downloaded", showInt a.downloaded), (ascii "left", showInt a.left),
    (ascii "compact", ascii "1"), (ascii "numwant", ascii "500")] ++
      if a.event ≠ [] then [(ascii "event", a.event)] else []

/-- A parameter with its value escaped. -/
def escaped (p : Bytes × Bytes) : Bytes × Bytes := (p.1, urlEncode p.2)

/-! ### Values -/

/-- What is written for a byte is decoded to it. -/
theorem percentDecode_byte (c : UInt8) (rest : Bytes) :
    percentDecode (escape c ++ rest) = c :: percentDecode rest := by
  rw [escape]
  split_ifs with hc
  · have hpercent : c ≠ '%'.toUInt8 := ne_of_unreserved hc (by decide)
    have hplus : c ≠ '+'.toUInt8 := ne_of_unreserved hc (by decide)
    rw [List.cons_append, List.nil_append, percentDecode_cons (.inl hpercent), plainByte, if_neg hplus]
  · have hlt := c.toNat_lt
    have hhigh : isxdigit (hexDigit true (c.toNat / 16)) = true :=
      isxdigit_of_mem_hexByte (show _ ∈ hexByte true c from List.mem_cons_self)
    have hlow : isxdigit (hexDigit true (c.toNat % 16)) = true :=
      isxdigit_of_mem_hexByte (show _ ∈ hexByte true c from
        List.mem_cons_of_mem _ List.mem_cons_self)
    have hbyte : escapedByte (hexDigit true (c.toNat / 16)) (hexDigit true (c.toNat % 16)) = c := by
      rw [escapedByte, hexValue_hexDigit true _ (by omega), hexValue_hexDigit true _ (by omega)]
      exact hexByte_value c
    rw [hexByte]
    exact (percentDecode_escape hhigh hlow).trans (congrArg (· :: percentDecode rest) hbyte)

@[simp] theorem percentDecode_urlEncode (str : Bytes) : percentDecode (urlEncode str) = str := by
  rw [urlEncode_eq]
  induction str with
  | nil => rfl
  | cons c str ih => rw [List.flatMap_cons, percentDecode_byte, ih]

/-- Nothing is escaped where nothing has to be. -/
theorem urlEncode_of_unreserved {str : Bytes} (h : str.all unreserved = true) :
    urlEncode str = str := by
  rw [urlEncode_eq]
  induction str with
  | nil => rfl
  | cons c str ih =>
    obtain ⟨hc, hrest⟩ := (Bool.and_eq_true _ _).mp h
    rw [List.flatMap_cons, escape, if_pos hc, ih hrest, List.singleton_append]

theorem unreserved_of_isdigit {c : UInt8} (h : isdigit c = true) : unreserved c = true := by
  simp [unreserved, isalnum, h]

theorem urlEncode_showInt (i : ℤ) : urlEncode (showInt i) = showInt i := by
  refine urlEncode_of_unreserved (List.all_eq_true.2 fun c hc => ?_)
  cases i with
  | ofNat n => exact unreserved_of_isdigit (Decimal.isDigit_of_mem_numeral hc)
  | negSucc n =>
    rcases List.mem_cons.1 hc with rfl | hc
    · decide
    · exact unreserved_of_isdigit (Decimal.isDigit_of_mem_numeral hc)

/-! ### Parameters -/

/-- A test for a separator passes what does not have it, and fails at it. -/
theorem decide_ne_true {sep : UInt8} {text : Bytes} (h : sep ∉ text) :
    ∀ c ∈ text, decide (c ≠ sep) = true :=
  fun _ hc => decide_eq_true fun heq => h (heq ▸ hc)

theorem decide_ne_head {sep : UInt8} {rest : Bytes} :
    ∀ c, (sep :: rest).head? = some c → decide (c ≠ sep) = false := by
  intro c hc
  cases hc
  exact decide_eq_false fun hne => hne rfl

/-- The first `=` of a rendered parameter is the one behind the name. -/
theorem parameterOf_renderParameter {p : Bytes × Bytes} (h : '='.toUInt8 ∉ p.1) :
    parameterOf (renderParameter p) = some p := by
  rw [renderParameter, parameterOf, if_pos (List.mem_append_right _ List.mem_cons_self),
    Split.takeWhile_append (decide_ne_true h) decide_ne_head,
    Split.dropWhile_append (decide_ne_true h) decide_ne_head, List.drop_one, List.tail_cons]

theorem decodeQuery_nil : decodeQuery [] = [] := rfl

theorem decodeQuery_append (front back : Bytes) :
    decodeQuery (front ++ '&'.toUInt8 :: back) = decodeQuery front ++ decodeQuery back := by
  rw [decodeQuery, List.splitOn_append_cons_self, List.filterMap_append]
  rfl

/-- The bytes with a meaning in a URL are not in a name. -/
def PlainName (name : Bytes) : Prop := ∀ c ∈ ascii "&=#", c ∉ name

theorem decodeQuery_renderParameter {p : Bytes × Bytes} (h : PlainName p.1) :
    decodeQuery (renderParameter (escaped p)) = [p] := by
  have hvalue : '&'.toUInt8 ∉ urlEncode p.2 :=
    not_mem_urlEncode (by decide) (by decide) (by decide) p.2
  have hwhole : '&'.toUInt8 ∉ renderParameter (escaped p) := by
    rw [renderParameter, List.mem_append, List.mem_cons, not_or, not_or]
    exact ⟨h _ (by decide), by decide, hvalue⟩
  have hname : parameterOf (renderParameter (escaped p)) = some (escaped p) :=
    parameterOf_renderParameter (h _ (by decide))
  rw [decodeQuery, List.splitOn_eq_singleton hwhole, List.filterMap_cons, hname, List.filterMap_nil]
  simp [escaped]

/-- A rendered query is read back. -/
theorem decodeQuery_renderQuery {ps : List (Bytes × Bytes)} (h : ∀ p ∈ ps, PlainName p.1) :
    decodeQuery (renderQuery (ps.map escaped)) = ps := by
  induction ps with
  | nil => exact decodeQuery_nil
  | cons p ps ih =>
    have hp := decodeQuery_renderParameter (h p List.mem_cons_self)
    cases ps with
    | nil => exact hp
    | cons q ps =>
      have hrender : renderQuery ((p :: q :: ps).map escaped) =
          renderParameter (escaped p) ++ '&'.toUInt8 :: renderQuery ((q :: ps).map escaped) := rfl
      rw [hrender, decodeQuery_append, hp, ih fun q' hq => h q' (List.mem_cons_of_mem p hq),
        List.singleton_append]

theorem not_mem_renderQuery {ps : List (Bytes × Bytes)} (h : ∀ p ∈ ps, PlainName p.1) :
    '#'.toUInt8 ∉ renderQuery (ps.map escaped) := by
  have hone : ∀ p ∈ ps, '#'.toUInt8 ∉ renderParameter (escaped p) := by
    intro p hp
    rw [renderParameter, List.mem_append, List.mem_cons, not_or, not_or]
    exact ⟨h p hp _ (by decide), by decide,
      not_mem_urlEncode (by decide) (by decide) (by decide) p.2⟩
  cases ps with
  | nil => exact List.not_mem_nil
  | cons p ps =>
    rw [List.map_cons, renderQuery_cons, List.mem_append, not_or]
    refine ⟨hone p List.mem_cons_self, fun hmem => ?_⟩
    obtain ⟨q, hq, hmem⟩ := List.mem_flatMap.1 hmem
    obtain ⟨p', hp', rfl⟩ := List.mem_map.1 hq
    rcases List.mem_cons.1 hmem with heq | hmem
    · exact absurd heq (by decide)
    · exact hone p' (List.mem_cons_of_mem p hp') hmem

/-! ### Queries -/

/-- A fragment, and whatever stands behind its sign, is no part of the query. -/
theorem queryOf_fragment {front : Bytes} (h : '#'.toUInt8 ∉ front) (rest : Bytes) :
    queryOf (front ++ '#'.toUInt8 :: rest) = (front.dropWhile (· ≠ '?'.toUInt8)).drop 1 := by
  rw [queryOf, Split.takeWhile_append (decide_ne_true h) decide_ne_head]

theorem queryOf_whole {url : Bytes} (h : '#'.toUInt8 ∉ url) :
    queryOf url = (url.dropWhile (· ≠ '?'.toUInt8)).drop 1 := by
  rw [queryOf, List.takeWhile_eq_self_iff.2 (decide_ne_true h)]

theorem queryOf_question {front rest : Bytes} (hfront : '?'.toUInt8 ∉ front)
    (h : '#'.toUInt8 ∉ front ++ '?'.toUInt8 :: rest) :
    queryOf (front ++ '?'.toUInt8 :: rest) = rest := by
  rw [queryOf_whole h, Split.dropWhile_append (decide_ne_true hfront) decide_ne_head, List.drop_one,
    List.tail_cons]

theorem queryOf_none {url : Bytes} (hquestion : '?'.toUInt8 ∉ url) (h : '#'.toUInt8 ∉ url) :
    queryOf url = [] := by
  rw [queryOf_whole h, List.dropWhile_eq_nil_iff.2 (decide_ne_true hquestion), List.drop_nil]

/-! ### The announce -/

variable (a : Announce)

/-- The names of the parameters; `event` is not always there. -/
def announceNames : List Bytes :=
  [ascii "info_hash", ascii "peer_id", ascii "port", ascii "uploaded", ascii "downloaded",
    ascii "left", ascii "compact", ascii "numwant"] ++ [ascii "event"]

theorem plainName_of_mem {name : Bytes} (h : name ∈ announceNames) : PlainName name := by
  have hnames : ∀ name ∈ announceNames, (ascii "&=#").all (fun c => !name.contains c) = true := by
    decide
  intro c hc hin
  have hall := List.all_eq_true.1 (hnames name h) c hc
  rw [List.contains_iff_mem.2 hin] at hall
  cases hall

theorem plainName_of_announced {p : Bytes × Bytes} (h : p ∈ a.announced) : PlainName p.1 := by
  have hmem : p.1 ∈ a.announced.map Prod.fst := List.mem_map_of_mem h
  rw [Announce.announced, List.map_append] at hmem
  apply plainName_of_mem
  rcases List.mem_append.1 hmem with hmem | hmem
  · exact List.mem_append_left _ hmem
  · refine List.mem_append_right _ ?_
    split_ifs at hmem
    · exact hmem
    · cases hmem

/-- The URL of the request is the URL of the tracker and the rendered parameters. -/
theorem requestUrl_eq : a.requestUrl = a.trackerUrl ++
    (if '?'.toUInt8 ∈ a.trackerUrl then '&'.toUInt8 else '?'.toUInt8) ::
      renderQuery (a.announced.map escaped) := by
  have hport : urlEncode (ascii "6881") = ascii "6881" := urlEncode_of_unreserved (by decide)
  have hcompact : urlEncode (ascii "1") = ascii "1" := urlEncode_of_unreserved (by decide)
  have hnumwant : urlEncode (ascii "500") = ascii "500" := urlEncode_of_unreserved (by decide)
  have hsign : (if '?'.toUInt8 ∈ a.trackerUrl then ascii "&" else ascii "?") =
      [if '?'.toUInt8 ∈ a.trackerUrl then '&'.toUInt8 else '?'.toUInt8] := by
    split_ifs <;> rfl
  have hinfo : ascii "info_hash=" = ascii "info_hash" ++ ['='.toUInt8] := rfl
  have hpeer : ascii "&peer_id=" = '&'.toUInt8 :: (ascii "peer_id" ++ ['='.toUInt8]) := rfl
  have hport' : ascii "&port=6881" = '&'.toUInt8 :: (ascii "port" ++ '='.toUInt8 :: ascii "6881") := rfl
  have hup : ascii "&uploaded=" = '&'.toUInt8 :: (ascii "uploaded" ++ ['='.toUInt8]) := rfl
  have hdown : ascii "&downloaded=" = '&'.toUInt8 :: (ascii "downloaded" ++ ['='.toUInt8]) := rfl
  have hleft : ascii "&left=" = '&'.toUInt8 :: (ascii "left" ++ ['='.toUInt8]) := rfl
  have hcompact' : ascii "&compact=1" = '&'.toUInt8 :: (ascii "compact" ++ '='.toUInt8 :: ascii "1") :=
    rfl
  have hnumwant' : ascii "&numwant=500" =
      '&'.toUInt8 :: (ascii "numwant" ++ '='.toUInt8 :: ascii "500") := rfl
  have hevent : ascii "&event=" = '&'.toUInt8 :: (ascii "event" ++ ['='.toUInt8]) := rfl
  rw [Announce.requestUrl, hsign, Announce.announced, List.cons_append, List.map_cons,
    renderQuery_cons, hinfo, hpeer, hport', hup, hdown, hleft, hcompact', hnumwant', hevent]
  split_ifs <;>
    simp only [escaped, renderParameter, hport, hcompact, hnumwant, urlEncode_showInt, List.map_cons,
      List.map_nil, List.flatMap_cons, List.flatMap_nil, List.append_assoc, List.cons_append,
      List.nil_append, List.append_nil]

/-- **What a tracker reads.** Behind the parameters of its own URL it finds those of the announce, with
the raw hash and identifier, and nothing else. If its URL has a fragment, it finds none of them. The
URL is that of `requestUrl`; curl gets it as `c_str()`, which ends at a NUL in the tracker's own URL. -/
theorem parameters_requestUrl : parameters a.requestUrl = parameters a.trackerUrl ++
    if '#'.toUInt8 ∈ a.trackerUrl then [] else a.announced := by
  have hurl := requestUrl_eq a
  have hplain : ∀ p ∈ a.announced, PlainName p.1 := fun p hp => plainName_of_announced a hp
  have hread := decodeQuery_renderQuery hplain
  have hquery := not_mem_renderQuery hplain
  generalize renderQuery (a.announced.map escaped) = query at hurl hread hquery
  by_cases hfragment : '#'.toUInt8 ∈ a.trackerUrl
  · obtain ⟨front, back, htracker, hfront⟩ := List.eq_append_cons_of_mem hfragment
    rw [if_pos hfragment, List.append_nil, parameters, parameters, hurl, htracker, List.append_assoc,
      List.cons_append, queryOf_fragment hfront, queryOf_fragment hfront]
  rw [if_neg hfragment]
  by_cases hquestion : '?'.toUInt8 ∈ a.trackerUrl
  · -- the parameters of the tracker's own URL come first
    obtain ⟨front, back, htracker, hfront⟩ := List.eq_append_cons_of_mem hquestion
    have hown : '#'.toUInt8 ∉ front ++ '?'.toUInt8 :: back := htracker ▸ hfragment
    have hsharp : '#'.toUInt8 ∉ front ++ '?'.toUInt8 :: (back ++ '&'.toUInt8 :: query) := by
      have hand : '#'.toUInt8 ≠ '&'.toUInt8 := by decide
      simp only [List.mem_append, List.mem_cons, not_or] at hown ⊢
      exact ⟨hown.1, hown.2.1, hown.2.2, hand, hquery⟩
    rw [if_pos hquestion, htracker, List.append_assoc, List.cons_append] at hurl
    rw [parameters, hurl, queryOf_question hfront hsharp, decodeQuery_append, hread, parameters,
      htracker, queryOf_question hfront hown]
  · have hsharp : '#'.toUInt8 ∉ a.trackerUrl ++ '?'.toUInt8 :: query := by
      have hsign : '#'.toUInt8 ≠ '?'.toUInt8 := by decide
      simp only [List.mem_append, List.mem_cons, not_or]
      exact ⟨hfragment, hsign, hquery⟩
    rw [if_neg hquestion] at hurl
    rw [parameters, hurl, queryOf_question hquestion hsharp, hread, parameters,
      queryOf_none hquestion hfragment, decodeQuery_nil, List.nil_append]

end Gush.Tracker
