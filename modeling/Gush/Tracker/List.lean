import Gush.Lib.Merge
import Gush.Lib.Split
import Gush.Tracker.Http
import Mathlib.Data.List.DropRight

/-!
# Tracker lists from the web

`TrackerList`: the downloader can fetch lists of public trackers, with one URL a line, blank lines and
comments. `parseTrackers_render` reads such a text back whatever the padding of its lines;
`fetched_spec` says which trackers several lists give together, and in which order.
-/

namespace Gush.TrackerList

open Cxx Tracker Merge

/-- `Source`. -/
inductive Source
  | trackerslistAll
  | trackerslistBest
  | trackerslistHttp
  | trackerslistHttps
  | trackerslistUdp
  | trackerslistWss
  | ngosangAll
  | ngosangHttp
  | ngosangHttps
  | ngosangUdp
  deriving DecidableEq

/-- `g_sourceUrls`. -/
def Source.url : Source → Bytes
  | .trackerslistAll =>
    ascii "https://raw.githubusercontent.com/XIU2/TrackersListCollection/master/all.txt"
  | .trackerslistBest =>
    ascii "https://raw.githubusercontent.com/XIU2/TrackersListCollection/master/best.txt"
  | .trackerslistHttp =>
    ascii "https://raw.githubusercontent.com/XIU2/TrackersListCollection/master/http.txt"
  | .trackerslistHttps =>
    ascii "https://raw.githubusercontent.com/XIU2/TrackersListCollection/master/https.txt"
  | .trackerslistUdp =>
    ascii "https://raw.githubusercontent.com/XIU2/TrackersListCollection/master/udp.txt"
  | .trackerslistWss =>
    ascii "https://raw.githubusercontent.com/XIU2/TrackersListCollection/master/wss.txt"
  | .ngosangAll =>
    ascii "https://raw.githubusercontent.com/ngosang/trackerslist/master/trackers_all.txt"
  | .ngosangHttp =>
    ascii "https://raw.githubusercontent.com/ngosang/trackerslist/master/trackers_http.txt"
  | .ngosangHttps =>
    ascii "https://raw.githubusercontent.com/ngosang/trackerslist/master/trackers_https.txt"
  | .ngosangUdp =>
    ascii "https://raw.githubusercontent.com/ngosang/trackerslist/master/trackers_udp.txt"

def getProtocol (trackerUrl : Bytes) : Bytes :=
  if substr trackerUrl 0 8 = ascii "https://" then ascii "https"
  else if substr trackerUrl 0 7 = ascii "http://" then ascii "http"
  else if substr trackerUrl 0 6 = ascii "udp://" then ascii "udp"
  else if substr trackerUrl 0 6 = ascii "wss://" then ascii "wss"
  else if substr trackerUrl 0 5 = ascii "ws://" then ascii "ws"
  else ascii "unknown"

def isValidTrackerUrl (url : Bytes) : Bool := getProtocol url ≠ ascii "unknown" ∧ url ≠ []

/-- `removeDuplicates`; the set of what has been seen holds the elements of the result. -/
def removeDuplicates (trackers : List Bytes) : List Bytes := trackers.foldl insertNew []

/-! ### Lines -/

/-- A character of `" \t\r\n"`. -/
def isBlank (b : UInt8) : Bool := b = 32 ∨ b = 9 ∨ b = 13 ∨ b = 10

/-- The lines that `std::getline` reads. There is none behind a newline at the end. -/
def getLines (data : Bytes) : List Bytes :=
  let parts := data.splitOn 10
  if parts.getLast? = some [] then parts.dropLast else parts

/-- From the first character that is not blank to the last one. -/
def trim (line : Bytes) : Bytes := (line.dropWhile isBlank).rdropWhile isBlank

/-- The body of the loop over the lines. -/
def parseLine (line : Bytes) : Option Bytes :=
  if line.all isBlank then none
  else
    let tracker := trim line
    if tracker = [] ∨ tracker.head? = some '#'.toUInt8 then none
    else if isValidTrackerUrl tracker then some tracker
    else none

def parseTrackers (responseData : Bytes) : List Bytes := (getLines responseData).filterMap parseLine

/-! ### Fetching -/

def fetchTrackers (env : Environment) (source : Source) : List Bytes :=
  if env.initializes = false then []
  else
    match env.transfer source.url with
    | .failed _ => []
    | .answered httpCode responseData => if httpCode ≠ 200 then [] else parseTrackers responseData

/-- `fetchTrackersFromMultipleSources`. -/
def fetchTrackersFromMultipleSources (env : Environment) (sources : List Source) : List Bytes :=
  removeDuplicates (sources.flatMap (fetchTrackers env))

/-! ### Reading a line -/

/-- A text without blanks at its ends. -/
def Solid (text : Bytes) : Prop :=
  (∀ b, text.head? = some b → isBlank b = false) ∧ ∀ b, text.getLast? = some b → isBlank b = false

variable {front text back line : Bytes}

/-- Trimming takes the padding off. -/
theorem trim_pad (hfront : ∀ b ∈ front, isBlank b = true) (hback : ∀ b ∈ back, isBlank b = true)
    (hsolid : Solid text) : trim (front ++ text ++ back) = text := by
  have hright : (text ++ back).rdropWhile isBlank = text := by
    have hhead : ∀ b, text.reverse.head? = some b → isBlank b = false := by
      intro b hb
      rw [List.head?_reverse] at hb
      exact hsolid.2 b hb
    rw [List.rdropWhile, List.reverse_append,
      Split.dropWhile_append (fun b hb => hback b (List.mem_reverse.1 hb)) hhead,
      List.reverse_reverse]
  rw [trim, List.append_assoc]
  cases text with
  | nil =>
    -- nothing but padding
    have hall : (front ++ back).dropWhile isBlank = [] := by
      rw [List.dropWhile_eq_nil_iff]
      exact fun b hb => (List.mem_append.1 hb).elim (hfront b) (hback b)
    rw [List.nil_append, hall, List.rdropWhile_nil]
  | cons b text =>
    have hleft : (front ++ (b :: text ++ back)).dropWhile isBlank = b :: text ++ back :=
      Split.dropWhile_append hfront fun x hx => hsolid.1 x hx
    rw [hleft]
    exact hright

/-- What is trimmed is solid, and the rest is padding. -/
theorem trim_spec (line : Bytes) : Solid (trim line) ∧ ∃ front back,
    (∀ b ∈ front, isBlank b = true) ∧ (∀ b ∈ back, isBlank b = true) ∧
      line = front ++ trim line ++ back := by
  refine ⟨⟨fun b hb => ?_, fun b hb => ?_⟩, line.takeWhile isBlank,
    (line.dropWhile isBlank).rtakeWhile isBlank, fun b hb => List.mem_takeWhile_imp hb,
    fun b hb => List.mem_rtakeWhile_imp hb, ?_⟩
  · -- the first character is the one at which the front ends
    have hprefix := List.rdropWhile_prefix isBlank (l := line.dropWhile isBlank)
    have hhead : (line.dropWhile isBlank).head? = some b := by
      obtain ⟨rest, hrest⟩ := hprefix
      rw [← hrest, List.head?_append]
      rw [trim] at hb
      rw [hb, Option.some_or]
    have hnot := List.head?_dropWhile_not isBlank line
    rw [hhead] at hnot
    simpa using hnot
  · have hne : trim line ≠ [] := by
      rintro hnil
      rw [hnil] at hb
      cases hb
    have hlast := List.rdropWhile_last_not isBlank (line.dropWhile isBlank) hne
    rw [List.getLast?_eq_some_getLast hne] at hb
    obtain rfl := Option.some.inj hb
    exact Bool.eq_false_of_not_eq_true hlast
  · rw [trim, List.append_assoc, List.rdropWhile_append_rtakeWhile,
      List.takeWhile_append_dropWhile]

/-- A valid URL starts with the letter of a protocol. -/
theorem head_of_valid {url : Bytes} (h : isValidTrackerUrl url = true) :
    ∃ b rest, url = b :: rest ∧ b ∈ ascii "huw" := by
  obtain ⟨hprotocol, hne⟩ := of_decide_eq_true h
  cases url with
  | nil => exact absurd rfl hne
  | cons b rest =>
    refine ⟨b, rest, rfl, ?_⟩
    have hfirst : ∀ (n : ℕ) (c : UInt8) (rest' : Bytes),
        substr (b :: rest) 0 (n + 1) = c :: rest' → b = c := fun n c rest' heq =>
      (List.cons.inj heq).1
    unfold getProtocol at hprotocol
    split_ifs at hprotocol with h₁ h₂ h₃ h₄ h₅
    · rw [hfirst 7 _ _ h₁]
      decide
    · rw [hfirst 6 _ _ h₂]
      decide
    · rw [hfirst 5 _ _ h₃]
      decide
    · rw [hfirst 5 _ _ h₄]
      decide
    · rw [hfirst 4 _ _ h₅]
      decide
    · exact absurd rfl hprotocol

/-- A line gives the URL that it pads, if that is valid. Blank lines and comments are not. -/
theorem parseLine_pad (hfront : ∀ b ∈ front, isBlank b = true) (hback : ∀ b ∈ back, isBlank b = true)
    (hsolid : Solid text) : parseLine (front ++ text ++ back) =
      if isValidTrackerUrl text then some text else none := by
  have htrim := trim_pad hfront hback hsolid
  rw [parseLine]
  by_cases hvalid : isValidTrackerUrl text = true
  · obtain ⟨b, rest, rfl, hb⟩ := head_of_valid hvalid
    have hletters : ∀ b ∈ ascii "huw", isBlank b = false ∧ b ≠ '#'.toUInt8 := by
      decide +kernel
    have hletter := hletters b hb
    have hall : ¬ (front ++ b :: rest ++ back).all isBlank = true := by
      intro hall
      have hblank := List.all_eq_true.1 hall b (by simp)
      rw [hletter.1] at hblank
      cases hblank
    rw [if_neg hall, htrim, if_pos hvalid]
    simp only [List.head?_cons, Option.some.injEq, reduceCtorEq, false_or, hletter.2, if_false,
      hvalid, if_true]
  · rw [if_neg hvalid, htrim]
    dsimp only
    rw [if_neg hvalid]
    simp

theorem parseLine_eq_some {tracker : Bytes} : parseLine line = some tracker ↔
    trim line = tracker ∧ isValidTrackerUrl tracker = true := by
  obtain ⟨hsolid, front, back, hfront, hback, hline⟩ := trim_spec line
  have hparse := parseLine_pad hfront hback hsolid
  rw [← hline] at hparse
  rw [hparse]
  by_cases hvalid : isValidTrackerUrl (trim line) = true
  · rw [if_pos hvalid, Option.some.injEq]
    exact ⟨fun heq => ⟨heq, heq ▸ hvalid⟩, fun h => h.1⟩
  · rw [if_neg hvalid]
    exact ⟨nofun, fun h => absurd (h.1 ▸ h.2) hvalid⟩

/-! ### Reading a list -/

/-- A line of a list: a text with what it is padded with. -/
structure Line where
  front : Bytes := []
  text : Bytes
  back : Bytes := []

/-- The line itself, without the newline. -/
def Line.bytes (line : Line) : Bytes := line.front ++ line.text ++ line.back

/-- The padding is blank, the text has no blanks at its ends, and the line is one line. -/
structure Line.Padded (line : Line) : Prop where
  front : ∀ b ∈ line.front, isBlank b = true
  back : ∀ b ∈ line.back, isBlank b = true
  solid : Solid line.text
  single : 10 ∉ line.bytes

/-- The text of a list: lines that end with a newline, and a last one, perhaps empty, without. -/
def render (lines : List Line) (last : Line) : Bytes :=
  lines.flatMap (fun line => line.bytes ++ [10]) ++ last.bytes

theorem splitOn_render {lines : List Line} {last : Line}
    (h : ∀ line ∈ lines ++ [last], 10 ∉ line.bytes) :
    (render lines last).splitOn 10 = (lines ++ [last]).map Line.bytes := by
  induction lines with
  | nil => exact List.splitOn_eq_singleton (h last List.mem_cons_self)
  | cons line lines ih =>
    have hcut : render (line :: lines) last = line.bytes ++ 10 :: render lines last := by
      simp [render, List.append_assoc]
    rw [hcut, List.splitOn_append_cons_self_of_not_mem (h line List.mem_cons_self),
      ih fun line' hmem => h line' (List.mem_cons_of_mem line hmem), List.cons_append, List.map_cons]

/-- Each line gives its text, if that is valid. -/
theorem filterMap_parseLine {lines : List Line} (h : ∀ line ∈ lines, line.Padded) :
    (lines.map Line.bytes).filterMap parseLine =
      (lines.map Line.text).filter fun url => isValidTrackerUrl url := by
  induction lines with
  | nil => rfl
  | cons line lines ih =>
    have hline := h line List.mem_cons_self
    have hparse : parseLine line.bytes = if isValidTrackerUrl line.text then some line.text else none :=
      parseLine_pad hline.front hline.back hline.solid
    rw [List.map_cons, List.map_cons, List.filterMap_cons, hparse, List.filter_cons,
      ih fun line' hmem => h line' (List.mem_cons_of_mem line hmem)]
    by_cases hvalid : isValidTrackerUrl line.text = true
    · rw [if_pos hvalid, if_pos hvalid]
    · rw [if_neg hvalid, if_neg hvalid]

/-- **Reading a list back**: whatever pads its lines, the valid URLs among the texts are read in
their order, and nothing else. -/
theorem parseTrackers_render {lines : List Line} {last : Line}
    (h : ∀ line ∈ lines ++ [last], line.Padded) : parseTrackers (render lines last) =
      ((lines ++ [last]).map Line.text).filter fun url => isValidTrackerUrl url := by
  have hparts := splitOn_render fun line hline => (h line hline).single
  rw [parseTrackers, getLines, hparts, ← filterMap_parseLine h, List.map_append, List.map_singleton,
    List.getLast?_concat, List.dropLast_concat]
  split_ifs with hlast
  -- an empty last line is not read, and would not give anything
  · rw [Option.some.inj hlast, List.filterMap_append]
    exact (List.append_nil _).symm
  · rfl

instance (text : Bytes) : Decidable (Solid text) :=
  inferInstanceAs (Decidable ((∀ b ∈ text.head?, isBlank b = false) ∧
    ∀ b ∈ text.getLast?, isBlank b = false))

instance (line : Line) : Decidable line.Padded :=
  decidable_of_iff (line.front.all isBlank = true ∧ line.back.all isBlank = true ∧
      Solid line.text ∧ line.bytes.contains 10 = false)
    ⟨fun h => ⟨List.all_eq_true.1 h.1, List.all_eq_true.1 h.2.1, h.2.2.1, by simpa using h.2.2.2⟩,
      fun h => ⟨List.all_eq_true.2 h.front, List.all_eq_true.2 h.back, h.solid,
        by simpa using h.single⟩⟩

/-- A comment, an indented URL with a carriage return, a blank line, an unknown protocol, and a last
line without a newline. -/
theorem parseTrackers_render_lines :
    parseTrackers (render [⟨[], ascii "# trackers", []⟩, ⟨[32], ascii "udp://a:1", [13]⟩, ⟨[], [], []⟩,
      ⟨[], ascii "ftp://b", []⟩] ⟨[], ascii "http://c", [32]⟩) = [ascii "udp://a:1", ascii "http://c"] :=
  (parseTrackers_render (by decide +kernel)).trans (by decide +kernel)

/-! ### Several lists -/

/-- A list that is fetched has a line for a tracker: padding, and a URL with a known protocol. -/
def Lists (env : Environment) (source : Source) (tracker : Bytes) : Prop :=
  env.initializes = true ∧ ∃ responseData, env.transfer source.url = .answered 200 responseData ∧
    ∃ line ∈ getLines responseData, trim line = tracker ∧ isValidTrackerUrl tracker = true

theorem mem_fetchTrackers {env : Environment} {source : Source} {tracker : Bytes} :
    tracker ∈ fetchTrackers env source ↔ Lists env source tracker := by
  have hparse : ∀ data, tracker ∈ parseTrackers data ↔
      ∃ line ∈ getLines data, trim line = tracker ∧ isValidTrackerUrl tracker = true := by
    intro data
    simp only [parseTrackers, List.mem_filterMap, parseLine_eq_some]
  rw [fetchTrackers, Lists]
  split_ifs with hinit
  · simp [hinit]
  · have htrue : env.initializes = true := by simpa using hinit
    cases htransfer : env.transfer source.url with
    | failed error => simp
    | answered httpCode responseData =>
      by_cases hcode : httpCode = 200
      · simp [hcode, hparse, htrue]
      · simp [hcode]

theorem mem_fetched {env : Environment} {sources : List Source} {tracker : Bytes} :
    tracker ∈ fetchTrackersFromMultipleSources env sources ↔
      ∃ source ∈ sources, Lists env source tracker := by
  have hmem : tracker ∈ fetchTrackersFromMultipleSources env sources ↔
      tracker ∈ ([] : List Bytes) ∨ tracker ∈ sources.flatMap (fetchTrackers env) := mem_merge
  rw [hmem, List.mem_flatMap]
  simp only [List.not_mem_nil, false_or, mem_fetchTrackers]

theorem valid_of_mem_fetched {env : Environment} {sources : List Source} {tracker : Bytes}
    (h : tracker ∈ fetchTrackersFromMultipleSources env sources) :
    isValidTrackerUrl tracker = true := by
  obtain ⟨-, -, -, -, -, -, -, -, hvalid⟩ := mem_fetched.1 h
  exact hvalid

/-- **What several lists give**: every tracker that one of them has, once; and the trackers of the
first lists stand before those that only later lists have. -/
theorem fetched_spec (env : Environment) (sources : List Source) :
    (fetchTrackersFromMultipleSources env sources).Nodup ∧
    (∀ tracker, tracker ∈ fetchTrackersFromMultipleSources env sources ↔
      ∃ source ∈ sources, Lists env source tracker) ∧
    ∀ earlier later, sources = earlier ++ later →
      fetchTrackersFromMultipleSources env sources =
        fetchTrackersFromMultipleSources env earlier ++
          (fetchTrackersFromMultipleSources env later).filter fun tracker =>
            tracker ∉ fetchTrackersFromMultipleSources env earlier := by
  refine ⟨nodup_merge List.nodup_nil, fun tracker => mem_fetched, ?_⟩
  · rintro earlier later rfl
    have hcut : fetchTrackersFromMultipleSources env (earlier ++ later) =
        merge (fetchTrackersFromMultipleSources env earlier) (later.flatMap (fetchTrackers env)) := by
      have happend : merge ([] : List Bytes) (earlier.flatMap (fetchTrackers env) ++
          later.flatMap (fetchTrackers env)) = merge (merge [] (earlier.flatMap (fetchTrackers env)))
            (later.flatMap (fetchTrackers env)) := merge_append
      rw [← List.flatMap_append] at happend
      exact happend
    rw [hcut, merge_eq]
    exact congrArg _ (List.filter_congr fun tracker _ => decide_eq_decide.2 Iff.rfl)

end Gush.TrackerList
