import Gush.Lib.LastWrite
import Gush.Lib.Split
import Gush.Magnet.Link

/-!
# The segments of a magnet link

A link is cut at `&` into segments, and a segment with an `=` is a parameter. `parseMagnetLink` looks
for the two separators independently, so that a segment without an `=` becomes a part of the name of
the next parameter, which is then unknown: the parameter is lost. `parse_eq_iff` says when this makes
no difference.
-/

namespace Gush.Magnet

open Cxx Utils LastWrite

variable {magnet : MagnetLink} {q : Bytes}

/-- The parameter of a segment: the text before its first `=`, and the text after it. -/
def parameterOf (segment : Bytes) : Option (Bytes × Bytes) :=
  if '='.toUInt8 ∈ segment then
    some (segment.takeWhile (· ≠ '='.toUInt8), (segment.dropWhile (· ≠ '='.toUInt8)).drop 1)
  else none

/-- What a segment does to the link. -/
def processSegment (magnet : MagnetLink) (segment : Bytes) : MagnetLink :=
  match parameterOf segment with
  | none => magnet
  | some (name, text) => processParameter magnet name (urlDecode text)

/-- A link is processed segment by segment. -/
def processSegments (q : Bytes) : MagnetLink := (q.splitOn '&'.toUInt8).foldl processSegment {}

theorem parameterOf_none {segment : Bytes} (h : '='.toUInt8 ∉ segment) : parameterOf segment = none :=
  if_neg h

/-- A segment with an `=` is its parameter. -/
theorem exists_parameterOf {segment : Bytes} (h : '='.toUInt8 ∈ segment) :
    ∃ name text, parameterOf segment = some (name, text) ∧ segment = name ++ '='.toUInt8 :: text ∧
      '='.toUInt8 ∉ name := by
  obtain ⟨name, text, rfl, hname⟩ := List.eq_append_cons_of_mem h
  have hfront : ∀ c ∈ name, decide (c ≠ '='.toUInt8) = true :=
    fun c hc => decide_eq_true fun heq => hname (heq ▸ hc)
  have hback : ∀ c, ('='.toUInt8 :: text).head? = some c → decide (c ≠ '='.toUInt8) = false := by
    intro c hc
    cases hc
    exact decide_eq_false fun hne => hne rfl
  refine ⟨name, text, ?_, rfl, hname⟩
  rw [parameterOf, if_pos h, Split.takeWhile_append hfront hback,
    Split.dropWhile_append hfront hback, List.drop_one, List.tail_cons]

/-! ### What a parameter writes -/

/-- The fields of a link that hold one value. -/
inductive Field
  | infoHash
  | displayName
  | size
  | exactSource
  | exactTopic
  deriving DecidableEq

/-- What a parameter writes into a link. -/
inductive Write
  | infoHash (infoHash infoHashRaw : Bytes)
  | displayName (value : Bytes)
  | size (value : ℤ)
  | exactSource (value : Bytes)
  | exactTopic (value : Bytes)
  | tracker (value : Bytes)
  deriving DecidableEq

namespace Write

def field : Write → Option Field
  | .infoHash .. => some .infoHash
  | .displayName _ => some .displayName
  | .size _ => some .size
  | .exactSource _ => some .exactSource
  | .exactTopic _ => some .exactTopic
  | .tracker _ => none

def tracker? : Write → Option Bytes
  | .tracker value => some value
  | _ => none

def apply (magnet : MagnetLink) : Write → MagnetLink
  | .infoHash hash raw => { magnet with infoHash := hash, infoHashRaw := raw }
  | .displayName value => { magnet with displayName := value }
  | .size value => { magnet with size := value }
  | .exactSource value => { magnet with exactSource := value }
  | .exactTopic value => { magnet with exactTopic := value }
  | .tracker value => { magnet with trackers := magnet.trackers ++ [value] }

end Write

/-- The write of a parameter, its value decoded; a parameter that is unknown or invalid has none. -/
def writeOf (name value : Bytes) : Option Write :=
  if name = ascii "xt" ∧ substr value 0 9 = ascii "urn:btih:" then
    let hash := value.drop 9
    if isValidHex hash then some (.infoHash hash (hexToRaw hash))
    else if isValidBase32 hash then some (.infoHash (toHex (base32ToRaw hash)) (base32ToRaw hash))
    else none
  else if name = ascii "dn" then some (.displayName value)
  else if name = ascii "xl" then (stoll value).toOption.map .size
  else if name = ascii "tr" then some (.tracker value)
  else if name = ascii "xs" then some (.exactSource value)
  else if name = ascii "xt" then some (.exactTopic value)
  else none

/-- What a parameter does is its write. -/
theorem processParameter_eq (magnet : MagnetLink) (name value : Bytes) :
    processParameter magnet name value = (writeOf name value).elim magnet (Write.apply magnet) := by
  unfold processParameter writeOf
  by_cases hhash : name = ascii "xt" ∧ substr value 0 9 = ascii "urn:btih:"
  · rw [if_pos hhash, if_pos hhash]
    dsimp only
    split_ifs <;> rfl
  rw [if_neg hhash, if_neg hhash]
  by_cases hdn : name = ascii "dn"
  · rw [if_pos hdn, if_pos hdn]
    rfl
  rw [if_neg hdn, if_neg hdn]
  by_cases hxl : name = ascii "xl"
  · rw [if_pos hxl, if_pos hxl]
    cases stoll value <;> rfl
  rw [if_neg hxl, if_neg hxl]
  by_cases htr : name = ascii "tr"
  · rw [if_pos htr, if_pos htr]
    rfl
  rw [if_neg htr, if_neg htr]
  by_cases hxs : name = ascii "xs"
  · rw [if_pos hxs, if_pos hxs]
    rfl
  rw [if_neg hxs, if_neg hxs]
  by_cases hxt : name = ascii "xt"
  · rw [if_pos ⟨hxt, fun h => hhash ⟨hxt, h⟩⟩, if_pos hxt]
    rfl
  · rw [if_neg fun h => hxt h.1, if_neg hxt]
    rfl

/-- No known name has a separator in it. -/
theorem writeOf_of_mem {name : Bytes} (h : '&'.toUInt8 ∈ name) (value : Bytes) :
    writeOf name value = none := by
  have hne : ∀ known : Bytes, '&'.toUInt8 ∉ known → name ≠ known := by
    rintro known hknown rfl
    exact hknown h
  rw [writeOf, if_neg fun hxt => hne (ascii "xt") (by decide) hxt.1, if_neg (hne _ (by decide)),
    if_neg (hne _ (by decide)), if_neg (hne _ (by decide)), if_neg (hne _ (by decide)),
    if_neg (hne _ (by decide))]

/-! ### The fields of a link -/

/-- The write that a field of a new link stands for. -/
def Field.initial : Field → Write
  | .infoHash => .infoHash [] []
  | .displayName => .displayName []
  | .size => .size 0
  | .exactSource => .exactSource []
  | .exactTopic => .exactTopic []

/-- The write that the content of a field stands for. -/
def Field.content (magnet : MagnetLink) : Field → Write
  | .infoHash => .infoHash magnet.infoHash magnet.infoHashRaw
  | .displayName => .displayName magnet.displayName
  | .size => .size magnet.size
  | .exactSource => .exactSource magnet.exactSource
  | .exactTopic => .exactTopic magnet.exactTopic

/-- The link that a list of writes makes of an empty one. -/
def written (ws : List Write) : MagnetLink := ws.foldl Write.apply {}

theorem content_apply (magnet : MagnetLink) (w : Write) (f : Field) :
    f.content (w.apply magnet) = if w.field = some f then w else f.content magnet := by
  cases w <;> cases f <;> rfl

theorem trackers_apply (magnet : MagnetLink) (w : Write) :
    (w.apply magnet).trackers = magnet.trackers ++ w.tracker?.toList := by
  cases w <;> simp [Write.apply, Write.tracker?]

/-- A field holds the last write to it. -/
theorem content_written (ws : List Write) (f : Field) :
    f.content (written ws) = lastWrite Write.field Field.initial ws f := by
  induction ws using List.reverseRecOn with
  | nil => cases f <;> rfl
  | append_singleton ws w ih =>
    rw [lastWrite_concat, ← ih, written, List.foldl_append]
    exact content_apply _ w f

theorem trackers_written (ws : List Write) :
    (written ws).trackers = ws.filterMap Write.tracker? := by
  induction ws using List.reverseRecOn with
  | nil => rfl
  | append_singleton ws w ih =>
    rw [List.filterMap_append, ← ih, written, List.foldl_append]
    exact trackers_apply _ w ▸ by cases w.tracker? <;> simp [written]

/-- A link is its fields and its trackers. -/
theorem link_ext_iff (m m' : MagnetLink) :
    m = m' ↔ (∀ f : Field, f.content m = f.content m') ∧ m.trackers = m'.trackers := by
  constructor
  · rintro rfl
    exact ⟨fun _ => rfl, rfl⟩
  · rintro ⟨hfields, htrackers⟩
    have hhash := hfields .infoHash
    have hname := hfields .displayName
    have hsize := hfields .size
    have hsource := hfields .exactSource
    have htopic := hfields .exactTopic
    obtain ⟨⟩ := m
    obtain ⟨⟩ := m'
    simp_all [Field.content]

/-! ### Which parameters are lost -/

/-- The writes of the parameters of a list of segments. A write is marked `false` if the segment
directly before it has no `=`; the Boolean says whether the one before the list has. -/
def markedWrites : Bool → List Bytes → List (Bool × Write)
  | _, [] => []
  | before, segment :: segments =>
    match parameterOf segment with
    | none => markedWrites false segments
    | some (name, text) =>
      ((writeOf name (urlDecode text)).map (before, ·)).toList ++ markedWrites true segments

/-- The writes of a link; nothing stands before its first segment. -/
def linkWrites (q : Bytes) : List (Bool × Write) := markedWrites true (q.splitOn '&'.toUInt8)

/-- Segment by segment, all writes are made. -/
theorem foldl_processSegment (segments : List Bytes) (before : Bool) (magnet : MagnetLink) :
    segments.foldl processSegment magnet =
      ((markedWrites before segments).map Prod.snd).foldl Write.apply magnet := by
  induction segments generalizing before magnet with
  | nil => rfl
  | cons segment segments ih =>
    rw [List.foldl_cons, markedWrites, processSegment]
    rcases parameterOf segment with - | ⟨name, text⟩
    · exact ih false magnet
    · dsimp only
      rw [ih true, processParameter_eq]
      cases writeOf name (urlDecode text) <;> simp

theorem processSegments_eq (q : Bytes) :
    processSegments q = written ((linkWrites q).map Prod.snd) :=
  foldl_processSegment _ true {}

/-- Without an `=` the loop ends. -/
theorem parseLoop_none {query : Bytes} {pos : ℕ} (h : '='.toUInt8 ∉ query.drop pos)
    (magnet : MagnetLink) : parseLoop query pos magnet = magnet := by
  have hnone := find_eq_none h
  rw [parseLoop]
  split_ifs
  · split
    · rfl
    · rename_i eq hsome
      rw [hnone] at hsome
      cases hsome
  · rfl

/-- A parameter whose name starts with other segments is unknown. -/
theorem processParameter_merged {pre name value : Bytes} {before : Bool}
    (hfirst : before = true → pre = []) (hmerged : before = false → '&'.toUInt8 ∈ pre)
    (magnet : MagnetLink) : processParameter magnet (pre ++ name) value =
      (kept ((writeOf name value).map (before, ·)).toList).foldl Write.apply magnet := by
  cases before with
  | true =>
    rw [hfirst rfl, List.nil_append, processParameter_eq]
    cases writeOf name value <;> simp
  | false =>
    rw [processParameter_eq, writeOf_of_mem (List.mem_append_left name (hmerged rfl))]
    cases writeOf name value <;> simp

/-- What the loop makes of the segments behind a position, and of the text `pre` of segments without
an `=` that it has not got past yet: the writes that are not lost. -/
theorem parseLoop_segments {query : Bytes} {segments : List Bytes}
    (hsegments : ∀ segment ∈ segments, '&'.toUInt8 ∉ segment) :
    ∀ {pos : ℕ} {pre : Bytes} {before : Bool} {magnet : MagnetLink},
      query.drop pos = pre ++ ['&'.toUInt8].intercalate segments → '='.toUInt8 ∉ pre →
      (before = true → pre = []) → (before = false → '&'.toUInt8 ∈ pre) →
      parseLoop query pos magnet =
        (kept (markedWrites before segments)).foldl Write.apply magnet := by
  induction segments with
  | nil =>
    intro pos pre before magnet hdrop hpre _ _
    rw [List.intercalate_nil, List.append_nil] at hdrop
    exact parseLoop_none (hdrop.symm ▸ hpre) magnet
  | cons segment segments ih =>
    intro pos pre before magnet hdrop hpre hfirst hmerged
    obtain ⟨hsegment, hrest⟩ := List.forall_mem_cons.1 hsegments
    rw [markedWrites]
    by_cases heq : '='.toUInt8 ∈ segment
    · obtain ⟨name, text, hparameter, rfl, hname⟩ := exists_parameterOf heq
      have hname' : '='.toUInt8 ∉ pre ++ name := by simp [hpre, hname]
      have htext : '&'.toUInt8 ∉ text := fun h => hsegment (by simp [h])
      rw [hparameter]
      dsimp only
      rw [kept_append, List.foldl_append, ← processParameter_merged hfirst hmerged]
      cases segments with
      | nil =>
        rw [List.intercalate_singleton, ← List.append_assoc] at hdrop
        rw [parseLoop_last magnet hname' htext hdrop]
        rfl
      | cons segment' segments =>
        rw [List.intercalate_cons_cons] at hdrop
        obtain ⟨next, hnext, hloop⟩ := parseLoop_cons magnet hname' htext (by simpa using hdrop)
        rw [hloop]
        exact ih hrest hnext (by simp) (fun _ => rfl) (by simp)
    -- the segment becomes a part of the next name
    · rw [parameterOf_none heq]
      dsimp only
      cases segments with
      | nil =>
        rw [List.intercalate_singleton] at hdrop
        exact parseLoop_none (by simp [hdrop, hpre, heq]) magnet
      | cons segment' segments =>
        rw [List.intercalate_cons_cons] at hdrop
        have hdrop' : query.drop pos =
            pre ++ segment ++ ['&'.toUInt8] ++ ['&'.toUInt8].intercalate (segment' :: segments) := by
          simpa using hdrop
        have hpre' : '='.toUInt8 ∉ pre ++ segment ++ ['&'.toUInt8] := by
          simp only [List.mem_append, List.mem_singleton, hpre, heq, false_or]
          decide
        exact ih hrest hdrop' hpre' (by simp) (by simp)

theorem parseMagnetLink_eq (q : Bytes) :
    parseMagnetLink (ascii "magnet:?" ++ q) = written (kept (linkWrites q)) := by
  have hscheme : substr (ascii "magnet:?" ++ q) 0 8 = ascii "magnet:?" := List.take_left' (by decide)
  have hquery : (ascii "magnet:?" ++ q).drop 8 = q := List.drop_left' (by decide)
  rw [parseMagnetLink, if_neg (not_not.2 hscheme), hquery]
  have hsegments : ∀ segment ∈ q.splitOn '&'.toUInt8, '&'.toUInt8 ∉ segment :=
    fun _ => Split.not_mem_of_mem_splitOn
  have hdrop : q.drop 0 = [] ++ ['&'.toUInt8].intercalate (q.splitOn '&'.toUInt8) := by
    rw [List.drop_zero, List.nil_append, List.intercalate_splitOn]
  exact parseLoop_segments hsegments hdrop List.not_mem_nil (fun _ => rfl) (by simp)

/-! ### When nothing is lost -/

/-- A parameter directly behind a segment without an `=` is no tracker; and if it writes a field,
then either a later parameter writes the field again, or it writes what the field holds without it:
the last write to the field that is not lost, or the initial one. -/
structure NothingLost (q : Bytes) : Prop where
  trackers : ∀ w, (false, w) ∈ linkWrites q → w.tracker? = none
  fields : ∀ front w back, linkWrites q = front ++ (false, w) :: back →
    (∀ x ∈ back, x.2.field ≠ w.field) → ∀ f, w.field = some f →
      w = lastWrite Write.field Field.initial (kept front) f

/-- **Main result.** A link is processed segment by segment if and only if no parameter behind a
segment without an `=` makes a difference. -/
theorem parse_eq_iff (q : Bytes) :
    parseMagnetLink (ascii "magnet:?" ++ q) = processSegments q ↔ NothingLost q := by
  have hfields := lastWrite_kept_iff Write.field Field.initial (l := linkWrites q)
  have htrackers := filterMap_kept_iff Write.tracker? (l := linkWrites q)
  rw [parseMagnetLink_eq, processSegments_eq, link_ext_iff]
  simp only [content_written, trackers_written]
  rw [hfields, htrackers]
  exact ⟨fun h => ⟨h.2, h.1⟩, fun h => ⟨h.fields, h.trackers⟩⟩

/-- An ampersand that is written twice, before the display name. -/
def doubledAmpersand : Bytes := ascii "xt=x&&dn=a"

/-- The name is lost, though an empty segment is no parameter. -/
theorem not_forall_parse_eq :
    ¬ ∀ q : Bytes, parseMagnetLink (ascii "magnet:?" ++ q) = processSegments q := by
  intro h
  have hname := congrArg MagnetLink.displayName (h doubledAmpersand)
  rw [parseMagnetLink_eq] at hname
  exact absurd hname (by decide)

end Gush.Magnet
