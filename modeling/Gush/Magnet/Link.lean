import Gush.Magnet.FromMetadata
import Gush.Utils.Encoding

/-!
# Magnet links

`generateMagnetLink` and `parseMagnetLink`. A link is a list of parameters, each a name and a value;
the generator escapes the values, so that the separators cut a link where it was put together.
`parse_generate` says that what goes into a link comes out of it.
-/

namespace Gush

open Cxx Utils

namespace Magnet

/-! ### Parsing -/

/-- `urlDecode`. A percent sign that two characters follow vanishes if they are no number, and
stands for itself at the end of the text. -/
def urlDecode : Bytes → Bytes
  | [] => []
  | [c] => (if c = '+'.toUInt8 then ' '.toUInt8 else c) :: []
  | [c, c'] => (if c = '+'.toUInt8 then ' '.toUInt8 else c) :: urlDecode [c']
  | c :: c₁ :: c₂ :: rest =>
    if c = '%'.toUInt8 then
      match readHex [c₁, c₂] with
      | some value => UInt8.ofInt value :: urlDecode rest
      | none => urlDecode (c₁ :: c₂ :: rest)
    else if c = '+'.toUInt8 then ' '.toUInt8 :: urlDecode (c₁ :: c₂ :: rest)
    else c :: urlDecode (c₁ :: c₂ :: rest)

def isValidHex (str : Bytes) : Bool := decide (str.length = 40) && str.all isxdigit

def isValidBase32 (str : Bytes) : Bool :=
  decide (str.length = 32) && str.all fun c =>
    (65 ≤ c.toNat && c.toNat ≤ 90) || (50 ≤ c.toNat && c.toNat ≤ 55)

def hexToRaw (hex : Bytes) : Bytes := fromHex hex

/-- An entry of `decodeTable`; `none` is `-1`. -/
def decodeTable (c : UInt8) : Option ℕ :=
  if 50 ≤ c.toNat ∧ c.toNat ≤ 55 then some (c.toNat - 24)
  else if 65 ≤ c.toNat ∧ c.toNat ≤ 90 then some (c.toNat - 65)
  else if 97 ≤ c.toNat ∧ c.toNat ≤ 122 then some (c.toNat - 97)
  else none

/-- The loop of `base32ToRaw`. -/
def base32Loop : Bytes → ℕ → ℕ → Bytes
  | [], _, _ => []
  | c :: rest, buffer, bitsLeft =>
    if c = '='.toUInt8 then []
    else
      match decodeTable c with
      | none => base32Loop rest buffer bitsLeft
      | some val =>
        let buffer := (buffer <<< 5) % 2 ^ 32 ||| val
        let bitsLeft := bitsLeft + 5
        if bitsLeft ≥ 8 then
          UInt8.ofNat (buffer >>> (bitsLeft - 8)) :: base32Loop rest buffer (bitsLeft - 8)
        else base32Loop rest buffer bitsLeft

def base32ToRaw (base32 : Bytes) : Bytes := base32Loop base32 0 0

/-- What `parseMagnetLink` does with a parameter, its value decoded. -/
def processParameter (magnet : MagnetLink) (name value : Bytes) : MagnetLink :=
  if name = ascii "xt" ∧ substr value 0 9 = ascii "urn:btih:" then
    let hash := value.drop 9
    if isValidHex hash then { magnet with infoHash := hash, infoHashRaw := hexToRaw hash }
    else if isValidBase32 hash then
      { magnet with infoHashRaw := base32ToRaw hash, infoHash := toHex (base32ToRaw hash) }
    else magnet
  else if name = ascii "dn" then { magnet with displayName := value }
  else if name = ascii "xl" then
    match stoll value with
    | .ok size => { magnet with size }
    | .error _ => magnet
  else if name = ascii "tr" then { magnet with trackers := magnet.trackers ++ [value] }
  else if name = ascii "xs" then { magnet with exactSource := value }
  else if name = ascii "xt" ∧ substr value 0 9 ≠ ascii "urn:btih:" then
    { magnet with exactTopic := value }
  else magnet

/-- The loop of `parseMagnetLink`. -/
def parseLoop (query : Bytes) (pos : ℕ) (magnet : MagnetLink) : MagnetLink :=
  if pos < query.length then
    match _heq : find query '='.toUInt8 pos with
    | none => magnet
    | some eq =>
      let name := substr query pos (eq - pos)
      match hnext : find query '&'.toUInt8 (eq + 1) with
      | none => processParameter magnet name (urlDecode (query.drop (eq + 1)))
      | some next =>
        parseLoop query (next + 1)
          (processParameter magnet name (urlDecode (substr query (eq + 1) (next - eq - 1))))
  else magnet
termination_by query.length - pos
decreasing_by
  have hpos := find_bounds _heq
  have hend := find_bounds hnext
  omega

def parseMagnetLink (magnetUrl : Bytes) : MagnetLink :=
  if substr magnetUrl 0 8 ≠ ascii "magnet:?" then {}
  else parseLoop (magnetUrl.drop 8) 0 {}

/-! ### Generating -/

def generateMagnetLink (infoHashRaw displayName : Bytes) (trackers : List Bytes) : Bytes :=
  let oss := ascii "magnet:?xt=urn:btih:" ++ toHex infoHashRaw
  let oss := if displayName ≠ [] then oss ++ ascii "&dn=" ++ urlEncode displayName else oss
  trackers.foldl (fun oss tracker => oss ++ ascii "&tr=" ++ urlEncode tracker) oss

/-! ### Reading what was written -/

theorem urlDecode_cons {c : UInt8} (hpercent : c ≠ '%'.toUInt8) (hplus : c ≠ '+'.toUInt8)
    (rest : Bytes) : urlDecode (c :: rest) = c :: urlDecode rest := by
  match rest with
  | [] => simp [urlDecode, hplus]
  | [c'] => simp [urlDecode, hplus]
  | c₁ :: c₂ :: rest => rw [urlDecode, if_neg hpercent, if_neg hplus]

/-- Bytes without an escape decode to themselves. -/
theorem urlDecode_plain {s : Bytes} (h : ∀ c ∈ s, c ≠ '%'.toUInt8 ∧ c ≠ '+'.toUInt8) :
    urlDecode s = s := by
  induction s with
  | nil => rfl
  | cons c s ih =>
    obtain ⟨hpercent, hplus⟩ := h c List.mem_cons_self
    rw [urlDecode_cons hpercent hplus, ih fun c hc => h c (List.mem_cons_of_mem _ hc)]

theorem ne_of_unreserved {c d : UInt8} (hc : unreserved c = true) (hd : unreserved d = false) :
    c ≠ d := by
  rintro rfl
  rw [hc] at hd
  cases hd

theorem urlDecode_escape (c : UInt8) (rest : Bytes) :
    urlDecode (escape c ++ rest) = c :: urlDecode rest := by
  rw [escape]
  split_ifs with hc
  · exact urlDecode_cons (ne_of_unreserved hc (by decide)) (ne_of_unreserved hc (by decide)) rest
  · have hlt := c.toNat_lt
    have hbyte : UInt8.ofInt c.toNat = c := by
      have hmod : ((c.toNat : ℤ) % 2 ^ 8).toNat = c.toNat := by omega
      rw [UInt8.ofInt, hmod, UInt8.ofNat_toNat]
    rw [hexByte]
    simp only [List.cons_append, List.nil_append, urlDecode, if_true,
      readHex_hexDigit (c.toNat / 16) (by omega) (c.toNat % 16) (by omega), Nat.div_add_mod, hbyte]

/-- `urlDecode` undoes `urlEncode`. -/
@[simp] theorem urlDecode_urlEncode (str : Bytes) : urlDecode (urlEncode str) = str := by
  rw [urlEncode_eq]
  induction str with
  | nil => rfl
  | cons c str ih => rw [List.flatMap_cons, urlDecode_escape, ih]

/-- An escaped byte is written without a separator. -/
theorem not_mem_urlEncode {d : UInt8} (hd : unreserved d = false) (hpercent : d ≠ '%'.toUInt8)
    (hdigit : isxdigit d = false) (str : Bytes) : d ∉ urlEncode str := by
  rw [urlEncode_eq, List.mem_flatMap]
  rintro ⟨c, -, hmem⟩
  rw [escape] at hmem
  split_ifs at hmem with hc
  · rw [List.mem_singleton.1 hmem, hc] at hd
    cases hd
  · rcases List.mem_cons.1 hmem with rfl | hmem
    · exact hpercent rfl
    · rw [isxdigit_of_mem_hexByte hmem] at hdigit
      cases hdigit

/-! ### Cutting a link -/

/-- A parameter as it stands in a link. -/
def renderParameter (p : Bytes × Bytes) : Bytes := p.1 ++ '='.toUInt8 :: p.2

/-- The parameters of a link behind the question mark. -/
def renderQuery : List (Bytes × Bytes) → Bytes
  | [] => []
  | [p] => renderParameter p
  | p :: ps => renderParameter p ++ '&'.toUInt8 :: renderQuery ps

/-- The separators do not occur where they would cut in the wrong place. -/
structure Separable (p : Bytes × Bytes) : Prop where
  name : '='.toUInt8 ∉ p.1
  value : '&'.toUInt8 ∉ p.2

/-- What the parameters of a link make of it. -/
def processParameters (magnet : MagnetLink) (ps : List (Bytes × Bytes)) : MagnetLink :=
  ps.foldl (fun magnet p => processParameter magnet p.1 (urlDecode p.2)) magnet

section Parameter

variable {query name value : Bytes} {pos : ℕ} (magnet : MagnetLink) (hname : '='.toUInt8 ∉ name)
  (hvalue : '&'.toUInt8 ∉ value)

include hname hvalue

/-- The last parameter is the rest of the link. -/
theorem parseLoop_last (h : query.drop pos = name ++ '='.toUInt8 :: value) :
    parseLoop query pos magnet = processParameter magnet name (urlDecode value) := by
  have hpos : pos < query.length := by
    by_contra hle
    simp [List.drop_of_length_le (not_lt.1 hle)] at h
  have heq := find_of_drop h hname
  have htail : query.drop (pos + name.length + 1) = value := by
    rw [← List.drop_drop, drop_of_drop h, List.drop_one, List.tail_cons]
  have hend : find query '&'.toUInt8 (pos + name.length + 1) = none :=
    find_eq_none (htail.symm ▸ hvalue)
  rw [parseLoop, if_pos hpos]
  split
  · rename_i hnone
    rw [heq] at hnone
    cases hnone
  · rename_i eq hsome
    rw [heq] at hsome
    cases hsome
    split
    · rw [Nat.add_sub_cancel_left, substr_of_drop h, htail]
    · rename_i hnext
      rw [hend] at hnext
      cases hnext

/-- A parameter with others behind it is cut off. -/
theorem parseLoop_cons {rest : Bytes}
    (h : query.drop pos = name ++ '='.toUInt8 :: (value ++ '&'.toUInt8 :: rest)) :
    ∃ next, query.drop next = rest ∧ parseLoop query pos magnet =
      parseLoop query next (processParameter magnet name (urlDecode value)) := by
  have hpos : pos < query.length := by
    by_contra hle
    simp [List.drop_of_length_le (not_lt.1 hle)] at h
  have heq := find_of_drop h hname
  have htail : query.drop (pos + name.length + 1) = value ++ '&'.toUInt8 :: rest := by
    rw [← List.drop_drop, drop_of_drop h, List.drop_one, List.tail_cons]
  have hend := find_of_drop htail hvalue
  refine ⟨pos + name.length + 1 + value.length + 1, ?_, ?_⟩
  · rw [← List.drop_drop, drop_of_drop htail, List.drop_one, List.tail_cons]
  rw [parseLoop, if_pos hpos]
  split
  · rename_i hnone
    rw [heq] at hnone
    cases hnone
  · rename_i eq hsome
    rw [heq] at hsome
    cases hsome
    split
    · rename_i hnone
      rw [hend] at hnone
      cases hnone
    · rename_i next hnext
      rw [hend] at hnext
      cases hnext
      have hcut : pos + name.length + 1 + value.length - (pos + name.length) - 1 = value.length := by
        omega
      rw [Nat.add_sub_cancel_left, substr_of_drop h, hcut, substr_of_drop htail]

end Parameter

/-- The loop goes through the parameters of a link one by one. -/
theorem parseLoop_renderQuery {query : Bytes} {ps : List (Bytes × Bytes)}
    (h : ∀ p ∈ ps, Separable p) :
    ∀ {pos : ℕ} {magnet : MagnetLink}, query.drop pos = renderQuery ps →
      parseLoop query pos magnet = processParameters magnet ps := by
  induction ps with
  | nil =>
    intro pos magnet hdrop
    rw [parseLoop, if_neg (not_lt.2 (List.drop_eq_nil_iff.1 hdrop))]
    rfl
  | cons p ps ih =>
    intro pos magnet hdrop
    have hp := h p List.mem_cons_self
    cases ps with
    | nil => exact parseLoop_last magnet hp.name hp.value hdrop
    | cons p' ps =>
      rw [renderQuery, renderParameter, List.append_assoc, List.cons_append] at hdrop
      · obtain ⟨next, hnext, hloop⟩ := parseLoop_cons magnet hp.name hp.value hdrop
        rw [hloop]
        exact ih (fun q hq => h q (List.mem_cons_of_mem _ hq)) hnext
      · exact List.cons_ne_nil _ _

/-! ### The round trip -/

/-- The parameters of a generated link. -/
def linkParameters (infoHashRaw displayName : Bytes) (trackers : List Bytes) :
    List (Bytes × Bytes) :=
  (ascii "xt", ascii "urn:btih:" ++ toHex infoHashRaw) ::
    ((if displayName = [] then [] else [(ascii "dn", urlEncode displayName)]) ++
      trackers.map fun tracker => (ascii "tr", urlEncode tracker))

theorem renderQuery_cons (p : Bytes × Bytes) (ps : List (Bytes × Bytes)) :
    renderQuery (p :: ps) =
      renderParameter p ++ ps.flatMap fun q => '&'.toUInt8 :: renderParameter q := by
  induction ps generalizing p with
  | nil => simp [renderQuery]
  | cons q ps ih =>
    rw [renderQuery, ih q, List.flatMap_cons, List.cons_append]
    exact List.cons_ne_nil q ps

/-- A generated link is the rendering of its parameters. -/
theorem generateMagnetLink_eq (infoHashRaw displayName : Bytes) (trackers : List Bytes) :
    generateMagnetLink infoHashRaw displayName trackers =
      ascii "magnet:?" ++ renderQuery (linkParameters infoHashRaw displayName trackers) := by
  have hfold : ∀ (trackers : List Bytes) (oss : Bytes),
      trackers.foldl (fun oss tracker => oss ++ ascii "&tr=" ++ urlEncode tracker) oss =
        oss ++ trackers.flatMap fun tracker =>
          '&'.toUInt8 :: renderParameter (ascii "tr", urlEncode tracker) := by
    intro trackers
    induction trackers with
    | nil => simp
    | cons tracker trackers ih =>
      intro oss
      rw [List.foldl_cons, ih, List.flatMap_cons]
      simp [renderParameter, ascii]
  rw [generateMagnetLink, hfold, linkParameters, renderQuery_cons]
  split_ifs with hname hname <;> simp_all [renderParameter, ascii, List.flatMap_map]

theorem isxdigit_of_mem_toHex {data : Bytes} {c : UInt8} (h : c ∈ toHex data) :
    isxdigit c = true := by
  rw [toHex_eq] at h
  obtain ⟨d, -, hd⟩ := List.mem_flatMap.1 h
  exact isxdigit_of_mem_hexByte hd

/-- A byte that is no digit does not occur in an info hash. -/
theorem not_mem_infoHash {c : UInt8} (hscheme : c ∉ ascii "urn:btih:") (hc : isxdigit c = false)
    (data : Bytes) : c ∉ ascii "urn:btih:" ++ toHex data := by
  intro hmem
  rcases List.mem_append.1 hmem with hmem | hmem
  · exact hscheme hmem
  · rw [isxdigit_of_mem_toHex hmem] at hc
    cases hc

theorem separable_linkParameters (infoHashRaw displayName : Bytes) (trackers : List Bytes) :
    ∀ p ∈ linkParameters infoHashRaw displayName trackers, Separable p := by
  have hencoded : ∀ str, '&'.toUInt8 ∉ urlEncode str :=
    not_mem_urlEncode (by decide) (by decide) (by decide)
  intro p hp
  rw [linkParameters, List.mem_cons, List.mem_append, List.mem_map] at hp
  rcases hp with rfl | hp | ⟨tracker, -, rfl⟩
  · exact ⟨show '='.toUInt8 ∉ ascii "xt" by decide,
      not_mem_infoHash (by decide) (by decide) infoHashRaw⟩
  · split_ifs at hp
    · cases hp
    · rw [List.mem_singleton.1 hp]
      exact ⟨show '='.toUInt8 ∉ ascii "dn" by decide, hencoded displayName⟩
  · exact ⟨show '='.toUInt8 ∉ ascii "tr" by decide, hencoded tracker⟩

theorem isValidHex_toHex {data : Bytes} (h : data.length = 20) : isValidHex (toHex data) = true := by
  rw [isValidHex, length_toHex, h, List.all_eq_true.2 fun c hc => isxdigit_of_mem_toHex hc]
  rfl

/-- The parameter of the info hash decodes to itself. -/
theorem urlDecode_infoHash (data : Bytes) :
    urlDecode (ascii "urn:btih:" ++ toHex data) = ascii "urn:btih:" ++ toHex data := by
  apply urlDecode_plain
  intro c hc
  constructor
  · rintro rfl
    exact not_mem_infoHash (by decide) (by decide) data hc
  · rintro rfl
    exact not_mem_infoHash (by decide) (by decide) data hc

/-- What the parameters of a generated link make of an empty one. -/
theorem processParameters_linkParameters {infoHashRaw : Bytes} (h : infoHashRaw.length = 20)
    (displayName : Bytes) (trackers : List Bytes) :
    processParameters {} (linkParameters infoHashRaw displayName trackers) =
      { infoHash := toHex infoHashRaw, infoHashRaw, displayName, trackers } := by
  have hhash : processParameter {} (ascii "xt") (ascii "urn:btih:" ++ toHex infoHashRaw) =
      { infoHash := toHex infoHashRaw, infoHashRaw } := by
    have hscheme : substr (ascii "urn:btih:" ++ toHex infoHashRaw) 0 9 = ascii "urn:btih:" :=
      List.take_left' (by decide)
    have hrest : (ascii "urn:btih:" ++ toHex infoHashRaw).drop 9 = toHex infoHashRaw :=
      List.drop_left' (by decide)
    rw [processParameter, if_pos ⟨rfl, hscheme⟩]
    simp only [hrest, isValidHex_toHex h, if_true, hexToRaw, fromHex_toHex]
  have htrackers : ∀ (trackers : List Bytes) (magnet : MagnetLink),
      processParameters magnet (trackers.map fun tracker => (ascii "tr", urlEncode tracker)) =
        { magnet with trackers := magnet.trackers ++ trackers } := by
    intro trackers
    induction trackers with
    | nil => simp [processParameters]
    | cons tracker trackers ih =>
      intro magnet
      have htracker : processParameter magnet (ascii "tr") (urlDecode (urlEncode tracker)) =
          { magnet with trackers := magnet.trackers ++ [tracker] } := by
        rw [urlDecode_urlEncode]
        rfl
      rw [List.map_cons, processParameters, List.foldl_cons, htracker, ← processParameters, ih]
      simp
  rw [linkParameters, processParameters, List.foldl_cons, List.foldl_append, urlDecode_infoHash,
    hhash, ← processParameters, ← processParameters, htrackers]
  split_ifs with hname
  · simp [processParameters, hname]
  · rw [processParameters, List.foldl_cons, urlDecode_urlEncode]
    rfl

/-- **Round trip**: parsing a generated link gives back the info hash, the display name and the
trackers, and nothing else. -/
theorem parse_generate {infoHashRaw : Bytes} (h : infoHashRaw.length = 20) (displayName : Bytes)
    (trackers : List Bytes) :
    parseMagnetLink (generateMagnetLink infoHashRaw displayName trackers) =
      { infoHash := toHex infoHashRaw, infoHashRaw, displayName, trackers } := by
  have hscheme : substr (ascii "magnet:?" ++
      renderQuery (linkParameters infoHashRaw displayName trackers)) 0 8 = ascii "magnet:?" :=
    List.take_left' (by decide)
  have hquery : (ascii "magnet:?" ++ renderQuery (linkParameters infoHashRaw displayName
      trackers)).drop 8 = renderQuery (linkParameters infoHashRaw displayName trackers) :=
    List.drop_left' (by decide)
  rw [generateMagnetLink_eq, parseMagnetLink, if_neg (not_not.2 hscheme), hquery,
    parseLoop_renderQuery (separable_linkParameters infoHashRaw displayName trackers) rfl,
    processParameters_linkParameters h]

/-- A name with bytes that have to be escaped, and an empty tracker. -/
theorem parse_generate_escaped :
    parseMagnetLink (generateMagnetLink (List.replicate 20 255) (ascii "a&b=%+ ") [[], ascii "&"]) =
      { infoHash := toHex (List.replicate 20 255), infoHashRaw := List.replicate 20 255,
        displayName := ascii "a&b=%+ ", trackers := [[], ascii "&"] } :=
  parse_generate (by simp) _ _

end Magnet

end Gush
