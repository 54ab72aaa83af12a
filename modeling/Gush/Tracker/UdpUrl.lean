import Gush.Tracker.Udp

/-!
# The URL of a UDP tracker

`parseUdpUrl` looks for the host and the port by themselves, and `std::stoi` takes more for a number
than digits. `exactUrl_iff` says which URLs are read as they are meant.
-/

namespace Gush.Tracker

open Cxx

variable {url host portText path : Bytes}

/-- The path of a URL, with its slash. -/
def IsPath (path : Bytes) : Prop := path = [] ∨ ∃ text, path = '/'.toUInt8 :: text

/-- A well-formed URL: `udp://host:port`, with a path or without. -/
def IsUdpUrl (url host : Bytes) (port : ℕ) : Prop :=
  ∃ digits path, url = ascii "udp://" ++ (host ++ ':'.toUInt8 :: (digits ++ path)) ∧
    ':'.toUInt8 ∉ host ∧ '/'.toUInt8 ∉ host ∧ Digits digits ∧ Decimal.value digits = port ∧
    port < 2 ^ 16 ∧ IsPath path

/-- How a URL is cut: at the first colon, and at the next slash behind it. -/
structure UrlParts (url host portText path : Bytes) : Prop where
  url_eq : url = ascii "udp://" ++ (host ++ ':'.toUInt8 :: (portText ++ path))
  colon_not_mem : ':'.toUInt8 ∉ host
  slash_not_mem : '/'.toUInt8 ∉ portText
  isPath : IsPath path

/-! ### Cutting -/

/-- The text in front of a path. -/
theorem takeWhile_path (h : '/'.toUInt8 ∉ portText) (hpath : IsPath path) :
    (portText ++ path).takeWhile (· ≠ '/'.toUInt8) = portText := by
  apply Split.takeWhile_append
  · intro c hc
    exact decide_eq_true fun heq => h (heq ▸ hc)
  · intro c hc
    rcases hpath with rfl | ⟨text, rfl⟩
    · cases hc
    · cases hc
      exact decide_eq_false fun hne => hne rfl

theorem not_mem_of_digits {digits : Bytes} (h : Digits digits) : '/'.toUInt8 ∉ digits :=
  fun hmem => absurd (h.2 _ hmem) (by decide)

namespace UrlParts

variable (h : UrlParts url host portText path)

include h

theorem drop_eq : url.drop 6 = host ++ ':'.toUInt8 :: (portText ++ path) := by
  rw [h.url_eq]
  exact List.drop_left' (by decide)

/-- What the parser makes of the parts. -/
theorem parseUdpUrl_eq : parseUdpUrl url =
    (stoi portText).toOption.map fun n => (host, UInt16.ofInt n) := by
  have hscheme : substr url 0 6 = ascii "udp://" := by
    rw [h.url_eq]
    exact List.take_left' (by decide)
  have hcolon := find_of_drop h.drop_eq h.colon_not_mem
  have hhost := substr_of_drop h.drop_eq
  have hrest : url.drop (6 + host.length + 1) = portText ++ path := by
    rw [← List.drop_drop, drop_of_drop h.drop_eq, List.drop_one, List.tail_cons]
  rw [parseUdpUrl, if_neg (not_not.2 hscheme), hcolon]
  dsimp only
  rw [Nat.add_sub_cancel_left, hhost]
  rcases h.isPath with rfl | ⟨text, rfl⟩
  · rw [List.append_nil] at hrest
    rw [find_eq_none (hrest.symm ▸ h.slash_not_mem)]
    dsimp only
    rw [hrest]
    cases stoi portText <;> rfl
  · rw [find_of_drop hrest h.slash_not_mem]
    dsimp only
    have hcut : 6 + host.length + 1 + portText.length - (6 + host.length) - 1 = portText.length := by
      omega
    rw [hcut, substr_of_drop hrest]
    cases stoi portText <;> rfl

/-- Behind the same host there is the same text. -/
theorem portText_eq {portText' path' : Bytes} (h' : UrlParts url host portText' path') :
    portText = portText' := by
  have hcons : ':'.toUInt8 :: (portText ++ path) = ':'.toUInt8 :: (portText' ++ path') :=
    List.append_cancel_left (h.drop_eq.symm.trans h'.drop_eq)
  rw [← takeWhile_path h.slash_not_mem h.isPath, List.tail_eq_of_cons_eq hcons,
    takeWhile_path h'.slash_not_mem h'.isPath]

end UrlParts

/-- The parts of a well-formed URL. -/
theorem IsUdpUrl.exists_digits {port : ℕ} (h : IsUdpUrl url host port) :
    ∃ digits path, UrlParts url host digits path ∧ '/'.toUInt8 ∉ host ∧ Digits digits ∧
      Decimal.value digits = port ∧ port < 2 ^ 16 := by
  obtain ⟨digits, path, hurl, hcolon, hslash, hdigits, hvalue, hlt, hpath⟩ := h
  exact ⟨digits, path, ⟨hurl, hcolon, not_mem_of_digits hdigits, hpath⟩, hslash, hdigits, hvalue,
    hlt⟩

/-- A URL that is accepted has all parts. -/
theorem exists_parts (h : (parseUdpUrl url).isSome) :
    ∃ host portText path, UrlParts url host portText path := by
  rw [parseUdpUrl] at h
  by_cases hscheme : substr url 0 6 = ascii "udp://"
  · rw [if_neg (not_not.2 hscheme)] at h
    by_cases hcolon : ':'.toUInt8 ∈ url.drop 6
    · obtain ⟨host, rest, hdrop, hhost⟩ := List.eq_append_cons_of_mem hcolon
      have hurl : url = ascii "udp://" ++ (host ++ ':'.toUInt8 :: rest) := by
        rw [← hdrop, ← hscheme]
        exact (List.take_append_drop 6 url).symm
      by_cases hslash : '/'.toUInt8 ∈ rest
      · obtain ⟨portText, text, rfl, hportText⟩ := List.eq_append_cons_of_mem hslash
        exact ⟨host, portText, _, hurl, hhost, hportText, .inr ⟨text, rfl⟩⟩
      · exact ⟨host, rest, [], by rw [List.append_nil]; exact hurl, hhost, hslash, .inl rfl⟩
    · rw [find_eq_none hcolon] at h
      cases h
  · rw [if_pos hscheme] at h
    cases h

/-! ### Which URLs are read as they are meant -/

/-- A URL that is accepted though it is not well-formed: the text of the port starts with an `int`,
behind blanks and a sign perhaps, but the host has a slash in it, or the text is not only digits, or
the number is no port. -/
structure Loose (url host portText path sign digits : Bytes) : Prop where
  parts : UrlParts url host portText path
  number : NumberText portText sign digits
  low : sign = ascii "-" → Decimal.value digits ≤ 2 ^ 31
  high : sign ≠ ascii "-" → Decimal.value digits < 2 ^ 31
  loose : '/'.toUInt8 ∈ host ∨ portText ≠ digits ∨ 2 ^ 16 ≤ Decimal.value digits

/-- The URL is accepted exactly if it is well-formed, with its host and its port. -/
def ExactUrl (url : Bytes) : Prop :=
  ∀ host (port : UInt16), parseUdpUrl url = some (host, port) ↔ IsUdpUrl url host port.toNat

/-- A well-formed URL is read as it is meant. -/
theorem IsUdpUrl.parseUdpUrl_eq {port : UInt16} (h : IsUdpUrl url host port.toNat) :
    parseUdpUrl url = some (host, port) := by
  obtain ⟨digits, path, hparts, -, hdigits, hvalue, hlt⟩ := h.exists_digits
  have hof : UInt16.ofInt (Decimal.value digits) = port := by
    have hnat := toNat_ofInt (Decimal.value digits)
    rw [← UInt16.toNat_inj]
    omega
  rw [hparts.parseUdpUrl_eq, stoi_digits hdigits (by omega), ← hof]
  rfl

/-- Where the URL is accepted loosely, there is a port. -/
theorem Loose.exists_port {sign digits : Bytes} (h : Loose url host portText path sign digits) :
    ∃ port, parseUdpUrl url = some (host, port) := by
  have hok : stoi portText =
      .ok (if sign = ascii "-" then -(Decimal.value digits : ℤ) else Decimal.value digits) := by
    refine stoi_eq_ok_iff.2 ⟨sign, digits, h.number, rfl, ?_⟩
    split_ifs with hsign
    · have hlow := h.low hsign
      omega
    · have hhigh := h.high hsign
      omega
  rw [h.parts.parseUdpUrl_eq, hok]
  exact ⟨_, rfl⟩

/-- No such URL is well-formed. -/
theorem Loose.not_isUdpUrl {sign digits : Bytes} {port : ℕ}
    (h : Loose url host portText path sign digits) : ¬ IsUdpUrl url host port := by
  intro hurl
  obtain ⟨digits', path', hparts, hslash, hdigits, hvalue, hlt⟩ := hurl.exists_digits
  have htext : portText = digits' := h.parts.portText_eq hparts
  obtain ⟨-, heq⟩ := h.number.eq_of_digits (htext ▸ hdigits.2)
  rcases h.loose with hmem | hne | hle
  · exact hslash hmem
  · exact hne heq.symm
  · rw [heq, htext] at hle
    omega

/-- What is accepted otherwise is well-formed. -/
theorem isUdpUrl_of_not_loose {port : UInt16} (h : parseUdpUrl url = some (host, port))
    (hloose : ∀ portText path sign digits, ¬ Loose url host portText path sign digits) :
    IsUdpUrl url host port.toNat := by
  obtain ⟨host', portText, path, hparts⟩ := exists_parts (Option.isSome_iff_exists.2 ⟨_, h⟩)
  rw [hparts.parseUdpUrl_eq] at h
  cases hn : stoi portText with
  | error e =>
    rw [hn] at h
    cases h
  | ok n =>
    rw [hn] at h
    cases h
    obtain ⟨sign, digits, hnumber, hv, hlow, hhigh⟩ := stoi_eq_ok_iff.1 hn
    have hexact : ¬ ('/'.toUInt8 ∈ host ∨ portText ≠ digits ∨ 2 ^ 16 ≤ Decimal.value digits) := by
      refine fun hor => hloose portText path sign digits ⟨hparts, hnumber, ?_, ?_, hor⟩
      · intro hsign
        rw [if_pos hsign] at hv
        omega
      · intro hsign
        rw [if_neg hsign] at hv
        omega
    simp only [not_or, not_not, not_le] at hexact
    obtain ⟨hslash, rfl, hlt⟩ := hexact
    obtain ⟨rfl, -⟩ := hnumber.eq_of_digits hnumber.isDigits.2
    rw [if_neg (by decide)] at hv
    have hport := toNat_ofInt n
    exact ⟨portText, path, hparts.url_eq, hparts.colon_not_mem, hslash, hnumber.isDigits, by omega,
      UInt16.toNat_lt _, hparts.isPath⟩

/-- A URL is read as it is meant unless it is one of the loose ones. -/
theorem exactUrl_iff (url : Bytes) : ExactUrl url ↔
    ¬ ∃ host portText path sign digits, Loose url host portText path sign digits := by
  constructor
  · rintro hexact ⟨host, portText, path, sign, digits, hloose⟩
    obtain ⟨port, hport⟩ := hloose.exists_port
    exact hloose.not_isUdpUrl ((hexact host port).1 hport)
  · intro hloose host port
    refine ⟨fun h => isUdpUrl_of_not_loose h ?_, IsUdpUrl.parseUdpUrl_eq⟩
    exact fun portText path sign digits h => hloose ⟨host, portText, path, sign, digits, h⟩

/-- The port 65616 of this URL is read as the port 80. -/
theorem not_forall_exactUrl : ¬ ∀ url, ExactUrl url := by
  intro h
  have hparse : parseUdpUrl (ascii "udp://a:65616") = some (ascii "a", 80) := by decide
  obtain ⟨digits, path, hparts, -, -, hvalue, -⟩ := ((h _ _ _).1 hparse).exists_digits
  have hcut : UrlParts (ascii "udp://a:65616") (ascii "a") (ascii "65616") [] :=
    ⟨by decide, by decide, by decide, .inl rfl⟩
  rw [← hcut.portText_eq hparts] at hvalue
  exact absurd hvalue (by decide)

end Gush.Tracker
