import Gush.Tracker.Udp

/-!
# Text encodings of bytes

`toHex` and `urlEncode` write through an output stream whose formatting flags stay set, except for
the width, which holds for one field. `toHex_eq` and `urlEncode_eq` say what they write byte by byte.
`readHex` is the other direction, the extraction of a hexadecimal number from a stream.
-/

namespace Gush

open Cxx

namespace Cxx

/-- The text of an `std::ostringstream`, with the formatting state that the client sets. -/
structure OStream where
  text : Bytes := []
  hex : Bool := false
  uppercase : Bool := false
  fill : UInt8 := ' '.toUInt8
  width : ℕ := 0

/-- Writes a field, padded on the left; the width is used up. -/
def OStream.put (oss : OStream) (field : Bytes) : OStream :=
  { oss with
    text := oss.text ++ List.replicate (oss.width - field.length) oss.fill ++ field
    width := 0 }

def hexDigit (uppercase : Bool) (d : ℕ) : UInt8 :=
  UInt8.ofNat (if d < 10 then 48 + d else if uppercase then 55 + d else 87 + d)

/-- A number in base sixteen, without leading zeros. -/
def hexNumeral (uppercase : Bool) (n : ℕ) : Bytes :=
  if n < 16 then [hexDigit uppercase n]
  else hexNumeral uppercase (n / 16) ++ [hexDigit uppercase (n % 16)]

/-- `oss << static_cast<int>(c)` for a number that is not negative. -/
def OStream.putInt (oss : OStream) (n : ℕ) : OStream :=
  oss.put (if oss.hex then hexNumeral oss.uppercase n else Decimal.numeral n)

/-- `isalnum` in the C locale. -/
def isalnum (c : UInt8) : Bool :=
  isdigit c || (65 ≤ c.toNat && c.toNat ≤ 90) || (97 ≤ c.toNat && c.toNat ≤ 122)

/-- `isxdigit`. -/
def isxdigit (c : UInt8) : Bool := (Utils.hexValue c).isSome

/-- `iss >> std::hex >> value`, for a text too short to overflow; `none` if the extraction fails. -/
def readHex (s : Bytes) : Option ℤ :=
  let s := s.dropWhile isspace
  let signed : Bool × Bytes :=
    match s with
    | [] => (false, [])
    | c :: t => if c = '-'.toUInt8 then (true, t) else if c = '+'.toUInt8 then (false, t)
        else (false, c :: t)
  let s := signed.2
  let s := if s.take 2 = ascii "0x" ∨ s.take 2 = ascii "0X" then s.drop 2 else s
  let ds := s.takeWhile isxdigit
  let value := ds.foldl (fun n c => 16 * n + (Utils.hexValue c).getD 0) 0
  if ds = [] then none else some (if signed.1 then -value else value)

end Cxx

namespace Utils

/-- A round of the loop of `toHex`. -/
def toHexRound (oss : OStream) (c : UInt8) : OStream :=
  { oss with hex := true, fill := '0'.toUInt8, width := 2 : OStream }.putInt c.toNat

def toHex (data : Bytes) : Bytes := (data.foldl toHexRound {}).text

/-- The bytes that `urlEncode` copies. -/
def unreserved (c : UInt8) : Bool :=
  isalnum c || c == '-'.toUInt8 || c == '_'.toUInt8 || c == '.'.toUInt8 || c == '~'.toUInt8

/-- A round of the loop of `urlEncode`. -/
def urlEncodeRound (oss : OStream) (c : UInt8) : OStream :=
  if unreserved c then oss.put [c]
  else
    { oss.put ['%'.toUInt8] with
      uppercase := true, hex := true, fill := '0'.toUInt8, width := 2 : OStream }.putInt c.toNat

def urlEncode (str : Bytes) : Bytes := (str.foldl urlEncodeRound {}).text

/-! ### What is written -/

/-- The two digits of a byte. -/
def hexByte (uppercase : Bool) (c : UInt8) : Bytes :=
  [hexDigit uppercase (c.toNat / 16), hexDigit uppercase (c.toNat % 16)]

/-- A byte of a URL. -/
def escape (c : UInt8) : Bytes := if unreserved c then [c] else '%'.toUInt8 :: hexByte true c

/-- The padding makes two digits of every byte. -/
theorem text_putInt {oss : OStream} (hhex : oss.hex = true) (hfill : oss.fill = '0'.toUInt8)
    (hwidth : oss.width = 2) (c : UInt8) :
    (oss.putInt c.toNat).text = oss.text ++ hexByte oss.uppercase c := by
  have hlt : c.toNat / 16 < 16 := by
    have hc := c.toNat_lt
    omega
  rw [OStream.putInt, OStream.put, hhex, if_pos rfl, hfill, hwidth, hexNumeral]
  split_ifs with hone
  · have hhigh : c.toNat / 16 = 0 := by omega
    have hlow : c.toNat % 16 = c.toNat := by omega
    have hzero : hexDigit oss.uppercase 0 = '0'.toUInt8 := by simp [hexDigit]; decide
    simp [hexByte, hhigh, hlow, hzero]
  · rw [hexNumeral, if_pos hlt]
    simp [hexByte]

/-- A loop whose rounds keep a property of the stream and write one word each. -/
theorem text_foldl {round : OStream → UInt8 → OStream} {write : UInt8 → Bytes}
    {P : OStream → Prop}
    (h : ∀ oss c, P oss → (round oss c).text = oss.text ++ write c ∧ P (round oss c))
    (data : Bytes) : ∀ oss, P oss → (data.foldl round oss).text = oss.text ++ data.flatMap write := by
  induction data with
  | nil => simp
  | cons c data ih =>
    intro oss hoss
    obtain ⟨htext, hround⟩ := h oss c hoss
    rw [List.foldl_cons, ih _ hround, htext, List.flatMap_cons, List.append_assoc]

theorem toHexRound_eq {oss : OStream} (hupper : oss.uppercase = false) (c : UInt8) :
    (toHexRound oss c).text = oss.text ++ hexByte false c ∧ (toHexRound oss c).uppercase = false := by
  refine ⟨?_, hupper⟩
  rw [toHexRound, text_putInt rfl rfl rfl, hupper]

theorem toHex_eq (data : Bytes) : toHex data = data.flatMap (hexByte false) := by
  simpa [toHex] using text_foldl (fun _ c hupper => toHexRound_eq hupper c) data {} rfl

/-- A round writes one byte, and leaves no width behind. -/
theorem urlEncodeRound_eq {oss : OStream} (hwidth : oss.width = 0) (c : UInt8) :
    (urlEncodeRound oss c).text = oss.text ++ escape c ∧ (urlEncodeRound oss c).width = 0 := by
  rw [urlEncodeRound, escape]
  split_ifs with hc
  · simp [OStream.put, hwidth]
  · refine ⟨?_, rfl⟩
    rw [text_putInt rfl rfl rfl]
    simp [OStream.put, hwidth]

theorem urlEncode_eq (str : Bytes) : urlEncode str = str.flatMap escape := by
  simpa [urlEncode] using text_foldl (fun _ c hwidth => urlEncodeRound_eq hwidth c) str {} rfl

/-! ### Reading back -/

theorem hexValue_hexDigit : ∀ (uppercase : Bool), ∀ d < 16,
    hexValue (hexDigit uppercase d) = some d := by decide

theorem isxdigit_of_mem_hexByte {uppercase : Bool} {c d : UInt8} (h : d ∈ hexByte uppercase c) :
    isxdigit d = true := by
  have hc := c.toNat_lt
  have hdigit : ∀ n < 16, isxdigit (hexDigit uppercase n) = true := by
    intro n hn
    rw [isxdigit, hexValue_hexDigit uppercase n hn]
    rfl
  simp only [hexByte, List.mem_cons, List.not_mem_nil, or_false] at h
  rcases h with rfl | rfl
  · exact hdigit _ (by omega)
  · exact hdigit _ (by omega)

/-- The two digits of a byte, read as a number. -/
theorem hexByte_value (c : UInt8) : UInt8.ofNat (16 * (c.toNat / 16) + c.toNat % 16) = c := by
  rw [Nat.div_add_mod]
  simp

theorem readHex_hexDigit : ∀ high < 16, ∀ low < 16,
    readHex [hexDigit true high, hexDigit true low] = some ((16 * high + low : ℕ) : ℤ) := by
  decide +kernel

theorem fromHexLoop_hexByte (uppercase : Bool) (c : UInt8) (rest : Bytes) :
    fromHexLoop (hexByte uppercase c ++ rest) = (fromHexLoop rest).map (c :: ·) := by
  have hc := c.toNat_lt
  simp only [hexByte, List.cons_append, List.nil_append, fromHexLoop,
    hexValue_hexDigit uppercase (c.toNat / 16) (by omega),
    hexValue_hexDigit uppercase (c.toNat % 16) (by omega), hexByte_value]

theorem length_toHex (data : Bytes) : (toHex data).length = 2 * data.length := by
  rw [toHex_eq, List.length_flatMap]
  simp [hexByte, Nat.mul_comm]

/-- `fromHex` undoes `toHex`. -/
@[simp] theorem fromHex_toHex (data : Bytes) : fromHex (toHex data) = data := by
  have hloop : ∀ data : Bytes, fromHexLoop (data.flatMap (hexByte false)) = some data := by
    intro data
    induction data with
    | nil => rfl
    | cons c data ih => rw [List.flatMap_cons, fromHexLoop_hexByte, ih, Option.map_some]
  rw [fromHex, length_toHex]
  cases data with
  | nil => rfl
  | cons c data =>
    rw [if_neg (by simp; omega), toHex_eq, hloop, Option.getD_some]

end Utils

end Gush
