import Gush.Cxx

/-!
# The command line

`parseArgs` of the program. `parseArgs_eq_ok_iff` says which argument lists it accepts, and what it
makes of them: options may stand in any order and between the positional arguments, the last of a kind
counts, and a second positional argument comes before `-o`.
-/

namespace Gush.Program

open Cxx

/-- `CliOptions`. -/
structure CliOptions where
  input : Bytes := []
  savePath : Bytes := ascii "."
  maxPeers : ℤ := 30
  refreshTrackers : Bool := true
  verbose : Bool := false
  overwrite : Bool := false
  deriving DecidableEq

/-- What `parseArgs` ends with. It exits by itself to print the help; without positional arguments it
prints the usage and no message. -/
inductive Parsed
  | help
  | failed (message : Bytes)
  | ok (opts : CliOptions)
  deriving DecidableEq

/-- The end of `parseArgs`. -/
def finish (positional : List Bytes) (opts : CliOptions) : Parsed :=
  match positional with
  | [] => .failed []
  | [input] => .ok { opts with input }
  | [input, savePath] => .ok { opts with input, savePath }
  | _ => .failed (ascii "Error: too many arguments")

/-- The loop of `parseArgs`. -/
def parseLoop : List Bytes → List Bytes → CliOptions → Parsed
  | [], positional, opts => finish positional opts
  | arg :: rest, positional, opts =>
    if arg = ascii "-h" ∨ arg = ascii "--help" then .help
    else if arg = ascii "-o" ∨ arg = ascii "--download-dir" then
      match rest with
      | [] => .failed (ascii "Error: " ++ arg ++ ascii " requires a directory argument")
      | savePath :: rest => parseLoop rest positional { opts with savePath }
    else if arg = ascii "--max-peers" then
      match rest with
      | [] => .failed (ascii "Error: --max-peers requires a number")
      | value :: rest =>
        match stoi value with
        | .error _ => .failed (ascii "Error: invalid --max-peers value: " ++ value)
        | .ok maxPeers =>
          if maxPeers < 1 ∨ maxPeers > 500 then
            .failed (ascii "Error: --max-peers must be between 1 and 500")
          else parseLoop rest positional { opts with maxPeers }
    else if arg = ascii "--no-tracker-refresh" then
      parseLoop rest positional { opts with refreshTrackers := false }
    else if arg = ascii "--overwrite" then parseLoop rest positional { opts with overwrite := true }
    else if arg = ascii "-v" ∨ arg = ascii "--verbose" then
      parseLoop rest positional { opts with verbose := true }
    else if arg.head? = some '-'.toUInt8 then .failed (ascii "Error: unknown option: " ++ arg)
    else parseLoop rest (positional ++ [arg]) opts

/-- `parseArgs`, without the name of the program. -/
def parseArgs (args : List Bytes) : Parsed := parseLoop args [] {}

/-! ### Well-formed command lines -/

/-- What can stand on a command line. -/
inductive Item
  | directory (long : Bool) (path : Bytes)
  | maxPeers (value : Bytes) (n : ℤ)
  | noTrackerRefresh
  | overwrite
  | verbose (long : Bool)
  | positional (arg : Bytes)

namespace Item

/-- The arguments that an item consists of. -/
def args : Item → List Bytes
  | directory long path => [if long then ascii "--download-dir" else ascii "-o", path]
  | maxPeers value _ => [ascii "--max-peers", value]
  | noTrackerRefresh => [ascii "--no-tracker-refresh"]
  | overwrite => [ascii "--overwrite"]
  | verbose long => [if long then ascii "--verbose" else ascii "-v"]
  | positional arg => [arg]

/-- The number is one, and in its range; a positional argument does not look like an option. -/
def Proper : Item → Prop
  | maxPeers value n => stoi value = .ok n ∧ 1 ≤ n ∧ n ≤ 500
  | positional arg => arg.head? ≠ some '-'.toUInt8
  | _ => True

/-- What an item sets. -/
def apply (opts : CliOptions) : Item → CliOptions
  | directory _ path => { opts with savePath := path }
  | maxPeers _ n => { opts with maxPeers := n }
  | noTrackerRefresh => { opts with refreshTrackers := false }
  | overwrite => { opts with overwrite := true }
  | verbose _ => { opts with verbose := true }
  | positional _ => opts

def positional? : Item → Option Bytes
  | positional arg => some arg
  | _ => none

end Item

section Parse

variable {rest positional : List Bytes} {opts : CliOptions}

/-- The loop reads an item. -/
theorem parseLoop_item {item : Item} (h : item.Proper) : parseLoop (item.args ++ rest) positional opts =
    parseLoop rest (positional ++ item.positional?.toList) (item.apply opts) := by
  cases item with
  | directory long path =>
    rw [Item.args, List.cons_append, parseLoop.eq_def]
    dsimp only
    cases long <;> rw [if_neg (by decide), if_pos (by decide)] <;> simp [Item.positional?, Item.apply]
  | maxPeers value n =>
    obtain ⟨hvalue, hlow, hhigh⟩ := h
    rw [Item.args, List.cons_append, parseLoop.eq_def]
    dsimp only
    rw [if_neg (by decide), if_neg (by decide), if_pos (by decide)]
    simp only [List.cons_append, List.nil_append, hvalue]
    rw [if_neg (by omega)]
    simp [Item.positional?, Item.apply]
  | noTrackerRefresh =>
    rw [Item.args, List.cons_append, parseLoop.eq_def]
    dsimp only
    rw [if_neg (by decide), if_neg (by decide), if_neg (by decide), if_pos (by decide)]
    simp [Item.positional?, Item.apply]
  | overwrite =>
    rw [Item.args, List.cons_append, parseLoop.eq_def]
    dsimp only
    rw [if_neg (by decide), if_neg (by decide), if_neg (by decide), if_neg (by decide),
      if_pos (by decide)]
    simp [Item.positional?, Item.apply]
  | verbose long =>
    rw [Item.args, List.cons_append, parseLoop.eq_def]
    dsimp only
    cases long <;> rw [if_neg (by decide), if_neg (by decide), if_neg (by decide), if_neg (by decide),
      if_neg (by decide), if_pos (by decide)] <;> simp [Item.positional?, Item.apply]
  | positional arg =>
    have hne : ∀ s : Bytes, s.head? = some '-'.toUInt8 → arg ≠ s := fun s hs heq => h (heq ▸ hs)
    rw [Item.args, List.cons_append, parseLoop.eq_def]
    dsimp only
    rw [if_neg (not_or.2 ⟨hne _ (by decide), hne _ (by decide)⟩),
      if_neg (not_or.2 ⟨hne _ (by decide), hne _ (by decide)⟩), if_neg (hne _ (by decide)),
      if_neg (hne _ (by decide)), if_neg (hne _ (by decide)),
      if_neg (not_or.2 ⟨hne _ (by decide), hne _ (by decide)⟩), if_neg h]
    simp [Item.positional?, Item.apply]

/-- The loop reads a row of items. -/
theorem parseLoop_items {items : List Item} (h : ∀ item ∈ items, item.Proper) :
    parseLoop (items.flatMap Item.args) positional opts =
      finish (positional ++ items.filterMap Item.positional?) (items.foldl Item.apply opts) := by
  induction items generalizing positional opts with
  | nil => simp [parseLoop]
  | cons item items ih =>
    rw [List.flatMap_cons, parseLoop_item (h item List.mem_cons_self),
      ih fun item' hmem => h item' (List.mem_cons_of_mem item hmem), List.append_assoc,
      List.foldl_cons, List.filterMap_cons]
    cases item.positional? <;> rfl

/-- What is accepted is a row of items. -/
theorem exists_items {args : List Bytes} {out : CliOptions}
    (h : parseLoop args positional opts = .ok out) :
    ∃ items : List Item, (∀ item ∈ items, item.Proper) ∧ args = items.flatMap Item.args := by
  have hcons : ∀ (item : Item) {rest : List Bytes}, item.Proper →
      (∃ items : List Item, (∀ item ∈ items, item.Proper) ∧ rest = items.flatMap Item.args) →
        ∃ items : List Item, (∀ item ∈ items, item.Proper) ∧
          item.args ++ rest = items.flatMap Item.args := by
    rintro item rest hitem ⟨items, hitems, rfl⟩
    exact ⟨item :: items, List.forall_mem_cons.2 ⟨hitem, hitems⟩, List.flatMap_cons.symm⟩
  fun_induction parseLoop args positional opts with
  | case1 => exact ⟨[], nofun, rfl⟩
  | case2 => cases h
  | case3 => cases h
  | case4 arg positional opts _ hdirectory path rest ih =>
    rcases hdirectory with rfl | rfl
    · exact hcons (.directory false path) trivial (ih h)
    · exact hcons (.directory true path) trivial (ih h)
  | case5 => cases h
  | case6 => cases h
  | case7 => cases h
  | case8 positional opts value rest n hvalue hrange _ _ ih =>
    have hrange := not_or.1 hrange
    exact hcons (.maxPeers value n) ⟨hvalue, by omega, by omega⟩ (ih h)
  | case9 rest positional opts _ _ _ ih => exact hcons .noTrackerRefresh trivial (ih h)
  | case10 rest positional opts _ _ _ _ ih => exact hcons .overwrite trivial (ih h)
  | case11 arg rest positional opts _ _ _ _ _ hverbose ih =>
    rcases hverbose with rfl | rfl
    · exact hcons (.verbose false) trivial (ih h)
    · exact hcons (.verbose true) trivial (ih h)
  | case12 => cases h
  | case13 arg rest positional opts _ _ _ _ _ _ hdash ih =>
    exact hcons (.positional arg) hdash (ih h)

end Parse

/-- **Accepted command lines**: rows of items with one or two positional arguments. Each item is
obeyed, a later one over an earlier one, and a second positional argument over all. -/
theorem parseArgs_eq_ok_iff (args : List Bytes) (opts : CliOptions) : parseArgs args = .ok opts ↔
    ∃ items : List Item, (∀ item ∈ items, item.Proper) ∧ args = items.flatMap Item.args ∧
      finish (items.filterMap Item.positional?) (items.foldl Item.apply {}) = .ok opts := by
  constructor
  · intro h
    obtain ⟨items, hproper, rfl⟩ := exists_items h
    rw [parseArgs, parseLoop_items hproper, List.nil_append] at h
    exact ⟨items, hproper, rfl, h⟩
  · rintro ⟨items, hproper, rfl, h⟩
    rw [parseArgs, parseLoop_items hproper, List.nil_append]
    exact h

end Gush.Program
