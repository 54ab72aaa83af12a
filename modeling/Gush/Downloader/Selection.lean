import Gush.Downloader.Tiling
import Gush.Lib.FirstBest

/-!
# Which piece is selected

The rule that `selectNextPiece` documents: among the pieces with some progress one with the highest
completion, rarity only breaking ties; otherwise one of the rarest pieces that somebody has. The
function packs the rule for pieces with progress into one score, whose terms are truncated and can
outweigh each other, and its search for the rarest piece does not leave out those that nobody has.
`selectsByRule_iff` says in which states it follows the rule all the same.
-/

namespace Gush.Downloader

open Cxx FirstBest

variable (d : Downloader)

/-! ### The rule -/

def incompletePieces : List ℕ :=
  (List.range d.torrent.numPieces).filter fun i => !d.pieceCompleted i

/-- The incomplete pieces with some received block. -/
def partialPieces : List ℕ :=
  d.incompletePieces.filter fun i => decide ((d.pieceState i).receivedBlocks ≠ 0)

/-- The number of connected peers that have a piece. -/
def holders (i : ℕ) : ℕ := d.peers.countP fun peer => peer.connected && peer.hasPiece i

def completionRatio (i : ℕ) : ℚ :=
  ((d.pieceState i).receivedBlocks : ℚ) / (d.pieceState i).totalBlocks

/-- A partially received piece of the highest completion, and of those a rarest one. -/
structure MostComplete (i : ℕ) : Prop where
  mem : i ∈ d.partialPieces
  completion : ∀ j ∈ d.partialPieces, d.completionRatio j ≤ d.completionRatio i
  rarity : ∀ j ∈ d.partialPieces, d.completionRatio j = d.completionRatio i →
    d.holders i ≤ d.holders j

/-- A rarest one of the incomplete pieces that somebody has. -/
structure Rarest (i : ℕ) : Prop where
  mem : i ∈ d.incompletePieces
  held : 0 < d.holders i
  fewest : ∀ j ∈ d.incompletePieces, 0 < d.holders j → d.holders i ≤ d.holders j

/-- The rule. -/
structure SelectsByRule : Prop where
  completion : d.partialPieces ≠ [] → d.MostComplete d.selectNextPiece
  rarest : d.partialPieces = [] → (∃ i ∈ d.incompletePieces, 0 < d.holders i) →
    d.Rarest d.selectNextPiece

/-- `g` has less holders than `j`, or it is the first of two pieces with the same number. -/
def FewerHolders (g j : ℕ) : Prop := d.holders g < d.holders j ∨ d.holders j = d.holders g ∧ g < j

/-- The states in which the numbers lead to the rule. With pieces in progress, one that is most
complete has the highest score; or all scores have overflowed, and it is the rarest piece of all.
Without, every incomplete piece has a holder, and not all of them too many to be counted. -/
structure RuleDecides : Prop where
  completion : d.partialPieces ≠ [] →
    (∃ g, d.MostComplete g ∧ 0 ≤ d.pieceScore g ∧
      ∀ j ∈ d.partialPieces, ¬ d.MostComplete j → Ahead d.pieceScore g j) ∨
    ((∀ j ∈ d.partialPieces, d.pieceScore j < 0) ∧
      ∃ g, d.MostComplete g ∧ d.holders g < 2 ^ 31 - 1 ∧
        ∀ j ∈ d.incompletePieces, ¬ d.MostComplete j → d.FewerHolders g j)
  rarest : d.partialPieces = [] → (∃ i ∈ d.incompletePieces, 0 < d.holders i) →
    (∀ i ∈ d.incompletePieces, 0 < d.holders i) ∧
      ∃ i ∈ d.incompletePieces, d.holders i < 2 ^ 31 - 1

/-! ### The two loops -/

variable {d}

theorem mem_incompletePieces {i : ℕ} :
    i ∈ d.incompletePieces ↔ i < d.torrent.numPieces ∧ d.pieceCompleted i = false := by
  simp [incompletePieces]

theorem mem_partialPieces {i : ℕ} :
    i ∈ d.partialPieces ↔ i ∈ d.incompletePieces ∧ (d.pieceState i).receivedBlocks ≠ 0 := by
  simp [partialPieces]

theorem incompletePieces_ascending : d.incompletePieces.Pairwise (· < ·) :=
  List.pairwise_lt_range.sublist List.filter_sublist

theorem partialPieces_ascending : d.partialPieces.Pairwise (· < ·) :=
  incompletePieces_ascending.sublist List.filter_sublist

/-- The pieces that the first loop can choose. -/
def scoredPieces (d : Downloader) : List ℕ :=
  d.partialPieces.filter fun i => decide (0 ≤ d.pieceScore i)

/-- The pieces that the second loop can choose. -/
def countedPieces (d : Downloader) : List ℕ :=
  d.incompletePieces.filter fun i => decide (d.peerCount i < 2 ^ 31 - 1)

theorem mem_scoredPieces {i : ℕ} :
    i ∈ d.scoredPieces ↔ i ∈ d.partialPieces ∧ 0 ≤ d.pieceScore i := by
  simp [scoredPieces]

theorem mem_countedPieces {i : ℕ} :
    i ∈ d.countedPieces ↔ i ∈ d.incompletePieces ∧ d.peerCount i < 2 ^ 31 - 1 := by
  simp [countedPieces]

theorem foldl_scoreRound : (List.range d.torrent.numPieces).foldl d.scoreRound (noPiece, -1) =
    remembered (noPiece, -1) (fun i : ℕ => uint32 i) d.pieceScore
      (d.scoredPieces.argmax d.pieceScore) := by
  have hround : ∀ best i, d.scoreRound best i =
      if (!d.pieceCompleted i && decide ((d.pieceState i).receivedBlocks ≠ 0)) = true ∧
        best.2 < d.pieceScore i then (uint32 i, d.pieceScore i) else best := by
    intro best i
    unfold scoreRound
    split_ifs <;> simp_all
  rw [foldl_eq_argmax hround, scoredPieces, partialPieces, incompletePieces, List.filter_filter,
    List.filter_filter]
  congr 2
  apply List.filter_congr
  intro i _
  rw [Bool.eq_iff_iff]
  simp only [Bool.and_eq_true, decide_eq_true_eq, Int.lt_iff_add_one_le]
  tauto

/-- The second loop looks for the greatest negated count. -/
theorem foldl_rarestRound :
    ((List.range d.torrent.numPieces).foldl d.rarestRound (noPiece, 2 ^ 31 - 1)).1 =
      (remembered (noPiece, -(2 ^ 31 - 1)) (fun i : ℕ => uint32 i) (fun i => -d.peerCount i)
        (d.countedPieces.argmax fun i => -d.peerCount i)).1 := by
  set negated : ℕ × ℤ → ℕ → ℕ × ℤ := fun best i =>
    if (!d.pieceCompleted i) = true ∧ best.2 < -d.peerCount i then (uint32 i, -d.peerCount i)
    else best with hnegated
  have hround : ∀ best i, negated (Prod.map id Neg.neg best) i =
      Prod.map id Neg.neg (d.rarestRound best i) := by
    rintro ⟨piece, count⟩ i
    simp only [hnegated, rarestRound, Prod.map_apply, id_eq, neg_lt_neg_iff]
    split_ifs <;> simp_all
  have hfold : (List.range d.torrent.numPieces).foldl negated
      (Prod.map id Neg.neg (noPiece, 2 ^ 31 - 1)) = Prod.map id Neg.neg
        ((List.range d.torrent.numPieces).foldl d.rarestRound (noPiece, 2 ^ 31 - 1)) :=
    List.foldl_hom (Prod.map id Neg.neg) hround
  have hfirst := congrArg Prod.fst hfold
  rw [Prod.map_fst, id_eq] at hfirst
  rw [← hfirst, Prod.map_apply, foldl_eq_argmax fun best i => rfl, countedPieces, incompletePieces,
    List.filter_filter]
  congr 4
  funext i
  rw [Bool.eq_iff_iff]
  simp only [Bool.and_eq_true, decide_eq_true_eq, neg_lt_neg_iff]
  tauto

/-! ### What is selected -/

section Fitting

variable (hn : d.torrent.numPieces < 2 ^ 32)

include hn

theorem uint32_incomplete {i : ℕ} (hi : i ∈ d.incompletePieces) :
    uint32 (i : ℤ) = i ∧ i ≠ noPiece := by
  have hlt := (mem_incompletePieces.1 hi).1
  refine ⟨uint32_of_lt (hlt.trans hn), ?_⟩
  unfold noPiece
  omega

theorem peerCount_incomplete {i : ℕ} (hi : i ∈ d.incompletePieces) : d.peerCount i = d.holders i := by
  rw [peerCount, (mem_incompletePieces.1 hi).2, (uint32_incomplete hn hi).1]
  rfl

theorem selectNextPiece_of_scored {i : ℕ} (h : d.scoredPieces.argmax d.pieceScore = some i) :
    d.selectNextPiece = i := by
  have hi := (mem_partialPieces.1 (mem_scoredPieces.1 (List.argmax_mem h)).1).1
  obtain ⟨hindex, hne⟩ := uint32_incomplete hn hi
  rw [selectNextPiece, foldl_scoreRound, h]
  simp only [remembered, hindex]
  rw [if_neg hne]

theorem selectNextPiece_of_counted (hscored : d.scoredPieces = []) {i : ℕ}
    (h : (d.countedPieces.argmax fun i => -d.peerCount i) = some i) : d.selectNextPiece = i := by
  have hi := (mem_countedPieces.1 (List.argmax_mem h)).1
  rw [selectNextPiece, foldl_scoreRound, hscored, foldl_rarestRound, h]
  simp only [List.argmax_nil, remembered, if_true]
  exact (uint32_incomplete hn hi).1

theorem selectNextPiece_of_none (hscored : d.scoredPieces = []) (hcounted : d.countedPieces = []) :
    d.selectNextPiece ∉ d.incompletePieces := by
  rw [selectNextPiece, foldl_scoreRound, hscored, foldl_rarestRound, hcounted]
  simp only [List.argmax_nil, remembered, if_true]
  exact fun hmem => (uint32_incomplete hn hmem).2 rfl

/-- When a piece has a score, the selected one has a property if a piece with it has the best. -/
theorem selected_scored_iff (hscored : d.scoredPieces ≠ []) (P : ℕ → Prop) :
    P d.selectNextPiece ↔ ∃ g ∈ d.partialPieces, P g ∧ 0 ≤ d.pieceScore g ∧
      ∀ j ∈ d.partialPieces, ¬ P j → Ahead d.pieceScore g j := by
  have hascending : d.scoredPieces.Pairwise (· < ·) :=
    partialPieces_ascending.sublist List.filter_sublist
  have hpick : (∃ m, d.scoredPieces.argmax d.pieceScore = some m ∧ P m) ↔
      ∃ g ∈ d.scoredPieces, P g ∧ ∀ j ∈ d.scoredPieces, ¬ P j → Ahead d.pieceScore g j :=
    exists_mem_argmax_iff hascending P
  cases hbest : d.scoredPieces.argmax d.pieceScore with
  | none => exact absurd (List.argmax_eq_none.1 hbest) hscored
  | some m =>
    rw [selectNextPiece_of_scored hn hbest]
    simp only [hbest, Option.some.injEq, exists_eq_left'] at hpick
    rw [hpick]
    constructor
    · rintro ⟨g, hg, hP, hahead⟩
      obtain ⟨hmem, hscore⟩ := mem_scoredPieces.1 hg
      refine ⟨g, hmem, hP, hscore, fun j hj hnot => ?_⟩
      by_cases hj0 : 0 ≤ d.pieceScore j
      · exact hahead j (mem_scoredPieces.2 ⟨hj, hj0⟩) hnot
      · exact .inl (by omega)
    · rintro ⟨g, hg, hP, hscore, hahead⟩
      exact ⟨g, mem_scoredPieces.2 ⟨hg, hscore⟩, hP,
        fun j hj hnot => hahead j (mem_scoredPieces.1 hj).1 hnot⟩

theorem ahead_counts_iff {g j : ℕ} (hg : g ∈ d.incompletePieces) (hj : j ∈ d.incompletePieces) :
    Ahead (fun i => -d.peerCount i) g j ↔ d.FewerHolders g j := by
  simp only [Ahead, FewerHolders, peerCount_incomplete hn hg, peerCount_incomplete hn hj,
    neg_lt_neg_iff, neg_inj, Nat.cast_lt, Nat.cast_inj]

/-- When no piece has a score, the selected one has a property if a rarest piece has it. -/
theorem selected_counted_iff (hscored : d.scoredPieces = []) (P : ℕ → Prop)
    (hP : ∀ i, P i → i ∈ d.incompletePieces) :
    P d.selectNextPiece ↔ ∃ g, P g ∧ d.holders g < 2 ^ 31 - 1 ∧
      ∀ j ∈ d.incompletePieces, ¬ P j → d.FewerHolders g j := by
  have hascending : d.countedPieces.Pairwise (· < ·) :=
    incompletePieces_ascending.sublist List.filter_sublist
  have hpick : (∃ m, (d.countedPieces.argmax fun i => -d.peerCount i) = some m ∧ P m) ↔
      ∃ g ∈ d.countedPieces, P g ∧ ∀ j ∈ d.countedPieces, ¬ P j →
        Ahead (fun i => -d.peerCount i) g j := exists_mem_argmax_iff hascending P
  have hcounted : ∀ i ∈ d.incompletePieces, i ∈ d.countedPieces ↔ d.holders i < 2 ^ 31 - 1 := by
    intro i hi
    rw [mem_countedPieces, peerCount_incomplete hn hi]
    refine ⟨fun h => by omega, fun h => ⟨hi, by omega⟩⟩
  have hiff : (∃ g ∈ d.countedPieces, P g ∧ ∀ j ∈ d.countedPieces, ¬ P j →
        Ahead (fun i => -d.peerCount i) g j) ↔
      ∃ g, P g ∧ d.holders g < 2 ^ 31 - 1 ∧
        ∀ j ∈ d.incompletePieces, ¬ P j → d.FewerHolders g j := by
    constructor
    · rintro ⟨g, hg, hPg, hahead⟩
      have hgi := hP g hPg
      have hlt := (hcounted g hgi).1 hg
      refine ⟨g, hPg, hlt, fun j hj hnot => ?_⟩
      by_cases hjc : j ∈ d.countedPieces
      · exact (ahead_counts_iff hn hgi hj).1 (hahead j hjc hnot)
      · rw [hcounted j hj] at hjc
        exact .inl (by omega)
    · rintro ⟨g, hPg, hlt, hahead⟩
      have hgi := hP g hPg
      refine ⟨g, (hcounted g hgi).2 hlt, hPg, fun j hj hnot => ?_⟩
      have hji := (mem_countedPieces.1 hj).1
      exact (ahead_counts_iff hn hgi hji).2 (hahead j hji hnot)
  rw [← hiff]
  cases hbest : d.countedPieces.argmax fun i => -d.peerCount i with
  | none =>
    have hnil := List.argmax_eq_none.1 hbest
    have hnot := selectNextPiece_of_none hn hscored hnil
    simp only [hnil, List.not_mem_nil, false_and, exists_false, iff_false]
    exact fun h => hnot (hP _ h)
  | some m =>
    rw [selectNextPiece_of_counted hn hscored hbest, ← hpick, hbest]
    simp

/-- Without pieces in progress, what is selected is a rarest piece if and only if every incomplete
piece has a holder. -/
theorem rarest_selected_iff (hprogress : d.partialPieces = [])
    (hheld : ∃ i ∈ d.incompletePieces, 0 < d.holders i) : d.Rarest d.selectNextPiece ↔
      (∀ i ∈ d.incompletePieces, 0 < d.holders i) ∧
        ∃ i ∈ d.incompletePieces, d.holders i < 2 ^ 31 - 1 := by
  have hscored : d.scoredPieces = [] := by simp [scoredPieces, hprogress]
  rw [selected_counted_iff hn hscored d.Rarest fun i hi => hi.mem]
  constructor
  · rintro ⟨g, hg, hlt, hahead⟩
    refine ⟨fun i hi => ?_, g, hg.mem, hlt⟩
    by_contra hnone
    have hnot : ¬ d.Rarest i := fun h => hnone h.held
    have hpos := hg.held
    rcases hahead i hi hnot with hless | ⟨hequal, -⟩ <;> omega
  · rintro ⟨hall, i, hi, hlt⟩
    -- the first piece with the fewest holders
    obtain ⟨g, hg, hmin⟩ := d.incompletePieces.toFinset.exists_min_image
      (fun j => toLex (d.holders j, j)) ⟨i, List.mem_toFinset.2 hi⟩
    simp only [List.mem_toFinset] at hg hmin
    have hle : ∀ j ∈ d.incompletePieces,
        d.holders g < d.holders j ∨ d.holders g = d.holders j ∧ g ≤ j := by
      intro j hj
      simpa [Prod.Lex.le_iff] using hmin j hj
    refine ⟨g, ⟨hg, hall g hg, fun j hj _ => ?_⟩, ?_, fun j hj hnot => ?_⟩
    · rcases hle j hj with h | h <;> omega
    · rcases hle i hi with h | h <;> omega
    · rcases hle j hj with h | ⟨hequal, hgj⟩
      · exact .inl h
      · refine .inr ⟨hequal.symm, lt_of_le_of_ne hgj ?_⟩
        rintro rfl
        refine hnot ⟨hj, hall g hj, fun k hk _ => ?_⟩
        rcases hle k hk with h | h <;> omega

/-- What is selected is a most complete piece if and only if such a piece has the best score, or no
piece has a score and such a piece is the rarest. -/
theorem mostComplete_selected_iff : d.MostComplete d.selectNextPiece ↔
      (∃ g, d.MostComplete g ∧ 0 ≤ d.pieceScore g ∧
        ∀ j ∈ d.partialPieces, ¬ d.MostComplete j → Ahead d.pieceScore g j) ∨
      ((∀ j ∈ d.partialPieces, d.pieceScore j < 0) ∧
        ∃ g, d.MostComplete g ∧ d.holders g < 2 ^ 31 - 1 ∧
          ∀ j ∈ d.incompletePieces, ¬ d.MostComplete j → d.FewerHolders g j) := by
  by_cases hscored : d.scoredPieces = []
  · have hneg : ∀ j ∈ d.partialPieces, d.pieceScore j < 0 := by
      intro j hj
      by_contra hscore
      have hmem := mem_scoredPieces.2 ⟨hj, not_lt.1 hscore⟩
      rw [hscored] at hmem
      cases hmem
    rw [selected_counted_iff hn hscored d.MostComplete fun i hi => (mem_partialPieces.1 hi.mem).1]
    constructor
    · exact fun h => .inr ⟨hneg, h⟩
    · rintro (⟨g, hg, hscore, -⟩ | ⟨-, h⟩)
      · exact absurd hscore (not_le.2 (hneg g hg.mem))
      · exact h
  · rw [selected_scored_iff hn hscored d.MostComplete]
    constructor
    · rintro ⟨g, -, hg, hscore, hahead⟩
      exact .inl ⟨g, hg, hscore, hahead⟩
    · rintro (⟨g, hg, hscore, hahead⟩ | ⟨hneg, -⟩)
      · exact ⟨g, hg.mem, hg, hscore, hahead⟩
      · obtain ⟨i, hi⟩ := List.exists_mem_of_ne_nil _ hscored
        obtain ⟨hmem, hscore⟩ := mem_scoredPieces.1 hi
        exact absurd hscore (not_le.2 (hneg i hmem))

/-- **Main result.** The selected piece follows the rule if and only if the numbers lead to it. -/
theorem selectsByRule_iff : d.SelectsByRule ↔ d.RuleDecides := by
  constructor
  · intro h
    exact ⟨fun hprogress => (mostComplete_selected_iff hn).1 (h.completion hprogress),
      fun hprogress hheld => (rarest_selected_iff hn hprogress hheld).1 (h.rarest hprogress hheld)⟩
  · intro h
    exact ⟨fun hprogress => (mostComplete_selected_iff hn).2 (h.completion hprogress),
      fun hprogress hheld => (rarest_selected_iff hn hprogress hheld).2 (h.rarest hprogress hheld)⟩

end Fitting

/-- A fresh download whose only peer has the second of two pieces. -/
def secondOnly : Downloader :=
  { init twoPieceTorrent [] {} { fs := oneDirectory } with peers := [onlyPeer 1] }

/-- A fresh download whose only peer has both. -/
def bothPieces : Downloader :=
  { secondOnly with peers := [{ onlyPeer 1 with bitfield := [true, true] }] }

/-- With a holder for each piece the rule is followed. -/
theorem selectsByRule_bothPieces : bothPieces.SelectsByRule ∧
    (secondOnly.SelectsByRule ↔ secondOnly.RuleDecides) := by
  have hdecides : bothPieces.RuleDecides := by
    refine ⟨fun hprogress => absurd (by decide +kernel) hprogress, fun _ _ => ⟨by decide +kernel, 0, ?_⟩⟩
    decide +kernel
  exact ⟨(selectsByRule_iff (by decide +kernel)).2 hdecides, selectsByRule_iff (by decide +kernel)⟩

/-- The piece that nobody has is selected, although the peer has the other one. -/
theorem not_forall_selectsByRule : ¬ ∀ d : Downloader, d.incompletePieces ≠ [] →
    d.SelectsByRule := by
  intro h
  have hrule := h secondOnly (by decide +kernel)
  have hheld : ∃ i ∈ secondOnly.incompletePieces, 0 < secondOnly.holders i :=
    ⟨1, by decide +kernel, by decide +kernel⟩
  have hrarest := hrule.rarest (by decide +kernel) hheld
  have hnone : secondOnly.holders secondOnly.selectNextPiece = 0 := by decide +kernel
  exact absurd hrarest.held (by omega)

end Gush.Downloader
