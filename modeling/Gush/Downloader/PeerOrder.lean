import Gush.Downloader.Requests
import Gush.Lib.Tolerance

/-!
# The order in which peers are asked

`requestPieces` sorts the peers that can be asked by speed, and by the number of pending requests
where speeds are similar. `std::sort` needs a strict weak ordering; `peerLess_isStrictWeakOrder_iff`
says when it gets one. Speeds are rationals here; the statistics hold them for some peers only. The
numbers of pending requests may be any.
-/

namespace Gush.Downloader

/-- 1 KB/s. -/
def similarSpeed : ℚ := 1024

/-- The average speed of a peer in the statistics, or zero. -/
def avgSpeed (peerSpeedStats : ℕ → Option ℚ) (ptr : ℕ) : ℚ := (peerSpeedStats ptr).getD 0

/-- The comparison of `requestPieces`: whether peer `a` is asked before peer `b`. -/
def peerLess (peerSpeedStats : ℕ → Option ℚ) (requestsPerPeer : ℕ → ℤ) (a b : ℕ) : Bool :=
  let speedA := avgSpeed peerSpeedStats a
  let speedB := avgSpeed peerSpeedStats b
  let reqA := requestsPerPeer a
  let reqB := requestsPerPeer b
  if |speedA - speedB| < similarSpeed then reqA < reqB else speedA > speedB

theorem peerLess_iff {peerSpeedStats : ℕ → Option ℚ} {requestsPerPeer : ℕ → ℤ} {a b : ℕ} :
    peerLess peerSpeedStats requestsPerPeer a b = true ↔
      Tolerance.Before similarSpeed (avgSpeed peerSpeedStats) requestsPerPeer a b := by
  unfold peerLess Tolerance.Before
  simp only
  split_ifs <;> simp

/-- The peers by which the comparison can be judged: wherever a peer is similar in speed to two that
are not similar to each other, it has more requests than the faster or less than the slower. -/
def BridgesOrdered (peerSpeedStats : ℕ → Option ℚ) (requestsPerPeer : ℕ → ℤ) (peers : Finset ℕ) :
    Prop :=
  ∀ fast ∈ peers, ∀ mid ∈ peers, ∀ slow ∈ peers,
    similarSpeed ≤ avgSpeed peerSpeedStats fast - avgSpeed peerSpeedStats slow →
    |avgSpeed peerSpeedStats fast - avgSpeed peerSpeedStats mid| < similarSpeed →
    |avgSpeed peerSpeedStats mid - avgSpeed peerSpeedStats slow| < similarSpeed →
    requestsPerPeer fast < requestsPerPeer mid ∨ requestsPerPeer mid < requestsPerPeer slow

/-- **Main result.** The comparison is a strict weak ordering of some peers if and only if the
requests of every peer between two others keep them apart. -/
theorem peerLess_isStrictWeakOrder_iff (peerSpeedStats : ℕ → Option ℚ) (requestsPerPeer : ℕ → ℤ)
    (peers : Finset ℕ) :
    IsStrictWeakOrder peers (Subrel
      (fun a b => peerLess peerSpeedStats requestsPerPeer a b = true) (· ∈ peers)) ↔
      BridgesOrdered peerSpeedStats requestsPerPeer peers := by
  have hrel : (fun a b => peerLess peerSpeedStats requestsPerPeer a b = true) =
      Tolerance.Before similarSpeed (avgSpeed peerSpeedStats) requestsPerPeer := by
    funext a b
    exact propext peerLess_iff
  have hpos : 0 < similarSpeed := by norm_num [similarSpeed]
  rw [hrel]
  exact Tolerance.isStrictWeakOrder_before_iff hpos (peers : Set ℕ)

/-- Three idle peers at speeds 0, 1000 and 2000: each is similar to the next, the first and the last
are not. -/
theorem peerLess_three_idle : ¬ IsStrictWeakOrder (({0, 1, 2} : Finset ℕ)) (Subrel
    (fun a b => peerLess (fun ptr => some (1000 * ptr)) (fun _ => 0) a b = true)
    (· ∈ ({0, 1, 2} : Finset ℕ))) := by
  intro h
  obtain ⟨-, hfast⟩ := h.incomp_trans ⟨0, by decide⟩ ⟨1, by decide⟩ ⟨2, by decide⟩
    (by norm_num [Subrel, peerLess, avgSpeed, similarSpeed])
    (by norm_num [Subrel, peerLess, avgSpeed, similarSpeed])
  apply hfast
  norm_num [Subrel, peerLess, avgSpeed, similarSpeed]

end Gush.Downloader
