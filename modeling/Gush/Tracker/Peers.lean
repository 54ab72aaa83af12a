import Gush.Bencode.Parse
import Gush.Tracker.Udp

/-!
# Lists of peers

`parsePeers`, which reads the list of dictionaries that an HTTP tracker may answer with. The port of a
`Peer` has no initial value, so an entry without a port gets whatever is there: the arbitrary value
that the `i`-th `Peer` of the loop starts with is `unassigned i`.

A port is narrowed to 16 bits before the only check. `listsPeers_iff` says for which values the result
is the list of the well-formed entries.
-/

namespace Gush.Tracker

open Bencode

/-- The body of the loop in `parsePeers`; `none` if nothing is added. -/
def parsePeer (unassigned : UInt16) : BencodeValue → Option Peer
  | .dict peerDict =>
    let ip :=
      match dictGet peerDict (ascii "ip") with
      | some (.str ip) => ip
      | _ => []
    let port :=
      match dictGet peerDict (ascii "port") with
      | some (.int port) => UInt16.ofInt port
      | _ => unassigned
    let peerId :=
      match dictGet peerDict (ascii "peer id") with
      | some (.str peerId) => peerId
      | _ => []
    if ip ≠ [] ∧ port > 0 then some { ip, port, peerId } else none
  | _ => none

def parsePeers (unassigned : ℕ → UInt16) : BencodeValue → List Peer
  | .list items => items.zipIdx.filterMap fun entry => parsePeer (unassigned entry.2) entry.1
  | _ => []

/-! ### The well-formed entries -/

/-- The non-empty address of a dictionary. -/
def addressOf : BencodeValue → Option (Bytes × BencodeDict)
  | .dict peerDict =>
    match dictGetString peerDict (ascii "ip") with
    | some ip => if ip = [] then none else some (ip, peerDict)
    | none => none
  | _ => none

/-- The address and the port of a well-formed entry. -/
def endpointOf (item : BencodeValue) : Option (Bytes × ℤ) :=
  (addressOf item).bind fun entry =>
    (dictGetInt entry.2 (ascii "port")).bind fun port =>
      if 1 ≤ port ∧ port ≤ 65535 then some (entry.1, port) else none

/-- The address and the port of a peer. -/
def endpoint (peer : Peer) : Bytes × ℤ := (peer.ip, peer.port.toNat)

def items : BencodeValue → List BencodeValue
  | .list items => items
  | _ => []

/-- `parsePeers` gives the well-formed entries of a value in order, whatever an unassigned port
holds. -/
def ListsPeers (v : BencodeValue) : Prop :=
  ∀ unassigned, (parsePeers unassigned v).map endpoint = (items v).filterMap endpointOf

/-- Narrowing to 16 bits keeps the port or gives zero. -/
def Narrows (port : ℤ) : Prop := (1 ≤ port ∧ port ≤ 65535) ∨ 65536 ∣ port

/-- An entry with an address has a port that the narrowing does not turn into another one. -/
def PortFits (item : BencodeValue) : Prop :=
  ∀ ip peerDict, addressOf item = some (ip, peerDict) →
    ∃ port, dictGetInt peerDict (ascii "port") = some port ∧ Narrows port

/-! ### One entry -/

variable {unassigned : UInt16} {item : BencodeValue} {ip : Bytes} {peerDict : BencodeDict} {port : ℤ}

theorem ofInt_pos_iff : 0 < UInt16.ofInt port ↔ ¬ (65536 : ℤ) ∣ port := by
  rw [UInt16.lt_iff_toNat_lt, Int.dvd_iff_emod_eq_zero, ← toNat_ofInt]
  simp only [UInt16.toNat_zero]
  omega

/-- The port that an entry ends up with. -/
def portOf (unassigned : UInt16) (peerDict : BencodeDict) : UInt16 :=
  ((dictGetInt peerDict (ascii "port")).map UInt16.ofInt).getD unassigned

/-- What an entry adds: its address with a port that is not zero. -/
theorem map_endpoint_parsePeer (unassigned : UInt16) (item : BencodeValue) :
    (parsePeer unassigned item).map endpoint = (addressOf item).bind fun entry =>
      if 0 < portOf unassigned entry.2 then some (entry.1, ((portOf unassigned entry.2).toNat : ℤ))
      else none := by
  cases item with
  | dict peerDict =>
    have hport : (match dictGet peerDict (ascii "port") with
        | some (.int port) => UInt16.ofInt port
        | _ => unassigned) = portOf unassigned peerDict := by
      rw [portOf, dictGetInt]
      rcases dictGet peerDict (ascii "port") with - | _ | _ | _ | _ <;> rfl
    rw [parsePeer, hport, addressOf, dictGetString]
    rcases dictGet peerDict (ascii "ip") with - | _ | ip | _ | _
    · simp
    · simp
    · by_cases hip : ip = []
      · simp [hip]
      · by_cases hpos : 0 < portOf unassigned peerDict <;> simp [hip, hpos, endpoint]
    · simp
    · simp
  | int i => rfl
  | str s => rfl
  | list l => rfl

/-- A well-formed entry is always listed. -/
theorem map_endpoint_of_endpointOf {e : Bytes × ℤ} (h : endpointOf item = some e) :
    (parsePeer unassigned item).map endpoint = some e := by
  obtain ⟨⟨ip, peerDict⟩, haddress, h⟩ := Option.bind_eq_some_iff.1 h
  obtain ⟨port, hport, h⟩ := Option.bind_eq_some_iff.1 h
  split_ifs at h with hrange
  cases h
  have hnat : ((UInt16.ofInt port).toNat : ℤ) = port := by
    rw [toNat_ofInt]
    omega
  have hpos : 0 < UInt16.ofInt port := ofInt_pos_iff.2 fun hdvd => by
    have hmod := Int.dvd_iff_emod_eq_zero.1 hdvd
    omega
  rw [map_endpoint_parsePeer, haddress, Option.bind_some, portOf, hport, Option.map_some,
    Option.getD_some, if_pos hpos, hnat]

/-- Only an entry that fits is read as it should be, if an unassigned port is not zero. -/
theorem parsePeer_one_iff : (parsePeer 1 item).map endpoint = endpointOf item ↔ PortFits item := by
  rw [map_endpoint_parsePeer, endpointOf]
  cases haddress : addressOf item with
  | none => simp [PortFits, haddress]
  | some entry =>
    obtain ⟨ip, peerDict⟩ := entry
    have hfits : PortFits item ↔
        ∃ port, dictGetInt peerDict (ascii "port") = some port ∧ Narrows port := by
      constructor
      · intro h
        exact h ip peerDict haddress
      · intro h ip' peerDict' haddress'
        rw [haddress] at haddress'
        cases haddress'
        exact h
    rw [hfits, Option.bind_some, Option.bind_some]
    dsimp only
    cases hport : dictGetInt peerDict (ascii "port") with
    | none =>
      have hone : portOf 1 peerDict = 1 := by simp [portOf, hport]
      simp [hone]
    | some port =>
      have hof : portOf 1 peerDict = UInt16.ofInt port := by simp [portOf, hport]
      rw [hof, Option.bind_some]
      simp only [Option.some.injEq, exists_eq_left', Narrows, ofInt_pos_iff, toNat_ofInt]
      have hmod : (65536 : ℤ) ∣ port ↔ port % 65536 = 0 := Int.dvd_iff_emod_eq_zero
      by_cases hrange : 1 ≤ port ∧ port ≤ 65535
      · have hne : ¬ (65536 : ℤ) ∣ port := fun hdvd => by
          have := hmod.1 hdvd
          omega
        have heq : port % 65536 = port := by omega
        simp [hrange, hne, heq]
      · by_cases hdvd : (65536 : ℤ) ∣ port <;> simp [hrange, hdvd]

/-- An entry that fits is read as it should be, whatever an unassigned port holds. -/
theorem parsePeer_of_fits (h : PortFits item) (unassigned : UInt16) :
    (parsePeer unassigned item).map endpoint = endpointOf item := by
  rw [← parsePeer_one_iff.2 h, map_endpoint_parsePeer, map_endpoint_parsePeer]
  cases haddress : addressOf item with
  | none => rfl
  | some entry =>
    obtain ⟨port, hport, -⟩ := h entry.1 entry.2 haddress
    simp [portOf, hport]

/-! ### The list -/

/-- Two filters of which one keeps all that the other keeps agree only if they agree on every
element. -/
theorem filterMap_eq_iff {α β : Type*} {f g : α → Option β} {l : List α}
    (h : ∀ a b, g a = some b → f a = some b) :
    l.filterMap f = l.filterMap g ↔ ∀ a ∈ l, f a = g a := by
  refine ⟨fun heq => ?_, List.filterMap_congr⟩
  have hlen : ∀ l : List α, (l.filterMap g).length ≤ (l.filterMap f).length := by
    intro l
    induction l with
    | nil => simp
    | cons a l ih =>
      cases hg : g a with
      | none => cases hf : f a <;> simp [hg, hf] <;> omega
      | some b => simpa [List.filterMap_cons, hg, h a b hg] using ih
  induction l with
  | nil => simp
  | cons a l ih =>
    cases hg : g a with
    | some b =>
      have hf := h a b hg
      have htail : l.filterMap f = l.filterMap g := by
        simpa [List.filterMap_cons, hg, hf] using heq
      simpa [hg, hf] using ih htail
    | none =>
      cases hf : f a with
      | none =>
        have htail : l.filterMap f = l.filterMap g := by
          simpa [List.filterMap_cons, hg, hf] using heq
        simpa [hg, hf] using ih htail
      | some b =>
        have hcount := congrArg List.length heq
        simp only [List.filterMap_cons, hg, hf, List.length_cons] at hcount
        have hle := hlen l
        omega

theorem map_endpoint_parsePeers (unassigned : ℕ → UInt16) (v : BencodeValue) :
    (parsePeers unassigned v).map endpoint = (items v).zipIdx.filterMap fun entry =>
      (parsePeer (unassigned entry.2) entry.1).map endpoint := by
  cases v with
  | list l => rw [parsePeers, List.map_filterMap, items]
  | _ => rfl

/-- The peers are the well-formed entries exactly if every entry with an address fits. -/
theorem listsPeers_iff (v : BencodeValue) : ListsPeers v ↔ ∀ item ∈ items v, PortFits item := by
  constructor
  · intro h
    have hone : (items v).filterMap (fun item => (parsePeer 1 item).map endpoint) =
        (items v).filterMap endpointOf := by
      rw [← h fun _ => 1, map_endpoint_parsePeers]
      conv_lhs => rw [← List.zipIdx_map_fst 0 (items v), List.filterMap_map]
      rfl
    intro item hitem
    exact parsePeer_one_iff.1 ((filterMap_eq_iff fun _ _ => map_endpoint_of_endpointOf).1 hone item
      hitem)
  · intro h unassigned
    have hentry : ∀ entry ∈ (items v).zipIdx,
        (parsePeer (unassigned entry.2) entry.1).map endpoint = endpointOf entry.1 :=
      fun entry hentry => parsePeer_of_fits (h entry.1 (List.fst_mem_of_mem_zipIdx hentry)) _
    rw [map_endpoint_parsePeers, List.filterMap_congr hentry]
    conv_rhs => rw [← List.zipIdx_map_fst 0 (items v), List.filterMap_map]
    rfl

/-- An entry with the port 65616 is listed with the port 80. -/
theorem not_forall_listsPeers : ¬ ∀ v : BencodeValue, ListsPeers v := by
  intro h
  have hlist := h (.list [.dict [(ascii "ip", .str (ascii "1.2.3.4")), (ascii "port", .int 65616)]])
    fun _ => 0
  exact absurd hlist (by decide)

end Gush.Tracker
