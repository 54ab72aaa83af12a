import Gush.Wire.Receive

/-!
# Reading back what has been sent

The bytes of a sequence of messages, read with one message variable. The receiving functions leave
the payload of the variable alone if a frame has none, so a message without a payload comes out with
the payload of the message before it.

`readBack_iff` says when the messages come back as they were sent.
-/

namespace Gush.Wire

open Framing Bencode
open Downloader (bytesToInt)

/-- The messages that fit the wire: a keep-alive message, or a message whose length counts the
identifier and the payload. -/
inductive Sendable : PeerMessage → Prop
  | keepAlive : Sendable { length := 0, id := .keepAlive }
  | message {b : UInt8} {payload : Bytes} (hid : MessageId.ofByte b ≠ .keepAlive)
      (hlen : 1 + payload.length ≤ maxPeerMessageSize) :
      Sendable { length := 1 + payload.length, id := .ofByte b, payload }

/-- All messages that the client creates fit. -/
theorem sendable_created :
    Sendable .createKeepAlive ∧ Sendable .createChoke ∧ Sendable .createUnchoke ∧
      Sendable .createInterested ∧ (∀ pieceIndex, Sendable (.createHave pieceIndex)) ∧
      (∀ piece offset length, Sendable (.createRequest piece offset length)) ∧
      ∀ piece offset length, Sendable (.createCancel piece offset length) := by
  have hmessage : ∀ (b : UInt8) (payload : Bytes), MessageId.ofByte b ≠ .keepAlive →
      payload.length < 13 → Sendable { length := 1 + payload.length, id := .ofByte b, payload } := by
    intro b payload hid hlen
    have hmax : maxPeerMessageSize = 4194304 := rfl
    exact .message hid (by omega)
  refine ⟨.keepAlive, hmessage 0 [] ?_ ?_, hmessage 1 [] ?_ ?_, hmessage 2 [] ?_ ?_,
    fun i => hmessage 4 (intToBytes i) ?_ ?_, fun p o l => hmessage 6 (PeerMessage.blockPayload p o l) ?_ ?_,
    fun p o l => hmessage 8 (PeerMessage.blockPayload p o l) ?_ ?_⟩
  all_goals first
    | decide
    | simp [PeerMessage.blockPayload]

/-- The frame of a message. -/
def PeerMessage.frame (msg : PeerMessage) : Frame :=
  .whole (if msg.length > 0 then msg.id.toByte :: msg.payload else [])

/-- The bytes that `sendMessage` emits for some messages, one after the other. -/
def emitted (sender : PeerState) (msgs : List PeerMessage) : Bytes :=
  ((msgs.foldl (fun c msg => (c.sendMessage msg true).2) sender.connected).socket.map
    Socket.outgoing).getD []

theorem emitted_eq (sender : PeerState) (msgs : List PeerMessage) :
    emitted sender msgs = (msgs.map PeerMessage.bytes).flatten := by
  have hfold : ∀ s : Socket,
      ((msgs.foldl (fun c msg => (PeerConnection.sendMessage c msg true).2)
        { sender with socket := some s }).socket.map Socket.outgoing).getD [] =
      s.outgoing ++ (msgs.map PeerMessage.bytes).flatten := by
    induction msgs with
    | nil => simp
    | cons msg msgs ih =>
      intro s
      rw [List.foldl_cons, List.map_cons, List.flatten_cons, ← List.append_assoc]
      exact ih { s with outgoing := s.outgoing ++ msg.bytes }
  exact hfold {}

theorem frame_message {b : UInt8} {payload : Bytes} :
    PeerMessage.frame { length := 1 + payload.length, id := .ofByte b, payload } =
      .whole (b :: payload) := by
  have hpos : 1 + payload.length > 0 := by omega
  rw [PeerMessage.frame, if_pos hpos, MessageId.toByte_ofByte]

/-- A message is read as the frame that was written. -/
theorem nextFrame_bytes {msg : PeerMessage} (h : Sendable msg) (rest : Bytes) :
    nextFrame (msg.bytes ++ rest) = some (msg.frame, rest) := by
  cases h with
  | keepAlive => rfl
  | @message b payload hid hlen =>
    have hmax : maxPeerMessageSize = 4194304 := rfl
    have hpos : 1 + payload.length > 0 := by omega
    have hbytes : (PeerMessage.bytes
        { length := 1 + payload.length, id := .ofByte b, payload }) ++ rest =
        intToBytes (1 + payload.length) ++ (b :: payload ++ rest) := by
      rw [PeerMessage.bytes, if_pos hpos, MessageId.toByte_ofByte, List.append_assoc]
    have hint : bytesToInt (intToBytes (1 + payload.length) ++ (b :: payload ++ rest)) =
        1 + payload.length := bytesToInt_intToBytes (by omega) _
    have hdrop : ∀ n, (intToBytes (1 + payload.length) ++ (b :: payload ++ rest)).drop (4 + n) =
        (b :: payload ++ rest).drop n := by
      intro n
      rw [← List.drop_drop, ← length_intToBytes (1 + payload.length), List.drop_left]
    have hlength : (intToBytes (1 + payload.length) ++ (b :: payload ++ rest)).length =
        4 + (1 + payload.length) + rest.length := by
      simp only [List.length_append, List.length_cons, length_intToBytes]
      omega
    have hbody : 1 + payload.length = (b :: payload).length := by
      rw [List.length_cons]
      omega
    rw [hbytes, frame_message, nextFrame, if_neg (by omega), hint, if_neg (by omega), if_neg (by omega),
      hdrop (1 + payload.length), hdrop 0, List.drop_zero, hbody, List.take_left, List.drop_left]

/-- The frames of the emitted bytes. -/
theorem frames_emitted (fuel : ℕ) (sender : PeerState) {msgs : List PeerMessage}
    (h : ∀ msg ∈ msgs, Sendable msg) :
    (reader fuel).frames (emitted sender msgs) = msgs.map PeerMessage.frame := by
  have hframes := @Scanner.frames_encoded _ _ (reader fuel).toScanner _ PeerMessage.bytes
    PeerMessage.frame msgs (fun msg hmsg => nextFrame_bytes (h msg hmsg)) []
  have hempty : (reader fuel).frames [] = [] := Scanner.frames_of_none rfl
  rwa [List.append_nil, hempty, List.append_nil, ← emitted_eq sender] at hframes

/-! ### What the message variable holds -/

/-- What the variable holds after a message: without a payload of its own, the message leaves the
old one in place. -/
def PeerMessage.heard (payload : Bytes) (msg : PeerMessage) : PeerMessage :=
  { msg with payload := if msg.payload = [] then payload else msg.payload }

theorem acceptFrame_frame (fuel : ℕ) (c : PeerState) (payload : Bytes) {msg : PeerMessage}
    (h : Sendable msg) :
    acceptFrame fuel (c, payload) msg.frame =
      (c.update fuel (msg.heard payload)).map fun c =>
        (some (msg.heard payload), (c, (msg.heard payload).payload)) := by
  cases h with
  | keepAlive => rfl
  | @message b own _ _ =>
    rw [frame_message, acceptFrame, PeerMessage.heard, Nat.add_comm 1]

/-- The parse of an extended payload comes to an end. -/
def ParseEnds : Bytes → Prop
  | _ :: b :: encoded => ∃ r, Parses (b :: encoded) 0 r
  | _ => True

theorem parseEnds_of_process {fuel : ℕ} {c c' : PeerState} {payload : Bytes}
    (h : c.processExtendedMessage fuel payload = some c') : ParseEnds payload := by
  match payload with
  | [] => trivial
  | [_] => trivial
  | _ :: b :: encoded =>
    rw [PeerState.processExtendedMessage] at h
    cases hparse : parseImpl fuel (b :: encoded) 0 with
    | none =>
      rw [hparse] at h
      cases h
    | some r => exact ⟨r, fuel, hparse⟩

theorem process_of_parseEnds {payload : Bytes} (h : ParseEnds payload) :
    ∃ n, ∀ fuel, n ≤ fuel → ∀ c : PeerState, ∃ c', c.processExtendedMessage fuel payload = some c' := by
  match payload with
  | [] => exact ⟨0, fun _ _ c => ⟨c, rfl⟩⟩
  | [_] => exact ⟨0, fun _ _ c => ⟨c, rfl⟩⟩
  | _ :: b :: encoded =>
    obtain ⟨r, n, hparse⟩ := h
    refine ⟨n, fun fuel hfuel c => ?_⟩
    rw [PeerState.processExtendedMessage, parseImpl_mono hfuel hparse]
    rcases r with e | ⟨- | - | - | d, p⟩ <;> exact ⟨_, rfl⟩

theorem update_of_parseEnds {msg : PeerMessage} (h : msg.id = .extended → ParseEnds msg.payload) :
    ∃ n, ∀ fuel, n ≤ fuel → ∀ c : PeerState, ∃ c', c.update fuel msg = some c' := by
  by_cases hid : msg.id = .extended
  · obtain ⟨n, hn⟩ := process_of_parseEnds (h hid)
    refine ⟨n, fun fuel hfuel c => ?_⟩
    rw [PeerState.update, hid]
    exact hn fuel hfuel c
  · refine ⟨0, fun fuel _ c => ?_⟩
    rw [PeerState.update]
    split
    all_goals first
      | exact ⟨_, rfl⟩
      | (rename_i hext; exact absurd hext hid)

/-! ### The round trip -/

/-- No message without a payload comes after a message with one. -/
def NoneStale (msgs : List PeerMessage) : Prop :=
  msgs.Pairwise fun earlier later => earlier.payload ≠ [] → later.payload ≠ []

/-- If the messages come out as they went in, each one that has no payload finds none in the
variable. -/
theorem noneStale_of_acts {fuel : ℕ} {msgs : List PeerMessage} (h : ∀ msg ∈ msgs, Sendable msg)
    {c : PeerState} {payload : Bytes} {out : (PeerState × Bytes) × Bool}
    (hacts : (reader fuel).acts (c, payload) (msgs.map PeerMessage.frame) = some (msgs, out)) :
    (payload ≠ [] → ∀ msg ∈ msgs, msg.payload ≠ []) ∧ NoneStale msgs ∧
      ∀ msg ∈ msgs, msg.id = .extended → ParseEnds msg.payload := by
  have hact : (reader fuel).act = acceptFrame fuel := rfl
  induction msgs generalizing c payload with
  | nil => exact ⟨fun _ _ hm => (List.not_mem_nil hm).elim, .nil, fun _ hm => (List.not_mem_nil hm).elim⟩
  | cons msg msgs ih =>
    rw [List.map_cons, Reader.acts, hact, acceptFrame_frame fuel c payload (h msg (by simp))]
      at hacts
    cases hupdate : c.update fuel (msg.heard payload) with
    | none =>
      rw [hupdate] at hacts
      cases hacts
    | some c' =>
      rw [hupdate] at hacts
      obtain ⟨⟨items, out'⟩, hrest, hout⟩ := Option.map_eq_some_iff.1 hacts
      obtain ⟨hitems, rfl⟩ := Prod.mk.inj hout
      have hheard : msg.heard payload = msg := (List.cons.inj hitems).1
      have hmsgs : items = msgs := (List.cons.inj hitems).2
      rw [hheard, hmsgs] at hrest
      rw [hheard] at hupdate
      obtain ⟨hne, hstale, hends⟩ := ih (fun m hm => h m (List.mem_cons_of_mem _ hm)) hrest
      have hempty : msg.payload = [] → payload = [] := by
        intro hnil
        have hp : (msg.heard payload).payload = msg.payload := by rw [hheard]
        rw [PeerMessage.heard, if_pos hnil, hnil] at hp
        exact hp
      have hmsg : msg.id = .extended → ParseEnds msg.payload := by
        intro hid
        rw [PeerState.update, hid] at hupdate
        exact parseEnds_of_process hupdate
      refine ⟨fun hpayload m hm => ?_, .cons (fun m hm hown => hne hown m hm) hstale, ?_⟩
      · have hown : msg.payload ≠ [] := fun hnil => hpayload (hempty hnil)
        rcases List.mem_cons.1 hm with rfl | hm
        · exact hown
        · exact hne hown m hm
      · intro m hm
        rcases List.mem_cons.1 hm with rfl | hm
        · exact hmsg
        · exact hends m hm

/-- Otherwise they come out as they went in. -/
theorem acts_of_noneStale {msgs : List PeerMessage} (h : ∀ msg ∈ msgs, Sendable msg)
    (hstale : NoneStale msgs) (hends : ∀ msg ∈ msgs, msg.id = .extended → ParseEnds msg.payload)
    {payload : Bytes} (hpayload : payload ≠ [] → ∀ msg ∈ msgs, msg.payload ≠ []) :
    ∃ n, ∀ fuel, n ≤ fuel → ∀ c : PeerState, ∃ out,
      (reader fuel).acts (c, payload) (msgs.map PeerMessage.frame) = some (msgs, out) := by
  induction msgs generalizing payload with
  | nil => exact ⟨0, fun fuel _ c => ⟨_, rfl⟩⟩
  | cons msg msgs ih =>
    obtain ⟨hhead, htail⟩ := List.pairwise_cons.1 hstale
    have hheard : msg.heard payload = msg := by
      by_cases hnil : msg.payload = []
      · have hold : payload = [] := by
          by_contra hne
          exact hpayload hne msg (by simp) hnil
        rw [PeerMessage.heard, if_pos hnil, hold, ← hnil]
      · rw [PeerMessage.heard, if_neg hnil]
    obtain ⟨n, hn⟩ := update_of_parseEnds (hends msg (by simp))
    obtain ⟨n', hn'⟩ := @ih (fun m hm => h m (by simp [hm])) htail
      (fun m hm => hends m (by simp [hm])) msg.payload (fun hown m hm => hhead m hm hown)
    refine ⟨max n n', fun fuel hfuel c => ?_⟩
    have hact : (reader fuel).act = acceptFrame fuel := rfl
    obtain ⟨c', hc'⟩ := hn fuel (le_of_max_le_left hfuel) c
    obtain ⟨out, hout⟩ := hn' fuel (le_of_max_le_right hfuel) c'
    refine ⟨out, ?_⟩
    rw [List.map_cons, Reader.acts, hact, acceptFrame_frame fuel c payload (h msg (by simp)), hheard,
      hc']
    dsimp only [Option.map]
    rw [hout]
    rfl

/-- The messages that come out of a connection on which some bytes arrive, polled with one message
variable `msg`. -/
def ReadBack (receiver : PeerState) (msg : PeerMessage) (schedule : List (Bytes × ℕ))
    (msgs : List PeerMessage) : Prop :=
  ∃ fuel, (serve (pollNonBlocking fuel) arrive schedule (receiver.connected, msg)).map Prod.fst =
    some msgs

/-- What is read back is what the frames of the messages give. -/
theorem readBack_iff_acts {sender receiver : PeerState} {msg : PeerMessage}
    (hmsg : msg.payload = []) {msgs : List PeerMessage} (h : ∀ m ∈ msgs, Sendable m)
    {schedule : List (Bytes × ℕ)} (hbytes : arrivals schedule = emitted sender msgs) {n : ℕ}
    (hn : (emitted sender msgs).length < n) :
    ReadBack receiver msg (schedule ++ [([], n)]) msgs ↔
      ∃ fuel out, (reader fuel).acts (receiver, []) (msgs.map PeerMessage.frame) =
        some (msgs, out) := by
  apply exists_congr
  intro fuel
  have hlt : (view (receiver.connected, msg)).buffer.length + (arrivals schedule).length < n := by
    rw [hbytes]
    exact (Nat.zero_add _).trans_lt hn
  have hserve : (serve (pollNonBlocking fuel) arrive (schedule ++ [([], n)])
        (receiver.connected, msg)).map observed =
      (reader fuel).seenResult peerState (view (receiver.connected, msg)) (arrivals schedule) :=
    Reader.serve_eq (pollNonBlocking_simulates fuel) view_arrive peerState schedule hlt
  have hresult : (reader fuel).result (view (receiver.connected, msg)) (arrivals schedule) =
      (reader fuel).acts (receiver, []) (msgs.map PeerMessage.frame) := by
    rw [← frames_emitted fuel sender h, ← hbytes, ← hmsg]
    rfl
  have hfst : (serve (pollNonBlocking fuel) arrive (schedule ++ [([], n)])
        (receiver.connected, msg)).map Prod.fst =
      ((reader fuel).acts (receiver, []) (msgs.map PeerMessage.frame)).map Prod.fst := by
    have hmap := congrArg (Option.map Prod.fst) hserve
    rw [Reader.seenResult, hresult, Option.map_map, Option.map_map] at hmap
    exact hmap
  rw [hfst, Option.map_eq_some_iff]
  constructor
  · rintro ⟨⟨items, out⟩, hacts, rfl⟩
    exact ⟨out, hacts⟩
  · rintro ⟨out, hacts⟩
    exact ⟨_, hacts, rfl⟩

/-- **When the messages come back as they were sent**: exactly if no message without a payload
comes after one with a payload, and the parse of every extended payload comes to an end. This holds
however the bytes arrive. -/
theorem readBack_iff {sender receiver : PeerState} {msg : PeerMessage} (hmsg : msg.payload = [])
    {msgs : List PeerMessage} (h : ∀ m ∈ msgs, Sendable m) {schedule : List (Bytes × ℕ)}
    (hbytes : arrivals schedule = emitted sender msgs) {n : ℕ}
    (hn : (emitted sender msgs).length < n) :
    ReadBack receiver msg (schedule ++ [([], n)]) msgs ↔
      NoneStale msgs ∧ ∀ m ∈ msgs, m.id = .extended → ParseEnds m.payload := by
  rw [readBack_iff_acts hmsg h hbytes hn]
  constructor
  · rintro ⟨fuel, out, hacts⟩
    exact (noneStale_of_acts h hacts).2
  · rintro ⟨hstale, hends⟩
    obtain ⟨n, hn⟩ := @acts_of_noneStale msgs h hstale hends [] fun hne => (hne rfl).elim
    exact ⟨n, hn n le_rfl receiver⟩

/-- `readBack_iff` for a message without a payload in front of one with a payload. -/
theorem readBack_iff_chokeHave :
    ReadBack localPeer .createChoke
        ([(emitted localPeer [.createChoke, .createHave 0], 1)] ++ [([], 15)])
        [.createChoke, .createHave 0] ↔
      NoneStale [.createChoke, .createHave 0] ∧
        ∀ m ∈ ([.createChoke, .createHave 0] : List PeerMessage),
          m.id = .extended → ParseEnds m.payload :=
  @readBack_iff localPeer localPeer .createChoke rfl _ (by
      obtain ⟨-, hchoke, -, -, hhave, -⟩ := sendable_created
      simp [hchoke, hhave])
    _ (by decide) _ (by decide)

/-! ### A payload that stays -/

/-- A choke message behind a have message comes back with the payload of the latter. -/
theorem not_forall_readBack :
    ¬ ∀ (sender receiver : PeerState) (msg : PeerMessage) (msgs : List PeerMessage)
      (schedule : List (Bytes × ℕ)) (n : ℕ), msg.payload = [] → (∀ m ∈ msgs, Sendable m) →
      arrivals schedule = emitted sender msgs → (emitted sender msgs).length < n →
      ReadBack receiver msg (schedule ++ [([], n)]) msgs := by
  intro h
  obtain ⟨-, hchoke, -, -, hhave, -⟩ := sendable_created
  have hmsgs : ∀ m ∈ [.createHave 0, .createChoke], Sendable m := by simp [hchoke, hhave]
  have hbytes : arrivals [(emitted localPeer [.createHave 0, .createChoke], 0)] =
      emitted localPeer [.createHave 0, .createChoke] := List.append_nil _
  have hread := h localPeer localPeer .createChoke _ _ 15 rfl hmsgs hbytes (by decide)
  obtain ⟨fuel, out, hacts⟩ := (readBack_iff_acts rfl hmsgs hbytes (by decide)).1 hread
  obtain ⟨-, hstale, -⟩ := noneStale_of_acts hmsgs hacts
  have hfresh := (List.pairwise_cons.1 hstale).1 .createChoke (by simp) (by decide)
  exact hfresh rfl

end Gush.Wire
