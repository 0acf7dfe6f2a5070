import OpenMesh.Net.Addresses
import OpenMesh.Net.Client
import OpenMesh.Protocol.EnvelopeCodec
import OpenMesh.Signaling.Expiry

namespace OpenMesh.Signaling.Dialogue

open OpenMesh.Core.Buffers OpenMesh.Core.Hex OpenMesh.Crypto.Primitives
open OpenMesh.Crypto.Reference OpenMesh.Library.Runs
open OpenMesh.Protocol.Envelope OpenMesh.Protocol.EnvelopeCodec
open OpenMesh.Net.Transport OpenMesh.Net.Addresses OpenMesh.Net.Client
open OpenMesh.Signaling.Registry OpenMesh.Signaling.Server OpenMesh.Signaling.Steps
open OpenMesh.Signaling.Routability OpenMesh.Signaling.Expiry

/-- A client and its signaling server. Everyone else is the network. -/
structure Joint where
  server : SignalingServer
  client : SignalingClient

inductive Move where
  | server (i : SignalingServer.Input)
  | client (e : Event)

abbrev Story := History Joint Move

variable (C : Sodium)

def Joint.step (w : Joint) : Move → Joint
  | .server i => { w with server := w.server.step C i }
  | .client e => { w with client := (w.client.step e).1 }

def replies (m : Joint × Move) : List Outgoing :=
  match m.2 with
  | .server i => m.1.server.sends C i
  | .client _ => []

def requests (m : Joint × Move) : List Packet :=
  match m.2 with
  | .server _ => []
  | .client e => (m.1.client.step e).2

def readBy (m : Joint × Move) : Option Datagram :=
  match m.2 with
  | .client (.receive d _) => some d
  | _ => none

def handledBy (m : Joint × Move) : Option (Packet × Endpoint) :=
  match m.2 with
  | .server (.handle packet origin _ _) => some (packet, origin)
  | _ => none

/-- `NI_MAXHOST`, with the zero behind the name. -/
def kMaxHost : Nat := 1025

/-- What the network can do: delay, repeat, lose and cut what the two send, and send what it
likes from any endpoint but the server's and those at which the client is seen. -/
def Carried (homes : Endpoint → Prop) (h : Story) (w : Joint) : Move → Prop
  | .server (.handle packet origin _ _) =>
    deserialize (serialize packet) = some packet ∧ origin.host.length < kMaxHost ∧
      (homes origin → ∃ m ∈ h, ∃ p ∈ requests m,
        deserialize ((serialize p).take kReceiveBufferSize) = some packet)
  | .client (.receive d _) => d.origin = w.client.server →
      ∃ m ∈ h, ∃ o ∈ replies C m, homes o.dest ∧ d.data = serialize o.packet
  | _ => True

instance (homes : Endpoint → Prop) [DecidablePred homes] (h : Story) (w : Joint) :
    ∀ m, Decidable (Carried C homes h w m)
  | .server (.handle _ _ _ _) => inferInstanceAs (Decidable (_ ∧ _ ∧ (_ → _)))
  | .client (.receive _ _) => inferInstanceAs (Decidable (_ → _))
  | .server (.expire _) => inferInstanceAs (Decidable True)
  | .client (.registerSelf _) => inferInstanceAs (Decidable True)
  | .client (.discover _ _) => inferInstanceAs (Decidable True)
  | .client (.sendConnect _ _ _) => inferInstanceAs (Decidable True)
  | .client (.heartbeat _) => inferInstanceAs (Decidable True)
  | .client (.disconnect _) => inferInstanceAs (Decidable True)
  | .client (.send _) => inferInstanceAs (Decidable True)
  | .client .timeout => inferInstanceAs (Decidable True)

/-- The addresses in the registry have names that a socket can have printed. -/
def Named (s : SignalingServer) : Prop :=
  ∀ key endpoint, s.registry.lookup (toHex key) = some endpoint → endpoint.host.length < kMaxHost

variable {C} {homes : Endpoint → Prop} {config : Config} {client : SignalingClient}
variable {h : Story} {w : Joint} {m : Move} {s : SignalingServer} {i : SignalingServer.Input}

theorem named_step (named : Named s)
    (horigin : ∀ packet origin now challenge, i = .handle packet origin now challenge →
      origin.host.length < kMaxHost) : Named (s.step C i) := by
  intro key endpoint hl
  have hold : (s.step C i).registry.peers.lookup (toHex key) =
      s.registry.peers.lookup (toHex key) → endpoint.host.length < kMaxHost := by
    intro hentry
    apply named key endpoint
    rw [← hl, PeerRegistry.lookup, PeerRegistry.lookup, hentry]
  rw [PeerRegistry.lookup] at hl
  cases step_effect (C := C) key s i with
  | none hentry _ => exact hold hentry
  | challenged _ _ _ _ hentry _ => exact hold hentry
  | refused _ _ _ _ _ _ hentry _ => exact hold hentry
  | registered origin now _ hr hentry _ =>
    rw [hentry] at hl
    obtain rfl : origin = endpoint := Option.some.inj hl
    obtain ⟨_, ⟨⟨packet, challenge, hi, -⟩, -⟩, -⟩ := hr
    exact horigin _ _ _ _ hi
  | refreshed origin now hc _ hentry _ =>
    rw [hentry] at hl
    obtain rfl : origin = endpoint := Option.some.inj hl
    obtain ⟨packet, challenge, hi, -⟩ := hc
    exact horigin _ _ _ _ hi
  | removed _ _ _ hentry _ =>
    rw [hentry] at hl
    cases hl
  | swept _ _ hentry _ =>
    rw [hentry] at hl
    obtain ⟨entry, hfilter, rfl⟩ := Option.map_eq_some_iff.mp hl
    apply named key
    rw [PeerRegistry.lookup, (Option.filter_eq_some_iff.mp hfilter).1]
    rfl

theorem fits_toString {endpoint : Endpoint} (hhost : endpoint.host.length < kMaxHost) :
    endpoint.toString.length ≤ 65535 := by
  have hlen := toString_length endpoint
  unfold kMaxHost at hhost
  omega

theorem fits_sends (named : Named s)
    (hinput : ∀ packet origin now challenge, i = .handle packet origin now challenge →
      Fits packet ∧ origin.host.length < kMaxHost) {o : Outgoing} (ho : o ∈ s.sends C i) :
    Fits o.packet := by
  cases i with
  | expire now => cases ho
  | handle packet origin now challenge =>
    obtain ⟨fits, hhost⟩ := hinput packet origin now challenge rfl
    cases hty : packet.type with
    | register =>
      simp only [SignalingServer.sends, SignalingServer.handle, hty,
        SignalingServer.handleRegister] at ho
      split_ifs at ho
      · cases ho
      · rw [List.mem_singleton.mp ho]
        refine ⟨rfl, Nat.zero_le _, Nat.zero_le _, ?_⟩
        rw [challenge.property]
        decide
      · split at ho
        · cases ho
        · split_ifs at ho
          · cases ho
          · cases ho
          · cases ho
          · rw [List.mem_singleton.mp ho]
            exact ⟨rfl, Nat.zero_le _, Nat.zero_le _, fits_toString hhost⟩
      · cases ho
    | discover =>
      by_cases hne : packet.destination = []
      · rw [sends_nowhere (Or.inl hty) hne] at ho
        cases ho
      · rw [sends_discover hty hne] at ho
        rw [List.mem_singleton.mp ho]
        refine ⟨rfl, fits.destination, Nat.zero_le _, ?_⟩
        cases hl : s.registry.lookup (toHex packet.destination) with
        | none => exact Nat.zero_le _
        | some endpoint => exact fits_toString (named _ _ hl)
    | connect =>
      by_cases hne : packet.destination = []
      · rw [sends_nowhere (Or.inr hty) hne] at ho
        cases ho
      · rw [sends_connect hty hne, Option.mem_toList, Option.map_eq_some_iff] at ho
        obtain ⟨endpoint, -, rfl⟩ := ho
        exact fits
    | heartbeat =>
      simp only [SignalingServer.sends, SignalingServer.handle, hty,
        SignalingServer.handleHeartbeat] at ho
      rw [List.mem_singleton.mp ho]
      exact ⟨rfl, Nat.zero_le _, Nat.zero_le _, Nat.zero_le _⟩
    | _ =>
      simp only [SignalingServer.sends, SignalingServer.handle, hty] at ho
      cases ho

structure Faithful (C : Sodium) (client : SignalingClient) (h : Story) (w : Joint) : Prop where
  named : Named w.server
  fits : ∀ m ∈ h, ∀ o ∈ replies C m, Fits o.packet
  fixed : w.client.server = client.server ∧ w.client.publicKey = client.publicKey ∧
    w.client.signer = client.signer

theorem Carried.input (carried : Carried C homes h w (.server i)) (packet : Packet)
    (origin : Endpoint) (now : Int) (challenge : Challenge)
    (hi : i = .handle packet origin now challenge) :
    Fits packet ∧ origin.host.length < kMaxHost := by
  rw [hi] at carried
  exact ⟨(serialize_deserialize carried.1).1, carried.2.1⟩

theorem faithful_step (faithful : Faithful C client h w) (carried : Carried C homes h w m) :
    Faithful C client ((w, m) :: h) (w.step C m) := by
  cases m with
  | server i =>
    refine ⟨?_, ?_, faithful.fixed⟩
    · exact named_step faithful.named fun packet origin now challenge hi =>
        (carried.input packet origin now challenge hi).2
    · exact List.forall_mem_cons.mpr
        ⟨fun o ho => fits_sends faithful.named carried.input ho, faithful.fits⟩
  | client e =>
    obtain ⟨hserver, hkey, hsigner⟩ := w.client.step_fixed e
    refine ⟨faithful.named, ?_, ?_⟩
    · exact List.forall_mem_cons.mpr ⟨nofun, faithful.fits⟩
    · exact ⟨hserver.trans faithful.fixed.1, hkey.trans faithful.fixed.2.1,
        hsigner.trans faithful.fixed.2.2⟩

theorem faithful_run (run : Run (Joint.step C) (Carried C homes) ⟨start config, client⟩ h w) :
    Faithful C client h w := by
  refine run.invariant (Faithful C client) ?_
    fun h w m _ faithful carried => faithful_step faithful carried
  refine ⟨fun key endpoint hl => ?_, fun m hm => ?_, rfl, rfl, rfl⟩
  · cases hl
  · cases hm

theorem readBy_eq_some {d : Datagram} :
    readBy (w, m) = some d ↔ ∃ takes, m = .client (.receive d takes) := by
  constructor
  · intro h
    unfold readBy at h
    split at h
    · next d' takes hm =>
      cases h
      exact ⟨takes, hm⟩
    · cases h
  · rintro ⟨takes, rfl⟩
    rfl

/-- What the client reads from the server's address, the server has sent to it. -/
theorem read_sent (faithful : Faithful C client h w) (carried : Carried C homes h w m)
    {d : Datagram} {packet : Packet} (hread : readBy (w, m) = some d)
    (horigin : d.origin = w.client.server) (hpacket : deserialize (receive d).data = some packet) :
    ∃ m' ∈ h, ∃ o ∈ replies C m', homes o.dest ∧ o.packet = packet ∧ d.data = serialize packet := by
  obtain ⟨takes, rfl⟩ := readBy_eq_some.mp hread
  obtain ⟨m', hm', o, ho, hdest, hdata⟩ := carried horigin
  have hcut : deserialize ((serialize o.packet).take kReceiveBufferSize) = some packet := by
    rw [← hdata]
    exact hpacket
  obtain rfl := deserialize_take (faithful.fits m' hm' o ho) hcut
  exact ⟨m', hm', o, ho, hdest, rfl, hdata⟩

theorem awaited_eq_some {expected : PacketType} {d : Datagram} {packet : Packet} :
    awaited expected d = some packet ↔
      deserialize (receive d).data = some packet ∧ packet.type = expected := by
  rw [awaited, Option.filter_eq_some_iff, decide_eq_true_eq]

/-- The CONNECT that a waiting `discover` takes in a move, with its target and the datagram. -/
def connectTaken (m : Joint × Move) : Option (Bytes × Datagram × Packet) :=
  match m.2, m.1.client.phase with
  | .client (.receive d _), .awaitConnect target _ =>
    (awaited .connect d).map fun resp => (target, d, resp)
  | _, _ => none

theorem connectTaken_eq_some {m : Joint × Move} {target : Bytes} {d : Datagram} {resp : Packet} :
    connectTaken m = some (target, d, resp) ↔
      (∃ attempts, m.1.client.phase = .awaitConnect target attempts) ∧ readBy m = some d ∧
        awaited .connect d = some resp := by
  unfold connectTaken readBy
  constructor
  · intro h
    split at h
    · next d' takes target' attempts hm hphase =>
      obtain ⟨resp', hawait, heq⟩ := Option.map_eq_some_iff.mp h
      cases heq
      exact ⟨⟨attempts, hphase⟩, by rw [hm], hawait⟩
    · cases h
  · rintro ⟨⟨attempts, hphase⟩, hread, hawait⟩
    split at hread
    · next d' takes hm =>
      cases hread
      simp only [hm, hphase, hawait, Option.map_some]
    · cases hread

theorem discovers_iff {target : Bytes} {attempts : Nat} {endpoint : Option Endpoint}
    (hphase : w.client.phase = .awaitConnect target attempts) :
    (w.step C m).client.phase = .discovered ⟨true, endpoint⟩ ↔
      ∃ d resp, connectTaken (w, m) = some (target, d, resp) ∧
        parseEndpoint resp.payload = endpoint := by
  constructor
  · intro h
    cases m with
    | server i =>
      rw [Joint.step, hphase] at h
      cases h
    | client e =>
      cases e with
      | receive d takes =>
        cases hawait : awaited .connect d with
        | none =>
          simp only [Joint.step, SignalingClient.step, hphase, hawait] at h
          cases h
        | some resp =>
          simp only [Joint.step, SignalingClient.step, hphase, hawait] at h
          cases h
          exact ⟨d, resp, connectTaken_eq_some.mpr ⟨⟨attempts, hphase⟩, rfl, hawait⟩, rfl⟩
      | timeout =>
        simp only [Joint.step, SignalingClient.step, hphase] at h
        cases attempts with
        | zero => cases h
        | succ attempts => cases h
      | _ =>
        simp only [Joint.step, SignalingClient.step, SignalingClient.busy, hphase,
          ↓reduceIte] at h
        cases h
  · rintro ⟨d, resp, htaken, rfl⟩
    obtain ⟨-, hread, hawait⟩ := connectTaken_eq_some.mp htaken
    obtain ⟨takes, rfl⟩ := readBy_eq_some.mp hread
    simp only [Joint.step, SignalingClient.step, hphase, hawait]

/-- When `discover` returns an answer, the server has sent it in reply to a DISCOVER of the client
for this target, and it says where the target was registered. -/
def Answered (C : Sodium) (homes : Endpoint → Prop) (h : Story) (m : Joint × Move) : Prop :=
  ∀ target attempts endpoint, m.1.client.phase = .awaitConnect target attempts →
    (m.1.step C m.2).client.phase = .discovered ⟨true, endpoint⟩ →
      ∃ d, readBy m = some d ∧ d.origin = m.1.client.server ∧
        ∃ m' ∈ h, ∃ packet origin resp, handledBy m' = some (packet, origin) ∧
          packet.type = .discover ∧ packet.destination = target ∧ homes origin ∧
            replies C m' = [⟨origin, resp⟩] ∧ d.data = serialize resp ∧
              endpoint = m'.1.server.registry.lookup (toHex target)

/-- A CONNECT that `discover` takes comes from the server, is about the target, and is addressed
to nobody. -/
def Checked (m : Joint × Move) : Prop :=
  ∀ target d resp, connectTaken m = some (target, d, resp) →
    d.origin = m.1.client.server ∧ resp.source = target ∧ resp.destination = []

theorem handledBy_eq_some {m : Joint × Move} {packet : Packet} {origin : Endpoint} :
    handledBy m = some (packet, origin) ↔
      ∃ now challenge, m.2 = .server (.handle packet origin now challenge) := by
  unfold handledBy
  constructor
  · intro h
    split at h
    · next packet' origin' now challenge hm =>
      cases h
      exact ⟨now, challenge, hm⟩
    · cases h
  · rintro ⟨now, challenge, hm⟩
    rw [hm]

theorem replies_connect {m : Joint × Move} {o : Outgoing} (ho : o ∈ replies C m)
    (hty : o.packet.type = .connect) (hnobody : o.packet.destination = []) :
    ∃ packet, handledBy m = some (packet, o.dest) ∧ packet.type = .discover ∧
      packet.destination = o.packet.source ∧ replies C m = [o] ∧ o.packet.payload =
        ((m.1.server.registry.lookup (toHex packet.destination)).map Endpoint.toString).getD [] := by
  obtain ⟨w, m⟩ := m
  cases m with
  | client e => cases ho
  | server i =>
    cases i with
    | expire now => cases ho
    | handle packet origin now challenge =>
      have ho : o ∈ w.server.sends C (.handle packet origin now challenge) := ho
      cases hp : packet.type with
      | discover =>
        by_cases hne : packet.destination = []
        · rw [sends_nowhere (Or.inl hp) hne] at ho
          cases ho
        · rw [sends_discover hp hne] at ho
          obtain rfl := List.mem_singleton.mp ho
          exact ⟨packet, rfl, hp, rfl, sends_discover hp hne, rfl⟩
      | connect =>
        by_cases hne : packet.destination = []
        · rw [sends_nowhere (Or.inr hp) hne] at ho
          cases ho
        · rw [sends_connect hp hne, Option.mem_toList, Option.map_eq_some_iff] at ho
          obtain ⟨endpoint, -, rfl⟩ := ho
          exact absurd hnobody hne
      | register =>
        simp only [SignalingServer.sends, SignalingServer.handle, hp,
          SignalingServer.handleRegister] at ho
        split_ifs at ho
        · cases ho
        · rw [List.mem_singleton.mp ho] at hty
          cases hty
        · split at ho
          · cases ho
          · split_ifs at ho
            · cases ho
            · cases ho
            · cases ho
            · rw [List.mem_singleton.mp ho] at hty
              cases hty
        · cases ho
      | heartbeat =>
        simp only [SignalingServer.sends, SignalingServer.handle, hp,
          SignalingServer.handleHeartbeat] at ho
        rw [List.mem_singleton.mp ho] at hty
        cases hty
      | _ =>
        simp only [SignalingServer.sends, SignalingServer.handle, hp] at ho
        cases ho

theorem parse_reply (endpoint : Option Endpoint) :
    parseEndpoint ((endpoint.map Endpoint.toString).getD []) = endpoint := by
  cases endpoint with
  | none => rfl
  | some endpoint => exact parseEndpoint_toString endpoint

theorem answered_iff (faithful : Faithful C client h w) (carried : Carried C homes h w m) :
    Answered C homes h (w, m) ↔ Checked (w, m) := by
  constructor
  · intro answered target d resp htaken
    obtain ⟨⟨attempts, hphase⟩, hread, hawait⟩ := connectTaken_eq_some.mp htaken
    obtain ⟨d', hread', horigin, m', hm', packet, origin, resp', hhandled, hty, rfl, -, hreplies,
      hdata, -⟩ := answered target attempts _ hphase
        ((discovers_iff hphase).mpr ⟨d, resp, htaken, rfl⟩)
    obtain rfl : d = d' := Option.some.inj (hread.symm.trans hread')
    have hmem : (⟨origin, resp'⟩ : Outgoing) ∈ replies C m' := by
      rw [hreplies]
      exact List.mem_singleton_self _
    have hcut : deserialize ((serialize resp').take kReceiveBufferSize) = some resp := by
      rw [← hdata]
      exact (awaited_eq_some.mp hawait).1
    obtain rfl := deserialize_take (faithful.fits m' hm' _ hmem) hcut
    obtain ⟨now, challenge, hmove⟩ := handledBy_eq_some.mp hhandled
    simp only [replies, hmove] at hreplies
    by_cases hne : packet.destination = []
    · rw [sends_nowhere (Or.inl hty) hne] at hreplies
      cases hreplies
    · rw [sends_discover hty hne] at hreplies
      cases hreplies
      exact ⟨horigin, rfl, rfl⟩
  · intro checked target attempts endpoint hphase hreturn
    obtain ⟨d, resp, htaken, rfl⟩ := (discovers_iff hphase).mp hreturn
    obtain ⟨horigin, rfl, hnobody⟩ := checked target d resp htaken
    obtain ⟨-, hread, hawait⟩ := connectTaken_eq_some.mp htaken
    obtain ⟨hpacket, hty⟩ := awaited_eq_some.mp hawait
    obtain ⟨m', hm', o, ho, hdest, rfl, hdata⟩ := read_sent faithful carried hread horigin hpacket
    obtain ⟨packet, hhandled, hdiscover, htarget, hreplies, hpayload⟩ :=
      replies_connect ho hty hnobody
    refine ⟨d, hread, horigin, m', hm', packet, o.dest, o.packet, hhandled, hdiscover, htarget,
      hdest, hreplies, hdata, ?_⟩
    rw [hpayload, parse_reply, htarget]

/-- In a run, every answer of `discover` is the answer of its server for its target, exactly if
every CONNECT that it takes comes from the server, is about the target and is no relayed one. -/
theorem discover_answered
    (run : Run (Joint.step C) (Carried C homes) ⟨start config, client⟩ h w) :
    Run.Each (Answered C homes) h ↔ ∀ m ∈ h, Checked m := by
  rw [← Run.each_iff_forall]
  exact run.each_congr fun _ _ _ run carried => answered_iff (faithful_run run) carried

def asker : SignalingClient :=
  { server := ⟨[83], 3⟩, publicKey := (identity 66).publicKey
    signer := some fun challenge => (identity 66).publicKey ++ challenge }

def SeenElsewhere (endpoint : Endpoint) : Prop := endpoint = elsewhere

instance : DecidablePred SeenElsewhere := fun endpoint =>
  inferInstanceAs (Decidable (endpoint = elsewhere))

def stranger : Bytes := (identity 67).publicKey

def wanted (target : Bytes) : Packet := { type := .discover, destination := target }

def found : Packet := { type := .connect, source := owned, payload := home.toString }

def looking : List Move :=
  (registration 0).map .server ++
    [.client (.discover owned 1), .client (.send true),
     .server (.handle (wanted owned) elsewhere 1 nonce)]

def talk (script : List Move) : Story × Joint :=
  Run.replay (Joint.step reference) [] ⟨start {}, asker⟩ script

def answered : List Move := looking ++ [.client (.receive ⟨asker.server, serialize found⟩ true)]

theorem discover_answered_found :
    Run.Each (Answered reference SeenElsewhere) (talk answered).1 ∧
      (talk answered).2.client.phase = .discovered ⟨true, some home⟩ := by
  have run : Run (Joint.step reference) (Carried reference SeenElsewhere) ⟨start {}, asker⟩
      (talk answered).1 (talk answered).2 := Run.replay_run .start (by decide +kernel)
  refine ⟨(discover_answered run).mpr fun m hm target d resp htaken => ?_, by decide +kernel⟩
  have hall : ∀ m ∈ (talk answered).1, ∀ t ∈ connectTaken m,
      t.2.1.origin = m.1.client.server ∧ t.2.2.source = t.1 ∧ t.2.2.destination = [] := by
    decide +kernel
  exact hall m hm _ htaken

/-- The answer is late. It is read when the client asks for another key, and is taken for the
answer about that key. -/
def overtaken : List Move :=
  looking ++ [.client .timeout, .client (.discover stranger 1), .client (.send true),
    .client (.receive ⟨asker.server, serialize found⟩ true)]

theorem late_answer_taken :
    Run (Joint.step reference) (Carried reference SeenElsewhere) ⟨start {}, asker⟩
      (talk overtaken).1 (talk overtaken).2 ∧
    (talk overtaken).2.client.phase = .discovered ⟨true, some home⟩ ∧
    (∀ m ∈ (talk overtaken).1, ∀ p ∈ handledBy m, p.1.destination ≠ stranger) ∧
    (talk overtaken).2.server.registry.lookup (toHex stranger) = none ∧
    ¬ Run.Each (Answered reference SeenElsewhere) (talk overtaken).1 := by
  have hhandled : ∀ m ∈ (talk overtaken).1, ∀ p ∈ handledBy m, p.1.destination ≠ stranger := by
    decide +kernel
  have hphase : (talk overtaken).2.client.phase = .discovered ⟨true, some home⟩ := by
    decide +kernel
  have hbefore : (talk (overtaken.take 8)).2.client.phase = .awaitConnect stranger 0 := by
    decide +kernel
  refine ⟨Run.replay_run .start (by decide +kernel), hphase, hhandled, by decide +kernel, ?_⟩
  rintro ⟨answered, -⟩
  obtain ⟨-, -, -, m', hm', packet, origin, -, hm, -, hdestination, -⟩ :=
    answered stranger 0 (some home) hbefore hphase
  exact hhandled m' (List.mem_cons_of_mem _ hm') _ hm hdestination

end OpenMesh.Signaling.Dialogue
