import OpenMesh.Signaling.Challenges
import OpenMesh.Signaling.Dialogue

namespace OpenMesh.Signaling.Registration

open OpenMesh.Core.Buffers OpenMesh.Core.Hex OpenMesh.Crypto.Primitives
open OpenMesh.Crypto.Reference OpenMesh.Library.Runs
open OpenMesh.Protocol.Envelope OpenMesh.Protocol.EnvelopeCodec
open OpenMesh.Net.Transport OpenMesh.Net.Addresses OpenMesh.Net.Client
open OpenMesh.Signaling.Server OpenMesh.Signaling.Steps OpenMesh.Signaling.Routability
open OpenMesh.Signaling.Challenges OpenMesh.Signaling.Dialogue

/-- The ACK that a waiting `register_self` takes in a move. -/
def ackTaken (m : Joint × Move) : Option Packet :=
  match m.2, m.1.client.phase with
  | .client (.receive d _), .awaitAck _ => awaited .ack d
  | _, _ => none

/-- Since the client was called to register, and has not returned from it, this happened. -/
def DuringCall (Q : Joint × Move → Prop) (h : Story) : Prop :=
  ∃ newer v attempts older, h = newer ++ (v, .client (.registerSelf attempts)) :: older ∧
    v.client.busy = false ∧ (∀ m ∈ newer, m.1.client.busy = true) ∧ ∃ m ∈ newer, Q m

def Admits (C : Sodium) (key : Bytes) (origin : Endpoint) (m : Joint × Move) : Prop :=
  ∃ i now it, m.2 = .server i ∧ Registers C key origin now it m.1.server i ∧
    (m.1.server.step C i).registry.lookup (toHex key) = some origin

/-- When `register_self` returns true, the server has registered the key of the client during the
call, where it sees the client, and the client takes that for its public endpoint. -/
def Genuine (C : Sodium) (homes : Endpoint → Prop) (h : Story) (m : Joint × Move) : Prop :=
  m.1.client.busy = true → (m.1.step C m.2).client.phase = .registered true →
    ∃ origin, homes origin ∧ (m.1.step C m.2).client.publicEndpoint = some origin ∧
      DuringCall (Admits C m.1.client.publicKey origin) h

def Acknowledges (C : Sodium) (homes : Endpoint → Prop) (endpoint : Option Endpoint)
    (m : Joint × Move) : Prop :=
  ∃ o ∈ replies C m, homes o.dest ∧ o.packet.type = .ack ∧
    parseEndpoint o.packet.payload = endpoint

/-- An ACK that `register_self` takes says what an ACK says that the server has sent the client
during the call. -/
def Vouched (C : Sodium) (homes : Endpoint → Prop) (h : Story) (m : Joint × Move) : Prop :=
  ∀ ack, ackTaken m = some ack → DuringCall (Acknowledges C homes (parseEndpoint ack.payload)) h

variable {C : Sodium} {homes : Endpoint → Prop} {config : Config} {client : SignalingClient}
variable {h : Story} {w : Joint} {m : Move}

theorem ackTaken_eq_some {m : Joint × Move} {ack : Packet} :
    ackTaken m = some ack ↔ (∃ attempts, m.1.client.phase = .awaitAck attempts) ∧
      ∃ d, readBy m = some d ∧ awaited .ack d = some ack := by
  unfold ackTaken readBy
  constructor
  · intro h
    split at h
    · next d takes attempts hm hphase => exact ⟨⟨attempts, hphase⟩, d, by rw [hm], h⟩
    · cases h
  · rintro ⟨⟨attempts, hphase⟩, d, hread, hawait⟩
    split at hread
    · next d' takes hm =>
      cases hread
      simp only [hm, hphase, hawait]
    · cases hread

theorem tryRegister_returns (c : SignalingClient) (attempts : Nat) :
    (c.tryRegister attempts).phase ≠ .registered true := by
  cases attempts <;> nofun

theorem tryDiscover_returns (c : SignalingClient) (target : Bytes) (attempts : Nat) :
    (c.tryDiscover target attempts).phase ≠ .registered true := by
  cases attempts <;> nofun

/-- `register_self` returns true when it takes an ACK, and then only. -/
theorem registers_iff (hbusy : w.client.busy = true) :
    (w.step C m).client.phase = .registered true ↔ ∃ ack, ackTaken (w, m) = some ack := by
  have hidle : w.client.phase ≠ .registered true := by
    intro hphase
    rw [SignalingClient.busy, hphase] at hbusy
    cases hbusy
  constructor
  · intro h
    cases m with
    | server i => exact absurd h hidle
    | client e =>
      cases e with
      | receive d takes =>
        simp only [Joint.step, SignalingClient.step] at h
        split at h
        · split at h
          · split at h
            · cases h
            · exact absurd h (tryRegister_returns _ _)
          · exact absurd h hidle
        · next attempts hphase =>
          cases hawait : awaited .ack d with
          | none =>
            rw [hawait] at h
            exact absurd h hidle
          | some ack => exact ⟨ack, ackTaken_eq_some.mpr ⟨⟨attempts, hphase⟩, d, rfl, hawait⟩⟩
        · split at h
          · cases h
          · exact absurd h hidle
        · split at h
          · cases h
          · exact absurd h hidle
        · exact absurd h hidle
      | send takes =>
        simp only [Joint.step, SignalingClient.step] at h
        split at h
        · split at h
          · cases h
          · exact absurd h (tryRegister_returns _ _)
        · split at h
          · cases h
          · exact absurd h (tryDiscover_returns _ _ _)
        · exact absurd h hidle
      | timeout =>
        simp only [Joint.step, SignalingClient.step] at h
        split at h
        · exact absurd h (tryRegister_returns _ _)
        · exact absurd h (tryRegister_returns _ _)
        · exact absurd h (tryDiscover_returns _ _ _)
        · cases h
        · exact absurd h hidle
      | _ =>
        simp only [Joint.step, SignalingClient.step, hbusy, ↓reduceIte] at h
        exact absurd h hidle
  · rintro ⟨ack, htaken⟩
    obtain ⟨⟨attempts, hphase⟩, d, hread, hawait⟩ := ackTaken_eq_some.mp htaken
    obtain ⟨takes, rfl⟩ := readBy_eq_some.mp hread
    have hphase : w.client.phase = .awaitAck attempts := hphase
    simp only [Joint.step, SignalingClient.step, hphase, hawait]

theorem ackTaken_endpoint {ack : Packet} (htaken : ackTaken (w, m) = some ack) :
    w.client.busy = true ∧ (w.step C m).client.publicEndpoint = parseEndpoint ack.payload := by
  obtain ⟨⟨attempts, hphase⟩, d, hread, hawait⟩ := ackTaken_eq_some.mp htaken
  obtain ⟨takes, rfl⟩ := readBy_eq_some.mp hread
  have hphase : w.client.phase = .awaitAck attempts := hphase
  simp only [Joint.step, SignalingClient.step, SignalingClient.busy, hphase, hawait, and_self]

theorem requests_register {m : Joint × Move} {p : Packet} (hp : p ∈ requests m)
    (hty : p.type = .register) : p.source = m.1.client.publicKey ∧ p.destination = [] := by
  obtain ⟨w, m⟩ := m
  cases m with
  | server i => cases hp
  | client e =>
    have hp : p ∈ (w.client.step e).2 := hp
    have hone : ∀ q : Packet, p ∈ [q] → (q.type = .register → q.source = w.client.publicKey ∧
        q.destination = []) → p.source = w.client.publicKey ∧ p.destination = [] := by
      intro q hq hall
      obtain rfl := List.mem_singleton.mp hq
      exact hall hty
    cases e
    all_goals
      dsimp only [SignalingClient.step] at hp
      repeat' split at hp
    all_goals first | cases hp; done | exact hone _ hp fun _ => ⟨rfl, rfl⟩ | exact hone _ hp nofun

theorem acknowledges_iff (hkey : client.publicKey.length = kPublicKeyBytes)
    (run : Run (Joint.step C) (Carried C homes) ⟨start config, client⟩ h w) {m : Joint × Move}
    (hm : m ∈ h) {endpoint : Option Endpoint} :
    Acknowledges C homes endpoint m ↔
      ∃ origin, homes origin ∧ endpoint = some origin ∧ Admits C client.publicKey origin m := by
  constructor
  · rintro ⟨o, ho, hdest, hack, rfl⟩
    obtain ⟨newer, older, -, run', carried⟩ := run.of_mem hm
    obtain ⟨v, m⟩ := m
    cases m with
    | client e => cases ho
    | server i =>
      obtain ⟨key, now, it, hr⟩ := ack_registers ho hack
      obtain ⟨signature, ⟨⟨packet, challenge, rfl, hty, rfl, -⟩, -⟩, -⟩ := id hr
      obtain ⟨-, -, hclient⟩ := carried
      obtain ⟨m', hm', p, hp, hcut⟩ := hclient hdest
      obtain ⟨_, _, -, run'', -⟩ := run'.of_mem hm'
      obtain ⟨hsource, hnobody⟩ :=
        requests_register hp ((deserialize_take_type hcut).symm.trans hty)
      rw [(faithful_run run'').fixed.2.1] at hsource
      have henvelope := deserialize_take_envelope (p := p)
        (by rw [hsource, hkey]; decide) (by rw [hnobody]; decide) hcut
      have hown : packet.source = client.publicKey := henvelope.1.2.2.2.2.1.trans hsource
      rw [hown] at hr
      obtain ⟨hl, hsends⟩ := registers_step hr
      have hpacket : o.packet = { type := .ack, payload := o.dest.toString } := by
        have ho' : o ∈ v.server.sends C (.handle packet o.dest now challenge) := ho
        rw [hsends] at ho'
        rw [List.mem_singleton.mp ho']
      refine ⟨o.dest, hdest, ?_, _, now, it, rfl, hr, hl⟩
      rw [hpacket]
      exact parseEndpoint_toString o.dest
  · rintro ⟨origin, horigin, rfl, i, now, it, hi, hr, -⟩
    obtain ⟨v, m⟩ := m
    obtain rfl : m = .server i := hi
    have hsends : v.server.sends C i = _ := (registers_step hr).2
    refine ⟨⟨origin, { type := .ack, payload := origin.toString }⟩, ?_, horigin, rfl,
      parseEndpoint_toString origin⟩
    show _ ∈ v.server.sends C i
    rw [hsends]
    exact List.mem_singleton_self _

theorem genuine_iff (hkey : client.publicKey.length = kPublicKeyBytes)
    (run : Run (Joint.step C) (Carried C homes) ⟨start config, client⟩ h w) :
    Genuine C homes h (w, m) ↔ Vouched C homes h (w, m) := by
  have hfixed : w.client.publicKey = client.publicKey := (faithful_run run).fixed.2.1
  constructor
  · intro genuine ack htaken
    obtain ⟨hbusy, hendpoint⟩ := ackTaken_endpoint (C := C) htaken
    obtain ⟨origin, horigin, hpublic, newer, v, attempts, older, rfl, hstart, hsince, m', hm',
      hadmits⟩ := genuine hbusy ((registers_iff hbusy).mpr ⟨ack, htaken⟩)
    refine ⟨newer, v, attempts, older, rfl, hstart, hsince, m', hm', ?_⟩
    have hmem : m' ∈ newer ++ (v, .client (.registerSelf attempts)) :: older :=
      List.mem_append_left _ hm'
    exact (acknowledges_iff hkey run hmem).mpr
      ⟨origin, horigin, hendpoint.symm.trans hpublic, hfixed ▸ hadmits⟩
  · intro vouched hbusy hreturn
    obtain ⟨ack, htaken⟩ := (registers_iff hbusy).mp hreturn
    obtain ⟨-, hendpoint⟩ := ackTaken_endpoint (C := C) htaken
    obtain ⟨newer, v, attempts, older, rfl, hstart, hsince, m', hm', hack⟩ := vouched ack htaken
    have hmem : m' ∈ newer ++ (v, .client (.registerSelf attempts)) :: older :=
      List.mem_append_left _ hm'
    obtain ⟨origin, horigin, hsays, hadmits⟩ := (acknowledges_iff hkey run hmem).mp hack
    exact ⟨origin, horigin, hendpoint.trans hsays, newer, v, attempts, older, rfl, hstart, hsince,
      m', hm', hfixed ▸ hadmits⟩

/-- In a run, `register_self` reports nothing but registrations, exactly if every ACK that it takes
says what the server has told the client during the call. -/
theorem registered_genuine (hkey : client.publicKey.length = kPublicKeyBytes)
    (run : Run (Joint.step C) (Carried C homes) ⟨start config, client⟩ h w) :
    Run.Each (Genuine C homes) h ↔ Run.Each (Vouched C homes) h :=
  run.each_congr fun _ _ _ run _ => genuine_iff hkey run

def ask : Packet := { type := .register, source := asker.publicKey }

def challenged (challenge : Challenge) : Packet := { type := .hello, payload := challenge.val }

def signed (challenge : Challenge) : Packet := asker.signedRegister challenge.val

def acknowledged (endpoint : Endpoint) : Packet := { type := .ack, payload := endpoint.toString }

def reading (origin : Endpoint) (packet : Packet) : Move :=
  .client (.receive ⟨origin, serialize packet⟩ true)

def registering : List Move :=
  [.client (.registerSelf 2), .client (.send true), .server (.handle ask elsewhere 0 nonce),
   reading asker.server (challenged nonce), .server (.handle (signed nonce) elsewhere 0 nonce),
   reading asker.server (acknowledged elsewhere)]

instance [DecidablePred homes] (endpoint : Option Endpoint) (m : Joint × Move) :
    Decidable (Acknowledges C homes endpoint m) :=
  inferInstanceAs (Decidable (∃ o ∈ replies C m, homes o.dest ∧ o.packet.type = .ack ∧
    parseEndpoint o.packet.payload = endpoint))

theorem registered_genuine_asker :
    Run.Each (Genuine reference SeenElsewhere) (talk registering).1 ∧
      (talk registering).2.client.phase = .registered true ∧
        (talk registering).2.client.publicEndpoint = some elsewhere := by
  have run : Run (Joint.step reference) (Carried reference SeenElsewhere) ⟨start {}, asker⟩
      (talk registering).1 (talk registering).2 := Run.replay_run .start (by decide +kernel)
  have hnone : ∀ m ∈ (talk (registering.take 5)).1, ackTaken m = none := by decide +kernel
  refine ⟨(registered_genuine rfl run).mpr ⟨fun ack htaken => ?_, ?_⟩, by decide +kernel,
    by decide +kernel⟩
  · have hack : ackTaken ((talk (registering.take 5)).2, reading asker.server
        (acknowledged elsewhere)) = some (acknowledged elsewhere) := by decide +kernel
    obtain rfl := Option.some.inj (hack.symm.trans htaken)
    refine ⟨(talk (registering.take 5)).1.take 4, ⟨start {}, asker⟩, 2, [], rfl, rfl,
      by decide +kernel, _, List.mem_cons_self, by decide +kernel⟩
  · apply Run.each_of_forall
    intro m hm older ack htaken
    rw [hnone m hm] at htaken
    cases htaken

def forged : List Move :=
  [.client (.registerSelf 1), .client (.send true), reading home (challenged nonce),
   reading home (acknowledged home)]

theorem forged_ack_taken :
    Run (Joint.step reference) (Carried reference SeenElsewhere) ⟨start {}, asker⟩
      (talk forged).1 (talk forged).2 ∧
    (talk forged).2.client.phase = .registered true ∧
    (talk forged).2.client.publicEndpoint = some home ∧
    (talk forged).2.server.registry.lookup (toHex asker.publicKey) = none ∧
    ¬ Run.Each (Genuine reference SeenElsewhere) (talk forged).1 := by
  have hphase : (talk forged).2.client.phase = .registered true := by decide +kernel
  have hpublic : (talk forged).2.client.publicEndpoint = some home := by decide +kernel
  refine ⟨Run.replay_run .start (by decide +kernel), hphase, hpublic, by decide +kernel, ?_⟩
  rintro ⟨genuine, -⟩
  obtain ⟨origin, horigin, hsays, -⟩ := genuine (by decide +kernel) hphase
  obtain rfl : origin = elsewhere := horigin
  exact absurd (hpublic.symm.trans hsays) (by decide)

def waits (c : SignalingClient) : Bool :=
  match c.phase with
  | .awaitHello _ | .awaitAck _ => true
  | _ => false

def refused (m : Joint × Move) : Bool :=
  match m.2, m.1.client.phase with
  | .client (.receive d false), .awaitHello _ => (awaited .hello d).isSome
  | _, _ => false

/-- The OS takes what is sent in the move, and it arrives in a later one. -/
def Arrives (C : Sodium) (homes : Endpoint → Prop) (later : Story) (m : Joint × Move) : Prop :=
  refused m = false ∧
    (∀ p ∈ requests m, ∃ m' ∈ later, ∃ q ∈ handledBy m', q.1 = p ∧ homes q.2) ∧
    ∀ o ∈ replies C m, homes o.dest →
      ∃ m' ∈ later, readBy m' = some ⟨m.1.client.server, serialize o.packet⟩

/-- Nothing that is sent in these moves is lost, or late. -/
def Settled (C : Sodium) (homes : Endpoint → Prop) (moves : Story) : Prop :=
  Run.Each (Arrives C homes) moves.reverse

def signedBy (m : Joint × Move) : Option Bytes :=
  match m.2 with
  | .client e => m.1.client.signs e
  | .server _ => none

/-- A REGISTER that was signed in a try that still goes on, when it arrives for the first time:
the challenge that it signs is the one pending for the key where it comes from, and has not run
out. -/
def Timely (homes : Endpoint → Prop) (h : Story) (m : Joint × Move) : Prop :=
  ∀ newer x older challenge origin now drawn, h = newer ++ x :: older →
    signedBy x = some challenge → (∀ m' ∈ newer, waits m'.1.client = true) →
      waits m.1.client = true →
        (∀ m' ∈ newer, ¬ ∃ q ∈ handledBy m', q.1 = x.1.client.signedRegister challenge ∧ homes q.2) →
          m.2 = .server (.handle (x.1.client.signedRegister challenge) origin now drawn) →
            homes origin → ∃ it, m.1.server.pending.lookup (toHex m.1.client.publicKey) = some it ∧
              it.challenge.val = challenge ∧ it.endpoint = origin ∧ now ≤ it.expiry

theorem waits_step {c : SignalingClient} {e : Event} (hw : waits c = true)
    (hw' : waits (c.step e).1 = true) :
    (c.step e).1.phase = c.phase ∨ ∃ attempts d challenge, c.phase = .awaitHello attempts ∧
      e = .receive d true ∧ c.signs e = some challenge ∧
        (c.step e).1.phase = .awaitAck attempts := by
  have hregister : ∀ attempts, waits (c.tryRegister attempts) = false := by
    intro attempts
    cases attempts <;> rfl
  have hbusy : c.busy = true := by
    unfold waits at hw
    unfold SignalingClient.busy
    split at hw
    · next hphase => rw [hphase]
    · next hphase => rw [hphase]
    · cases hw
  cases e with
  | receive d takes =>
    cases hphase : c.phase with
    | awaitHello attempts =>
      cases hawait : awaited .hello d with
      | none =>
        left
        simp only [SignalingClient.step, hphase, hawait]
      | some challenge =>
        cases takes with
        | false =>
          simp only [SignalingClient.step, hphase, hawait, Bool.false_eq_true, ↓reduceIte,
            hregister] at hw'
        | true =>
          right
          refine ⟨attempts, d, challenge.payload, rfl, rfl, ?_, ?_⟩
          · simp only [SignalingClient.signs, hphase, hawait, Option.map_some]
          · simp only [SignalingClient.step, hphase, hawait, ↓reduceIte]
    | awaitAck attempts =>
      cases hawait : awaited .ack d with
      | none =>
        left
        simp only [SignalingClient.step, hphase, hawait]
      | some ack =>
        simp only [SignalingClient.step, hphase, hawait, waits, Bool.false_eq_true] at hw'
    | _ =>
      rw [waits, hphase] at hw
      cases hw
  | send takes =>
    left
    simp only [SignalingClient.step]
    split
    · next hphase =>
      rw [waits, hphase] at hw
      cases hw
    · next hphase =>
      rw [waits, hphase] at hw
      cases hw
    · rfl
  | timeout =>
    simp only [SignalingClient.step] at hw'
    split at hw'
    · rw [hregister] at hw'
      cases hw'
    · rw [hregister] at hw'
      cases hw'
    · next hphase =>
      rw [waits, hphase] at hw
      cases hw
    · next hphase =>
      rw [waits, hphase] at hw
      cases hw
    · left
      simp only [SignalingClient.step]
  | _ =>
    left
    simp only [SignalingClient.step, hbusy, ↓reduceIte]

section Attempt

variable {ok : Story → Joint → Move → Prop} {s₀ v : Joint} {newer older : Story}

theorem hello_or_signed {attempts : Nat}
    (run : Run (Joint.step C) ok s₀ (newer ++ (v, .client (.send true)) :: older) w)
    (hphase : v.client.phase = .request attempts)
    (hwaits : ∀ m ∈ newer, waits m.1.client = true) (hw : waits w.client = true) :
    w.client.phase = .awaitHello attempts ∨ ∃ later u d earlier challenge,
      newer = later ++ (u, .client (.receive d true)) :: earlier ∧
        u.client.signs (.receive d true) = some challenge := by
  induction newer generalizing w with
  | nil =>
    cases run with
    | move _ _ =>
      left
      simp only [Joint.step, SignalingClient.step, hphase, ↓reduceIte]
  | cons m newer ih =>
    have hcons := List.forall_mem_cons.mp hwaits
    cases run with
    | @move _ s i run _ =>
      obtain hhello | ⟨later, u, d, earlier, challenge, rfl, hsigns⟩ := ih run hcons.2 hcons.1
      · cases i with
        | server i => exact Or.inl hhello
        | client e =>
          obtain hsame | ⟨attempts', d, challenge, -, rfl, hsigns, -⟩ := waits_step hcons.1 hw
          · exact Or.inl (hsame.trans hhello)
          · exact Or.inr ⟨[], s, d, newer, challenge, rfl, hsigns⟩
      · exact Or.inr ⟨_ :: later, u, d, earlier, challenge, rfl, hsigns⟩

theorem signed_awaits {d : Datagram} {challenge : Bytes}
    (run : Run (Joint.step C) ok s₀ (newer ++ (v, .client (.receive d true)) :: older) w)
    (hsigns : v.client.signs (.receive d true) = some challenge)
    (hwaits : ∀ m ∈ newer, waits m.1.client = true) (hw : waits w.client = true) :
    ∃ attempts, w.client.phase = .awaitAck attempts := by
  induction newer generalizing w with
  | nil =>
    cases run with
    | move _ _ =>
      simp only [SignalingClient.signs] at hsigns
      split at hsigns
      · next attempts hphase =>
        obtain ⟨packet, hawait, -⟩ := Option.map_eq_some_iff.mp hsigns
        refine ⟨attempts, ?_⟩
        simp only [Joint.step, SignalingClient.step, hphase, hawait, ↓reduceIte]
      · cases hsigns
  | cons m newer ih =>
    have hcons := List.forall_mem_cons.mp hwaits
    cases run with
    | @move _ s i run _ =>
      obtain ⟨attempts, hack⟩ := ih run hcons.2 hcons.1
      cases i with
      | server i => exact ⟨attempts, hack⟩
      | client e =>
        obtain hsame | ⟨attempts', d', challenge', hhello, -⟩ := waits_step hcons.1 hw
        · exact ⟨attempts, hsame.trans hack⟩
        · rw [hack] at hhello
          cases hhello

end Attempt

theorem Settled.later {newer older : Story} {m : Joint × Move}
    (settled : Settled C homes (newer ++ m :: older)) : Arrives C homes newer m := by
  unfold Settled at settled
  rw [List.reverse_append, List.reverse_cons, List.append_assoc, List.singleton_append] at settled
  obtain ⟨hrefused, hrequests, hreplies⟩ := settled.split
  refine ⟨hrefused, fun p hp => ?_, fun o ho hdest => ?_⟩
  · obtain ⟨m', hm', hq⟩ := hrequests p hp
    exact ⟨m', List.mem_reverse.mp hm', hq⟩
  · obtain ⟨m', hm', hd⟩ := hreplies o ho hdest
    exact ⟨m', List.mem_reverse.mp hm', hd⟩

theorem awaited_serialize {packet : Packet} (fits : Fits packet)
    (hlen : (serialize packet).length ≤ kReceiveBufferSize) (origin : Endpoint) :
    awaited packet.type ⟨origin, serialize packet⟩ = some packet := by
  rw [awaited_eq_some, receive, List.take_of_length_le hlen]
  exact ⟨deserialize_serialize fits, rfl⟩

theorem awaited_challenge (challenge : Challenge) (origin : Endpoint) :
    awaited .hello ⟨origin, serialize { type := .hello, payload := challenge.val }⟩ =
      some { type := .hello, payload := challenge.val } := by
  have hlen : challenge.val.length = 32 := challenge.property
  refine awaited_serialize ⟨rfl, Nat.zero_le _, Nat.zero_le _, ?_⟩ ?_ origin
  · rw [hlen]
    decide
  · rw [serialize_length, hlen]
    dsimp only [List.length_nil, kHeaderSize, kReceiveBufferSize]
    omega

theorem awaited_acknowledgement {endpoint : Endpoint} (hhost : endpoint.host.length < kMaxHost)
    (origin : Endpoint) :
    awaited .ack ⟨origin, serialize { type := .ack, payload := endpoint.toString }⟩ =
      some { type := .ack, payload := endpoint.toString } := by
  refine awaited_serialize ⟨rfl, Nat.zero_le _, Nat.zero_le _, fits_toString hhost⟩ ?_ origin
  have hlen := toString_length endpoint
  rw [serialize_length, kReceiveBufferSize, kHeaderSize]
  unfold kMaxHost at hhost
  dsimp only [List.length_nil]
  omega

section Converges

variable {v : Joint} {newer older : Story} {attempts : Nat}

theorem attempt_signs
    (hsigner : ∀ challenge : Challenge,
      verifyDetached C (client.sign challenge) challenge client.publicKey)
    (run : Run (Joint.step C) (Carried C homes) ⟨start config, client⟩
      (newer ++ (v, .client (.send true)) :: older) w)
    (hphase : v.client.phase = .request attempts)
    (hwaits : ∀ m ∈ newer, waits m.1.client = true)
    (settled : Settled C homes (newer ++ [(v, .client (.send true))])) :
    ∃ later u d earlier challenge, newer = later ++ (u, .client (.receive d true)) :: earlier ∧
      u.client.signs (.receive d true) = some challenge := by
  have hkey : ∀ {h : Story} {u : Joint},
      Run (Joint.step C) (Carried C homes) ⟨start config, client⟩ h u →
        u.client.publicKey = client.publicKey := fun run => (faithful_run run).fixed.2.1
  have hask : { type := .register, source := client.publicKey } ∈
      requests (v, .client (.send true)) := by
    simp only [requests, SignalingClient.step, hphase, ↓reduceIte, hkey run.cut.1]
    exact List.mem_singleton_self _
  obtain ⟨m₁, hm₁, ⟨packet, origin⟩, hq, hpacket, horigin⟩ := settled.later.2.1 _ hask
  obtain rfl : packet = { type := .register, source := client.publicKey } := hpacket
  obtain ⟨front, back, rfl⟩ := List.append_of_mem hm₁
  obtain ⟨now, drawn, hmove⟩ := handledBy_eq_some.mp hq
  have hc : Challenges client.publicKey origin now drawn
      (.handle { type := .register, source := client.publicKey } origin now drawn) :=
    ⟨_, rfl, rfl, rfl, (verifyDetached_lengths (hsigner drawn)).2, rfl⟩
  have hreply : ⟨origin, { type := .hello, payload := drawn.val }⟩ ∈ replies C m₁ := by
    simp only [replies, hmove, challenges_sends hc]
    exact List.mem_singleton_self _
  rw [List.append_assoc, List.cons_append] at settled
  obtain ⟨⟨s₂, i₂⟩, hm₂, hread⟩ := settled.later.2.2 _ hreply horigin
  obtain ⟨d₂, hd₂, hread⟩ : ∃ d₂ : Datagram, d₂ = ⟨m₁.1.client.server,
      serialize { type := .hello, payload := drawn.val }⟩ ∧ readBy (s₂, i₂) = some d₂ :=
    ⟨_, rfl, hread⟩
  obtain ⟨front, back', rfl⟩ := List.append_of_mem hm₂
  obtain ⟨takes, rfl⟩ := readBy_eq_some.mp hread
  simp only [List.append_assoc, List.cons_append] at run settled hwaits
  have hmid : ∀ m ∈ back' ++ m₁ :: back, waits m.1.client = true := fun m hm =>
    hwaits m (List.mem_append_right _ (List.mem_cons_of_mem _ hm))
  have hs₂ : waits s₂.client = true :=
    hwaits (s₂, _) (List.mem_append_right _ List.mem_cons_self)
  have run₂ := run.cut.1
  rw [← List.cons_append, ← List.append_assoc] at run₂
  obtain hhello | ⟨later, u, d, earlier, challenge, hsplit, hsigns⟩ :=
    hello_or_signed run₂ hphase hmid hs₂
  · have hawait := awaited_challenge drawn m₁.1.client.server
    rw [← hd₂] at hawait
    cases takes with
    | false =>
      have hrefused := settled.later.1
      simp only [refused, hhello, hawait, Option.isSome_some] at hrefused
      cases hrefused
    | true =>
      refine ⟨front, s₂, d₂, back' ++ m₁ :: back, drawn.val, ?_, ?_⟩
      · rw [List.append_assoc, List.cons_append]
      · simp only [SignalingClient.signs, hhello, hawait, Option.map_some]
  · refine ⟨front ++ (s₂, .client (.receive d₂ takes)) :: later, u, d, earlier, challenge, ?_, hsigns⟩
    rw [List.append_assoc, List.cons_append, hsplit, List.append_assoc, List.cons_append]

/-- In a run whose signed REGISTERs are in time, every try of `register_self` in which nothing is
lost ends with the key registered, however many were lost or come late from tries before. -/
theorem attempts_converge
    (hsigner : ∀ challenge : Challenge,
      verifyDetached C (client.sign challenge) challenge client.publicKey)
    (run : Run (Joint.step C) (Carried C homes) ⟨start config, client⟩
      (newer ++ (v, .client (.send true)) :: older) w)
    (timely : Run.Each (Timely homes) (newer ++ (v, .client (.send true)) :: older))
    (hphase : v.client.phase = .request attempts)
    (hwaits : ∀ m ∈ newer, waits m.1.client = true) (hover : waits w.client = false)
    (settled : Settled C homes (newer ++ [(v, .client (.send true))])) :
    w.client.phase = .registered true := by
  obtain ⟨later, u, d, earlier, challenge, rfl, hsigns⟩ :=
    attempt_signs hsigner run hphase hwaits settled
  simp only [List.append_assoc, List.cons_append] at run timely settled
  have hsent : u.client.signedRegister challenge ∈ requests (u, .client (.receive d true)) := by
    show _ ∈ (u.client.step (.receive d true)).2
    rw [SignalingClient.signs_sends hsigns]
    exact List.mem_singleton_self _
  obtain ⟨late, m₃, early, rfl, ⟨⟨packet, origin⟩, hq, hpacket, horigin⟩, hfirst⟩ :=
    exists_oldest (settled.later.2.1 _ hsent)
  obtain rfl : packet = u.client.signedRegister challenge := hpacket
  obtain ⟨now, drawn, hmove⟩ := handledBy_eq_some.mp hq
  simp only [List.append_assoc, List.cons_append] at run timely settled hwaits
  have hearly : ∀ m ∈ early, waits m.1.client = true := fun m hm =>
    hwaits m (List.mem_append_right _ (List.mem_cons_of_mem _ (List.mem_append_left _ hm)))
  have hs₃ : waits m₃.1.client = true :=
    hwaits m₃ (List.mem_append_right _ List.mem_cons_self)
  obtain ⟨it, hpending, rfl, hend, hexp⟩ := timely.split early (u, .client (.receive d true)) _
    challenge origin now drawn rfl hsigns hearly hs₃ hfirst hmove horigin
  obtain ⟨run₃, carried⟩ := run.cut
  rw [hmove] at carried
  obtain ⟨-, -, hsigned⟩ := (faithful_run run₃.cut.1).fixed
  have hregister : u.client.signedRegister it.challenge.val =
      { type := .register, source := client.publicKey, payload := client.sign it.challenge } := by
    simp only [SignalingClient.signedRegister, SignalingClient.sign,
      (faithful_run run₃.cut.1).fixed.2.1, hsigned]
  rw [(faithful_run run₃).fixed.2.1] at hpending
  have hr : Registers C client.publicKey origin now it m₃.1.server
      (.handle (u.client.signedRegister it.challenge.val) origin now drawn) := by
    obtain ⟨hsig, hkey⟩ := verifyDetached_lengths (hsigner it.challenge)
    rw [hregister]
    exact ⟨client.sign it.challenge, ⟨⟨_, drawn, rfl, rfl, rfl, hkey, rfl, hsig⟩, hpending, hexp,
      hend⟩, hsigner it.challenge⟩
  have hack : ⟨origin, { type := .ack, payload := origin.toString }⟩ ∈ replies C m₃ := by
    simp only [replies, hmove, (registers_step hr).2]
    exact List.mem_singleton_self _
  obtain ⟨⟨s₄, i₄⟩, hm₄, hread⟩ := settled.later.2.2 _ hack horigin
  obtain ⟨front, back, rfl⟩ := List.append_of_mem hm₄
  obtain ⟨takes, rfl⟩ := readBy_eq_some.mp hread
  simp only [List.append_assoc, List.cons_append] at run hwaits
  have hback : ∀ m ∈ back ++ m₃ :: early, waits m.1.client = true := by
    intro m hm
    obtain hm | hm := List.mem_append.mp hm
    · exact hwaits m (List.mem_append_right _ (List.mem_cons_of_mem _ (List.mem_append_left _ hm)))
    · obtain rfl | hm := List.mem_cons.mp hm
      · exact hs₃
      · exact hearly m hm
  have hs₄ : waits s₄.client = true := hwaits (s₄, _) (List.mem_append_right _ List.mem_cons_self)
  have run₄ := run.cut.1
  rw [← List.cons_append, ← List.append_assoc] at run₄
  obtain ⟨left, hawaits⟩ := signed_awaits run₄ hsigns hback hs₄
  have hafter : (s₄.step C (.client (.receive ⟨m₃.1.client.server,
      serialize { type := .ack, payload := origin.toString }⟩ takes))).client.phase =
        .registered true := by
    simp only [Joint.step, SignalingClient.step, hawaits,
      awaited_acknowledgement carried.2.1 m₃.1.client.server]
  obtain ⟨-, rfl⟩ | ⟨m, hm, hstate⟩ := run.behind
  · exact hafter
  · have hwait := hwaits m (List.mem_append_left _ hm)
    rw [hstate, waits, hafter] at hwait
    cases hwait

end Converges

instance [DecidablePred homes] (later : Story) (m : Joint × Move) :
    Decidable (Arrives C homes later m) :=
  inferInstanceAs (Decidable (refused m = false ∧
    (∀ p ∈ requests m, ∃ m' ∈ later, ∃ q ∈ handledBy m', q.1 = p ∧ homes q.2) ∧
    ∀ o ∈ replies C m, homes o.dest →
      ∃ m' ∈ later, readBy m' = some ⟨m.1.client.server, serialize o.packet⟩))

instance [DecidablePred homes] (moves : Story) : Decidable (Settled C homes moves) :=
  inferInstanceAs (Decidable (Run.Each (Arrives C homes) moves.reverse))

def second : Challenge := ⟨List.replicate kChallengeBytes 8, List.length_replicate⟩

def late : List Move :=
  [.client (.registerSelf 2), .client (.send true), .server (.handle ask elsewhere 0 nonce),
   .client .timeout]

def retrying : List Move :=
  late ++ [.client (.send true), .server (.handle ask elsewhere 1 second),
   reading asker.server (challenged second), .server (.handle (signed second) elsewhere 1 second),
   reading asker.server (acknowledged elsewhere)]

theorem asker_signs (challenge : Challenge) :
    verifyDetached reference (asker.sign challenge) challenge asker.publicKey := by
  have hlen : (asker.sign challenge.val).length = kSignatureBytes := by
    show ((identity 66).publicKey ++ challenge.val).length = kSignatureBytes
    rw [List.length_append, challenge.property]
    rfl
  show verifyDetached reference (asker.sign challenge) challenge asker.publicKey = true
  rw [verifyDetached, if_neg (by simp only [hlen]; decide)]
  exact decide_eq_true rfl

def handledAt (m : Joint × Move) : Option Int :=
  match m.2 with
  | .server i => some i.now
  | .client _ => none

theorem retrying_timely : Run.Each (Timely SeenElsewhere) (talk retrying).1 := by
  have hsigned : ∀ x ∈ (talk retrying).1, ∀ c ∈ signedBy x,
      c = second.val ∧ x.1.client.signedRegister c = signed second := by decide +kernel
  have hhandled : ∀ m ∈ (talk retrying).1, ∀ q ∈ handledBy m, q.1 = signed second →
      q.2 = elsewhere ∧ m.1.server.pending.lookup (toHex m.1.client.publicKey) =
        some ⟨second, elsewhere, 31⟩ := by decide +kernel
  have hnow : ∀ m ∈ (talk retrying).1, ∀ t ∈ handledAt m, t ≤ 31 := by decide +kernel
  refine Run.each_iff.mpr ?_
  intro front m older hsplit newer x back challenge origin now drawn hback hx _ _ _ hmove _
  have hm : m ∈ (talk retrying).1 := by
    rw [hsplit]
    exact List.mem_append_right _ List.mem_cons_self
  have hxm : x ∈ (talk retrying).1 := by
    rw [hsplit, hback]
    simp
  obtain ⟨rfl, hregister⟩ := hsigned x hxm challenge hx
  rw [hregister] at hmove
  obtain ⟨rfl, hpending⟩ := hhandled m hm _ (handledBy_eq_some.mpr ⟨now, drawn, hmove⟩) rfl
  refine ⟨_, hpending, rfl, rfl, hnow m hm now ?_⟩
  rw [handledAt, hmove]
  rfl

theorem attempts_converge_second : (talk retrying).2.client.phase = .registered true := by
  have run : Run (Joint.step reference) (Carried reference SeenElsewhere) ⟨start {}, asker⟩
      (talk retrying).1 (talk retrying).2 := Run.replay_run .start (by decide +kernel)
  have hsplit : (talk retrying).1 = (talk retrying).1.take 4 ++
      ((talk late).2, .client (.send true)) :: (talk late).1 := rfl
  have hphase : (talk late).2.client.phase = .request 0 := by decide +kernel
  have hwaits : ∀ m ∈ (talk retrying).1.take 4, waits m.1.client = true := by decide +kernel
  have settled : Settled reference SeenElsewhere ((talk retrying).1.take 5) := by decide +kernel
  exact attempts_converge asker_signs (hsplit ▸ run) (hsplit ▸ retrying_timely) hphase hwaits
    (by decide +kernel) settled

/-- The challenge of the first try comes in the second, is signed, and is not the one that the
server waits for. -/
def overlapping : List Move :=
  late ++ [.client (.send true), .server (.handle ask elsewhere 1 second),
   reading asker.server (challenged nonce), .server (.handle (signed nonce) elsewhere 1 second),
   reading asker.server (challenged second), .client .timeout]

theorem stale_challenge_signed :
    Run (Joint.step reference) (Carried reference SeenElsewhere) ⟨start {}, asker⟩
      (talk overlapping).1 (talk overlapping).2 ∧
    (talk overlapping).1 = (talk overlapping).1.take 5 ++
      ((talk late).2, .client (.send true)) :: (talk late).1 ∧
    (talk late).2.client.phase = .request 0 ∧
    (∀ m ∈ (talk overlapping).1.take 5, waits m.1.client = true) ∧
    Settled reference SeenElsewhere ((talk overlapping).1.take 6) ∧
    (talk overlapping).2.client.phase = .registered false :=
  ⟨Run.replay_run .start (by decide +kernel), rfl, by decide +kernel, by decide +kernel,
    by decide +kernel, by decide +kernel⟩

end OpenMesh.Signaling.Registration
