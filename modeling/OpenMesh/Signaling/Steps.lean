import OpenMesh.Library.Runs
import OpenMesh.Signaling.Server

namespace OpenMesh.Signaling.Steps

open OpenMesh.Core.Buffers OpenMesh.Core.Hex OpenMesh.Crypto.Primitives OpenMesh.Library.Runs
open OpenMesh.Protocol.Envelope OpenMesh.Net.Transport
open OpenMesh.Signaling.Registry OpenMesh.Signaling.Server

variable (C : Sodium)

abbrev Past := History SignalingServer SignalingServer.Input

/-- A packet of this type that names the key as its source comes in. -/
def Comes (type : PacketType) (key : Bytes) (origin : Endpoint) (now : Int)
    (i : SignalingServer.Input) : Prop :=
  ∃ packet challenge, i = .handle packet origin now challenge ∧ packet.type = type ∧
    packet.source = key ∧ key.length = kPublicKeyBytes

/-- The server challenges the key at an endpoint: an empty REGISTER came in. -/
def Challenges (key : Bytes) (origin : Endpoint) (now : Int) (challenge : Challenge)
    (i : SignalingServer.Input) : Prop :=
  ∃ packet, i = .handle packet origin now challenge ∧ packet.type = .register ∧
    packet.source = key ∧ key.length = kPublicKeyBytes ∧ packet.payload = []

/-- A REGISTER with a signature comes in for a challenge that is pending, in time and from
where the challenge was sent. -/
def Answers (key : Bytes) (origin : Endpoint) (now : Int) (it : Pending) (signature : Bytes)
    (s : SignalingServer) (i : SignalingServer.Input) : Prop :=
  (∃ packet challenge, i = .handle packet origin now challenge ∧ packet.type = .register ∧
    packet.source = key ∧ key.length = kPublicKeyBytes ∧ packet.payload = signature ∧
    signature.length = kSignatureBytes) ∧
  s.pending.lookup (toHex key) = some it ∧ now ≤ it.expiry ∧ it.endpoint = origin

/-- The signature is over the challenge, and the key is registered. -/
def Registers (key : Bytes) (origin : Endpoint) (now : Int) (it : Pending)
    (s : SignalingServer) (i : SignalingServer.Input) : Prop :=
  ∃ signature, Answers key origin now it signature s i ∧
    verifyDetached C signature it.challenge key

/-- All that a step can do to one key: what the registry and the pending challenges hold for it
afterwards. -/
inductive Effect (key : Bytes) (s : SignalingServer) (i : SignalingServer.Input)
    (s' : SignalingServer) : Prop
  | none (hentry : s'.registry.peers.lookup (toHex key) = s.registry.peers.lookup (toHex key))
      (hpending : s'.pending.lookup (toHex key) = s.pending.lookup (toHex key))
  | challenged (origin : Endpoint) (now : Int) (challenge : Challenge)
      (h : Challenges key origin now challenge i)
      (hentry : s'.registry.peers.lookup (toHex key) = s.registry.peers.lookup (toHex key))
      (hpending : s'.pending.lookup (toHex key) =
        some ⟨challenge, origin, now + s.config.challengeTtlSeconds⟩)
  | refused (origin : Endpoint) (now : Int) (it : Pending) (signature : Bytes)
      (h : Answers key origin now it signature s i)
      (hfalse : verifyDetached C signature it.challenge key = false)
      (hentry : s'.registry.peers.lookup (toHex key) = s.registry.peers.lookup (toHex key))
      (hpending : s'.pending.lookup (toHex key) = Option.none)
  | registered (origin : Endpoint) (now : Int) (it : Pending)
      (h : Registers C key origin now it s i)
      (hentry : s'.registry.peers.lookup (toHex key) = some ⟨origin, now⟩)
      (hpending : s'.pending.lookup (toHex key) = Option.none)
  | refreshed (origin : Endpoint) (now : Int) (h : Comes .heartbeat key origin now i)
      (hknown : (s.registry.lookup (toHex key)).isSome)
      (hentry : s'.registry.peers.lookup (toHex key) = some ⟨origin, now⟩)
      (hpending : s'.pending.lookup (toHex key) = s.pending.lookup (toHex key))
  | removed (origin : Endpoint) (now : Int) (h : Comes .disconnect key origin now i)
      (hentry : s'.registry.peers.lookup (toHex key) = Option.none)
      (hpending : s'.pending.lookup (toHex key) = s.pending.lookup (toHex key))
  | swept (now : Int) (h : i = .expire now)
      (hentry : s'.registry.peers.lookup (toHex key) = (s.registry.peers.lookup (toHex key)).filter
        fun entry => ¬ entry.lastSeen < now - s.config.peerTtlSeconds)
      (hpending : s'.pending.lookup (toHex key) = (s.pending.lookup (toHex key)).filter
        fun it => ¬ it.expiry < now)

variable {C}

theorem lookup_insert {β : Type} (t : Table β) (b : β) (key k : Bytes) :
    (t.insert (toHex k) b).lookup (toHex key) =
      if key = k then some b else t.lookup (toHex key) := by
  by_cases h : key = k
  · rw [if_pos h, h, AList.lookup_insert]
  · rw [if_neg h, AList.lookup_insert_ne (by rwa [ne_eq, toHex_inj])]

theorem lookup_erase {β : Type} (t : Table β) (key k : Bytes) :
    (t.erase (toHex k)).lookup (toHex key) = if key = k then none else t.lookup (toHex key) := by
  by_cases h : key = k
  · rw [if_pos h, h, AList.lookup_erase]
  · rw [if_neg h, AList.lookup_erase_ne (by rwa [ne_eq, toHex_inj])]

theorem config_step (s : SignalingServer) (i : SignalingServer.Input) :
    (s.step C i).config = s.config := by
  cases i with
  | expire now => rfl
  | handle packet origin now challenge =>
    simp only [SignalingServer.step, SignalingServer.handle]
    split
    · unfold SignalingServer.handleRegister
      dsimp only
      repeat' split
      all_goals rfl
    · rfl
    · rfl
    · unfold SignalingServer.handleHeartbeat
      dsimp only
      repeat' split
      all_goals rfl
    · unfold SignalingServer.handleDisconnect
      split <;> rfl
    · rfl

theorem answers_guarded {s : SignalingServer} {packet : Packet} {origin : Endpoint} {now : Int}
    (challenge : Challenge) {it : Pending} (hty : packet.type = .register)
    (hlen : ¬ packet.source.length ≠ kPublicKeyBytes)
    (hsig : packet.payload.length = kSignatureBytes)
    (hp : s.pending.lookup (toHex packet.source) = some it) (hexp : ¬ it.expiry < now)
    (hend : ¬ (it.endpoint.host ≠ origin.host ∨ it.endpoint.port ≠ origin.port)) :
    Answers packet.source origin now it packet.payload s (.handle packet origin now challenge) := by
  simp only [not_or, not_not] at hend
  exact ⟨⟨packet, challenge, rfl, hty, rfl, not_not.mp hlen, rfl, hsig⟩, hp, Int.not_lt.mp hexp,
    Endpoint.ext hend.1 hend.2⟩

theorem effect_register (key : Bytes) (s : SignalingServer) {packet : Packet} (origin : Endpoint)
    (now : Int) (challenge : Challenge) (hty : packet.type = .register) :
    Effect C key s (.handle packet origin now challenge)
      (s.handleRegister C packet origin now challenge).1 := by
  unfold SignalingServer.handleRegister
  dsimp only
  split_ifs with hlen hempty hsig
  · exact .none rfl rfl
  · by_cases hk : key = packet.source
    · subst hk
      refine .challenged origin now challenge ⟨packet, rfl, hty, rfl, not_not.mp hlen, hempty⟩ rfl ?_
      rw [AList.lookup_insert]
    · exact .none rfl (by rw [lookup_insert, if_neg hk])
  · cases hp : s.pending.lookup (toHex packet.source) with
    | none => exact .none rfl rfl
    | some it =>
      dsimp only
      split_ifs with hexp hend hver
      · exact .none rfl rfl
      · exact .none rfl rfl
      · by_cases hk : key = packet.source
        · subst hk
          exact .refused origin now it packet.payload
            (answers_guarded challenge hty hlen hsig hp hexp hend) hver rfl (AList.lookup_erase _ _)
        · exact .none rfl (by rw [lookup_erase, if_neg hk])
      · by_cases hk : key = packet.source
        · subst hk
          refine .registered origin now it
            ⟨packet.payload, answers_guarded challenge hty hlen hsig hp hexp hend,
              by simpa using hver⟩ ?_ (AList.lookup_erase _ _)
          rw [PeerRegistry.entry_upsert, if_pos rfl]
        · refine .none ?_ (by rw [lookup_erase, if_neg hk])
          rw [PeerRegistry.entry_upsert, if_neg (by rwa [toHex_inj])]
  · exact .none rfl rfl

/-- The spec of a step, for any key. -/
theorem step_effect (key : Bytes) (s : SignalingServer) (i : SignalingServer.Input) :
    Effect C key s i (s.step C i) := by
  cases i with
  | expire now => exact .swept now rfl (PeerRegistry.entry_expire _ _ _) (Table.lookup_keep _ _ _)
  | handle packet origin now challenge =>
    simp only [SignalingServer.step, SignalingServer.handle]
    split
    · next hty => exact effect_register key s origin now challenge hty
    · exact .none rfl rfl
    · exact .none rfl rfl
    · next hty =>
      unfold SignalingServer.handleHeartbeat
      dsimp only
      split_ifs with hlen hknown
      · by_cases hk : key = packet.source
        · subst hk
          refine .refreshed origin now ⟨packet, challenge, rfl, hty, rfl, hlen⟩ hknown ?_ rfl
          rw [PeerRegistry.entry_upsert, if_pos rfl]
        · exact .none (by rw [PeerRegistry.entry_upsert, if_neg (by rwa [toHex_inj])]) rfl
      · exact .none rfl rfl
      · exact .none rfl rfl
    · next hty =>
      unfold SignalingServer.handleDisconnect
      split_ifs with hlen
      · by_cases hk : key = packet.source
        · subst hk
          refine .removed origin now ⟨packet, challenge, rfl, hty, rfl, hlen⟩ ?_ rfl
          rw [PeerRegistry.entry_remove, if_pos rfl]
        · exact .none (by rw [PeerRegistry.entry_remove, if_neg (by rwa [toHex_inj])]) rfl
      · exact .none rfl rfl
    · exact .none rfl rfl

theorem heartbeat_entry {key : Bytes} {s : SignalingServer} {i : SignalingServer.Input}
    {origin : Endpoint} {now : Int} (h : Comes .heartbeat key origin now i)
    (hknown : (s.registry.lookup (toHex key)).isSome) :
    (s.step C i).registry.peers.lookup (toHex key) = some ⟨origin, now⟩ := by
  obtain ⟨packet, challenge, rfl, hty, rfl, hlen⟩ := h
  simp only [SignalingServer.step, SignalingServer.handle, hty, SignalingServer.handleHeartbeat,
    hlen, hknown, ↓reduceIte]
  rw [PeerRegistry.entry_upsert, if_pos rfl]

theorem heartbeat_step {key : Bytes} {s : SignalingServer} {i : SignalingServer.Input}
    {origin : Endpoint} {now : Int} (h : Comes .heartbeat key origin now i)
    (hknown : (s.registry.lookup (toHex key)).isSome) :
    (s.step C i).registry.lookup (toHex key) = some origin := by
  rw [PeerRegistry.lookup, heartbeat_entry h hknown]
  rfl

theorem registers_entry {key : Bytes} {s : SignalingServer} {i : SignalingServer.Input}
    {origin : Endpoint} {now : Int} {it : Pending} (h : Registers C key origin now it s i) :
    (s.step C i).registry.peers.lookup (toHex key) = some ⟨origin, now⟩ ∧
      s.sends C i = [⟨origin, { type := .ack, payload := origin.toString }⟩] := by
  obtain ⟨signature, ⟨⟨packet, challenge, rfl, hty, rfl, hlen, rfl, hsig⟩, hp, hnow, hend⟩, hver⟩ := h
  have hempty : packet.payload ≠ [] := by
    intro he
    rw [he] at hsig
    cases hsig
  have hexp : ¬ it.expiry < now := Int.not_lt.mpr hnow
  simp only [SignalingServer.step, SignalingServer.sends, SignalingServer.handle, hty,
    SignalingServer.handleRegister, hlen, hsig, hp, hempty, hexp, hver, hend, ne_eq,
    not_true_eq_false, or_self, ↓reduceIte, Bool.true_eq_false,
    PeerRegistry.entry_upsert, and_self]

theorem registers_step {key : Bytes} {s : SignalingServer} {i : SignalingServer.Input}
    {origin : Endpoint} {now : Int} {it : Pending} (h : Registers C key origin now it s i) :
    (s.step C i).registry.lookup (toHex key) = some origin ∧
      s.sends C i = [⟨origin, { type := .ack, payload := origin.toString }⟩] := by
  obtain ⟨hentry, hsends⟩ := registers_entry h
  refine ⟨?_, hsends⟩
  rw [PeerRegistry.lookup, hentry]
  rfl

theorem register_sends {s : SignalingServer} {packet : Packet} {origin : Endpoint} {now : Int}
    {challenge : Challenge} (hty : packet.type = .register) {o : Outgoing}
    (ho : o ∈ (s.handleRegister C packet origin now challenge).2) (hack : o.packet.type = .ack) :
    ∃ it, Registers C packet.source o.dest now it s (.handle packet origin now challenge) := by
  unfold SignalingServer.handleRegister at ho
  dsimp only at ho
  split_ifs at ho with hlen hempty hsig
  · cases ho
  · rw [List.mem_singleton.mp ho] at hack
    cases hack
  · cases hp : s.pending.lookup (toHex packet.source) with
    | none =>
      rw [hp] at ho
      cases ho
    | some it =>
      rw [hp] at ho
      dsimp only at ho
      split_ifs at ho with hexp hend hver
      · cases ho
      · cases ho
      · cases ho
      · rw [List.mem_singleton.mp ho]
        exact ⟨it, packet.payload, answers_guarded challenge hty hlen hsig hp hexp hend,
          by simpa using hver⟩
  · cases ho

theorem ack_registers {s : SignalingServer} {i : SignalingServer.Input} {o : Outgoing}
    (ho : o ∈ s.sends C i) (hack : o.packet.type = .ack) :
    ∃ key now it, Registers C key o.dest now it s i := by
  cases i with
  | expire now => cases ho
  | handle packet origin now challenge =>
    simp only [SignalingServer.sends, SignalingServer.handle] at ho
    split at ho
    · next hty =>
      obtain ⟨it, h⟩ := register_sends hty ho hack
      exact ⟨packet.source, now, it, h⟩
    · unfold SignalingServer.handleDiscover at ho
      split at ho
      · cases ho
      · rw [List.mem_singleton.mp ho] at hack
        cases hack
    · next hty =>
      unfold SignalingServer.handleConnect at ho
      split at ho
      · cases ho
      · split at ho
        · rw [List.mem_singleton.mp ho] at hack
          rw [hack] at hty
          cases hty
        · cases ho
    · rw [SignalingServer.handleHeartbeat, List.mem_singleton] at ho
      rw [ho] at hack
      cases hack
    · cases ho
    · cases ho

end OpenMesh.Signaling.Steps
