import OpenMesh.Protocol.EnvelopeCodec
import OpenMesh.Signaling.Expiry

namespace OpenMesh.Signaling.Outputs

open OpenMesh.Core.Buffers OpenMesh.Core.Hex OpenMesh.Crypto.Primitives
open OpenMesh.Crypto.Reference OpenMesh.Library.Runs
open OpenMesh.Protocol.Envelope OpenMesh.Protocol.EnvelopeCodec OpenMesh.Net.Transport
open OpenMesh.Signaling.Registry OpenMesh.Signaling.Server OpenMesh.Signaling.Steps
open OpenMesh.Signaling.Routability OpenMesh.Signaling.Expiry

/-- All that a server can answer to one packet. -/
inductive Output (s : SignalingServer) (packet : Packet) (origin : Endpoint) :
    List Outgoing → Prop
  | silent (hconnect : packet.type = .connect → packet.destination = [] ∨
      s.registry.lookup (toHex packet.destination) = none) : Output s packet origin []
  | reply (answer : Packet) (hconnect : packet.type ≠ .connect) :
      Output s packet origin [⟨origin, answer⟩]
  | relay (endpoint : Endpoint) (hconnect : packet.type = .connect)
      (hlookup : s.registry.lookup (toHex packet.destination) = some endpoint) :
      Output s packet origin [⟨endpoint, packet⟩]

variable {C : Sodium}

theorem output_silent {s : SignalingServer} {packet : Packet} {origin : Endpoint}
    (h : packet.type ≠ .connect) : Output s packet origin [] :=
  .silent fun hconnect => absurd hconnect h

theorem output_register (s : SignalingServer) {packet : Packet} (origin : Endpoint) (now : Int)
    (challenge : Challenge) (h : packet.type ≠ .connect) :
    Output s packet origin (s.handleRegister C packet origin now challenge).2 := by
  simp only [SignalingServer.handleRegister]
  split_ifs
  · exact output_silent h
  · exact .reply _ h
  · cases s.pending.lookup (toHex packet.source) with
    | none => exact output_silent h
    | some it =>
      dsimp only
      split_ifs
      · exact output_silent h
      · exact output_silent h
      · exact output_silent h
      · exact .reply _ h
  · exact output_silent h

theorem output_connect (s : SignalingServer) {packet : Packet} (origin : Endpoint)
    (h : packet.type = .connect) : Output s packet origin (s.handleConnect packet) := by
  rw [SignalingServer.handleConnect]
  split_ifs with hempty
  · exact .silent fun _ => .inl hempty
  · cases hlookup : s.registry.lookup (toHex packet.destination) with
    | none => exact .silent fun _ => .inr hlookup
    | some endpoint => exact .relay endpoint h hlookup

theorem output_sends (s : SignalingServer) (packet : Packet) (origin : Endpoint) (now : Int)
    (challenge : Challenge) :
    Output s packet origin (s.sends C (.handle packet origin now challenge)) := by
  simp only [SignalingServer.sends, SignalingServer.handle]
  split
  case h_1 hty => exact output_register s origin now challenge (by simp [hty])
  case h_2 hty =>
    rw [SignalingServer.handleDiscover]
    split_ifs
    · exact output_silent (by simp [hty])
    · exact .reply _ (by simp [hty])
  case h_3 hty => exact output_connect s origin hty
  case h_4 hty => exact .reply _ (by simp [hty])
  case h_5 hty => exact output_silent (by simp [hty])
  case h_6 hconnect _ _ => exact output_silent hconnect

section Answers

variable {s : SignalingServer} {packet : Packet} {origin endpoint : Endpoint} {out : List Outgoing}

theorem Output.single (h : Output s packet origin out) : out.length ≤ 1 := by
  cases h with
  | silent _ => exact Nat.zero_le 1
  | reply _ _ => exact le_refl 1
  | relay _ _ _ => exact le_refl 1

/-- A CONNECT to a registered key is passed on as it is, since that key is not the empty one. -/
theorem Output.relayed (h : Output s packet origin out)
    (hempty : s.registry.peers.lookup (toHex []) = none) (hty : packet.type = .connect)
    (hlookup : s.registry.lookup (toHex packet.destination) = some endpoint) :
    out = [⟨endpoint, packet⟩] := by
  cases h with
  | silent hconnect =>
    obtain hnil | hnone := hconnect hty
    · rw [hnil, PeerRegistry.lookup, hempty] at hlookup
      cases hlookup
    · rw [hnone] at hlookup
      cases hlookup
  | reply _ hconnect => exact absurd hty hconnect
  | relay _ _ hlookup' =>
    obtain rfl := Option.some.inj (hlookup'.symm.trans hlookup)
    rfl

theorem Output.answered (h : Output s packet origin out) (hlookup : packet.type = .connect →
    ∀ endpoint, s.registry.lookup (toHex packet.destination) ≠ some endpoint) :
    ∀ o ∈ out, o.dest = origin := by
  intro o ho
  cases h with
  | silent _ => cases ho
  | reply _ _ => rw [List.mem_singleton.mp ho]
  | relay endpoint hty hlookup' => exact absurd hlookup' (hlookup hty endpoint)

end Answers

/-- The states that packets and sweeps, in any order, can bring a new server to. -/
def Reachable (C : Sodium) (config : Config) (s : SignalingServer) : Prop :=
  ∃ h, Run (SignalingServer.step C) (fun _ _ _ => True) (start config) h s

theorem reachable_step {config : Config} {s : SignalingServer} (hs : Reachable C config s)
    (i : SignalingServer.Input) : Reachable C config (s.step C i) := by
  obtain ⟨h, run⟩ := hs
  exact ⟨_, .move run trivial⟩

theorem reachable_turn {config : Config} {s : SignalingServer} (hs : Reachable C config s)
    (r : Round) : Reachable C config (turn C s r) := by
  rw [turn, runOnce_eq]
  cases r.input with
  | none => exact reachable_step hs (.expire r.now)
  | some i => exact reachable_step (reachable_step hs i) (.expire r.now)

theorem lookup_empty {config : Config} {s : SignalingServer} (hs : Reachable C config s) :
    s.registry.peers.lookup (toHex []) = none := by
  obtain ⟨h, run⟩ := hs
  refine run.invariant (fun _ s => s.registry.peers.lookup (toHex []) = none) rfl ?_
  intro h s i _ ih _
  cases step_effect (C := C) [] s i with
  | none hentry _ => rw [hentry, ih]
  | challenged _ _ _ _ hentry _ => rw [hentry, ih]
  | refused _ _ _ _ _ _ hentry _ => rw [hentry, ih]
  | registered _ _ _ hr _ _ =>
    obtain ⟨_, ⟨⟨_, _, -, -, -, hlen, -⟩, -⟩, -⟩ := hr
    cases hlen
  | refreshed _ _ hc _ _ _ =>
    obtain ⟨_, _, -, -, -, hlen⟩ := hc
    cases hlen
  | removed _ _ _ hentry _ => exact hentry
  | swept _ _ hentry _ => rw [hentry, ih, Option.filter_none]

def datagrams (C : Sodium) (s : SignalingServer) (r : Round) : List (Endpoint × Bytes) :=
  (runOnce C s r).2.map fun o => (o.dest, serialize o.packet)

/-- What a server may send in the turn in which a datagram comes in. -/
structure Disciplined (C : Sodium) (s : SignalingServer) (d : Datagram) (now : Int)
    (challenge : Challenge) : Prop where
  single : (datagrams C s ⟨some d, now, challenge⟩).length ≤ 1
  relayed : ∀ packet endpoint, deserialize (receive d).data = some packet →
    packet.type = .connect → s.registry.lookup (toHex packet.destination) = some endpoint →
      datagrams C s ⟨some d, now, challenge⟩ = [(endpoint, (receive d).data)]
  answered : (∀ packet endpoint, deserialize (receive d).data = some packet →
    packet.type = .connect → s.registry.lookup (toHex packet.destination) ≠ some endpoint) →
      ∀ w ∈ datagrams C s ⟨some d, now, challenge⟩, w.1 = d.origin
  malformed : deserialize (receive d).data = none →
    runOnce C s ⟨some d, now, challenge⟩ = (s.expire now, [])

theorem runOnce_malformed {s : SignalingServer} {d : Datagram} {now : Int} {challenge : Challenge}
    (h : deserialize (receive d).data = none) :
    runOnce C s ⟨some d, now, challenge⟩ = (s.expire now, []) := by
  rw [runOnce_eq]
  simp only [Round.input, Option.bind_some, h, Option.map_none]

theorem datagrams_handled {s : SignalingServer} {d : Datagram} {now : Int} {challenge : Challenge}
    {packet : Packet} (h : deserialize (receive d).data = some packet) :
    datagrams C s ⟨some d, now, challenge⟩ =
      (s.sends C (.handle packet d.origin now challenge)).map
        fun o => (o.dest, serialize o.packet) := by
  rw [datagrams, runOnce_eq]
  simp only [Round.input, Option.bind_some, h, Option.map_some]

/-- In every reachable state, whatever comes in. -/
theorem output_discipline {config : Config} {s : SignalingServer} (hs : Reachable C config s)
    (d : Datagram) (now : Int) (challenge : Challenge) : Disciplined C s d now challenge := by
  cases hp : deserialize (receive d).data with
  | none =>
    have hnone : datagrams C s ⟨some d, now, challenge⟩ = [] := by
      rw [datagrams, runOnce_malformed hp, List.map_nil]
    refine ⟨?_, ?_, ?_, runOnce_malformed⟩
    · rw [hnone]
      exact Nat.zero_le 1
    · intro packet endpoint h
      rw [hp] at h
      cases h
    · intro _ w hw
      rw [hnone] at hw
      cases hw
  | some packet =>
    have hdatagrams : datagrams C s ⟨some d, now, challenge⟩ =
        (s.sends C (.handle packet d.origin now challenge)).map
          fun o => (o.dest, serialize o.packet) := datagrams_handled hp
    have hout : Output s packet d.origin (s.sends C (.handle packet d.origin now challenge)) :=
      output_sends s packet d.origin now challenge
    refine ⟨?_, ?_, ?_, runOnce_malformed⟩
    · rw [hdatagrams, List.length_map]
      exact hout.single
    · intro packet' endpoint h hty hlookup
      obtain rfl := Option.some.inj (hp.symm.trans h)
      obtain ⟨-, hdata⟩ := serialize_deserialize hp
      rw [hdatagrams, hout.relayed (lookup_empty hs) hty hlookup, hdata]
      rfl
    · intro h w hw
      rw [hdatagrams] at hw
      obtain ⟨o, ho, rfl⟩ := List.mem_map.mp hw
      exact hout.answered (fun hty endpoint => h packet endpoint hp hty) o ho

def knock : Packet := { type := .connect, destination := owned, payload := elsewhere.toString }

theorem output_discipline_knock :
    datagrams reference (rounds ((lookedUp 1).take 2)).2 (arriving knock elsewhere 1) =
      [(home, serialize knock)] ∧
    Disciplined reference (rounds ((lookedUp 1).take 2)).2 ⟨elsewhere, serialize knock⟩ 1 nonce := by
  have hreachable : Reachable reference {} (rounds ((lookedUp 1).take 2)).2 :=
    reachable_turn (reachable_turn ⟨[], .start⟩ _) _
  exact ⟨by decide +kernel, output_discipline hreachable _ 1 nonce⟩

end OpenMesh.Signaling.Outputs
