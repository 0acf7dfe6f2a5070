import OpenMesh.Crypto.Reference
import OpenMesh.Signaling.Steps

namespace OpenMesh.Signaling.Routability

open OpenMesh.Core.Buffers OpenMesh.Core.Hex OpenMesh.Crypto.Primitives
open OpenMesh.Crypto.Reference OpenMesh.Library.Runs
open OpenMesh.Protocol.Envelope OpenMesh.Net.Transport
open OpenMesh.Signaling.Registry OpenMesh.Signaling.Server OpenMesh.Signaling.Steps

def start (config : Config) : SignalingServer := { config }

def Issued (key : Bytes) (origin : Endpoint) (now : Int) (challenge : Challenge) (h : Past) : Prop :=
  ∃ m ∈ h, Challenges key origin now challenge m.2

/-- What is pending was sent to the endpoint it is kept with, and runs out when it should. -/
structure Backed (config : Config) (h : Past) (s : SignalingServer) : Prop where
  unchanged : s.config = config
  pending : ∀ key it, s.pending.lookup (toHex key) = some it → ∃ issued,
    Issued key it.endpoint issued it.challenge h ∧
      it.expiry = issued + config.challengeTtlSeconds

variable {C : Sodium} {config : Config} {h : Past} {s : SignalingServer}
variable {i : SignalingServer.Input} {key : Bytes} {origin : Endpoint} {now : Int}

theorem Issued.cons {challenge : Challenge} (hi : Issued key origin now challenge h)
    (m : SignalingServer × SignalingServer.Input) : Issued key origin now challenge (m :: h) := by
  obtain ⟨m', hm, hc⟩ := hi
  exact ⟨m', List.mem_cons_of_mem m hm, hc⟩

theorem backed_start : Backed config [] (start config) where
  unchanged := rfl
  pending key it hp := by cases hp

theorem backed_step (backed : Backed config h s) (i : SignalingServer.Input) :
    Backed config ((s, i) :: h) (s.step C i) where
  unchanged := (config_step s i).trans backed.unchanged
  pending key it hp := by
    have hold : s.pending.lookup (toHex key) = some it → ∃ issued,
        Issued key it.endpoint issued it.challenge ((s, i) :: h) ∧
          it.expiry = issued + config.challengeTtlSeconds := by
      intro hp
      obtain ⟨issued, hissued, hexp⟩ := backed.pending key it hp
      exact ⟨issued, hissued.cons (s, i), hexp⟩
    cases step_effect (C := C) key s i with
    | none _ hpending => exact hold (hpending ▸ hp)
    | challenged origin now challenge hc _ hpending =>
      rw [hpending] at hp
      obtain rfl := Option.some.inj hp
      exact ⟨now, ⟨(s, i), List.mem_cons_self, hc⟩, by rw [backed.unchanged]⟩
    | refused _ _ _ _ _ _ _ hpending =>
      rw [hpending] at hp
      cases hp
    | registered _ _ _ _ _ hpending =>
      rw [hpending] at hp
      cases hp
    | refreshed _ _ _ _ _ hpending => exact hold (hpending ▸ hp)
    | removed _ _ _ _ hpending => exact hold (hpending ▸ hp)
    | swept now _ _ hpending =>
      rw [hpending] at hp
      exact hold (Option.filter_eq_some_iff.mp hp).1

variable {ok : Past → SignalingServer → SignalingServer.Input → Prop}

theorem backed_run (run : Run (SignalingServer.step C) ok (start config) h s) : Backed config h s :=
  run.invariant (Backed config) backed_start fun _ _ i _ backed _ => backed_step backed i

/-- The run holds a REGISTER of the key from the endpoint that was accepted, for a challenge that
had been sent there in time. -/
def Proven (C : Sodium) (config : Config) (key : Bytes) (origin : Endpoint) (h : Past) : Prop :=
  ∃ newer m older, h = newer ++ m :: older ∧ ∃ now it issued, Registers C key origin now it m.1 m.2 ∧
    Issued key origin issued it.challenge older ∧ now ≤ issued + config.challengeTtlSeconds

theorem Proven.cons (hp : Proven C config key origin h)
    (m : SignalingServer × SignalingServer.Input) : Proven C config key origin (m :: h) := by
  obtain ⟨newer, m', older, rfl, hall⟩ := hp
  exact ⟨m :: newer, m', older, rfl, hall⟩

theorem registers_proven (backed : Backed config h s) {it : Pending}
    (hr : Registers C key origin now it s i) : Proven C config key origin ((s, i) :: h) := by
  obtain ⟨signature, ⟨-, hp, hnow, hend⟩, -⟩ := id hr
  obtain ⟨issued, hissued, hexp⟩ := backed.pending key it hp
  rw [hend] at hissued
  exact ⟨[], (s, i), h, rfl, now, it, issued, hr, hissued, hexp ▸ hnow⟩

/-- Whoever is registered has proven that it is there. -/
def Routable (C : Sodium) (config : Config) (h : Past) (s : SignalingServer) : Prop :=
  ∀ key origin, s.registry.lookup (toHex key) = some origin → Proven C config key origin h

/-- A heartbeat for a registered key comes from where the key has proven itself. -/
def Familiar (C : Sodium) (config : Config) (h : Past)
    (m : SignalingServer × SignalingServer.Input) : Prop :=
  ∀ key origin now, Comes .heartbeat key origin now m.2 →
    (m.1.registry.lookup (toHex key)).isSome → Proven C config key origin h

theorem routable_step (backed : Backed config h s) (routable : Routable C config h s) :
    Routable C config ((s, i) :: h) (s.step C i) ↔ Familiar C config h (s, i) := by
  constructor
  · intro hall key origin now hc hknown
    obtain ⟨newer, m, older, hsplit, now', it, issued, hr, hrest⟩ :=
      hall key origin (heartbeat_step hc hknown)
    cases newer with
    | cons m' newer =>
      obtain ⟨-, rfl⟩ := List.cons.inj hsplit
      exact ⟨newer, m, older, rfl, now', it, issued, hr, hrest⟩
    | nil =>
      obtain ⟨rfl, -⟩ := List.cons.inj hsplit
      obtain ⟨signature, ⟨⟨packet, challenge, hi, hty, -⟩, -⟩, -⟩ := hr
      obtain ⟨packet', challenge', hi', hty', -⟩ := hc
      dsimp only at hi hi'
      rw [hi] at hi'
      cases hi'
      rw [hty] at hty'
      cases hty'
  · intro familiar key origin hl
    have hold : (s.step C i).registry.peers.lookup (toHex key) =
        s.registry.peers.lookup (toHex key) → Proven C config key origin ((s, i) :: h) := by
      intro hentry
      refine (routable key origin ?_).cons (s, i)
      rw [← hl, PeerRegistry.lookup, PeerRegistry.lookup, hentry]
    rw [PeerRegistry.lookup] at hl
    cases step_effect (C := C) key s i with
    | none hentry _ => exact hold hentry
    | challenged _ _ _ _ hentry _ => exact hold hentry
    | refused _ _ _ _ _ _ hentry _ => exact hold hentry
    | registered origin' _ _ hr hentry _ =>
      rw [hentry] at hl
      obtain rfl : origin' = origin := Option.some.inj hl
      exact registers_proven backed hr
    | refreshed origin' now hc hknown hentry _ =>
      rw [hentry] at hl
      obtain rfl : origin' = origin := Option.some.inj hl
      exact (familiar key origin' now hc hknown).cons (s, i)
    | removed _ _ _ hentry _ =>
      rw [hentry] at hl
      cases hl
    | swept _ _ hentry _ =>
      rw [hentry] at hl
      obtain ⟨entry, hfilter, rfl⟩ := Option.map_eq_some_iff.mp hl
      refine (routable key entry.endpoint ?_).cons (s, i)
      rw [PeerRegistry.lookup, (Option.filter_eq_some_iff.mp hfilter).1]
      rfl

/-- Every entry of the registry is proven in every state of a run, exactly if no heartbeat for a
registered key comes from where the key has not proven itself. -/
theorem routable_iff (run : Run (SignalingServer.step C) ok (start config) h s) :
    Run.Throughout (Routable C config) h s ↔ Run.Each (Familiar C config) h := by
  refine run.throughout_iff ?_ fun h s i run routable _ => ?_
  · intro key origin hl
    cases hl
  · exact routable_step (backed_run run) routable

def owned : Bytes := (identity 65).publicKey

def home : Endpoint := ⟨[104], 1⟩

def elsewhere : Endpoint := ⟨[115], 2⟩

def nonce : Challenge := ⟨List.replicate kChallengeBytes 9, List.length_replicate⟩

def names (type : PacketType) (payload : Bytes) : Packet := { type, source := owned, payload }

def registration (now : Int) : List SignalingServer.Input :=
  [.handle (names .register []) home now nonce,
   .handle (names .register (owned ++ nonce.val)) home now nonce]

def scene (script : List SignalingServer.Input) : Past × SignalingServer :=
  Run.replay (SignalingServer.step reference) [] (start {}) script

theorem scene_run (script : List SignalingServer.Input) :
    Run (SignalingServer.step reference) (fun _ _ _ => True) (start {}) (scene script).1
      (scene script).2 :=
  Run.replay_run .start (Run.lawful_of_forall (fun _ _ _ => trivial) _ _ _)

theorem routable_iff_registration :
    Run.Throughout (Routable reference {}) (scene (registration 0)).1 (scene (registration 0)).2 := by
  refine (routable_iff (scene_run (registration 0))).mpr ⟨?_, ?_, trivial⟩
  all_goals
    intro key origin now hc
    obtain ⟨packet, challenge, hi, hty, -⟩ := hc
    cases hi
    cases hty

/-- A stranger sends one heartbeat in the name of the key, and the registry sends everyone who
looks for the key to the stranger. -/
def hijacked : List SignalingServer.Input :=
  registration 0 ++ [.handle (names .heartbeat []) elsewhere 1 nonce]

theorem heartbeat_hijacks :
    Run (SignalingServer.step reference) (fun _ _ _ => True) (start {}) (scene hijacked).1
      (scene hijacked).2 ∧
    (scene hijacked).2.registry.lookup (toHex owned) = some elsewhere ∧
    ¬ Proven reference {} owned elsewhere (scene hijacked).1 := by
  refine ⟨scene_run hijacked, by decide +kernel, ?_⟩
  rintro ⟨newer, m, older, hsplit, now, it, issued, ⟨signature, ⟨⟨packet, challenge, hi, hty, -⟩, -⟩, -⟩, -⟩
  have hinputs : (scene hijacked).1.map (·.2) = hijacked.reverse := by
    rw [scene, Run.replay_moves, List.map_nil, List.append_nil]
  have hmem : SignalingServer.Input.handle packet elsewhere now challenge ∈ hijacked.reverse := by
    rw [← hinputs, hsplit]
    simp [hi]
  simp only [hijacked, registration, List.mem_reverse, List.mem_append, List.mem_cons,
    SignalingServer.Input.handle.injEq, List.not_mem_nil, or_false] at hmem
  obtain (⟨-, he, -⟩ | ⟨-, he, -⟩) | ⟨rfl, -⟩ := hmem
  · cases he
  · cases he
  · cases hty

end OpenMesh.Signaling.Routability
