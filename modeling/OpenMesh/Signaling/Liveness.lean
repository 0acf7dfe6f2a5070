import OpenMesh.Signaling.Challenges

namespace OpenMesh.Signaling.Liveness

open OpenMesh.Core.Buffers OpenMesh.Core.Hex OpenMesh.Crypto.Primitives
open OpenMesh.Crypto.Reference OpenMesh.Library.Runs
open OpenMesh.Protocol.Envelope OpenMesh.Net.Transport OpenMesh.Signaling.Registry
open OpenMesh.Signaling.Server OpenMesh.Signaling.Steps OpenMesh.Signaling.Routability
open OpenMesh.Signaling.Challenges

def Forward (h : Past) (i : SignalingServer.Input) : Prop := ∀ m ∈ h, m.2.now ≤ i.now

instance (h : Past) (i : SignalingServer.Input) : Decidable (Forward h i) :=
  inferInstanceAs (Decidable (∀ m ∈ h, m.2.now ≤ i.now))

/-- The key was registered, or has sent a heartbeat, at the endpoint at that time. -/
def Beats (C : Sodium) (key : Bytes) (origin : Endpoint) (now : Int)
    (m : SignalingServer × SignalingServer.Input) : Prop :=
  (∃ it, Registers C key origin now it m.1 m.2) ∨ Comes .heartbeat key origin now m.2

/-- At every sweep the last sign of life is at most so old. -/
def Active (C : Sodium) (config : Config) (key : Bytes) (origin : Endpoint) :
    Past → SignalingServer.Input → Prop
  | h, .expire now => ∃ m ∈ h, ∃ beat, Beats C key origin beat m ∧ now - beat ≤ config.peerTtlSeconds
  | _, .handle _ _ _ _ => True

variable {C : Sodium} {config : Config} {h : Past} {s : SignalingServer}
variable {key : Bytes} {origin : Endpoint}

theorem beats_now {now : Int} {m : SignalingServer × SignalingServer.Input}
    (hb : Beats C key origin now m) : m.2.now = now := by
  obtain ⟨it, signature, ⟨⟨packet, challenge, hi, -⟩, -⟩, -⟩ | ⟨packet, challenge, hi, -⟩ := hb
  · rw [hi]
    rfl
  · rw [hi]
    rfl

def Seen (C : Sodium) (key : Bytes) (origin : Endpoint) (h : Past) (s : SignalingServer) : Prop :=
  ∃ entry, s.registry.peers.lookup (toHex key) = some entry ∧
    ∀ m ∈ h, ∀ beat, Beats C key origin beat m → beat ≤ entry.lastSeen

theorem beats_entry {now : Int} {s : SignalingServer} {i : SignalingServer.Input}
    (hb : Beats C key origin now (s, i)) (hknown : (s.registry.lookup (toHex key)).isSome) :
    (s.step C i).registry.peers.lookup (toHex key) = some ⟨origin, now⟩ := by
  obtain ⟨it, hr⟩ | hc := hb
  · exact (registers_entry hr).1
  · exact heartbeat_entry hc hknown

theorem seen_latest {i : SignalingServer.Input} (hforward : Forward h i) {endpoint : Endpoint}
    {now : Int} (hnow : i.now = now)
    (hentry : (s.step C i).registry.peers.lookup (toHex key) = some ⟨endpoint, now⟩) :
    Seen C key origin ((s, i) :: h) (s.step C i) := by
  refine ⟨_, hentry, fun m hm beat hb => ?_⟩
  obtain rfl | hm := List.mem_cons.mp hm
  · exact le_of_eq ((beats_now hb).symm.trans hnow)
  · have hle := hforward m hm
    rwa [beats_now hb, hnow] at hle

theorem seen_step (hconfig : s.config = config) {i : SignalingServer.Input}
    (hforward : Forward h i) (hactive : Active C config key origin h i)
    (hstay : ∀ origin' now, ¬ Comes .disconnect key origin' now i)
    (seen : Seen C key origin h s) : Seen C key origin ((s, i) :: h) (s.step C i) := by
  by_cases hbeat : ∃ beat, Beats C key origin beat (s, i)
  · obtain ⟨beat, hb⟩ := hbeat
    obtain ⟨entry, hentry, -⟩ := seen
    refine seen_latest hforward (beats_now hb) (beats_entry hb ?_)
    rw [PeerRegistry.lookup, hentry]
    rfl
  · obtain ⟨entry, hentry, hbeats⟩ := seen
    have hsame : (s.step C i).registry.peers.lookup (toHex key) = some entry →
        Seen C key origin ((s, i) :: h) (s.step C i) := by
      intro hsame
      refine ⟨entry, hsame, fun m hm beat hb => ?_⟩
      obtain rfl | hm := List.mem_cons.mp hm
      · exact absurd ⟨beat, hb⟩ hbeat
      · exact hbeats m hm beat hb
    cases step_effect (C := C) key s i with
    | none heq _ => exact hsame (heq.trans hentry)
    | challenged _ _ _ _ heq _ => exact hsame (heq.trans hentry)
    | refused _ _ _ _ _ _ heq _ => exact hsame (heq.trans hentry)
    | registered origin' now it hr heq _ =>
      exact seen_latest hforward (beats_now (m := (s, i)) (Or.inl ⟨it, hr⟩)) heq
    | refreshed origin' now hc _ heq _ =>
      exact seen_latest hforward (beats_now (C := C) (m := (s, i)) (Or.inr hc)) heq
    | removed origin' now hc _ _ => exact absurd hc (hstay origin' now)
    | swept now hi heq _ =>
      refine hsame ?_
      subst hi
      obtain ⟨m, hm, beat, hb, hage⟩ := hactive
      have hle := hbeats m hm beat hb
      rw [heq, hentry, Option.filter_some, if_pos]
      rw [hconfig, decide_eq_true_eq]
      omega

variable {ok : Past → SignalingServer → SignalingServer.Input → Prop}

/-- A key that was registered, and has given a sign of life often enough since, stays registered
until someone sends a DISCONNECT in its name: whatever else anyone sends. -/
theorem registration_stays (hok : ∀ h s i, ok h s i → Forward h i)
    {newer older : Past} {t : SignalingServer} {j : SignalingServer.Input} {now : Int}
    {it : Pending}
    (run : Run (SignalingServer.step C) ok (start config) (newer ++ (t, j) :: older) s)
    (hr : Registers C key origin now it t j)
    (hactive : ∀ later m earlier, newer = later ++ m :: earlier →
      Active C config key origin (earlier ++ (t, j) :: older) m.2)
    (hstay : ∀ m ∈ newer, ∀ origin' now, ¬ Comes .disconnect key origin' now m.2) :
    (s.registry.lookup (toHex key)).isSome := by
  have seen : Seen C key origin (newer ++ (t, j) :: older) s := by
    induction newer generalizing s with
    | nil =>
      cases run with
      | move run hj =>
        exact seen_latest (hok _ _ _ hj) (beats_now (m := (t, j)) (Or.inl ⟨it, hr⟩))
          (registers_entry hr).1
    | cons m newer ih =>
      cases run with
      | move run hm =>
        refine seen_step (backed_run run).unchanged (hok _ _ _ hm) (hactive [] _ newer rfl)
          (hstay _ List.mem_cons_self) (ih run ?_ ?_)
        · intro later m' earlier hsplit
          exact hactive (_ :: later) m' earlier (congrArg _ hsplit)
        · exact fun m' hm' => hstay m' (List.mem_cons_of_mem _ hm')
  obtain ⟨entry, hentry, -⟩ := seen
  rw [PeerRegistry.lookup, hentry]
  rfl

def registered : SignalingServer :=
  challenging.step reference (.handle (names .register (owned ++ nonce.val)) home 0 nonce)

theorem registration_stays_swept :
    ((registered.step reference (.expire 120)).registry.lookup (toHex owned)).isSome := by
  have run : Run (SignalingServer.step reference) (fun h _ i => Forward h i) (start {})
      ([(registered, .expire 120)] ++
        (challenging, .handle (names .register (owned ++ nonce.val)) home 0 nonce) ::
        [(start {}, .handle (names .register []) home 0 nonce)])
      (registered.step reference (.expire 120)) := by
    unfold registered challenging
    refine .move (.move (.move .start ?_) ?_) ?_
    all_goals simp [Forward, SignalingServer.Input.now]
  have hr : Registers reference owned home 0 ⟨nonce, home, 30⟩ challenging
      (.handle (names .register (owned ++ nonce.val)) home 0 nonce) :=
    ⟨_, ⟨⟨_, _, rfl, rfl, rfl, rfl, rfl, by decide⟩, by decide +kernel, by decide, rfl⟩,
      by decide +kernel⟩
  refine registration_stays (fun _ _ _ hf => hf) run hr ?_ ?_
  · intro later m earlier hsplit
    obtain ⟨rfl, hm⟩ | ⟨later', rfl, hm⟩ := List.cons_eq_append_iff.mp hsplit
    · obtain ⟨rfl, rfl⟩ := List.cons.inj hm
      exact ⟨_, List.mem_cons_self, 0, Or.inl ⟨_, hr⟩, by decide⟩
    · cases later' <;> cases hm
  · intro m hm origin' now ⟨packet, challenge, hi, _⟩
    rw [List.mem_singleton.mp hm] at hi
    cases hi

def dismissed : List SignalingServer.Input :=
  registration 0 ++ [.handle (names .disconnect []) elsewhere 1 nonce]

theorem stranger_dismisses :
    Run (SignalingServer.step reference) (fun h _ i => Forward h i) (start {}) (scene dismissed).1
      (scene dismissed).2 ∧
    (scene (registration 0)).2.registry.lookup (toHex owned) = some home ∧
    elsewhere ≠ home ∧ (scene dismissed).2.registry.lookup (toHex owned) = none := by
  refine ⟨Run.replay_run .start ?_, by decide +kernel, by decide, by decide +kernel⟩
  decide +kernel

end OpenMesh.Signaling.Liveness
