import OpenMesh.Signaling.Routability

namespace OpenMesh.Signaling.Challenges

open OpenMesh.Core.Buffers OpenMesh.Core.Hex OpenMesh.Crypto.Primitives
open OpenMesh.Crypto.Reference OpenMesh.Library.Runs
open OpenMesh.Protocol.Envelope OpenMesh.Net.Transport OpenMesh.Signaling.Registry
open OpenMesh.Signaling.Server OpenMesh.Signaling.Steps OpenMesh.Signaling.Routability

/-- The random challenges are pairwise distinct. -/
def Fresh (h : Past) (i : SignalingServer.Input) : Prop :=
  ∀ key origin now challenge, Challenges key origin now challenge i →
    ∀ key' origin' now', ¬ Issued key' origin' now' challenge h

variable {C : Sodium} {config : Config} {h : Past} {s : SignalingServer}
variable {i : SignalingServer.Input} {key : Bytes} {origin : Endpoint} {now : Int}

theorem challenges_unique {key' : Bytes} {origin' : Endpoint} {now' : Int}
    {challenge challenge' : Challenge} (h : Challenges key origin now challenge i)
    (h' : Challenges key' origin' now' challenge' i) :
    key = key' ∧ origin = origin' ∧ now = now' ∧ challenge = challenge' := by
  obtain ⟨packet, rfl, -, rfl, -⟩ := h
  obtain ⟨packet', hi, -, rfl, -⟩ := h'
  cases hi
  exact ⟨rfl, rfl, rfl, rfl⟩

structure Distinct (config : Config) (h : Past) (s : SignalingServer) : Prop
    extends Backed config h s where
  once : ∀ key origin now key' origin' now' challenge, Issued key origin now challenge h →
    Issued key' origin' now' challenge h → key = key'

theorem distinct_step (distinct : Distinct config h s) (fresh : Fresh h i) :
    Distinct config ((s, i) :: h) (s.step C i) where
  toBacked := backed_step distinct.toBacked i
  once key origin now key' origin' now' challenge hi hi' := by
    obtain ⟨m, hm, hc⟩ := hi
    obtain ⟨m', hm', hc'⟩ := hi'
    obtain rfl | hm := List.mem_cons.mp hm
    · obtain rfl | hm' := List.mem_cons.mp hm'
      · exact (challenges_unique hc hc').1
      · exact absurd ⟨m', hm', hc'⟩ (fresh _ _ _ _ hc _ _ _)
    · obtain rfl | hm' := List.mem_cons.mp hm'
      · exact absurd ⟨m, hm, hc⟩ (fresh _ _ _ _ hc' _ _ _)
      · exact distinct.once _ _ _ _ _ _ _ ⟨m, hm, hc⟩ ⟨m', hm', hc'⟩

variable {ok : Past → SignalingServer → SignalingServer.Input → Prop}

theorem distinct_run (hok : ∀ h s i, ok h s i → Fresh h i)
    (run : Run (SignalingServer.step C) ok (start config) h s) : Distinct config h s := by
  refine run.invariant (Distinct config) ⟨backed_start, ?_⟩
    fun h s i _ distinct hi => distinct_step distinct (hok h s i hi)
  rintro key origin now key' origin' now' challenge ⟨m, hm, -⟩
  cases hm

/-- The challenge has been sent, and is pending for nobody any more. -/
def Spent (challenge : Challenge) (h : Past) (s : SignalingServer) : Prop :=
  (∃ key origin now, Issued key origin now challenge h) ∧
    ∀ key it, s.pending.lookup (toHex key) = some it → it.challenge ≠ challenge

theorem spent_step {challenge : Challenge} (fresh : Fresh h i) (spent : Spent challenge h s) :
    Spent challenge ((s, i) :: h) (s.step C i) := by
  obtain ⟨⟨key₀, origin₀, now₀, hissued⟩, hall⟩ := spent
  refine ⟨⟨key₀, origin₀, now₀, hissued.cons (s, i)⟩, fun key it hp => ?_⟩
  cases step_effect (C := C) key s i with
  | none _ hpending => exact hall key it (hpending ▸ hp)
  | challenged origin now challenge' hc _ hpending =>
    rw [hpending] at hp
    obtain rfl := Option.some.inj hp
    rintro rfl
    exact fresh _ _ _ _ hc _ _ _ hissued
  | refused _ _ _ _ _ _ _ hpending =>
    rw [hpending] at hp
    cases hp
  | registered _ _ _ _ _ hpending =>
    rw [hpending] at hp
    cases hp
  | refreshed _ _ _ _ _ hpending => exact hall key it (hpending ▸ hp)
  | removed _ _ _ _ hpending => exact hall key it (hpending ▸ hp)
  | swept now _ _ hpending =>
    rw [hpending] at hp
    exact hall key it (Option.filter_eq_some_iff.mp hp).1

theorem challenges_sends {challenge : Challenge} (hc : Challenges key origin now challenge i) :
    s.sends C i = [⟨origin, { type := .hello, payload := challenge }⟩] := by
  obtain ⟨packet, rfl, hty, rfl, hlen, hempty⟩ := hc
  simp only [SignalingServer.sends, SignalingServer.handle, hty, SignalingServer.handleRegister,
    hlen, hempty, ne_eq, not_true_eq_false, ↓reduceIte]

theorem answers_pending {it : Pending} {signature : Bytes}
    (ha : Answers key origin now it signature s i) :
    (s.step C i).pending.lookup (toHex key) = none := by
  obtain ⟨⟨packet, challenge, rfl, hty, rfl, hlen, rfl, hsig⟩, hp, hnow, hend⟩ := ha
  have hempty : packet.payload ≠ [] := by
    intro he
    rw [he] at hsig
    cases hsig
  have hexp : ¬ it.expiry < now := Int.not_lt.mpr hnow
  simp only [SignalingServer.step, SignalingServer.handle, hty, SignalingServer.handleRegister,
    hlen, hsig, hp, hempty, hexp, hend, ne_eq, not_true_eq_false, or_self, ↓reduceIte]
  split <;> exact AList.lookup_erase _ _

/-- The first signature that comes back in time consumes the challenge, whatever it is worth. -/
theorem answers_spent (distinct : Distinct config h s) (fresh : Fresh h i) {it : Pending}
    {signature : Bytes} (ha : Answers key origin now it signature s i) :
    Spent it.challenge ((s, i) :: h) (s.step C i) := by
  obtain ⟨issued, hissued, -⟩ := distinct.pending key it ha.2.1
  refine ⟨⟨key, it.endpoint, issued, hissued.cons (s, i)⟩, fun key' it' hp hsame => ?_⟩
  obtain ⟨issued', hissued', -⟩ := (distinct_step (C := C) distinct fresh).pending key' it' hp
  rw [hsame] at hissued'
  obtain rfl : key = key' :=
    (distinct_step (C := C) distinct fresh).once _ _ _ _ _ _ _ (hissued.cons (s, i)) hissued'
  rw [answers_pending ha] at hp
  cases hp

/-- A move that sends an ACK, or puts a key into the registry that was not there. -/
def Admits (C : Sodium) (key : Bytes) (origin : Endpoint)
    (m : SignalingServer × SignalingServer.Input) : Prop :=
  (∃ packet challenge now, m.2 = .handle packet origin now challenge ∧ packet.source = key ∧
    ∃ o ∈ m.1.sends C m.2, o.packet.type = .ack) ∨
  m.1.registry.lookup (toHex key) = none ∧
    (m.1.step C m.2).registry.lookup (toHex key) = some origin

theorem registers_origin {o : Outgoing} (ho : o ∈ s.sends C i) (hack : o.packet.type = .ack)
    {packet : Packet} {challenge : Challenge} (hi : i = .handle packet origin now challenge) :
    o.dest = origin ∧ ∃ it, Registers C packet.source origin now it s i := by
  obtain ⟨key', now', it, hr⟩ := ack_registers ho hack
  obtain ⟨signature, ⟨⟨packet', challenge', hi', -, hsource, -⟩, -⟩, -⟩ := id hr
  rw [hi] at hi'
  cases hi'
  rw [hsource]
  exact ⟨rfl, it, hr⟩

theorem admits_registers (ha : Admits C key origin (s, i)) :
    ∃ now it, Registers C key origin now it s i := by
  obtain ⟨packet, challenge, now, hi, rfl, o, ho, hack⟩ | ⟨hnone, hsome⟩ := ha
  · exact ⟨now, (registers_origin ho hack hi).2⟩
  · rw [PeerRegistry.lookup, Option.map_eq_none_iff] at hnone
    rw [PeerRegistry.lookup] at hsome
    cases step_effect (C := C) key s i with
    | none hentry _ =>
      rw [hentry, hnone] at hsome
      cases hsome
    | challenged _ _ _ _ hentry _ =>
      rw [hentry, hnone] at hsome
      cases hsome
    | refused _ _ _ _ _ _ hentry _ =>
      rw [hentry, hnone] at hsome
      cases hsome
    | registered origin' now it hr hentry _ =>
      rw [hentry] at hsome
      obtain rfl : origin' = origin := Option.some.inj hsome
      exact ⟨now, it, hr⟩
    | refreshed _ _ _ hknown _ _ =>
      rw [PeerRegistry.lookup, hnone] at hknown
      cases hknown
    | removed _ _ _ hentry _ =>
      rw [hentry] at hsome
      cases hsome
    | swept _ _ hentry _ =>
      rw [hentry, hnone] at hsome
      cases hsome

/-- Every registration is owed to a challenge of its own. A challenge that was answered in time
registers nothing afterwards, and a signed REGISTER that has registered its key never does so
again, wherever it comes from. -/
theorem challenge_once
    (unique : ∀ signature message message' key, verifyDetached C signature message key →
      verifyDetached C signature message' key → message = message')
    (run : Run (SignalingServer.step C) (fun h _ i => Fresh h i) (start config) h s) :
    (∀ newer m older key origin, h = newer ++ m :: older → Admits C key origin m →
      ∃ now it, Registers C key origin now it m.1 m.2 ∧
        ∃ m' ∈ older, ∃ issued, Challenges key origin issued it.challenge m'.2 ∧
          m'.1.sends C m'.2 = [⟨origin, { type := .hello, payload := it.challenge }⟩] ∧
          now ≤ issued + config.challengeTtlSeconds) ∧
    ∀ newer m mid m' older, h = newer ++ m :: (mid ++ m' :: older) →
      ∀ key' origin' now' it' signature', Answers key' origin' now' it' signature' m'.1 m'.2 →
        (m'.1.step C m'.2).pending.lookup (toHex key') = none ∧
        (∀ key origin now it, Registers C key origin now it m.1 m.2 →
          it.challenge ≠ it'.challenge) ∧
        (verifyDetached C signature' it'.challenge key' → ∀ origin now it,
          Answers key' origin now it signature' m.1 m.2 →
            verifyDetached C signature' it.challenge key' = false) := by
  constructor
  · rintro newer ⟨t, j⟩ older key origin rfl ha
    obtain ⟨now, it, hr⟩ := admits_registers ha
    obtain ⟨issued, hissued, hexp⟩ := (backed_run run.cut.1).pending key it hr.choose_spec.1.2.1
    obtain ⟨-, -, hnow, hend⟩ := hr.choose_spec.1
    rw [hend] at hissued
    obtain ⟨m', hm', hc⟩ := hissued
    exact ⟨now, it, hr, m', hm', issued, hc, challenges_sends hc, hexp ▸ hnow⟩
  · rintro newer ⟨t, j⟩ mid ⟨t', j'⟩ older rfl key' origin' now' it' signature' ha
    obtain ⟨run', -⟩ := run.cut
    obtain ⟨before, fresh⟩ := run'.cut
    have hspent : Spent it'.challenge (mid ++ (t', j') :: older) t :=
      run'.stable (Spent it'.challenge) (fun _ _ _ _ spent fresh => spent_step fresh spent)
        (answers_spent (distinct_run (fun _ _ _ hf => hf) before) fresh ha)
    refine ⟨answers_pending ha, ?_, ?_⟩
    · rintro key origin now it ⟨signature, hanswers, -⟩
      exact hspent.2 key it hanswers.2.1
    · intro hver origin now it hanswers
      by_contra hne
      have hsame := unique signature' it.challenge it'.challenge key'
        (by simpa using hne) hver
      exact hspent.2 key' it hanswers.2.1 (Subtype.ext hsame)

theorem reference_unique (signature message message' key : Bytes)
    (h : verifyDetached reference signature message key)
    (h' : verifyDetached reference signature message' key) : message = message' := by
  have hall : ∀ m, verifyDetached reference signature m key → signature = key ++ m := by
    intro m hm
    unfold verifyDetached at hm
    split at hm
    · cases hm
    · exact of_decide_eq_true hm
  exact List.append_cancel_left ((hall message h).symm.trans (hall message' h'))

def challenging : SignalingServer :=
  (start {}).step reference (.handle (names .register []) home 0 nonce)

theorem registration_fresh :
    Run (SignalingServer.step reference) (fun h _ i => Fresh h i) (start {})
      [(challenging, .handle (names .register (owned ++ nonce.val)) home 0 nonce),
        (start {}, .handle (names .register []) home 0 nonce)]
      (challenging.step reference
        (.handle (names .register (owned ++ nonce.val)) home 0 nonce)) := by
  unfold challenging
  refine .move (.move .start ?_) ?_
  · rintro key origin now challenge - key' origin' now' ⟨m, hm, -⟩
    cases hm
  · rintro key origin now challenge ⟨packet, hi, -, -, -, hempty⟩
    cases hi
    cases hempty

theorem challenge_once_registration : ∃ now it,
    Registers reference owned home now it challenging
      (.handle (names .register (owned ++ nonce.val)) home 0 nonce) ∧
    ∃ m ∈ [(start {}, SignalingServer.Input.handle (names .register []) home 0 nonce)],
      ∃ issued, Challenges owned home issued it.challenge m.2 ∧
        m.1.sends reference m.2 = [⟨home, { type := .hello, payload := it.challenge }⟩] ∧
        now ≤ issued + 30 := by
  have hack : ∃ o ∈ challenging.sends reference
      (.handle (names .register (owned ++ nonce.val)) home 0 nonce), o.packet.type = .ack := by
    decide +kernel
  exact (challenge_once reference_unique registration_fresh).1 [] _ _ owned home rfl
    (.inl ⟨_, _, _, rfl, rfl, hack⟩)

theorem challenges_pending {challenge : Challenge} (hc : Challenges key origin now challenge i) :
    (s.step C i).pending.lookup (toHex key) =
      some ⟨challenge, origin, now + s.config.challengeTtlSeconds⟩ := by
  obtain ⟨packet, rfl, hty, rfl, hlen, hempty⟩ := hc
  simp only [SignalingServer.step, SignalingServer.handle, hty, SignalingServer.handleRegister,
    hlen, hempty, ne_eq, not_true_eq_false, ↓reduceIte]
  exact AList.lookup_insert _

section Undisturbed

variable {f : SignalingServer} {j : SignalingServer.Input} {newer older : Past} {t t' : Int}
variable {c : Challenge}

/-- As long as nobody else asks to be challenged for the key, the challenge stays pending. -/
theorem pending_kept (run : Run (SignalingServer.step C) ok (start config)
      (newer ++ (f, j) :: older) s)
    (hc : Challenges key origin t c j)
    (hquiet : ∀ m ∈ newer, ∀ now, ¬ Comes .register key origin now m.2)
    (hsweeps : ∀ m ∈ newer, ∀ now, m.2 = .expire now → now ≤ t')
    (ht : t' ≤ t + config.challengeTtlSeconds)
    (halone : ∀ m ∈ newer, ∀ origin' now c', ¬ Challenges key origin' now c' m.2) :
    s.pending.lookup (toHex key) = some ⟨c, origin, t + config.challengeTtlSeconds⟩ := by
  induction newer generalizing s with
  | nil =>
    cases run with
    | move run _ => rw [challenges_pending hc, (backed_run run).unchanged]
  | cons m newer ih =>
    cases run with
    | @move _ s i run _ =>
      have hq := List.forall_mem_cons.mp hquiet
      have hs := List.forall_mem_cons.mp hsweeps
      have hal := List.forall_mem_cons.mp halone
      have hold := ih run hq.2 hs.2 hal.2
      have hnot : ∀ origin' now it signature, ¬ Answers key origin' now it signature s i := by
        rintro origin' now it signature ⟨⟨packet, challenge, hi, hty, hsource, hlen, -⟩, hp, -, hend⟩
        rw [hold] at hp
        obtain rfl := Option.some.inj hp
        obtain rfl : origin = origin' := hend
        exact hq.1 now ⟨packet, challenge, hi, hty, hsource, hlen⟩
      cases step_effect (C := C) key s i with
      | none _ hpending => rw [hpending, hold]
      | challenged origin' now challenge h _ _ => exact absurd h (hal.1 origin' now challenge)
      | refused origin' now it signature h _ _ _ => exact absurd h (hnot origin' now it signature)
      | registered origin' now it h _ _ => exact absurd h.choose_spec.1 (hnot origin' now it _)
      | refreshed _ _ _ _ _ hpending => rw [hpending, hold]
      | removed _ _ _ _ hpending => rw [hpending, hold]
      | swept now h _ hpending =>
        have hle := hs.1 now h
        have hexp : ¬ t + config.challengeTtlSeconds < now := by omega
        rw [hpending, hold, Option.filter_some, if_pos (by simpa using hexp)]

theorem pending_taken (run : Run (SignalingServer.step C) ok (start config)
      (newer ++ (f, j) :: older) s)
    (hquiet : ∀ m ∈ newer, ∀ now, ¬ Comes .register key origin now m.2)
    (hasked : ∃ m ∈ newer, ∃ origin' now c', Challenges key origin' now c' m.2) :
    ∀ it, s.pending.lookup (toHex key) = some it → it.endpoint ≠ origin := by
  induction newer generalizing s with
  | nil =>
    obtain ⟨m, hm, -⟩ := hasked
    cases hm
  | cons m newer ih =>
    cases run with
    | @move _ s i run _ =>
      have hq := List.forall_mem_cons.mp hquiet
      have hother : ∀ origin' now c', Challenges key origin' now c' i → origin' ≠ origin := by
        rintro origin' now c' ⟨packet, hi, hty, hsource, hlen, -⟩ rfl
        exact hq.1 now ⟨packet, c', hi, hty, hsource, hlen⟩
      intro it hp
      by_cases hnow : ∃ origin' now c', Challenges key origin' now c' i
      · obtain ⟨origin', now, c', hc'⟩ := hnow
        rw [challenges_pending hc'] at hp
        obtain rfl := Option.some.inj hp
        exact hother origin' now c' hc'
      · obtain ⟨m', hm', hc'⟩ := hasked
        have hold := ih run hq.2 ⟨m', (List.mem_cons.mp hm').resolve_left (by
          rintro rfl
          exact hnow hc'), hc'⟩
        cases step_effect (C := C) key s i with
        | none _ hpending => exact hold it (hpending ▸ hp)
        | challenged origin' now challenge h _ _ => exact absurd ⟨_, _, _, h⟩ hnow
        | refused _ _ _ _ _ _ _ hpending =>
          rw [hpending] at hp
          cases hp
        | registered _ _ _ _ _ hpending =>
          rw [hpending] at hp
          cases hp
        | refreshed _ _ _ _ _ hpending => exact hold it (hpending ▸ hp)
        | removed _ _ _ _ hpending => exact hold it (hpending ▸ hp)
        | swept _ _ _ hpending =>
          rw [hpending] at hp
          exact hold it (Option.filter_eq_some_iff.mp hp).1

/-- The signed REGISTER is accepted, exactly if no other endpoint has asked to be challenged for
the key since the challenge was sent; nothing else that others send comes in between. -/
theorem registration_undisturbed (run : Run (SignalingServer.step C) ok (start config)
      (newer ++ (f, j) :: older) s)
    (hc : Challenges key origin t c j)
    (hquiet : ∀ m ∈ newer, ∀ now, ¬ Comes .register key origin now m.2)
    (hsweeps : ∀ m ∈ newer, ∀ now, m.2 = .expire now → now ≤ t')
    (ht : t' ≤ t + config.challengeTtlSeconds) {packet : Packet} (challenge : Challenge)
    (hty : packet.type = .register) (hsource : packet.source = key)
    (hver : verifyDetached C packet.payload c key) :
    ((s.step C (.handle packet origin t' challenge)).registry.lookup (toHex key) = some origin ∧
      ∃ o ∈ s.sends C (.handle packet origin t' challenge), o.dest = origin ∧
        o.packet.type = .ack) ↔
      ∀ m ∈ newer, ∀ origin' now c', ¬ Challenges key origin' now c' m.2 := by
  constructor
  · rintro ⟨-, o, ho, hdest, hack⟩ m hm origin' now c' hc'
    obtain ⟨-, it, signature, ⟨-, hp, -, hend⟩, -⟩ := registers_origin ho hack rfl
    rw [hsource] at hp
    exact pending_taken run hquiet ⟨m, hm, origin', now, c', hc'⟩ it hp hend
  · intro halone
    have hp := pending_kept run hc hquiet hsweeps ht halone
    have hlen := verifyDetached_lengths hver
    have hr : Registers C key origin t' ⟨c, origin, t + config.challengeTtlSeconds⟩ s
        (.handle packet origin t' challenge) :=
      ⟨packet.payload, ⟨⟨packet, challenge, rfl, hty, hsource, hlen.2, rfl, hlen.1⟩, hp, ht, rfl⟩,
        hver⟩
    obtain ⟨hl, hsends⟩ := registers_step hr
    refine ⟨hl, ⟨origin, { type := .ack, payload := origin.toString }⟩, ?_, rfl, rfl⟩
    rw [hsends]
    exact List.mem_singleton_self _

end Undisturbed

/-- A stranger signs for the key, sends a heartbeat for it and asks to be challenged for another
one, and the table is swept. -/
def meddling : List SignalingServer.Input :=
  [.handle (names .register (owned ++ nonce.val)) elsewhere 5 nonce,
    .handle (names .heartbeat []) elsewhere 6 nonce,
    .handle { type := .register, source := (identity 66).publicKey } elsewhere 7 nonce,
    .expire 20]

def meddled : Past × SignalingServer :=
  Run.replay (SignalingServer.step reference) [] challenging meddling

theorem mem_meddled {m : SignalingServer × SignalingServer.Input} (hm : m ∈ meddled.1) :
    m.2 ∈ meddling := by
  have hmoves : meddled.1.map (·.2) = meddling.reverse := by
    rw [meddled, Run.replay_moves, List.map_nil, List.append_nil]
  rw [← List.mem_reverse, ← hmoves]
  exact List.mem_map_of_mem hm

theorem meddled_handles {m : SignalingServer × SignalingServer.Input} (hm : m ∈ meddled.1)
    {packet : Packet} {origin : Endpoint} {now : Int} {challenge : Challenge}
    (hi : m.2 = .handle packet origin now challenge) :
    origin = elsewhere ∧
      ¬ (packet.type = .register ∧ packet.source = owned ∧ packet.payload = []) := by
  have hmem := mem_meddled hm
  rw [hi] at hmem
  simp only [meddling, List.mem_cons, SignalingServer.Input.handle.injEq] at hmem
  obtain ⟨rfl, rfl, -⟩ | ⟨rfl, rfl, -⟩ | ⟨rfl, rfl, -⟩ | h | h := hmem
  · exact ⟨rfl, by decide⟩
  · exact ⟨rfl, by decide⟩
  · exact ⟨rfl, by decide⟩
  · cases h
  · cases h

theorem meddled_expires {m : SignalingServer × SignalingServer.Input} (hm : m ∈ meddled.1)
    {now : Int} (hi : m.2 = .expire now) : now = 20 := by
  have hmem := mem_meddled hm
  rw [hi] at hmem
  simpa [meddling] using hmem

theorem registration_undisturbed_amid :
    (meddled.2.step reference (.handle (names .register (owned ++ nonce.val)) home 30
      nonce)).registry.lookup (toHex owned) = some home ∧
    ∃ o ∈ meddled.2.sends reference
      (.handle (names .register (owned ++ nonce.val)) home 30 nonce), o.dest = home ∧
        o.packet.type = .ack := by
  have run : Run (SignalingServer.step reference) (fun _ _ _ => True) (start {})
      (meddled.1 ++ (start {}, .handle (names .register []) home 0 nonce) :: []) meddled.2 :=
    scene_run (.handle (names .register []) home 0 nonce :: meddling)
  have hc : Challenges owned home 0 nonce (.handle (names .register []) home 0 nonce) :=
    ⟨_, rfl, rfl, rfl, rfl, rfl⟩
  have hquiet : ∀ m ∈ meddled.1, ∀ now, ¬ Comes .register owned home now m.2 := by
    rintro m hm now ⟨packet, challenge, hi, -⟩
    exact absurd (meddled_handles hm hi).1 (by decide)
  have hsweeps : ∀ m ∈ meddled.1, ∀ now, m.2 = .expire now → now ≤ 30 := by
    intro m hm now hi
    rw [meddled_expires hm hi]
    decide
  have halone : ∀ m ∈ meddled.1, ∀ origin' now c', ¬ Challenges owned origin' now c' m.2 := by
    rintro m hm origin' now c' ⟨packet, hi, hty, hsource, -, hempty⟩
    exact (meddled_handles hm hi).2 ⟨hty, hsource, hempty⟩
  have hlate : (30 : Int) ≤ 0 + ({} : Config).challengeTtlSeconds := by decide
  exact (registration_undisturbed run hc hquiet hsweeps hlate nonce rfl rfl
    (by decide +kernel)).mpr halone

def disturbed : List SignalingServer.Input :=
  [.handle (names .register []) home 0 nonce, .handle (names .register []) elsewhere 0 nonce]

theorem stranger_disturbs :
    Run (SignalingServer.step reference) (fun _ _ _ => True) (start {}) (scene disturbed).1
      (scene disturbed).2 ∧
    verifyDetached reference (owned ++ nonce.val) nonce owned ∧
    (scene disturbed).2.sends reference
      (.handle (names .register (owned ++ nonce.val)) home 1 nonce) = [] ∧
    ((scene disturbed).2.step reference
      (.handle (names .register (owned ++ nonce.val)) home 1 nonce)).registry.lookup
        (toHex owned) = none :=
  ⟨scene_run disturbed, by decide +kernel, by decide +kernel, by decide +kernel⟩

end OpenMesh.Signaling.Challenges
