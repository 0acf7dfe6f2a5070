import OpenMesh.Messaging.Crossing

namespace OpenMesh.Messaging.Recovery

open OpenMesh.Core.Buffers OpenMesh.Core.Hex OpenMesh.Crypto.Primitives
open OpenMesh.Crypto.Reference OpenMesh.Library.Runs
open OpenMesh.Protocol.Envelope OpenMesh.Net.Transport OpenMesh.Storage.Database
open OpenMesh.Messaging.Operations OpenMesh.Messaging.Sides OpenMesh.Messaging.Projection
open OpenMesh.Messaging.Handling OpenMesh.Messaging.Simulation OpenMesh.Messaging.Pairs
open OpenMesh.Messaging.Routes OpenMesh.Messaging.Handshake OpenMesh.Messaging.Agreement
open OpenMesh.Messaging.Crossing

/-- Nothing tells the party how the other has decided. -/
structure Unanswered (X : Party) (m : Party × Act) : Prop where
  leaves : ∀ accept leaves, m.2 = .answer accept leaves → leaves = true
  added : m.1 = X → m.2 ≠ .add
  heard : m.1 = X → ∀ l, m.2 = .deliver l → l.type ≠ .contactResponse

/-- The party has made no decision about the other but by an answer. -/
def Undecided (s : Side) : Prop :=
  s.trust = none ∨ s.trust = some .pending ∨ answers s ≠ []

theorem undecided_act {s : Side} {a : Act} (hleaves : ∀ accept leaves, a = .answer accept leaves →
    leaves = true) (hadd : a ≠ .add) (hheard : ∀ l, a = .deliver l → l.type ≠ .contactResponse)
    (h : Undecided s) : Undecided (s.act a) := by
  by_cases hans : answers s = []
  swap
  · exact .inr (.inr (answers_kept s hans))
  replace h : s.trust = none ∨ s.trust = some .pending := h.imp id fun h => h.resolve_right (absurd hans)
  cases a with
  | deliver l =>
    obtain ⟨-, he⟩ | ⟨-, htrust, -⟩ | ⟨-, -, -, htrust, -⟩ | ⟨-, hty, -⟩ := Handshake.delivery s l
    · rw [he]
      exact h.imp id .inl
    · rw [Undecided, htrust]
      exact h.imp id .inl
    · exact .inr (.inl htrust)
    · exact absurd hty (hheard l rfl)
  | ask => exact .inr (.inl rfl)
  | answer accept leaves =>
    obtain rfl := hleaves accept leaves rfl
    exact .inr (.inr (by simp [answers_act]))
  | add => exact absurd rfl hadd
  | name =>
    right
    left
    obtain h | h := h <;> simp [Side.act, h]
  | _ => exact h.imp id .inl

theorem undecided_run {p₀ p : Pair} {h : History Pair (Party × Act)} {X : Party}
    (hstart : Strangers p₀)
    (run : Run Pair.step (fun _ p m => p.Permits m ∧ Unanswered X m) p₀ h p) :
    Orderly p ∧ Undecided (p X) := by
  refine run.invariant (fun _ p => Orderly p ∧ Undecided (p X))
    ⟨orderly_start hstart, .inl (hstart.trust X)⟩ ?_
  rintro _ p ⟨Y, a⟩ _ ⟨orderly, undecided⟩ ⟨permits, unanswered⟩
  refine ⟨orderly_step orderly permits, ?_⟩
  obtain rfl | rfl := Y.eq_or_other X
  · rw [Pair.step_self]
    exact undecided_act unanswered.leaves (unanswered.added rfl) (unanswered.heard rfl) undecided
  · rwa [Pair.step_other]

theorem waiting_run {p₀ p : Pair} {h : History Pair (Party × Act)} {X : Party}
    (hstart : Strangers p₀)
    (run : Run Pair.step (fun _ p m => p.Permits m ∧ Unanswered X m) p₀ h p)
    (hanswer : answers (p X.other) ≠ []) : (p X).trust = some .pending ∧ ¬ (p X).incoming := by
  obtain ⟨orderly, undecided⟩ := undecided_run hstart run
  have hheard : Heard (p X.other) := .inr hanswer
  have hnot := orderly.oneway X.other hheard
  have hasked := (orderly.asked X.other hheard).1
  rw [Party.other_other] at hnot hasked
  have hknown := orderly.known X hasked
  refine ⟨?_, fun hin => hnot (.inl hin)⟩
  obtain h | h | h := undecided
  · simp [h] at hknown
  · exact h
  · exact absurd (.inr h) hnot

theorem answered_kept {ok : History Pair (Party × Act) → Pair → Party × Act → Prop} {p₀ p q : Pair}
    {newer older : History Pair (Party × Act)} {X : Party} {accept : Bool}
    (run : Run Pair.step ok p₀ (newer ++ (q, (X, .answer accept true)) :: older) p) :
    answers (p X) ≠ [] := by
  refine Pair.kept (P := fun s => answers s ≠ []) (fun s _ h => answers_kept s h) run ?_
  rw [Pair.step_self, answers_act]
  simp

variable {C : Sodium} (K : Keyring C)

/-- The response of the other has come in, whether or not it was of use. -/
def Responded (h : History Engines Move) (X : Party) : Prop :=
  ∃ m ∈ h, m.2.1 = X ∧ ∃ packet ∈ arrival m.2.2.2, packet.type = .contactResponse ∧
    packet.destination = K.key X ∧ packet ∈ (m.1 X.other).socket.sent.map (·.2)

instance (h : History Engines Move) (X : Party) : Decidable (Responded K h X) :=
  inferInstanceAs (Decidable (∃ m ∈ h, _))

def Accepting (h : History Engines Move) (X : Party) : Prop :=
  ∃ m ∈ h, m.2.1 = X ∧ m.2.2.2.accepts = some (K.key X.other) ∧
    ((m.1 X).call C m.2.2.1 m.2.2.2).2 = true

instance (h : History Engines Move) (X : Party) : Decidable (Accepting K h X) :=
  inferInstanceAs (Decidable (∃ m ∈ h, _))

variable {K} {es₀ es fs : Engines} {h : History Engines Move}

theorem accepting_view {X : Party} {m : Move} (hX : m.1 = X)
    (haccept : m.2.2.accepts = some (K.key X.other))
    (htrue : ((fs X).call C m.2.1 m.2.2).2 = true) : m.view K fs = (X, .answer true true) := by
  obtain ⟨Y, env, c⟩ := m
  obtain rfl : Y = X := hX
  cases c with
  | acceptContact r =>
    obtain rfl : r = K.key Y.other := Option.some.inj haccept
    have hin : toHex (K.key Y.other) ∈ (fs Y).incomingRequests := by
      by_contra hin
      simp [Engine.call, Engine.acceptContact, Engine.answerContact, hin] at htrue
    have hopened : ((fs Y).opened C (K.key Y.other)).isSome := by
      cases hs : (fs Y).ensureSession C (K.key Y.other) with
      | none => simp [Engine.call, Engine.acceptContact, Engine.answerContact, hs] at htrue
      | some p => rw [(Engine.ensureSession_eq_some hs).1]; rfl
    simp only [Move.view, act, hopened, hin, and_self, ↓reduceIte, htrue]
  | _ => cases haccept

theorem letter_sent (ready : Ready K fs) {m : Move} (genuine : Genuine K fs m) {l : Letter}
    (ha : (m.view K fs).2 = .deliver l) : ∃ packet ∈ arrival m.2.2, packet.type = l.type ∧
      packet.destination = K.key m.1 ∧ packet ∈ (fs m.1.other).socket.sent.map (·.2) := by
  have hb := act_call (C := C) m.2.1 (fs m.1) (K.key m.1.other) m.2.2
  rw [show act C m.2.1 (fs m.1) (K.key m.1.other) m.2.2 = .deliver l from ha] at hb
  obtain ⟨incoming, hc, hb⟩ := hb
  obtain ⟨packet, hp, -, -, hs, hdest, hlet⟩ := brought_eq_some_iff.mp hb
  rw [ready.common] at hlet
  rw [ready.localPublic] at hdest
  have hp' : packet ∈ arrival m.2.2 := by rw [hc]; exact hp
  obtain ⟨p, hsent, hd, hlet', hv, hf, hsrc, hpay⟩ := genuine.letter ready hp' hs hdest hlet
  obtain ⟨-, hty, hcount, -⟩ := letterOf_eq_some_iff.mp hlet
  obtain ⟨-, hty', hcount', -⟩ := letterOf_eq_some_iff.mp hlet'
  refine ⟨packet, hp', hty, hdest, List.mem_map.mpr ⟨p, hsent, ?_⟩⟩
  exact Packet.ext hv (hty'.trans hty.symm) hf (hcount'.trans hcount.symm) hsrc
    (hd.trans hdest.symm) hpay

theorem sent_letter (ready : Ready K fs) {X : Party} {p : Endpoint × Packet}
    (hp : p ∈ (fs X.other).socket.sent) (hd : p.2.destination = K.key X)
    (hty : p.2.type ≠ .hello) :
    ∃ l, letterOf C K.common p.2 = some l ∧ l.type = p.2.type ∧ p.2.type ≠ .connect := by
  obtain ⟨dest, packet⟩ := p
  have hw := (ready.sound X.other).wire _ hp
  dsimp only at hd hty hw ⊢
  cases hw with
  | hello destination => exact absurd rfl hty
  | sealed env s type text hv hloc hk ht =>
    rw [sealed_destination] at hd
    rw [← ready.sharedKey hk (by rwa [Party.other_other])]
    have hletter := letterOf_sealed (C := C) env hv (agreeSharedKey_length hk).2 type text
    have htype := (letterOf_eq_some_iff.mp hletter).2.1
    exact ⟨_, hletter, htype.symm, by rw [htype]; exact ht.2⟩

theorem response_view (ready : Ready K fs) {m : Move} {packet : Packet}
    (hp : packet ∈ arrival m.2.2) (hty : packet.type = .contactResponse)
    (hd : packet.destination = K.key m.1) (hsent : packet ∈ (fs m.1.other).socket.sent.map (·.2)) :
    ∃ l, m.view K fs = (m.1, .deliver l) ∧ l ∈ answers (view K fs m.1.other) := by
  obtain ⟨p, hmem, rfl⟩ := List.mem_map.mp hsent
  obtain ⟨l, hlet, hlty, hconnect⟩ := sent_letter ready hmem hd (by simp [hty])
  have hsource : p.2.source = K.key m.1.other :=
    ((ready.sound m.1.other).wire p hmem).source.trans (ready.localPublic m.1.other)
  obtain ⟨incoming, hc⟩ : ∃ incoming, m.2.2 = .poll incoming := by
    cases hc : m.2.2 with
    | poll incoming => exact ⟨incoming, rfl⟩
    | _ =>
      rw [hc] at hp
      cases hp
  have hb : brought C (fs m.1) (K.key m.1.other) incoming = some l := by
    refine brought_eq_some_iff.mpr ⟨p.2, ?_, by simp [hty], hconnect, hsource, ?_, ?_⟩
    · rw [hc] at hp
      exact hp
    · rw [hd, ready.localPublic]
    · rwa [ready.common]
  refine ⟨l, ?_, mem_answers.mpr ⟨(mem_letters ready).mpr ⟨p, hmem, ?_, hlet⟩, hlty.trans hty⟩⟩
  · simp only [Move.view, hc, act, Projection.delivery, hb]
  · rwa [Party.other_other]

theorem unanswered_view {ok : History Engines Move → Engines → Move → Prop}
    (hstart : ∀ X, Started C (K.identity X) (es₀ X)) (hnew : NoRecord K es₀)
    (hok : ∀ h es m, ok h es m → Keeping m) (run : Run (Engines.step C) ok es₀ h es) {X : Party}
    {m : Move} (genuine : Genuine K es m) (htaken : Taken m)
    (hadd : m.1 = X → m.2.2.adds ≠ some (K.key X.other))
    (hresponse : ∀ packet ∈ arrival m.2.2, m.1 = X → packet.type = .contactResponse →
      packet.destination = K.key X → packet ∉ (es X.other).socket.sent.map (·.2)) :
    Unanswered X (m.view K es) := by
  have ready := ready_run (K := K) hstart run
  refine ⟨fun accept leaves ha => ?_, fun hX ha => ?_, fun hX l ha hty => ?_⟩
  · exact answer_leaves ha (connected_run hstart hnew hok run m.1).2 htaken
  · obtain rfl : m.1 = X := hX
    have hb := act_call (C := C) m.2.1 (es m.1) (K.key m.1.other) m.2.2
    rw [show act C m.2.1 (es m.1) (K.key m.1.other) m.2.2 = .add from ha] at hb
    obtain ⟨⟨endpoint, he⟩, -⟩ := hb
    exact hadd rfl (by rw [he]; rfl)
  · obtain rfl : m.1 = X := hX
    obtain ⟨packet, hp, hpty, hd, hsent⟩ := letter_sent ready genuine ha
    exact hresponse packet hp rfl (hpty.trans hty) hd hsent

/-- Whoever has been accepted learns it from the one response alone: without it
no further request helps, and with it, however late, nothing else is needed. -/
theorem lost_response (hstart : ∀ X, Started C (K.identity X) (es₀ X)) (hnew : NoRecord K es₀)
    (run : Run (Engines.step C) (fun _ es m => Keeping m ∧ Genuine K es m ∧ Taken m) es₀ h es)
    {X : Party} (haccept : Accepting K h X.other)
    (hadd : ∀ m ∈ h, m.2.1 = X → m.2.2.2.adds ≠ some (K.key X.other)) :
    (¬ Responded K h X → (es X).trustOf (K.key X.other) = some .pending ∧
      toHex (K.key X.other) ∉ (es X).incomingRequests) ∧
    ((∀ m ∈ h, NotAdding K m.2 ∧ Unwrapped K m.1 m.2) → Responded K h X →
      (es X).trustOf (K.key X.other) = some .accepted) := by
  have hstrangers := strangers_view (K := K) hstart hnew
  obtain ⟨⟨fs, m⟩, hmem, hX, hcall, htrue⟩ := haccept
  have hanswer := accepting_view hX hcall htrue
  have hviews : ∀ {newer older : History Engines Move} {gs : Engines} {m' : Move},
      views K (newer ++ (gs, m') :: older) =
        views K newer ++ (view K gs, m'.view K gs) :: views K older := by simp [views]
  constructor
  · intro hnot
    obtain ⟨newer, older, rfl⟩ := List.mem_iff_append.mp hmem
    have hrun := run.restrict (P := fun es m => (m.1 = X → m.2.2.adds ≠ some (K.key X.other)) ∧
      ∀ packet ∈ arrival m.2.2, m.1 = X → packet.type = .contactResponse →
        packet.destination = K.key X → packet ∉ (es X.other).socket.sent.map (·.2))
      fun m hm => ⟨hadd m hm, fun packet hp hmX hty hd hsent =>
        hnot ⟨m, hm, hmX, packet, hp, hty, hd, hsent⟩⟩
    have hview := run_view (fun _ _ m => Unanswered X m) hstart
      (fun _ _ _ hm => ⟨hm.1.1, hm.1.2.1⟩) (fun _ _ _ before hm => unanswered_view hstart hnew
        (fun _ _ _ hm => hm.1.1) before hm.1.2.1 hm.1.2.2 hm.2.1 hm.2.2) hrun
    rw [hviews, hanswer] at hview
    have hwaiting := waiting_run hstrangers hview (answered_kept hview)
    exact ⟨hwaiting.1, fun hin => hwaiting.2 (decide_eq_true hin)⟩
  · rintro hall ⟨⟨gs, m'⟩, hmem', hX', packet, hp, hty, hd, hsent⟩
    obtain rfl : m'.1 = X := hX'
    have hrun : Run (Engines.step C) (fun _ es m => Keeping m ∧ Genuine K es m ∧ NotAdding K m ∧
        Taken m) es₀ _ es :=
      (run.restrict (P := fun es m => NotAdding K m) fun m hm => (hall m hm).1).mono
        fun _ _ _ hm => ⟨hm.1.1, hm.1.2.1, hm.2, hm.1.2.2⟩
    have tied := tied_view hstart hnew hrun fun m hm => (hall m hm).2
    have hview := run_view (fun _ _ _ => True) hstart
      (fun _ _ _ hm => ⟨hm.1, hm.2.1⟩) (fun _ _ _ _ _ => trivial) run
    obtain ⟨newer', older', hsplit'⟩ := List.mem_iff_append.mp hmem'
    obtain ⟨l, hdeliver, hl⟩ := response_view (ready_run hstart (hsplit' ▸ run).cut.1) hp hty hd hsent
    obtain ⟨newer, older, rfl⟩ := List.mem_iff_append.mp hmem
    have hyes : ∃ l, Yes (view K es m'.1.other) l := by
      rw [hviews, hanswer] at hview
      exact said_yes hview
    obtain ⟨l', hl'⟩ := hyes
    have hl : l ∈ answers (view K es m'.1.other) := by
      rw [hsplit', hviews] at hview
      refine Pair.kept (P := fun s => l ∈ answers s) (fun s _ h => answers_grow s h) hview ?_
      exact (view K gs).keeps (fun s _ h => answers_grow s h) _ hl
    obtain rfl := tied.orderly.unique hl hl'.1
    refine (tied.done m'.1 (view K gs) l ?_ (mem_answers.mp hl).2 hl'.2).2
    rw [← hdeliver]
    exact List.mem_map.mpr ⟨_, hmem', rfl⟩

def accepted : List (Party × Engine.Call) :=
  [(.A, .sendContactRequest (twoParties.key .B) address []),
   (.B, .poll (some (box .A 0 .contactRequest []))),
   (.B, .acceptContact (twoParties.key .A))]

def retried : List (Party × Engine.Call) :=
  accepted ++ [(.A, .sendContactRequest (twoParties.key .B) address []),
    (.B, .poll (some (box .A 1 .contactRequest [])))]

def late : List (Party × Engine.Call) :=
  retried ++ [(.A, .poll (some (box .B 0 .contactResponse [kAccept])))]

theorem lost_response_retried :
    ((scene retried).2 .A).trustOf (twoParties.key .B) = some .pending ∧
      ((scene late).2 .A).trustOf (twoParties.key .B) = some .accepted := by
  have hrun : ∀ script ∈ [retried, late], Run (Engines.step reference)
      (fun _ es m => Keeping m ∧ Genuine twoParties es m ∧ Taken m) newEngines
      (scene script).1 (scene script).2 := by
    have hlawful : ∀ script ∈ [retried, late], Run.Lawful (Engines.step reference)
        (fun _ es m => Keeping m ∧ Genuine twoParties es m) [] newEngines
        (script.map fun m => (m.1, clock, m.2)) := by decide +kernel
    exact fun script hs => (scene_run _ script (hlawful script hs)).mono
      fun _ _ _ hm => ⟨hm.1.1, hm.1.2, hm.2⟩
  have hnew : NoRecord twoParties newEngines := by unfold NoRecord; decide
  have h := lost_response (X := .A) newEngines_started hnew (hrun retried (by simp))
    (by decide +kernel) (by decide +kernel)
  have h' := lost_response (X := .A) newEngines_started hnew (hrun late (by simp))
    (by decide +kernel) (by decide +kernel)
  exact ⟨(h.1 (by decide +kernel)).1, h'.2 (by decide +kernel) (by decide +kernel)⟩

/-- B has accepted A, everything sent from the second request on has arrived, and
A still waits. -/
theorem retry_ignored :
    Run (Engines.step reference) (fun _ es m => (Keeping m ∧ Genuine twoParties es m ∧
      NotAdding twoParties m) ∧ Taken m) newEngines (scene retried).1 (scene retried).2 ∧
    NoRecord twoParties newEngines ∧ Accepting twoParties (scene retried).1 .B ∧
    (∀ script ∈ [accepted, retried],
      ((scene script).2 .B).trustOf (twoParties.key .A) = some .accepted ∧
        ((scene script).2 .A).trustOf (twoParties.key .B) = some .pending) ∧
    ∀ X, ∀ p ∈ ((scene retried).2 X).socket.sent.drop ((scene accepted).2 X).socket.sent.length,
      ∃ m ∈ (scene retried).1, Brings m.2 X.other p.2 := by
  refine ⟨scene_run _ retried (by decide +kernel), by unfold NoRecord; decide,
    by decide +kernel, by decide +kernel, by decide +kernel⟩

end OpenMesh.Messaging.Recovery
