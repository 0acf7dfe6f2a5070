import OpenMesh.Messaging.Consent

namespace OpenMesh.Messaging.Decisions

open OpenMesh.Core.Buffers OpenMesh.Core.Hex OpenMesh.Crypto.Primitives
open OpenMesh.Crypto.Reference OpenMesh.Library.Runs
open OpenMesh.Protocol.Envelope OpenMesh.Net.Transport OpenMesh.Storage.Database
open OpenMesh.Messaging.Sessions OpenMesh.Messaging.Operations OpenMesh.Messaging.Sides
open OpenMesh.Messaging.Projection OpenMesh.Messaging.Handling OpenMesh.Messaging.Simulation
open OpenMesh.Messaging.Pairs OpenMesh.Messaging.Routes OpenMesh.Messaging.Handshake
open OpenMesh.Messaging.Consent

/-- The changes of trust that are a packet's to make. -/
def Permitted (t t' : Option TrustStatus) : Prop :=
  t' = t ∨ t = none ∧ t' = some .pending ∨
    t = some .pending ∧ (t' = some .accepted ∨ t' = some .rejected)

instance (t t' : Option TrustStatus) : Decidable (Permitted t t') :=
  inferInstanceAs (Decidable (_ ∨ _))

theorem permitted_verdict (t : Option TrustStatus) (accept : Bool) :
    Permitted t (some (verdict accept)) ↔ t = some .pending ∨ t = some (verdict accept) := by
  cases accept with
  | true => simp [Permitted, verdict, or_comm, eq_comm]
  | false => simp [Permitted, verdict, or_comm, eq_comm]

theorem permitted_deliver (s : Side) (l : Letter) :
    Permitted s.trust (s.act (.deliver l)).trust ↔
      (s.Takes l → l.type = .contactResponse → s.outgoing →
        s.trust = some .pending ∨ s.trust = some (verdict (saysYes l.text))) := by
  cases Handshake.delivery s l with
  | dropped h he =>
    rw [he]
    exact iff_of_true (.inl rfl) fun ht => absurd ht h
  | noted h htrust _ _ _ _ hresponse =>
    rw [htrust]
    refine iff_of_true (.inl rfl) fun _ hty ho => ?_
    rw [hresponse hty] at ho
    cases ho
  | requested h hty ht htrust =>
    rw [ht, htrust]
    refine iff_of_true (.inr (.inl ⟨rfl, rfl⟩)) fun _ hty' => ?_
    rw [hty] at hty'
    cases hty'
  | answered h hty ho htrust =>
    rw [htrust, permitted_verdict]
    exact ⟨fun hp _ _ _ => hp, fun hp => hp h hty ho⟩

theorem pending_act {s : Side} {a : Act} (h : s.outgoing → s.trust = some .pending)
    (hkeep : a = .add ∨ (∃ accept leaves, a = .answer accept leaves) → s.outgoing = false)
    (hout : (s.act a).outgoing) : (s.act a).trust = some .pending := by
  cases a with
  | deliver l =>
    cases Handshake.delivery s l with
    | dropped _ he =>
      rw [he] at hout ⊢
      exact h hout
    | noted _ htrust _ _ ho =>
      rw [htrust]
      exact h (ho ▸ hout)
    | requested _ _ _ htrust => exact htrust
    | answered _ _ _ _ _ _ ho =>
      rw [ho] at hout
      cases hout
  | add =>
    have ho : s.outgoing = true := hout
    rw [hkeep (.inl rfl)] at ho
    cases ho
  | answer accept leaves =>
    have ho : s.outgoing = true := hout
    rw [hkeep (.inr ⟨accept, leaves, rfl⟩)] at ho
    cases ho
  | name =>
    change some (s.trust.getD .pending) = _
    rw [h hout]
    rfl
  | ask => rfl
  | idle => exact h hout
  | listen => exact h hout
  | tell => exact h hout

variable {C : Sodium}

theorem openStore_outgoing (io : OpenIO) (e : Engine) (path passphrase : Bytes) :
    (e.openStore C io path passphrase).1.outgoingRequests = e.outgoingRequests := by
  unfold Engine.openStore
  dsimp only
  split <;> rfl

/-- The user decides about the peer, or puts another database in place. -/
def Decides (peer : Bytes) (c : Engine.Call) : Prop :=
  c.reopens ∨ c.adds = some peer ∨ c.accepts = some peer ∨ c.rejects = some peer

theorem act_decides {env : Env} {e : Engine} {peer : Bytes} {c : Engine.Call}
    (h : act C env e peer c = .add ∨ ∃ accept leaves, act C env e peer c = .answer accept leaves) :
    Decides peer c := by
  have hb := act_call (C := C) env e peer c
  obtain ha | ⟨accept, leaves, ha⟩ := h
  · rw [ha] at hb
    obtain ⟨⟨endpoint, rfl⟩, -⟩ := hb
    exact .inr (.inl rfl)
  · rw [ha] at hb
    cases accept with
    | true =>
      obtain rfl : c = .acceptContact peer := hb.1
      exact .inr (.inr (.inl rfl))
    | false =>
      obtain rfl : c = .rejectContact peer := hb.1
      exact .inr (.inr (.inr rfl))

variable {peer : Bytes}

/-- A request that is open finds the peer pending, in every run in which the user decides
nothing about a peer that has not answered yet. -/
theorem open_pending {i : Identity} {e₀ e : Engine} {h : History Engine (Env × Engine.Call)}
    (hstart : Started C i e₀)
    (run : Run (engineStep C) (fun _ e m => Decides peer m.2 → toHex peer ∉ e.outgoingRequests)
      e₀ h e) (hout : toHex peer ∈ e.outgoingRequests) : e.trustOf peer = some .pending := by
  revert hout
  refine (run.invariant (fun _ e => Sound C e ∧
    (toHex peer ∈ e.outgoingRequests → e.trustOf peer = some .pending)) ?_ ?_).2
  · refine ⟨sound_started hstart, fun hout => ?_⟩
    obtain ⟨contacts, he⟩ := started_eq hstart
    rw [he] at hout
    cases hout
  · intro h e m _ ⟨sound, hpending⟩ hok
    refine ⟨(keyed_call m.1 e m.2).sound sound, fun hout => ?_⟩
    cases hopen : m.2.reopens with
    | true =>
      have hclosed := hok (.inl hopen)
      obtain ⟨env, c⟩ := m
      cases c with
      | openStore io path passphrase =>
        rw [engineStep, Engine.call, openStore_outgoing] at hout
        exact absurd hout hclosed
      | _ => cases hopen
    | false =>
      have hside := side_call sound m.1 m.2 hopen peer
      have htrust := congrArg Side.trust hside
      have hact := pending_act (a := act C m.1 e peer m.2) (s := side C e peer)
        (fun ho => hpending (of_decide_eq_true ho))
        (fun hd => decide_eq_false (hok (act_decides hd)))
      rw [← hside] at hact
      exact hact (decide_eq_true hout)

theorem permitted_poll {e : Engine} (sound : Sound C e) (env : Env) (incoming : Option Datagram) :
    Permitted (e.trustOf peer) ((e.poll C env incoming).1.trustOf peer) ↔
      ∀ text, Consumes C peer text (e, env, .poll incoming) →
        e.trustOf peer = some .pending ∨ e.trustOf peer = some (verdict (saysYes text)) := by
  have hside := congrArg Side.trust (side_poll sound env incoming peer)
  change (e.poll C env incoming).1.trustOf peer = _ at hside
  have hopens : ∀ text, Opens C peer .contactResponse text (e, env, .poll incoming) ↔ _ :=
    fun _ => opens_iff sound
  change ∀ text, _ ↔ ∃ l, Projection.delivery C e peer incoming = _ ∧ _ at hopens
  simp only [Consumes, hopens]
  cases hb : brought C e peer incoming with
  | none =>
    have hd : Projection.delivery C e peer incoming = .idle := by rw [Projection.delivery, hb]
    rw [hside, hd]
    refine iff_of_true (.inl rfl) ?_
    rintro text ⟨-, l, hl, -⟩
    cases hl
  | some l =>
    have hd : Projection.delivery C e peer incoming = .deliver l := by rw [Projection.delivery, hb]
    rw [hside, hd]
    change Permitted (side C e peer).trust _ ↔ _
    rw [permitted_deliver]
    constructor
    · rintro h text ⟨hout, l', hl, htakes, hty, rfl⟩
      obtain rfl := Act.deliver.inj hl
      exact h htakes hty (decide_eq_true hout)
    · intro h htakes hty hout
      exact h l.text ⟨of_decide_eq_true hout, l, rfl, htakes, hty, rfl⟩

/-- A packet leaves the decisions of the user alone, unless it is a response on a request
that was open when the user decided otherwise; and there is no such packet as long as nothing is
decided about a peer while a request to it is open. -/
theorem decisions_kept {i : Identity} {e₀ e : Engine} {h : History Engine (Env × Engine.Call)}
    {ok : History Engine (Env × Engine.Call) → Engine → Env × Engine.Call → Prop}
    (hstart : Started C i e₀) (run : Run (engineStep C) ok e₀ h e) :
    (∀ env incoming, Permitted (e.trustOf peer) ((e.poll C env incoming).1.trustOf peer) ↔
      ∀ text, Consumes C peer text (e, env, .poll incoming) →
        e.trustOf peer = some .pending ∨ e.trustOf peer = some (verdict (saysYes text))) ∧
    ((∀ m ∈ h, Decides peer m.2.2 → toHex peer ∉ m.1.outgoingRequests) → ∀ env incoming,
      Permitted (e.trustOf peer) ((e.poll C env incoming).1.trustOf peer)) := by
  have sound : Sound C e := sound_run hstart run
  refine ⟨permitted_poll sound, fun hall env incoming => ?_⟩
  have hrun := (run.restrict (P := fun e m => Decides peer m.2 → toHex peer ∉ e.outgoingRequests)
    hall).mono fun _ _ _ hm => hm.2
  apply (permitted_poll sound env incoming).mpr
  intro text hconsumes
  exact .inl (open_pending hstart hrun hconsumes.1)

def asking : Engine :=
  engineStep reference (newEngines .A)
    (clock, .sendContactRequest (twoParties.key .B) address [])

def refusal : Datagram := box .B 0 .contactResponse (decision false)

theorem decisions_kept_asking :
    Permitted (asking.trustOf (twoParties.key .B))
      ((asking.poll reference clock (some refusal)).1.trustOf (twoParties.key .B)) := by
  have run : Run (engineStep reference) (fun _ _ _ => True) (newEngines .A)
      [(newEngines .A, clock, .sendContactRequest (twoParties.key .B) address [])] asking := by
    unfold asking
    exact .move .start trivial
  refine (decisions_kept (newEngines_started .A) run).2 ?_ clock (some refusal)
  intro m hm hd
  rw [List.mem_singleton.mp hm] at hd
  simp [Decides, Engine.Call.reopens, Engine.Call.adds, Engine.Call.accepts,
    Engine.Call.rejects] at hd

def decided : Engine :=
  engineStep reference asking (clock, .addPeer (twoParties.key .B) address)

theorem refusal_overrules :
    Run (engineStep reference) (fun _ _ _ => True) (newEngines .A)
      [(asking, clock, .addPeer (twoParties.key .B) address),
        (newEngines .A, clock, .sendContactRequest (twoParties.key .B) address [])] decided ∧
    decided.trustOf (twoParties.key .B) = some .accepted ∧
    (decided.poll reference clock (some refusal)).1.trustOf (twoParties.key .B) =
      some .rejected ∧
    ¬ Permitted (decided.trustOf (twoParties.key .B))
      ((decided.poll reference clock (some refusal)).1.trustOf (twoParties.key .B)) := by
  refine ⟨?_, by decide +kernel, by decide +kernel, by decide +kernel⟩
  unfold decided asking
  exact .move (.move .start trivial) trivial

end OpenMesh.Messaging.Decisions
