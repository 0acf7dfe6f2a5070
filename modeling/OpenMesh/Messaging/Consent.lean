import OpenMesh.Messaging.Handshake
import OpenMesh.Messaging.Routes

namespace OpenMesh.Messaging.Consent

open OpenMesh.Core.Buffers OpenMesh.Core.Hex OpenMesh.Crypto.Primitives
open OpenMesh.Crypto.Reference OpenMesh.Library.Runs
open OpenMesh.Protocol.Envelope OpenMesh.Protocol.EnvelopeCodec OpenMesh.Net.Transport
open OpenMesh.Storage.Database OpenMesh.Messaging.Sessions OpenMesh.Messaging.Operations
open OpenMesh.Messaging.Sides OpenMesh.Messaging.Projection OpenMesh.Messaging.Handling
open OpenMesh.Messaging.Simulation OpenMesh.Messaging.Pairs OpenMesh.Messaging.Routes
open OpenMesh.Messaging.Handshake

abbrev Event := Engine × (Env × Engine.Call)

variable (C : Sodium)

/-- The call takes in a packet of the peer that the session has decrypted. -/
def Opens (peer : Bytes) (type : PacketType) (text : Bytes) (m : Event) : Prop :=
  ∃ incoming, m.2.2 = .poll incoming ∧ ∃ packet session,
    m.1.accepts C incoming = some (packet, text, session) ∧ packet.source = peer ∧
      packet.type = type

def Asks (peer : Bytes) (m : Event) : Prop := m.2.2.asks.map (·.1) = some peer

/-- The call takes in a response of the peer to an open request. -/
def Consumes (peer text : Bytes) (m : Event) : Prop :=
  toHex peer ∈ m.1.outgoingRequests ∧ Opens C peer .contactResponse text m

/-- A request of the peer came in, and has been pending ever since. -/
def Pending (peer : Bytes) : History Engine (Env × Engine.Call) → Prop :=
  Since (fun m => toHex peer ∈ (engineStep C m.1 m.2).incomingRequests)
    (fun m => ∃ text, Opens C peer .contactRequest text m)

/-- A request to the peer was made, and no response has been taken in on it. -/
def Waiting (peer : Bytes) : History Engine (Env × Engine.Call) → Prop :=
  Since (fun m => ∀ text, ¬ Consumes C peer text m) (Asks peer)

/-- How a peer can have become an accepted contact. -/
inductive Agreed (peer : Bytes) (h : History Engine (Env × Engine.Call)) : Prop
  | added (m : Event) (hm : m ∈ h) (hadd : m.2.2.adds = some peer)
      (htrue : (m.1.call C m.2.1 m.2.2).2 = true)
  | accepted (newer : History Engine (Env × Engine.Call)) (m : Event)
      (older : History Engine (Env × Engine.Call)) (hm : h = newer ++ m :: older)
      (haccept : m.2.2.accepts = some peer) (hpending : Pending C peer older)
  | answered (newer : History Engine (Env × Engine.Call)) (m : Event)
      (older : History Engine (Env × Engine.Call)) (hm : h = newer ++ m :: older) (text : Bytes)
      (hconsumes : Consumes C peer text m) (hyes : text.head? = some 0x01)
      (hwaiting : Waiting C peer older)

theorem Agreed.cons {peer : Bytes} {h : History Engine (Env × Engine.Call)}
    (agreed : Agreed C peer h) (m : Event) : Agreed C peer (m :: h) := by
  cases agreed with
  | added m' hm hadd htrue => exact .added m' (List.mem_cons_of_mem m hm) hadd htrue
  | accepted newer m' older hm haccept hpending =>
    exact .accepted (m :: newer) m' older (by rw [hm]; rfl) haccept hpending
  | answered newer m' older hm text hconsumes hyes hwaiting =>
    exact .answered (m :: newer) m' older (by rw [hm]; rfl) text hconsumes hyes hwaiting

variable {C}

theorem opens_iff {e : Engine} (sound : Sound C e) {m : Env × Engine.Call} {peer text : Bytes}
    {type : PacketType} : Opens C peer type text (e, m) ↔
      ∃ l, act C m.1 e peer m.2 = .deliver l ∧ (side C e peer).Takes l ∧ l.type = type ∧
        l.text = text := by
  constructor
  · rintro ⟨incoming, hc, packet, session, haccept, rfl, rfl⟩
    obtain ⟨-, -, -, -, s, hs, hdec⟩ := accepts_eq_some_iff.mp haccept
    obtain ⟨-, rfl⟩ := Session.decrypt_eq_some_iff.mp hdec
    obtain ⟨-, hb, htakes⟩ := (accepts_iff sound _ hs).mp haccept
    refine ⟨_, ?_, htakes, rfl, rfl⟩
    dsimp only at hc
    simp only [hc, act, Projection.delivery, hb]
  · rintro ⟨l, ha, htakes, rfl, rfl⟩
    have hb := act_call (C := C) m.1 e peer m.2
    rw [ha] at hb
    obtain ⟨incoming, hc, hb⟩ := hb
    obtain ⟨packet, hp, -, -, rfl, -, hlet⟩ := brought_eq_some_iff.mp hb
    obtain ⟨s, hs⟩ := letterOf_opened hlet
    obtain ⟨-, hty, hcount, -⟩ := letterOf_eq_some_iff.mp hlet
    refine ⟨incoming, hc, packet, _, (accepts_iff sound l.text hs).mpr ⟨hp, ?_, ?_⟩, rfl, hty⟩
    · rw [hb, hty, hcount]
    · rwa [hty, hcount]

structure Explained (peer : Bytes) (h : History Engine (Env × Engine.Call)) (e : Engine) : Prop where
  sound : Sound C e
  waiting : toHex peer ∈ e.outgoingRequests → Waiting C peer h
  pending : toHex peer ∈ e.incomingRequests → Pending C peer h
  agreed : e.trustOf peer = some .accepted → Agreed C peer h

theorem explained_step {peer : Bytes} {h : History Engine (Env × Engine.Call)} {e : Engine}
    {m : Env × Engine.Call} (hm : m.2.reopens = false) (inv : Explained (C := C) peer h e) :
    Explained (C := C) peer ((e, m) :: h) (engineStep C e m) := by
  have hside := side_call inv.sound m.1 m.2 hm peer
  have hbehind : ∀ a, act C m.1 e peer m.2 = a → Behind C m.1 e peer m.2 a := fun a ha =>
    ha ▸ act_call m.1 e peer m.2
  refine ⟨(keyed_call m.1 e m.2).sound inv.sound, fun hout => ?_, fun hin => ?_, fun ht => ?_⟩
  · have hout' : ((side C e peer).act (act C m.1 e peer m.2)).outgoing := by
      rw [← hside]
      exact decide_eq_true hout
    obtain ⟨greeting, leaves, ha⟩ | ⟨hold, hno⟩ := asked_act _ hout'
    · obtain ⟨⟨endpoint, hc⟩, -⟩ := hbehind _ ha
      exact .inl (by rw [Asks, hc]; rfl)
    · refine .inr ⟨fun text hconsumes => ?_, inv.waiting (of_decide_eq_true hold)⟩
      obtain ⟨l, ha, htakes, hty, -⟩ := (opens_iff inv.sound).mp hconsumes.2
      exact hno l ha htakes hty
  · have hin' : ((side C e peer).act (act C m.1 e peer m.2)).incoming := by
      rw [← hside]
      exact decide_eq_true hin
    obtain ⟨hold, -⟩ | ⟨-, -, l, ha, htakes, hty⟩ := incoming_act _ hin'
    · exact .inr ⟨hin, inv.pending (of_decide_eq_true hold)⟩
    · exact .inl ⟨l.text, (opens_iff inv.sound).mpr ⟨l, ha, htakes, hty, rfl⟩⟩
  · have ht' : ((side C e peer).act (act C m.1 e peer m.2)).trust = some .accepted := by
      rw [← hside]
      exact ht
    obtain hold | ha | ⟨leaves, ha⟩ | ⟨l, ha, htakes, hty, hout, hyes⟩ := accepts_act _ ht'
    · exact (inv.agreed hold).cons C _
    · obtain ⟨⟨endpoint, hc⟩, ho⟩ := hbehind _ ha
      refine .added (e, m) List.mem_cons_self (by rw [hc]; rfl) ?_
      rw [hc]
      exact addPeer_true endpoint ho
    · obtain ⟨hc, -, hin, -⟩ := hbehind _ ha
      exact .accepted [] (e, m) h rfl (by rw [hc]; rfl) (inv.pending hin)
    · have hout' := of_decide_eq_true hout
      exact .answered [] (e, m) h rfl l.text
        ⟨hout', (opens_iff inv.sound).mpr ⟨l, ha, htakes, hty, rfl⟩⟩ (of_decide_eq_true hyes)
        (inv.waiting hout')

/-- A peer becomes an accepted contact by a decision made here, and each request
that is made here takes in one response at most. -/
theorem acceptance_requires_consent {i : Identity} {e₀ e : Engine}
    {h : History Engine (Env × Engine.Call)} (hstart : Started C i e₀)
    (hempty : e₀.contacts.contacts = [] ∧ e₀.contacts.requests = [])
    (run : Run (engineStep C) (fun _ _ m => m.2.reopens = false) e₀ h e) (peer : Bytes) :
    (e.trustOf peer = some .accepted → Agreed C peer h) ∧
      ∀ newer m older text, h = newer ++ m :: older → Consumes C peer text m →
        Waiting C peer older := by
  have hexplained : ∀ {h e}, Run (engineStep C) (fun _ _ m => m.2.reopens = false) e₀ h e →
      Explained (C := C) peer h e := by
    intro h e run
    refine run.invariant (fun h e => Explained (C := C) peer h e) ?_
      fun _ _ _ _ inv hm => explained_step hm inv
    refine ⟨sound_started hstart, fun hout => ?_, fun hin => ?_,
      fun ht => ?_⟩
    · obtain ⟨contacts, rfl⟩ := started_eq hstart
      simp [Engine.new] at hout
    · obtain ⟨contacts, he⟩ := started_eq hstart
      have hnone := hempty.2
      rw [he] at hnone hin
      dsimp only at hnone hin
      simp [hnone] at hin
    · simp [Engine.trustOf, Store.trustOf, hempty.1] at ht
  refine ⟨(hexplained run).agreed, ?_⟩
  rintro newer m older text rfl hconsumes
  exact (hexplained run.cut.1).waiting hconsumes.1

def answered : History Engine (Env × Engine.Call) × Engine :=
  Run.replay (engineStep reference) [] (newEngines .A)
    [(clock, .sendContactRequest (twoParties.key .B) address []),
      (clock, .poll (some (box .B 0 .contactResponse [kAccept])))]

theorem acceptance_requires_consent_answered :
    Agreed reference (twoParties.key .B) answered.1 := by
  have run : Run (engineStep reference) (fun _ _ m => m.2.reopens = false) (newEngines .A)
      answered.1 answered.2 := Run.replay_run .start (by decide)
  exact (acceptance_requires_consent (newEngines_started .A) ⟨rfl, rfl⟩ run _).1 (by decide +kernel)

end OpenMesh.Messaging.Consent
