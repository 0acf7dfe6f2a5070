import OpenMesh.Messaging.Pairs

namespace OpenMesh.Messaging.Isolation

open OpenMesh.Core.Buffers OpenMesh.Core.Hex OpenMesh.Crypto.Primitives
open OpenMesh.Crypto.Reference OpenMesh.Protocol.Envelope OpenMesh.Net.Transport OpenMesh.Storage.Database
open OpenMesh.Storage.Lookup OpenMesh.Messaging.Sessions OpenMesh.Messaging.Operations
open OpenMesh.Messaging.Pairs

/-- All that an engine keeps about one peer. -/
@[ext]
structure Known where
  trust : Option TrustStatus
  records : List Contact
  conversation : List Message
  requests : List Request
  incoming : Bool
  outgoing : Bool
  session : Option Session
  endpoint : Option Endpoint
  relay : Option Endpoint
  probe : Option Probe

def known (e : Engine) (peer : Bytes) : Known where
  trust := e.trustOf peer
  records := Store.recordsOf e.contacts peer
  conversation := e.contacts.conversation peer
  requests := Store.requestsOf e.contacts peer
  incoming := toHex peer ∈ e.incomingRequests
  outgoing := toHex peer ∈ e.outgoingRequests
  session := e.session peer
  endpoint := e.endpoints.lookup (toHex peer)
  relay := e.relay
  probe := e.probes.lookup (toHex peer)

def Spares (peer : Bytes) (e e' : Engine) : Prop := ∀ q, q ≠ peer → known e' q = known e q

namespace Spares

variable {C : Sodium} {peer : Bytes}

theorem refl (e : Engine) : Spares peer e e := fun _ _ => rfl

theorem trans {e₁ e₂ e₃ : Engine} (h : Spares peer e₁ e₂) (h' : Spares peer e₂ e₃) :
    Spares peer e₁ e₃ := by
  intro q hq
  rw [h' q hq, h q hq]

theorem lookup_insert {β : Type} (t : Table β) (b : β) {q : Bytes} (hq : q ≠ peer) :
    (t.insert (toHex peer) b).lookup (toHex q) = t.lookup (toHex q) := by
  apply AList.lookup_insert_ne
  rwa [ne_eq, toHex_inj]

theorem holds {e e' : Engine} {s : Session} (h : e.Holds peer s e') : Spares peer e e' := by
  intro q hq
  have hsession := h.elsewhere q hq
  ext1
  case session => exact hsession
  all_goals
    rw [h.rest]
    rfl

theorem endpoint (e : Engine) (dest : Endpoint) :
    Spares peer e { e with endpoints := e.endpoints.insert (toHex peer) dest } := by
  intro q hq
  ext1
  case endpoint => exact lookup_insert e.endpoints dest hq
  all_goals rfl

theorem probe (e : Engine) (p : Probe) :
    Spares peer e { e with probes := e.probes.insert (toHex peer) p } := by
  intro q hq
  ext1
  case probe => exact lookup_insert e.probes p hq
  all_goals rfl

theorem sendProbe (env : Env) (e : Engine) (p : Bytes) (dest : Endpoint) :
    Spares peer e (e.sendProbe env p dest) := fun _ _ => rfl

theorem incoming (e : Engine) :
    Spares peer e { e with incomingRequests := insert (toHex peer) e.incomingRequests } := by
  intro q hq
  ext1
  case incoming => simp [known, hq]
  all_goals rfl

theorem outgoing (e : Engine) :
    Spares peer e { e with outgoingRequests := e.outgoingRequests.erase (toHex peer) } := by
  intro q hq
  ext1
  case outgoing => simp [known, hq]
  all_goals rfl

theorem stored (e : Engine) (contacts : Store)
    (hr : ∀ q, q ≠ peer → Store.recordsOf contacts q = Store.recordsOf e.contacts q)
    (hm : ∀ q, q ≠ peer → contacts.conversation q = e.contacts.conversation q)
    (hq : ∀ q, q ≠ peer → Store.requestsOf contacts q = Store.requestsOf e.contacts q) :
    Spares peer e { e with contacts } := by
  have htrust : ∀ (s : Store) k, s.trustOf k = (Store.recordsOf s k).head?.map (·.trust) := by
    intro s k
    rw [Store.recordsOf, List.head?_filter]
    rfl
  intro q hne
  ext1
  case trust => simp only [known, Engine.trustOf, htrust, hr q hne]
  case records => exact hr q hne
  case conversation => exact hm q hne
  case requests => exact hq q hne
  all_goals rfl

theorem upsert (e : Engine) (contact : Contact) (h : contact.publicKey = peer) :
    Spares peer e { e with contacts := e.contacts.upsert contact } := by
  apply stored
  · intro q hq
    exact Store.upsert_recordsOf _ contact (by rw [h]; exact hq.symm)
  · intro q _
    simp only [Store.conversation, Store.upsert_messages]
  · intro q _
    simp only [Store.requestsOf, Store.upsert_requests]

theorem setTrust (e : Engine) (trust : TrustStatus) : Spares peer e (e.setTrust peer trust) :=
  upsert e _ rfl

theorem setNickname (e : Engine) (name : Bytes) : Spares peer e (e.setNickname peer name) :=
  upsert e _ rfl

theorem message (e : Engine) (m : Message) (h : m.peer = peer) :
    Spares peer e { e with contacts := e.contacts.appendMessage m } := by
  apply stored
  · intro q _
    simp only [Store.recordsOf, Store.appendMessage_contacts]
  · intro q hq
    have hm : m.peer ≠ q := by rw [h]; exact hq.symm
    simp [Store.conversation, hm]
  · intro q _
    simp only [Store.requestsOf, Store.appendMessage_requests]

theorem request (e : Engine) (r : Request) (h : r.peer = peer) :
    Spares peer e { e with contacts := e.contacts.addRequest r } := by
  apply stored
  · intro q _
    simp only [Store.recordsOf, Store.addRequest_contacts]
  · intro q _
    simp only [Store.conversation, Store.addRequest_messages]
  · intro q hq
    exact Store.addRequest_requestsOf _ r (by rw [h]; exact hq.symm)

theorem punches (env : Env) : Engine.Punches env peer (Spares peer) where
  refl := refl
  trans h h' := h.trans h'
  endpoint := endpoint
  probe := probe
  sendProbe e dest := sendProbe env e peer dest

theorem handleMessage (env : Env) (e : Engine) (text : Bytes) :
    Spares peer e (e.handleMessage env peer text) := by
  apply (message e ⟨peer, text, false, env.nowSeconds⟩ rfl).trans
  exact fun _ _ => rfl

theorem handleContactRequest (env : Env) (e : Engine) (greeting : Bytes) :
    Spares peer e (e.handleContactRequest env peer greeting) := by
  unfold Engine.handleContactRequest
  dsimp only
  split
  · exact refl e
  · have h : Spares peer e _ := (incoming e).trans (setTrust _ .pending)
    split
    · apply (h.trans (setNickname _ greeting)).trans
      apply (request _ ⟨peer, greeting, env.nowSeconds⟩ rfl).trans
      exact fun _ _ => rfl
    · apply h.trans
      apply (request _ ⟨peer, greeting, env.nowSeconds⟩ rfl).trans
      exact fun _ _ => rfl

theorem handleContactResponse (e : Engine) (decision : Bytes) :
    Spares peer e (e.handleContactResponse peer decision) := by
  unfold Engine.handleContactResponse
  dsimp only
  split
  · exact refl e
  · apply ((outgoing e).trans (setTrust _ _)).trans
    exact fun _ _ => rfl

theorem dispatch (env : Env) (e : Engine) (packet : Packet) (text : Bytes) (origin : Endpoint) :
    Spares packet.source e (e.dispatch env packet text origin).1 := by
  let e₁ := if e.hasDirectPath packet.source then e
    else { e with endpoints := e.endpoints.insert (toHex packet.source) origin }
  have h : Spares packet.source e e₁ := by
    simp only [e₁]
    split
    · exact refl e
    · exact endpoint e origin
  unfold Engine.dispatch
  cases packet.type with
  | message => exact h.trans (handleMessage env e₁ text)
  | contactRequest => exact h.trans (handleContactRequest env e₁ text)
  | contactResponse => exact h.trans (handleContactResponse e₁ text)
  | _ => exact h

end Spares

variable {C : Sodium}

/-- A datagram concerns no peer but the one it names as its source, and a datagram that does
not parse concerns nobody. -/
theorem poll_isolates (env : Env) (e : Engine) (incoming : Option Datagram) {p q : Bytes}
    (hq : q ≠ p) (h : ∀ packet ∈ incoming.bind fun d => deserialize (receive d).data,
      packet.source = p) : known (e.poll C env incoming).1 q = known e q := by
  have hof : ∀ d packet, incoming = some d → deserialize (receive d).data = some packet →
      q ≠ packet.source := by
    intro d packet hd hp
    rw [h packet (by rw [hd]; exact hp)]
    exact hq
  cases Engine.poll_cases C env e incoming with
  | ignored _ b he => rw [he]
  | probe _ d packet hd hp _ _ _ he =>
    rw [he]
    exact (Spares.punches env).handleProbe e d.origin q (hof d packet hd hp)
  | connect _ d packet hd hp _ he =>
    rw [he]
    exact (Spares.punches env).handleConnect e packet.payload q (hof d packet hd hp)
  | refused _ packet s e' _ hh hp he =>
    rw [he]
    exact Spares.holds hh q (by rw [h packet hp]; exact hq)
  | accepted d packet s s' text e' _ hd hp _ _ _ hh he =>
    rw [he]
    exact (Spares.holds hh).trans (Spares.dispatch env e' packet text d.origin) q
      (hof d packet hd hp)

def third : Bytes := (identity 3).publicKey

def familiar : Engine :=
  let calls : List Engine.Call :=
    [.addPeer third address, .connect third ⟨[67], 3⟩, .send third [9]]
  calls.foldl (fun e call => (e.call reference clock call).1) (newEngines .A)

theorem poll_isolates_familiar :
    known (familiar.poll reference clock (some (box .B 0 .contactRequest [7]))).1 third =
      known familiar third ∧
    ((known familiar third).trust = some .accepted ∧ (known familiar third).session.isSome ∧
      (known familiar third).conversation = [⟨third, [9], true, 0⟩] ∧
      (known familiar third).endpoint = some ⟨[67], 3⟩ ∧ (known familiar third).probe.isSome) ∧
    (familiar.poll reference clock (some (box .B 0 .contactRequest [7]))).1.incomingRequests =
      {toHex (twoParties.key .B)} :=
  ⟨poll_isolates clock familiar (some (box .B 0 .contactRequest [7])) (p := twoParties.key .B)
    (by decide) (by decide +kernel), by decide +kernel, by decide +kernel⟩

end OpenMesh.Messaging.Isolation
