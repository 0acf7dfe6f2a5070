import OpenMesh.Messaging.Handling
import OpenMesh.Storage.Durability

namespace OpenMesh.Messaging.Deeds

open OpenMesh.Core.Buffers OpenMesh.Core.Hex OpenMesh.Crypto.Primitives
open OpenMesh.Protocol.Envelope OpenMesh.Net.Transport OpenMesh.Storage
open OpenMesh.Storage.Database OpenMesh.Storage.Lookup
open OpenMesh.Messaging.Sessions OpenMesh.Messaging.Operations OpenMesh.Messaging.Sides
open OpenMesh.Messaging.Projection OpenMesh.Messaging.Frames OpenMesh.Messaging.Handling

/-- What a call comes to for the contacts and the requests. -/
inductive Deed where
  | aside
  | noted (message : Message)
  | named (peer name : Bytes)
  | added (peer : Bytes)
  | asked (peer : Bytes)
  | answered (peer : Bytes) (accept : Bool)
  | requested (peer greeting : Bytes)
  | settled (peer : Bytes) (accepted : Bool)
  deriving DecidableEq

def trusted (s : Store) (peer : Bytes) (trust : TrustStatus) : Contact :=
  { (s.find peer).getD {} with publicKey := peer, trust }

namespace Deed

/-- The changes to the database, in the order in which they are made. Each of them saves it at
most once. -/
def edits (env : Env) (s : Store) : Deed → List Durability.Call
  | aside => []
  | noted message => [.appendMessage message]
  | named peer name => [.upsert { (s.find peer).getD {} with publicKey := peer, nickname := name }]
  | added peer => [.upsert (trusted s peer .accepted)]
  | asked peer => [.upsert (trusted s peer .pending)]
  | answered peer accept => [.removeRequest peer, .upsert (trusted s peer (verdict accept))]
  | requested peer greeting =>
    .upsert (trusted s peer .pending) ::
      ((if greeting ≠ [] then [.upsert { trusted s peer .pending with nickname := greeting }]
        else []) ++ [.addRequest ⟨peer, greeting, env.nowSeconds⟩])
  | settled peer accepted => [.upsert (trusted s peer (verdict accepted))]

def incoming (keys : Finset Bytes) : Deed → Finset Bytes
  | answered peer _ => keys.erase (toHex peer)
  | requested peer _ => insert (toHex peer) keys
  | _ => keys

def surfaced (e : Engine) : Deed → List (Bytes × Bytes)
  | requested peer greeting => if e.requestHandler.installed then [(peer, greeting)] else []
  | _ => []

end Deed

def answer (C : Sodium) (e : Engine) (peer : Bytes) (accept : Bool) : Deed :=
  if toHex peer ∈ e.incomingRequests ∧ (e.opened C peer).isSome then .answered peer accept else .aside

/-- A packet that the session has opened. -/
def deedOf (env : Env) (e : Engine) (packet : Packet) (text : Bytes) : Deed :=
  match packet.type with
  | .message => .noted ⟨packet.source, text, false, env.nowSeconds⟩
  | .contactRequest =>
    if (e.trustOf packet.source).isSome ∨ toHex packet.source ∈ e.incomingRequests then .aside
    else .requested packet.source text
  | .contactResponse =>
    if toHex packet.source ∈ e.outgoingRequests then .settled packet.source (saysYes text)
    else .aside
  | _ => .aside

def deed (C : Sodium) (env : Env) (e : Engine) : Engine.Call → Deed
  | .addPeer peer _ => if (e.opened C peer).isSome then .added peer else .aside
  | .setNickname peer name => .named peer name
  | .sendContactRequest peer _ _ =>
    if e.trustOf peer ≠ some .accepted ∧ (e.opened C peer).isSome then .asked peer else .aside
  | .acceptContact peer => answer C e peer true
  | .rejectContact peer => answer C e peer false
  | .send peer text =>
    if (e.send C env peer text).2 then .noted ⟨peer, text, true, env.nowSeconds⟩ else .aside
  | .poll datagram =>
    match e.accepts C datagram with
    | none => .aside
    | some (packet, text, _) => deedOf env e packet text
  | _ => .aside

variable {C : Sodium}

/-- The database, the incoming requests and the contact-request handler stay as they are. -/
structure Rests (e e' : Engine) : Prop where
  contacts : e'.contacts = e.contacts
  incoming : e'.incomingRequests = e.incomingRequests
  handler : e'.requestHandler = e.requestHandler

namespace Rests

variable {e e' : Engine}

theorem refl (e : Engine) : Rests e e := ⟨rfl, rfl, rfl⟩

theorem trans {e'' : Engine} (h : Rests e e') (h' : Rests e' e'') : Rests e e'' :=
  ⟨h'.contacts.trans h.contacts, h'.incoming.trans h.incoming, h'.handler.trans h.handler⟩

theorem holds {peer : Bytes} {s : Session} (h : e.Holds peer s e') : Rests e e' := by
  rw [h.rest]
  exact ⟨rfl, rfl, rfl⟩

theorem sealAndSend (env : Env) (e : Engine) (peer : Bytes) (s : Session) (type : PacketType)
    (text : Bytes) : Rests e (e.sealAndSend C env peer s type text).1 := by
  rw [Engine.sealAndSend_eq]
  exact ⟨rfl, rfl, rfl⟩

theorem punches (env : Env) (peer : Bytes) : Engine.Punches env peer Rests where
  refl := refl
  trans h h' := h.trans h'
  endpoint _ _ := ⟨rfl, rfl, rfl⟩
  probe _ _ := ⟨rfl, rfl, rfl⟩
  sendProbe _ _ := ⟨rfl, rfl, rfl⟩

theorem tickProbe (env : Env) (e : Engine) (key : Bytes) : Rests e (e.tickProbe env key) := by
  unfold Engine.tickProbe
  split
  · exact refl e
  · split_ifs <;> exact ⟨rfl, rfl, rfl⟩

theorem tick (env : Env) (e : Engine) : Rests e (e.tick env) :=
  Engine.tick_rel refl trans (tickProbe env) e

end Rests

structure Shows (env : Env) (e : Engine) (d : Deed) (e' : Engine) : Prop where
  contacts : e'.contacts = (d.edits env e.contacts).foldl Durability.Call.run e.contacts
  incoming : e'.incomingRequests = d.incoming e.incomingRequests
  surfaced : e'.requestHandler.calls = e.requestHandler.calls ++ d.surfaced e

namespace Shows

variable {env : Env} {e e' e'' : Engine} {d : Deed}

theorem aside (h : Rests e e') : Shows env e .aside e' :=
  ⟨h.contacts, h.incoming, (congrArg Handler.calls h.handler).trans (List.append_nil _).symm⟩

theorem after (h : Rests e e') (h' : Shows env e' d e'') : Shows env e d e'' := by
  refine ⟨?_, ?_, ?_⟩
  · rw [h'.contacts, h.contacts]
  · rw [h'.incoming, h.incoming]
  · have hsurfaced : d.surfaced e' = d.surfaced e := by
      cases d with
      | requested peer greeting => simp only [Deed.surfaced, h.handler]
      | _ => rfl
    rw [h'.surfaced, h.handler, hsurfaced]

theorem before (h : Shows env e d e') (h' : Rests e' e'') : Shows env e d e'' :=
  ⟨h'.contacts.trans h.contacts, h'.incoming.trans h.incoming, by rw [h'.handler, h.surfaced]⟩

end Shows

theorem shows_addPeer (env : Env) (e : Engine) (peer : Bytes) (endpoint : Endpoint) :
    Shows env e (deed C env e (.addPeer peer endpoint)) (e.addPeer C peer endpoint).1 := by
  unfold Engine.addPeer
  cases hs : e.ensureSession C peer with
  | none =>
    simp only [deed, Engine.ensureSession_eq_none hs, Option.isSome_none, Bool.false_eq_true,
      ↓reduceIte]
    exact .aside (.refl e)
  | some p =>
    obtain ⟨e', s⟩ := p
    obtain ⟨ho, hh⟩ := Engine.ensureSession_eq_some hs
    simp only [deed, ho, Option.isSome_some, ↓reduceIte]
    exact .after (.holds hh) ⟨rfl, rfl, (List.append_nil _).symm⟩

theorem shows_sendContactRequest (env : Env) (e : Engine) (peer : Bytes) (endpoint : Endpoint)
    (greeting : Bytes) :
    Shows env e (deed C env e (.sendContactRequest peer endpoint greeting))
      (e.sendContactRequest C env peer endpoint greeting).1 := by
  unfold Engine.sendContactRequest
  by_cases ht : e.trustOf peer = some .accepted
  · simp only [deed, ht, ne_eq, not_true_eq_false, false_and, ↓reduceIte]
    exact .aside (.refl e)
  · simp only [deed, ht, ne_eq, not_false_eq_true, true_and, ↓reduceIte]
    cases hs : e.ensureSession C peer with
    | none =>
      simp only [Engine.ensureSession_eq_none hs, Option.isSome_none, Bool.false_eq_true,
        ↓reduceIte]
      exact .aside (.refl e)
    | some p =>
      obtain ⟨e', s⟩ := p
      obtain ⟨ho, hh⟩ := Engine.ensureSession_eq_some hs
      simp only [ho, Option.isSome_some, ↓reduceIte]
      refine .before (.after (.holds hh) ?_) (.sealAndSend env _ peer s .contactRequest greeting)
      exact ⟨rfl, rfl, (List.append_nil _).symm⟩

theorem shows_answerContact (env : Env) (e : Engine) (peer : Bytes) (accept : Bool)
    (decision : UInt8) :
    Shows env e (answer C e peer accept)
      (e.answerContact C env peer (verdict accept) decision).1 := by
  unfold Engine.answerContact answer
  by_cases hin : toHex peer ∈ e.incomingRequests
  · simp only [hin, not_true_eq_false, ↓reduceIte, true_and]
    cases hs : e.ensureSession C peer with
    | none =>
      simp only [Engine.ensureSession_eq_none hs, Option.isSome_none, Bool.false_eq_true,
        ↓reduceIte]
      exact .aside (.refl e)
    | some p =>
      obtain ⟨e', s⟩ := p
      obtain ⟨ho, hh⟩ := Engine.ensureSession_eq_some hs
      simp only [ho, Option.isSome_some, ↓reduceIte]
      refine .before (.after (.holds hh) ?_) (.sealAndSend env _ peer s .contactResponse [decision])
      refine ⟨?_, rfl, (List.append_nil _).symm⟩
      simp only [Engine.setTrust, Store.removeRequest_find, Deed.edits, trusted, List.foldl_cons,
        List.foldl_nil, Durability.Call.run]
  · simp only [hin, not_false_eq_true, ↓reduceIte, false_and]
    exact .aside (.refl e)

theorem shows_send (env : Env) (e : Engine) (peer text : Bytes) :
    Shows env e (deed C env e (.send peer text)) (e.send C env peer text).1 := by
  simp only [deed]
  unfold Engine.send
  by_cases ht : e.trustOf peer = some .accepted
  · simp only [ht, ne_eq, not_true_eq_false, ↓reduceIte]
    cases hs : e.ensureSession C peer with
    | none => exact .aside (.refl e)
    | some p =>
      obtain ⟨e', s⟩ := p
      have hh := (Engine.ensureSession_eq_some hs).2
      have hrests := (Rests.holds hh).trans (.sealAndSend env e' peer s .message text (C := C))
      obtain ⟨e'', ok, he⟩ : ∃ e'' ok, e'.sealAndSend C env peer s .message text = (e'', ok) :=
        ⟨_, _, rfl⟩
      rw [he] at hrests
      cases ok with
      | false =>
        simp only [he, Bool.false_eq_true, ↓reduceIte]
        exact .aside hrests
      | true =>
        simp only [he, ↓reduceIte]
        exact .after hrests ⟨rfl, rfl, (List.append_nil _).symm⟩
  · simp only [ht, ne_eq, not_false_eq_true, ↓reduceIte]
    exact .aside (.refl e)

theorem shows_handleContactRequest (env : Env) (e : Engine) (peer greeting : Bytes) :
    Shows env e
      (if (e.trustOf peer).isSome ∨ toHex peer ∈ e.incomingRequests then .aside
        else .requested peer greeting)
      (e.handleContactRequest env peer greeting) := by
  unfold Engine.handleContactRequest
  by_cases hknown : (e.trustOf peer).isSome ∨ toHex peer ∈ e.incomingRequests
  · simp only [hknown, ↓reduceIte]
    exact .aside (.refl e)
  · simp only [hknown, ↓reduceIte]
    have hcalls : ∀ h : Handler (Bytes × Bytes), (h.call (peer, greeting)).calls =
        h.calls ++ if h.installed then [(peer, greeting)] else [] := by
      intro h
      unfold Handler.call
      split <;> simp
    by_cases hg : greeting = []
    · simp only [hg, ne_eq, not_true_eq_false, ↓reduceIte]
      exact ⟨rfl, rfl, hg ▸ hcalls _⟩
    · simp only [hg, ne_eq, not_false_eq_true, ↓reduceIte]
      refine ⟨?_, rfl, hcalls _⟩
      simp only [Engine.setNickname, Engine.setTrust, Store.find_upsert, ↓reduceIte,
        Option.getD_some, Deed.edits, trusted, ne_eq, hg, not_false_eq_true, List.cons_append,
        List.nil_append, List.foldl_cons, List.foldl_nil, Durability.Call.run]

theorem shows_handleContactResponse (env : Env) (e : Engine) (peer text : Bytes) :
    Shows env e
      (if toHex peer ∈ e.outgoingRequests then .settled peer (saysYes text) else .aside)
      (e.handleContactResponse peer text) := by
  unfold Engine.handleContactResponse
  by_cases hout : toHex peer ∈ e.outgoingRequests
  · simp only [hout, not_true_eq_false, ↓reduceIte]
    exact ⟨rfl, rfl, (List.append_nil _).symm⟩
  · simp only [hout, not_false_eq_true, ↓reduceIte]
    exact .aside (.refl e)

theorem deedOf_rests {env : Env} {e e' : Engine} {packet : Packet} {text : Bytes}
    (h : Rests e e') (hout : e'.outgoingRequests = e.outgoingRequests) :
    deedOf env e' packet text = deedOf env e packet text := by
  unfold deedOf Engine.trustOf
  rw [h.contacts, h.incoming, hout]

theorem shows_dispatch (env : Env) (e : Engine) (packet : Packet) (text : Bytes)
    (origin : Endpoint) :
    Shows env e (deedOf env e packet text) (e.dispatch env packet text origin).1 := by
  let e₁ := if e.hasDirectPath packet.source then e
    else { e with endpoints := e.endpoints.insert (toHex packet.source) origin }
  have h₁ : Rests e e₁ ∧ e₁.outgoingRequests = e.outgoingRequests := by
    simp only [e₁]
    split <;> exact ⟨⟨rfl, rfl, rfl⟩, rfl⟩
  rw [← deedOf_rests h₁.1 h₁.2]
  apply Shows.after h₁.1
  unfold Engine.dispatch deedOf
  cases packet.type with
  | message => exact ⟨rfl, rfl, (List.append_nil _).symm⟩
  | contactRequest => exact shows_handleContactRequest env e₁ packet.source text
  | contactResponse => exact shows_handleContactResponse env e₁ packet.source text
  | _ => exact .aside (.refl e₁)

theorem shows_poll (env : Env) (e : Engine) (datagram : Option Datagram) :
    Shows env e (deed C env e (.poll datagram)) (e.poll C env datagram).1 := by
  obtain ⟨h, b, he⟩ | ⟨h, d, packet, -, -, -, -, -, he⟩ | ⟨h, d, packet, -, -, -, he⟩ |
    ⟨h, packet, s, e', ho, hh, -, he⟩ | ⟨d, packet, s, s', text, e', h, -, -, -, -, -, hh, he⟩ :=
    Engine.poll_cases C env e datagram
  · simp only [deed, h, he]
    exact .aside (.refl e)
  · simp only [deed, h, he]
    exact .aside ((Rests.punches env packet.source).handleProbe e d.origin)
  · simp only [deed, h, he]
    exact .aside ((Rests.punches env packet.source).handleConnect e packet.payload)
  · simp only [deed, h, he]
    exact .aside (.holds hh)
  · simp only [deed, h, he]
    have hout : e'.outgoingRequests = e.outgoingRequests := by rw [hh.rest]
    rw [← deedOf_rests (.holds hh) hout]
    exact .after (.holds hh) (shows_dispatch env e' packet text d.origin)

/-- The deed says everything that a call does to the database, to the incoming requests and to
the contact-request handler. -/
theorem shows_call (env : Env) (e : Engine) (c : Engine.Call) (hc : c.reopens = false) :
    Shows env e (deed C env e c) (e.call C env c).1 := by
  cases c with
  | announceTo relay => exact .aside ⟨rfl, rfl, rfl⟩
  | openStore io path passphrase => cases hc
  | addPeer peer endpoint => exact shows_addPeer env e peer endpoint
  | setNickname peer name => exact ⟨rfl, rfl, (List.append_nil _).symm⟩
  | sendContactRequest peer endpoint greeting =>
    exact shows_sendContactRequest env e peer endpoint greeting
  | acceptContact peer => exact shows_answerContact env e peer true kAccept
  | rejectContact peer => exact shows_answerContact env e peer false kReject
  | send peer text => exact shows_send env e peer text
  | setRelay relay => exact .aside ⟨rfl, rfl, rfl⟩
  | connect peer candidate => exact .aside ((Rests.punches env peer).connect e candidate)
  | tick => exact .aside (.tick env e)
  | poll datagram => exact shows_poll env e datagram
  | onMessage => exact .aside ⟨rfl, rfl, rfl⟩
  | onContactRequest => exact ⟨rfl, rfl, (List.append_nil _).symm⟩
  | onContactResponse => exact .aside ⟨rfl, rfl, rfl⟩

end OpenMesh.Messaging.Deeds
