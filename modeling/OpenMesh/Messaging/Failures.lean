import OpenMesh.Messaging.Lifetimes

namespace OpenMesh.Messaging.Failures

open OpenMesh.Core.Buffers OpenMesh.Core.Hex OpenMesh.Crypto.Primitives
open OpenMesh.Crypto.Reference OpenMesh.Protocol.Envelope OpenMesh.Protocol.EnvelopeCodec
open OpenMesh.Net.Transport OpenMesh.Storage.Database OpenMesh.Storage.Lookup
open OpenMesh.Messaging.Sessions OpenMesh.Messaging.Operations OpenMesh.Messaging.Lifetimes
open OpenMesh.Messaging.Pairs

inductive Contacting where
  | addPeer (remotePublic : Bytes) (endpoint : Endpoint)
  | sendContactRequest (remotePublic : Bytes) (endpoint : Endpoint) (greeting : Bytes)
  | acceptContact (remotePublic : Bytes)
  | rejectContact (remotePublic : Bytes)
  | send (remotePublic plaintext : Bytes)

def Contacting.call : Contacting → Engine.Call
  | addPeer peer endpoint => .addPeer peer endpoint
  | sendContactRequest peer endpoint greeting => .sendContactRequest peer endpoint greeting
  | acceptContact peer => .acceptContact peer
  | rejectContact peer => .rejectContact peer
  | send peer plaintext => .send peer plaintext

/-- Contacts, conversations and requests are as before. -/
structure Unchanged (e e' : Engine) : Prop where
  trust : ∀ peer, e'.trustOf peer = e.trustOf peer
  contacts : e'.contacts.contacts = e.contacts.contacts
  requests : e'.pendingRequests = e.pendingRequests
  conversation : ∀ peer, e'.contacts.conversation peer = e.contacts.conversation peer
  incoming : e'.incomingRequests = e.incomingRequests
  outgoing : e'.outgoingRequests = e.outgoingRequests

/-- There is somewhere to send the packet to, and the OS takes it. -/
def Leaves (env : Env) (dest : Option Endpoint) (packet : Packet) : Prop :=
  ∃ d ∈ dest, env.takes d (serialize packet) = true

/-- Nothing is asked of a peer that cannot be asked, is asked already, or gets the request. -/
def Asks (C : Sodium) (env : Env) (e : Engine) (peer : Bytes) (endpoint : Endpoint)
    (greeting : Bytes) : Prop :=
  e.trustOf peer = some .accepted ∨
  e.trustOf peer = some .pending ∧ toHex peer ∈ e.outgoingRequests ∨
  ∀ s ∈ e.opened C peer, Leaves env (some endpoint)
    (Engine.sealedPacket C env s .contactRequest greeting)

/-- Nobody is answered who has not asked, or cannot be answered, or does not get the answer. -/
def Answers (C : Sodium) (env : Env) (e : Engine) (peer : Bytes) (decision : UInt8) : Prop :=
  toHex peer ∉ e.incomingRequests ∨
  ∀ s ∈ e.opened C peer, Leaves env ((e.endpoints.lookup (toHex peer)).or e.relay)
    (Engine.sealedPacket C env s .contactResponse [decision])

def Retryable (C : Sodium) (env : Env) (e : Engine) : Contacting → Prop
  | .addPeer _ _ | .send _ _ => True
  | .sendContactRequest peer endpoint greeting => Asks C env e peer endpoint greeting
  | .acceptContact peer => Answers C env e peer kAccept
  | .rejectContact peer => Answers C env e peer kReject

variable {C : Sodium} {env : Env} {e e' : Engine} {peer : Bytes}

theorem Unchanged.refl (e : Engine) : Unchanged e e :=
  ⟨fun _ => rfl, rfl, rfl, fun _ => rfl, rfl, rfl⟩

theorem Unchanged.trans {e'' : Engine} (h : Unchanged e e') (h' : Unchanged e' e'') :
    Unchanged e e'' :=
  ⟨fun peer => (h'.trust peer).trans (h.trust peer), h'.contacts.trans h.contacts,
    h'.requests.trans h.requests, fun peer => (h'.conversation peer).trans (h.conversation peer),
    h'.incoming.trans h.incoming, h'.outgoing.trans h.outgoing⟩

theorem Unchanged.holds {s : Session} (h : e.Holds peer s e') : Unchanged e e' := by
  rw [h.rest]
  exact ⟨fun _ => rfl, rfl, rfl, fun _ => rfl, rfl, rfl⟩

theorem Unchanged.sealAndSend (e : Engine) (peer : Bytes) (s : Session) (type : PacketType)
    (text : Bytes) : Unchanged e (e.sealAndSend C env peer s type text).1 := by
  rw [Engine.sealAndSend_eq]
  exact ⟨fun _ => rfl, rfl, rfl, fun _ => rfl, rfl, rfl⟩

theorem sendTo_taken (socket : UdpSocket) (dest : Endpoint) (packet : Packet) :
    (socket.sendTo env.takes dest packet).2 = env.takes dest (serialize packet) := by
  unfold UdpSocket.sendTo
  cases env.takes dest (serialize packet) <;> rfl

theorem sealAndSend_leaves (e : Engine) (peer : Bytes) (s : Session) (type : PacketType)
    (text : Bytes) :
    (e.sealAndSend C env peer s type text).2 = true ↔
      Leaves env ((e.endpoints.lookup (toHex peer)).or e.relay)
        (Engine.sealedPacket C env s type text) := by
  rw [Engine.sealAndSend_eq]
  unfold Engine.post Leaves
  cases (e.endpoints.lookup (toHex peer)).or e.relay with
  | none => simp
  | some dest => simp [sendTo_taken]

theorem Unchanged.setTrust {trust : TrustStatus} (h : e.trustOf peer = some trust) :
    Unchanged e (e.setTrust peer trust) := by
  rw [Engine.trustOf, Store.trustOf_eq_find] at h
  obtain ⟨c, hfind, htrust⟩ := Option.map_eq_some_iff.mp h
  have hkey : c.publicKey = peer := by simpa using List.find?_some hfind
  have hsame : { c with publicKey := peer, trust } = c := by rw [← hkey, ← htrust]
  have hcontacts : (e.setTrust peer trust).contacts =
      { e.contacts with contacts := e.contacts.contacts }.save := by
    rw [Engine.setTrust, hfind, Option.getD_some, hsame]
    dsimp only
    rw [Store.upsert, Store.replaceFirst_self (by rw [hkey]; exact hfind)]
  refine ⟨fun q => ?_, ?_, ?_, fun q => ?_, rfl, rfl⟩
  · rw [Engine.trustOf, Store.trustOf, hcontacts, Store.save_contacts]
    rfl
  · rw [hcontacts, Store.save_contacts]
  · rw [Engine.pendingRequests, hcontacts, Store.save_requests]
    rfl
  · rw [Store.conversation, hcontacts, Store.save_messages]
    rfl

theorem unchanged_addPeer (endpoint : Endpoint) (h : (e.addPeer C peer endpoint).2 = false) :
    Unchanged e (e.addPeer C peer endpoint).1 := by
  unfold Engine.addPeer at h ⊢
  cases hs : e.ensureSession C peer with
  | none => exact .refl e
  | some p =>
    rw [hs] at h
    cases h

theorem unchanged_send (text : Bytes) (h : (e.send C env peer text).2 = false) :
    Unchanged e (e.send C env peer text).1 := by
  unfold Engine.send at h ⊢
  by_cases ht : e.trustOf peer = some .accepted
  · simp only [ht, ne_eq, not_true_eq_false, ↓reduceIte] at h ⊢
    cases hs : e.ensureSession C peer with
    | none => exact .refl e
    | some p =>
      obtain ⟨e', s⟩ := p
      have hh := (Engine.ensureSession_eq_some hs).2
      have hsent : Unchanged e (e'.sealAndSend C env peer s .message text).1 :=
        (Unchanged.holds hh).trans (.sealAndSend e' peer s .message text)
      obtain ⟨e'', ok, he⟩ : ∃ e'' ok, e'.sealAndSend C env peer s .message text = (e'', ok) :=
        ⟨_, _, rfl⟩
      rw [he] at hsent
      simp only [hs, he] at h ⊢
      cases ok with
      | false => exact hsent
      | true => cases h
  · simp only [ht, ne_eq, not_false_eq_true, ↓reduceIte]
    exact .refl e

theorem unchanged_sendContactRequest (endpoint : Endpoint) (greeting : Bytes) :
    ((e.sendContactRequest C env peer endpoint greeting).2 = false →
      Unchanged e (e.sendContactRequest C env peer endpoint greeting).1) ↔
      Asks C env e peer endpoint greeting := by
  unfold Engine.sendContactRequest Asks
  by_cases ht : e.trustOf peer = some .accepted
  · rw [if_pos ht]
    exact iff_of_true (fun _ => .refl e) (Or.inl ht)
  rw [if_neg ht]
  cases hs : e.ensureSession C peer with
  | none =>
    rw [Engine.ensureSession_eq_none hs]
    exact iff_of_true (fun _ => .refl e) (Or.inr (Or.inr nofun))
  | some p =>
    obtain ⟨e', s⟩ := p
    obtain ⟨ho, hh⟩ := Engine.ensureSession_eq_some hs
    let e₁ : Engine := { e' with
      endpoints := e'.endpoints.insert (toHex peer) endpoint
      outgoingRequests := insert (toHex peer) e'.outgoingRequests }
    let e₂ := e₁.setTrust peer .pending
    have hleaves : (e₂.sealAndSend C env peer s .contactRequest greeting).2 = true ↔
        Leaves env (some endpoint) (Engine.sealedPacket C env s .contactRequest greeting) := by
      have hdest : (e₂.endpoints.lookup (toHex peer)).or e₂.relay = some endpoint := by
        simp [e₂, e₁, Engine.setTrust]
      rw [sealAndSend_leaves, hdest]
    have hsent : Unchanged e₂ (e₂.sealAndSend C env peer s .contactRequest greeting).1 :=
      .sealAndSend e₂ peer s .contactRequest greeting
    have houtgoing : e₂.outgoingRequests = insert (toHex peer) e.outgoingRequests := by
      simp only [e₂, e₁, Engine.setTrust]
      rw [hh.rest]
    have htrust : e₂.trustOf peer = some .pending :=
      (Store.trustOf_upsert _ _ _).trans (if_pos rfl)
    change ((e₂.sealAndSend C env peer s .contactRequest greeting).2 = false →
      Unchanged e (e₂.sealAndSend C env peer s .contactRequest greeting).1) ↔ _
    simp only [ho, Option.mem_some_iff, forall_eq']
    constructor
    · intro hfailed
      by_cases hok : (e₂.sealAndSend C env peer s .contactRequest greeting).2 = true
      · exact Or.inr (Or.inr (hleaves.mp hok))
      · have hunchanged := hfailed (by simpa using hok)
        refine Or.inr (Or.inl ⟨?_, ?_⟩)
        · rw [← hunchanged.trust peer, hsent.trust peer, htrust]
        · rw [← hunchanged.outgoing, hsent.outgoing, houtgoing]
          exact Finset.mem_insert_self _ _
    · rintro (haccepted | ⟨hpending, hasked⟩ | hl) hfailed
      · exact absurd haccepted ht
      · have hasks : Unchanged e' e₁ := by
          refine ⟨fun _ => rfl, rfl, rfl, fun _ => rfl, rfl, Finset.insert_eq_self.mpr ?_⟩
          rw [(Unchanged.holds hh).outgoing]
          exact hasked
        have hbefore := (Unchanged.holds hh).trans hasks
        exact (hbefore.trans (.setTrust ((hbefore.trust peer).trans hpending))).trans hsent
      · rw [hleaves.mpr hl] at hfailed
        cases hfailed

theorem unchanged_answerContact (trust : TrustStatus) (decision : UInt8) :
    ((e.answerContact C env peer trust decision).2 = false →
      Unchanged e (e.answerContact C env peer trust decision).1) ↔
      Answers C env e peer decision := by
  unfold Engine.answerContact Answers
  by_cases hin : toHex peer ∈ e.incomingRequests
  · simp only [hin, not_true_eq_false, ↓reduceIte, false_or]
    cases hs : e.ensureSession C peer with
    | none =>
      rw [Engine.ensureSession_eq_none hs]
      exact iff_of_true (fun _ => .refl e) nofun
    | some p =>
      obtain ⟨e', s⟩ := p
      obtain ⟨ho, hh⟩ := Engine.ensureSession_eq_some hs
      let e₁ : Engine := { e' with
        incomingRequests := e'.incomingRequests.erase (toHex peer)
        contacts := e'.contacts.removeRequest peer }
      let e₂ := e₁.setTrust peer trust
      have hleaves : (e₂.sealAndSend C env peer s .contactResponse [decision]).2 = true ↔
          Leaves env ((e.endpoints.lookup (toHex peer)).or e.relay)
            (Engine.sealedPacket C env s .contactResponse [decision]) := by
        have hdest : (e₂.endpoints.lookup (toHex peer)).or e₂.relay =
            (e.endpoints.lookup (toHex peer)).or e.relay := by
          simp only [e₂, e₁, Engine.setTrust]
          rw [hh.rest]
        rw [sealAndSend_leaves, hdest]
      have hsent : Unchanged e₂ (e₂.sealAndSend C env peer s .contactResponse [decision]).1 :=
        .sealAndSend e₂ peer s .contactResponse [decision]
      have hincoming : e₂.incomingRequests = e.incomingRequests.erase (toHex peer) := by
        simp only [e₂, e₁, Engine.setTrust]
        rw [hh.rest]
      change ((e₂.sealAndSend C env peer s .contactResponse [decision]).2 = false →
        Unchanged e (e₂.sealAndSend C env peer s .contactResponse [decision]).1) ↔ _
      simp only [ho, Option.mem_some_iff, forall_eq']
      constructor
      · intro hfailed
        refine hleaves.mp (by_contra fun hok => ?_)
        have hunchanged := (hfailed (by simpa using hok)).incoming
        rw [hsent.incoming, hincoming] at hunchanged
        exact Finset.notMem_erase _ _ (hunchanged ▸ hin)
      · intro hl hfailed
        rw [hleaves.mpr hl] at hfailed
        cases hfailed
  · simp only [hin, not_false_eq_true, ↓reduceIte, true_or, iff_true]
    exact fun _ => .refl e

/-- A call that fails has changed nothing, exactly where it fails before it makes its changes,
where they have been made before, or where it does not fail. -/
theorem failure_unchanged (C : Sodium) (env : Env) (e : Engine) (c : Contacting) :
    ((e.call C env c.call).2 = false → Unchanged e (e.call C env c.call).1) ↔
      Retryable C env e c := by
  cases c with
  | addPeer peer endpoint => exact iff_of_true (unchanged_addPeer endpoint) trivial
  | sendContactRequest peer endpoint greeting => exact unchanged_sendContactRequest endpoint greeting
  | acceptContact peer => exact unchanged_answerContact .accepted kAccept
  | rejectContact peer => exact unchanged_answerContact .rejected kReject
  | send peer text => exact iff_of_true (unchanged_send text) trivial

def restored : Engine := turn reference once.2 (stopping once.2 .tick 0)

/-- There is nowhere to send the answer to, and it cannot be given again. -/
theorem accept_lost : restored.pendingRequests = [⟨twoParties.key .B, [66], 0⟩] ∧
    (restored.acceptContact reference clock (twoParties.key .B)).2 = false ∧
    ¬ Unchanged restored (restored.acceptContact reference clock (twoParties.key .B)).1 ∧
    ∀ env, ((restored.acceptContact reference clock (twoParties.key .B)).1.acceptContact reference
      env (twoParties.key .B)).2 = false := by
  have hrequests : restored.pendingRequests = [⟨twoParties.key .B, [66], 0⟩] := by decide +kernel
  have hafter : (restored.acceptContact reference clock (twoParties.key .B)).1.pendingRequests = [] ∧
      toHex (twoParties.key .B) ∉
        (restored.acceptContact reference clock (twoParties.key .B)).1.incomingRequests := by
    decide +kernel
  refine ⟨hrequests, by decide +kernel, fun h => ?_, fun env => ?_⟩
  · rw [h.requests, hrequests] at hafter
    cases hafter.1
  · rw [Engine.acceptContact, Engine.answerContact, if_pos hafter.2]

end OpenMesh.Messaging.Failures
