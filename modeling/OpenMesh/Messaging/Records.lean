import OpenMesh.Messaging.Deeds
import OpenMesh.Messaging.Pairs

namespace OpenMesh.Messaging.Records

open OpenMesh.Core.Buffers OpenMesh.Core.Hex OpenMesh.Crypto.Primitives
open OpenMesh.Crypto.Reference OpenMesh.Library.Runs
open OpenMesh.Protocol.Envelope OpenMesh.Net.Transport OpenMesh.Storage
open OpenMesh.Storage.Database OpenMesh.Storage.Lookup
open OpenMesh.Messaging.Sessions OpenMesh.Messaging.Operations OpenMesh.Messaging.Frames
open OpenMesh.Messaging.Deeds OpenMesh.Messaging.Pairs OpenMesh.Messaging.Handling

abbrev Call := Env × Engine.Call

def step (C : Sodium) (e : Engine) (m : Call) : Engine := (e.call C m.1 m.2).1

/-- The messages that a call adds to the history: one that was sent, or one that a session has
opened. -/
def noted (C : Sodium) (e : Engine) : Call → List Message
  | (env, .send peer text) =>
    if (e.send C env peer text).2 then [⟨peer, text, true, env.nowSeconds⟩] else []
  | (env, .poll incoming) => match e.accepts C incoming with
    | some (packet, text, _) =>
      if packet.type = .message then [⟨packet.source, text, false, env.nowSeconds⟩] else []
    | none => []
  | _ => []

/-- What has been sent and received in the course of a run, oldest first. -/
def journal (C : Sodium) : History Engine Call → List Message
  | [] => []
  | (e, m) :: h => journal C h ++ noted C e m

def heard (C : Sodium) : History Engine Call → List Delivered
  | [] => []
  | (e, m) :: h => heard C h ++ if e.messageHandler.installed then
      ((noted C e m).filter (!·.outgoing)).map fun n => ⟨n.peer, n.text, false⟩ else []

def keys (s : Store) : List Bytes :=
  s.contacts.map (·.publicKey) ++ (s.messages.map (·.peer) ++ s.requests.map (·.peer))

/-- Whoever has a session or a record has a key of the right size. -/
structure WellKeyed (e : Engine) : Prop where
  sessions : ∀ peer, (e.session peer).isSome → peer.length = kPublicKeyBytes
  records : ∀ peer ∈ keys e.contacts, peer.length = kPublicKeyBytes

/-- `open_store` is not called, and names are given to keys alone. -/
def Proper (m : Call) : Prop :=
  m.2.reopens = false ∧ ∀ peer ∈ m.2.names, peer.length = kPublicKeyBytes

variable {C : Sodium} {e e' e'' : Engine} {peer : Bytes}

/-- Of the sessions there may be one more, with a key of the right size. -/
def Opens (e e' : Engine) : Prop :=
  ∀ peer, (e'.session peer).isSome → (e.session peer).isSome ∨ peer.length = kPublicKeyBytes

structure Beside (e e' : Engine) : Prop where
  opens : Opens e e'
  handler : e'.messageHandler = e.messageHandler

theorem opened_length {s : Session} (h : e.opened C peer = some s) :
    (e.session peer).isSome ∨ peer.length = kPublicKeyBytes := by
  unfold Engine.opened at h
  split at h
  · next hs => exact Or.inl (Option.isSome_iff_exists.mpr ⟨_, hs⟩)
  · dsimp only at h
    split at h
    · next hv => exact Or.inr (agreeSharedKey_length (Projection.new_valid hv).1).1
    · cases h

namespace Beside

theorem refl (e : Engine) : Beside e e := ⟨fun _ => Or.inl, rfl⟩

theorem trans (h : Beside e e') (h' : Beside e' e'') : Beside e e'' := by
  refine ⟨fun peer hpeer => ?_, h'.handler.trans h.handler⟩
  obtain hpeer | hlen := h'.opens peer hpeer
  · exact h.opens peer hpeer
  · exact Or.inr hlen

theorem same (hsessions : e'.sessions = e.sessions) (hhandler : e'.messageHandler = e.messageHandler) :
    Beside e e' := by
  refine ⟨fun peer hpeer => Or.inl ?_, hhandler⟩
  rw [Engine.session, hsessions] at hpeer
  exact hpeer

theorem aside (h : Aside e e') : Beside e e' := .same h.sessions h.messageHandler

theorem holds {s t : Session} (ho : e.opened C peer = some s) (h : e.Holds peer t e') :
    Beside e e' := by
  refine ⟨fun q hq => ?_, by rw [h.rest]⟩
  by_cases hqp : q = peer
  · rw [hqp]
    exact opened_length ho
  · rw [h.elsewhere q hqp] at hq
    exact Or.inl hq

theorem sealAndSend (env : Env) (s : Session) (type : PacketType) (text : Bytes)
    (h : Beside e e') (hpeer : (e'.session peer).isSome) :
    Beside e (e'.sealAndSend C env peer s type text).1 := by
  rw [Engine.sealAndSend_eq]
  refine h.trans ⟨fun q hq => Or.inl ?_, rfl⟩
  by_cases hqp : q = peer
  · rw [hqp]
    exact hpeer
  · have helse := (Engine.Holds.insert e' peer { s with sendCounter := s.sendCounter + 1 }).elsewhere
    rw [← helse q hqp]
    exact hq

theorem tick (env : Env) (e : Engine) : Beside e (e.tick env) := .aside (aside_tick env e)

theorem answerContact (env : Env) (e : Engine) (peer : Bytes) (trust : TrustStatus) (b : UInt8) :
    Beside e (e.answerContact C env peer trust b).1 := by
  unfold Engine.answerContact
  dsimp only
  split
  · exact refl e
  · split
    · exact refl e
    · next e' s hs =>
      obtain ⟨ho, hh⟩ := Engine.ensureSession_eq_some hs
      have hpeer : (e'.session peer).isSome := Option.isSome_iff_exists.mpr ⟨s, hh.here⟩
      exact sealAndSend env s .contactResponse [b] ((holds ho hh).trans (.same rfl rfl)) hpeer

theorem call (env : Env) (e : Engine) (c : Engine.Call) (hpoll : ∀ incoming, c ≠ .poll incoming)
    (hon : c ≠ .onMessage) : Beside e (e.call C env c).1 := by
  cases c with
  | announceTo relay => exact .aside (aside_transmit env e relay [])
  | openStore io path passphrase =>
    simp only [Engine.call, Engine.openStore]
    split <;> exact .same rfl rfl
  | addPeer peer endpoint =>
    simp only [Engine.call, Engine.addPeer]
    split
    · exact refl e
    · next e' s hs =>
      obtain ⟨ho, hh⟩ := Engine.ensureSession_eq_some hs
      exact (holds ho hh).trans (.same rfl rfl)
  | sendContactRequest peer endpoint greeting =>
    simp only [Engine.call, Engine.sendContactRequest]
    split
    · exact refl e
    · split
      · exact refl e
      · next e' s hs =>
        obtain ⟨ho, hh⟩ := Engine.ensureSession_eq_some hs
        have hpeer : (e'.session peer).isSome := Option.isSome_iff_exists.mpr ⟨s, hh.here⟩
        exact sealAndSend env s .contactRequest greeting ((holds ho hh).trans (.same rfl rfl)) hpeer
  | acceptContact peer => exact answerContact env e peer _ _
  | rejectContact peer => exact answerContact env e peer _ _
  | send peer text =>
    simp only [Engine.call, Engine.send]
    split
    · exact refl e
    · split
      · exact refl e
      · next e' s hs =>
        obtain ⟨ho, hh⟩ := Engine.ensureSession_eq_some hs
        have hsealed := sealAndSend (C := C) env s .message text (holds ho hh)
          (Option.isSome_iff_exists.mpr ⟨s, hh.here⟩)
        split
        · next e₂ he => rwa [he] at hsealed
        · next e₂ he =>
          rw [he] at hsealed
          exact hsealed.trans (.same rfl rfl)
  | connect peer candidate => exact .aside ((aside_punches env peer).connect e candidate)
  | tick => exact tick env e
  | poll incoming => exact absurd rfl (hpoll incoming)
  | onMessage => exact absurd rfl hon
  | _ => exact .same rfl rfl

end Beside

theorem dispatch_handler (env : Env) (e : Engine) (packet : Packet) (text : Bytes)
    (origin : Endpoint) :
    (e.dispatch env packet text origin).1.messageHandler =
      if packet.type = .message then e.messageHandler.call ⟨packet.source, text, false⟩
      else e.messageHandler := by
  let e₁ := if e.hasDirectPath packet.source then e
    else { e with endpoints := e.endpoints.insert (toHex packet.source) origin }
  have h₁ : e₁.messageHandler = e.messageHandler := by
    simp only [e₁]
    split <;> rfl
  rw [← h₁]
  unfold Engine.dispatch
  cases packet.type with
  | message => rfl
  | contactRequest =>
    change (e₁.handleContactRequest env packet.source text).messageHandler = e₁.messageHandler
    unfold Engine.handleContactRequest
    dsimp only
    split_ifs <;> rfl
  | contactResponse =>
    change (e₁.handleContactResponse packet.source text).messageHandler = e₁.messageHandler
    unfold Engine.handleContactResponse
    dsimp only
    split_ifs <;> rfl
  | _ => rfl

theorem poll_beside (env : Env) (e : Engine) (incoming : Option Datagram) :
    Opens e (e.poll C env incoming).1 ∧
      (e.poll C env incoming).1.messageHandler =
        ((noted C e (env, .poll incoming)).map fun n => ⟨n.peer, n.text, false⟩).foldl
          Handler.call e.messageHandler := by
  obtain ⟨h, b, he⟩ | ⟨h, d, packet, -, -, -, -, -, he⟩ | ⟨h, d, packet, -, -, -, he⟩ |
    ⟨h, packet, s, e', ho, hh, -, he⟩ | ⟨d, packet, s, s', text, e', h, -, -, ho, -, -, hh, he⟩ :=
    Engine.poll_cases C env e incoming
  · rw [noted, h, he]
    exact ⟨(Beside.refl e).opens, rfl⟩
  · have hb := Beside.aside ((aside_punches env packet.source).handleProbe e d.origin)
    rw [noted, h, he]
    exact ⟨hb.opens, hb.handler⟩
  · have hb := Beside.aside ((aside_punches env packet.source).handleConnect e packet.payload)
    rw [noted, h, he]
    exact ⟨hb.opens, hb.handler⟩
  · have hb := Beside.holds ho hh
    rw [noted, h, he]
    exact ⟨hb.opens, hb.handler⟩
  · have hb := Beside.holds ho hh
    have hkeeps := Handling.keeps_dispatch env e' packet text d.origin
    rw [noted, h, he]
    constructor
    · intro peer hpeer
      rw [Engine.session, hkeeps.sessions] at hpeer
      exact hb.opens peer hpeer
    · rw [dispatch_handler, hb.handler]
      dsimp only
      split <;> rfl

section Keys

def about : Deed → Option Bytes
  | .aside => none
  | .noted message => some message.peer
  | .named peer _ | .added peer | .asked peer | .answered peer _ | .requested peer _
  | .settled peer _ => some peer

theorem about_deedOf {env : Env} {packet : Packet} {text : Bytes}
    (h : peer ∈ about (deedOf env e packet text)) : peer = packet.source := by
  unfold deedOf at h
  split at h
  · exact (Option.some.inj h).symm
  · split at h
    · cases h
    · exact (Option.some.inj h).symm
  · split at h
    · exact (Option.some.inj h).symm
    · cases h
  · cases h

theorem about_length (h : WellKeyed e) {m : Call} (hm : Proper m) :
    ∀ peer ∈ about (deed C m.1 e m.2), peer.length = kPublicKeyBytes := by
  have hopened : ∀ {peer : Bytes}, (e.opened C peer).isSome → peer.length = kPublicKeyBytes := by
    intro peer hpeer
    obtain ⟨s, hs⟩ := Option.isSome_iff_exists.mp hpeer
    exact (opened_length hs).elim (h.sessions peer) id
  have hanswer : ∀ peer accept, ∀ q ∈ about (answer C e peer accept), q.length = kPublicKeyBytes := by
    intro peer accept q hq
    unfold answer at hq
    split at hq
    · next hboth =>
      obtain rfl := Option.some.inj hq
      exact hopened hboth.2
    · cases hq
  obtain ⟨env, c⟩ := m
  intro peer hpeer
  cases c with
  | addPeer r endpoint =>
    simp only [deed] at hpeer
    split at hpeer
    · next ho =>
      obtain rfl := Option.some.inj hpeer
      exact hopened ho
    · cases hpeer
  | setNickname r name =>
    obtain rfl := Option.some.inj hpeer
    exact hm.2 _ rfl
  | sendContactRequest r endpoint greeting =>
    simp only [deed] at hpeer
    split at hpeer
    · next ho =>
      obtain rfl := Option.some.inj hpeer
      exact hopened ho.2
    · cases hpeer
  | acceptContact r => exact hanswer r true peer hpeer
  | rejectContact r => exact hanswer r false peer hpeer
  | send r text =>
    simp only [deed] at hpeer
    split at hpeer
    · next hsent =>
      obtain rfl := Option.some.inj hpeer
      apply hopened
      unfold Engine.send at hsent
      split at hsent
      · cases hsent
      · split at hsent
        · cases hsent
        · next e' s hs =>
          rw [(Engine.ensureSession_eq_some hs).1]
          rfl
    · cases hpeer
  | poll incoming =>
    simp only [deed] at hpeer
    split at hpeer
    · cases hpeer
    · next packet text s' hacc =>
      obtain ⟨-, -, -, -, s, ho, -⟩ := accepts_eq_some_iff.mp hacc
      rw [about_deedOf hpeer]
      apply hopened
      rw [ho]
      rfl
  | _ => cases hpeer

def written : Durability.Call → Option Bytes
  | .upsert contact | .addContact contact => some contact.publicKey
  | .appendMessage message => some message.peer
  | .addRequest request => some request.peer
  | .removeRequest _ => none

theorem keys_run {s : Store} {c : Durability.Call} (h : peer ∈ keys (c.run s)) :
    peer ∈ keys s ∨ peer ∈ written c := by
  simp only [keys, List.mem_append, List.mem_map] at h ⊢
  cases c with
  | upsert contact =>
    simp only [Durability.Call.run, Store.upsert_messages, Store.upsert_requests] at h
    obtain ⟨c, hc, rfl⟩ | h := h
    · unfold Store.upsert at hc
      split at hc
      · next cs hcs =>
        rw [Store.save_contacts] at hc
        obtain rfl | hc := (Durability.mem_replaceFirst hcs).2 c hc
        · exact Or.inr rfl
        · exact Or.inl (Or.inl ⟨c, hc, rfl⟩)
      · rw [Store.save_contacts] at hc
        obtain hc | hc := List.mem_append.mp hc
        · exact Or.inl (Or.inl ⟨c, hc, rfl⟩)
        · rw [List.mem_singleton.mp hc]
          exact Or.inr rfl
    · exact Or.inl (Or.inr h)
  | addContact contact =>
    simp only [Durability.Call.run, Store.addContact, Store.save_contacts, Store.save_messages,
      Store.save_requests, List.mem_append, List.mem_singleton] at h
    obtain ⟨c, hc | rfl, rfl⟩ | h := h
    · exact Or.inl (Or.inl ⟨c, hc, rfl⟩)
    · exact Or.inr rfl
    · exact Or.inl (Or.inr h)
  | appendMessage message =>
    simp only [Durability.Call.run, Store.appendMessage_contacts, Store.appendMessage_messages,
      Store.appendMessage_requests, List.mem_append, List.mem_singleton] at h
    obtain h | ⟨m, hm | rfl, rfl⟩ | h := h
    · exact Or.inl (Or.inl h)
    · exact Or.inl (Or.inr (Or.inl ⟨m, hm, rfl⟩))
    · exact Or.inr rfl
    · exact Or.inl (Or.inr (Or.inr h))
  | addRequest request =>
    simp only [Durability.Call.run, Store.addRequest_contacts, Store.addRequest_messages] at h
    obtain h | h | ⟨q, hq, rfl⟩ := h
    · exact Or.inl (Or.inl h)
    · exact Or.inl (Or.inr (Or.inl h))
    · unfold Store.addRequest at hq
      split at hq
      · exact Or.inl (Or.inr (Or.inr ⟨q, hq, rfl⟩))
      · rw [Store.save_requests] at hq
        obtain hq | hq := List.mem_append.mp hq
        · exact Or.inl (Or.inr (Or.inr ⟨q, hq, rfl⟩))
        · rw [List.mem_singleton.mp hq]
          exact Or.inr rfl
  | removeRequest r =>
    have hcontacts : (s.removeRequest r).contacts = s.contacts := by
      simp only [Store.removeRequest]
      split <;> simp
    simp only [Durability.Call.run, Store.removeRequest_messages, hcontacts] at h
    obtain h | h | h := h
    · exact Or.inl (Or.inl h)
    · exact Or.inl (Or.inr (Or.inl h))
    · exact Or.inl (Or.inr (Or.inr ((Store.listed_removeRequest s r peer).mp h).2))

theorem keys_edits {s : Store} {calls : List Durability.Call}
    (h : peer ∈ keys (calls.foldl Durability.Call.run s)) :
    peer ∈ keys s ∨ ∃ c ∈ calls, peer ∈ written c := by
  induction calls generalizing s with
  | nil => exact Or.inl h
  | cons c calls ih =>
    obtain h | ⟨c', hc', h⟩ := ih h
    · exact (keys_run h).imp_right fun h => ⟨c, List.mem_cons_self, h⟩
    · exact Or.inr ⟨c', List.mem_cons_of_mem c hc', h⟩

theorem written_edits {env : Env} {s : Store} {d : Deed} {c : Durability.Call}
    (hc : c ∈ d.edits env s) (h : peer ∈ written c) : peer ∈ about d := by
  cases d with
  | aside => cases hc
  | requested r greeting =>
    simp only [Deed.edits, List.mem_cons, List.mem_append] at hc
    obtain rfl | hc | rfl | hc := hc
    · exact h
    · split at hc
      · rw [List.mem_singleton.mp hc] at h
        exact h
      · cases hc
    · exact h
    · cases hc
  | answered r accept =>
    simp only [Deed.edits, List.mem_cons] at hc
    obtain rfl | rfl | hc := hc
    · cases h
    · exact h
    · cases hc
  | _ =>
    rw [List.mem_singleton.mp hc] at h
    exact h

theorem step_opens (e : Engine) (m : Call) : Opens e (step C e m) := by
  obtain ⟨env, c⟩ := m
  by_cases hpoll : ∃ incoming, c = .poll incoming
  · obtain ⟨incoming, rfl⟩ := hpoll
    exact (poll_beside env e incoming).1
  · by_cases hon : c = .onMessage
    · rw [hon]
      exact fun _ => Or.inl
    · exact (Beside.call env e c (fun incoming hc => hpoll ⟨incoming, hc⟩) hon).opens

theorem step_wellKeyed (h : WellKeyed e) {m : Call} (hm : Proper m) : WellKeyed (step C e m) := by
  constructor
  · intro peer hpeer
    exact (step_opens e m peer hpeer).elim (h.sessions peer) id
  · intro peer hpeer
    rw [step, (shows_call m.1 e m.2 hm.1).contacts] at hpeer
    obtain hpeer | ⟨c, hc, hwritten⟩ := keys_edits hpeer
    · exact h.records peer hpeer
    · exact about_length h hm peer (written_edits hc hwritten)

end Keys

section Journal

def appended : Durability.Call → List Message
  | .appendMessage message => [message]
  | _ => []

theorem run_messages (s : Store) (c : Durability.Call) :
    (c.run s).messages = s.messages ++ appended c := by
  cases c with
  | appendMessage message => exact Store.appendMessage_messages s message
  | upsert contact => exact (Store.upsert_messages s contact).trans (List.append_nil _).symm
  | addContact contact => exact (Store.save_messages _).trans (List.append_nil _).symm
  | addRequest request => exact (Store.addRequest_messages s request).trans (List.append_nil _).symm
  | removeRequest peer => exact (Store.removeRequest_messages s peer).trans (List.append_nil _).symm

theorem edits_messages (s : Store) (calls : List Durability.Call) :
    (calls.foldl Durability.Call.run s).messages = s.messages ++ calls.flatMap appended := by
  induction calls generalizing s with
  | nil => exact (List.append_nil _).symm
  | cons c calls ih =>
    rw [List.foldl_cons, ih, run_messages, List.append_assoc, List.flatMap_cons]

theorem appended_edits (env : Env) (s : Store) (d : Deed) (hd : ∀ message, d ≠ .noted message) :
    (d.edits env s).flatMap appended = [] := by
  apply List.flatMap_eq_nil_iff.mpr
  cases d with
  | noted message => exact absurd rfl (hd message)
  | requested peer greeting =>
    intro c hc
    simp only [Deed.edits, List.mem_cons, List.mem_append] at hc
    obtain rfl | hc | rfl | hc := hc
    · rfl
    · split at hc
      · rw [List.mem_singleton.mp hc]
        rfl
      · cases hc
    · rfl
    · cases hc
  | _ => simp [Deed.edits, appended]

theorem appended_deedOf (env : Env) (e : Engine) (s : Store) (packet : Packet) (text : Bytes) :
    ((deedOf env e packet text).edits env s).flatMap appended =
      if packet.type = .message then [⟨packet.source, text, false, env.nowSeconds⟩] else [] := by
  by_cases hmessage : packet.type = .message
  · rw [if_pos hmessage, deedOf, hmessage]
    rfl
  · rw [if_neg hmessage]
    apply appended_edits
    intro message
    unfold deedOf
    split
    · next htype => exact absurd htype hmessage
    · split <;> intro h <;> cases h
    · split <;> intro h <;> cases h
    · intro h
      cases h

/-- The deeds that add to the messages are those of the journal. -/
theorem appended_deed (env : Env) (e : Engine) (c : Engine.Call) :
    ((deed C env e c).edits env e.contacts).flatMap appended = noted C e (env, c) := by
  cases c with
  | send peer text =>
    simp only [deed, noted]
    split <;> rfl
  | poll incoming =>
    simp only [deed, noted]
    cases e.accepts C incoming with
    | none => rfl
    | some r => exact appended_deedOf env e e.contacts r.1 r.2.1
  | addPeer peer endpoint =>
    apply appended_edits
    intro message
    simp only [deed]
    split <;> intro h <;> cases h
  | sendContactRequest peer endpoint greeting =>
    apply appended_edits
    intro message
    simp only [deed]
    split <;> intro h <;> cases h
  | acceptContact peer =>
    apply appended_edits
    intro message
    simp only [deed, answer]
    split <;> intro h <;> cases h
  | rejectContact peer =>
    apply appended_edits
    intro message
    simp only [deed, answer]
    split <;> intro h <;> cases h
  | _ => rfl

theorem step_messages (e : Engine) {m : Call} (hm : m.2.reopens = false) :
    (step C e m).contacts.messages = e.contacts.messages ++ noted C e m := by
  rw [step, (shows_call m.1 e m.2 hm).contacts, edits_messages, appended_deed]

theorem foldl_call (f : Handler Delivered) (xs : List Delivered) :
    (xs.foldl Handler.call f).calls = f.calls ++ if f.installed then xs else [] := by
  induction xs generalizing f with
  | nil => simp
  | cons x xs ih =>
    rw [List.foldl_cons, ih]
    unfold Handler.call
    by_cases hinstalled : f.installed <;> simp [hinstalled]

theorem step_handler (e : Engine) (m : Call) :
    (step C e m).messageHandler.calls = e.messageHandler.calls ++ heard C [(e, m)] := by
  have hnone : (noted C e m).filter (!·.outgoing) = [] → heard C [(e, m)] = [] := by
    intro hnoted
    rw [heard, heard, hnoted, List.map_nil, ite_self, List.append_nil]
  obtain ⟨env, c⟩ := m
  by_cases hpoll : ∃ incoming, c = .poll incoming
  · obtain ⟨incoming, rfl⟩ := hpoll
    have hincoming : (noted C e (env, .poll incoming)).filter (!·.outgoing) =
        noted C e (env, .poll incoming) := by
      rw [noted]
      cases e.accepts C incoming with
      | none => rfl
      | some r =>
        dsimp only
        split <;> rfl
    rw [step, Engine.call, (poll_beside env e incoming).2, foldl_call, heard, heard, hincoming]
    rfl
  · have hquiet : (noted C e (env, c)).filter (!·.outgoing) = [] := by
      cases c with
      | send peer text =>
        rw [noted]
        split <;> rfl
      | poll incoming => exact absurd ⟨incoming, rfl⟩ hpoll
      | _ => rfl
    have hsame : (step C e (env, c)).messageHandler.calls = e.messageHandler.calls := by
      by_cases hon : c = .onMessage
      · rw [hon]
        rfl
      · rw [step, (Beside.call env e c (fun incoming hc => hpoll ⟨incoming, hc⟩) hon).handler]
    rw [hsame, hnone hquiet, List.append_nil]

end Journal

/-- The history of messages only grows, by what has been sent and what has been received, in
this order; the message handler has seen all that came in since it was installed; and whoever
there is a record of has a key of the right size. -/
theorem history_is_journal {e₀ : Engine} {h : History Engine Call}
    (run : Run (step C) (fun _ _ m => Proper m) e₀ h e) (start : WellKeyed e₀) :
    e.contacts.messages = e₀.contacts.messages ++ journal C h ∧
      e.messageHandler.calls = e₀.messageHandler.calls ++ heard C h ∧ WellKeyed e := by
  induction run with
  | start => exact ⟨(List.append_nil _).symm, (List.append_nil _).symm, start⟩
  | @move h e m _ proper ih =>
    obtain ⟨hmessages, hheard, keyed⟩ := ih
    refine ⟨?_, ?_, step_wellKeyed keyed proper⟩
    · rw [step_messages e proper.1, hmessages, List.append_assoc]
      rfl
    · rw [step_handler, hheard, List.append_assoc]
      rfl

theorem new_wellKeyed (localPublic localSecret : Bytes) :
    WellKeyed (.new localPublic localSecret) := by
  constructor
  · intro peer hpeer
    cases hpeer
  · intro peer hpeer
    cases hpeer

instance (m : Call) : Decidable (Proper m) := inferInstanceAs (Decidable (_ ∧ _))

def chatting : History Engine Call × Engine :=
  Run.replay (step reference) [] (newEngines .A)
    [(clock, .addPeer (twoParties.key .B) address), (clock, .poll (some (box .B 0 .message [7]))),
      (clock, .send (twoParties.key .B) [1]), (clock, .onMessage),
      (clock, .poll (some (box .B 1 .message [8]))), (clock, .poll (some (box .B 1 .message [8])))]

theorem history_is_journal_chatting :
    chatting.2.contacts.messages =
        (newEngines .A).contacts.messages ++ journal reference chatting.1 ∧
      (journal reference chatting.1).map (·.text) = [[7], [1], [8]] ∧
      chatting.2.messageHandler.calls.map (·.plaintext) = [[8]] := by
  have hrun : Run (step reference) (fun _ _ m => Proper m) (newEngines .A) chatting.1 chatting.2 :=
    Run.replay_run .start (by decide +kernel)
  have hmessages := (history_is_journal hrun (new_wellKeyed _ _)).1
  exact ⟨hmessages, by decide +kernel, by decide +kernel⟩

end OpenMesh.Messaging.Records
