import OpenMesh.Messaging.Failures

namespace OpenMesh.Messaging.Nicknames

open OpenMesh.Core.Buffers OpenMesh.Core.Hex OpenMesh.Crypto.Primitives
open OpenMesh.Crypto.Reference OpenMesh.Library.Runs OpenMesh.Protocol.Envelope
open OpenMesh.Net.Transport OpenMesh.Storage.Database OpenMesh.Storage.Lookup
open OpenMesh.Messaging.Sessions OpenMesh.Messaging.Operations OpenMesh.Messaging.Routes
open OpenMesh.Messaging.Failures OpenMesh.Messaging.Lifetimes OpenMesh.Messaging.Pairs

def unnamed (contact : Contact) : Contact := { contact with nickname := [] }

/-- The stores differ in the names of their contacts alone, and in what they have written. -/
structure Alike (s s' : Store) : Prop where
  contacts : s'.contacts.map unnamed = s.contacts.map unnamed
  messages : s'.messages = s.messages
  requests : s'.requests = s.requests
  persistent : s'.persistent = s.persistent
  path : s'.path = s.path
  salt : s'.salt = s.salt
  key : s'.key = s.key

structure Likewise (e e' : Engine) : Prop where
  rest : e' = { e with contacts := e'.contacts }
  contacts : Alike e.contacts e'.contacts

section Stores

variable {s s' : Store}

theorem Alike.refl (s : Store) : Alike s s := ⟨rfl, rfl, rfl, rfl, rfl, rfl, rfl⟩

theorem save_eq (s : Store) : ∃ writes, s.save = { s with writes } := by
  unfold Store.save
  split
  · exact ⟨_, rfl⟩
  · exact ⟨s.writes, rfl⟩

theorem Alike.save (alike : Alike s s') : Alike s.save s'.save := by
  obtain ⟨writes, hsave⟩ := save_eq s
  obtain ⟨writes', hsave'⟩ := save_eq s'
  rw [hsave, hsave']
  exact ⟨alike.contacts, alike.messages, alike.requests, alike.persistent, alike.path, alike.salt,
    alike.key⟩

theorem find_unnamed (cs : List Contact) (peer : Bytes) :
    ((cs.find? (·.publicKey = peer)).map unnamed) =
      (cs.map unnamed).find? (·.publicKey = peer) := by
  induction cs with
  | nil => rfl
  | cons c cs ih =>
    have hkey : (unnamed c).publicKey = c.publicKey := rfl
    rw [List.map_cons, List.find?_cons, List.find?_cons, hkey]
    by_cases hc : c.publicKey = peer
    · simp only [hc, decide_true, Option.map_some]
    · simp only [hc, decide_false, ih]

theorem Alike.find (alike : Alike s s') (peer : Bytes) :
    (s'.find peer).map unnamed = (s.find peer).map unnamed := by
  rw [Store.find, Store.find, find_unnamed, find_unnamed, alike.contacts]

theorem Alike.trustOf (alike : Alike s s') (peer : Bytes) : s'.trustOf peer = s.trustOf peer := by
  have htrust : ∀ s : Store, s.trustOf peer = ((s.find peer).map unnamed).map (·.trust) := by
    intro s
    rw [Option.map_map, Store.trustOf_eq_find]
    rfl
  rw [htrust, htrust, alike.find]

theorem replaceFirst_unnamed (contact : Contact) (cs : List Contact) :
    (Store.replaceFirst contact cs).map (List.map unnamed) =
      Store.replaceFirst (unnamed contact) (cs.map unnamed) := by
  induction cs with
  | nil => rfl
  | cons c cs ih =>
    by_cases hc : c.publicKey = contact.publicKey
    · simp [Store.replaceFirst, unnamed, hc]
    · have hc' : ¬ (unnamed c).publicKey = (unnamed contact).publicKey := hc
      rw [List.map_cons, Store.replaceFirst, Store.replaceFirst, if_neg hc, if_neg hc', ← ih,
        Option.map_map, Option.map_map]
      rfl

def upserted (contact : Contact) (cs : List Contact) : List Contact :=
  (Store.replaceFirst contact cs).getD (cs ++ [contact])

theorem upsert_eq (s : Store) (contact : Contact) :
    s.upsert contact = { s with contacts := upserted contact s.contacts }.save := by
  unfold Store.upsert upserted
  cases Store.replaceFirst contact s.contacts <;> rfl

theorem upserted_unnamed (contact : Contact) (cs : List Contact) :
    (upserted contact cs).map unnamed = upserted (unnamed contact) (cs.map unnamed) := by
  unfold upserted
  rw [← replaceFirst_unnamed]
  cases Store.replaceFirst contact cs with
  | none => exact List.map_append
  | some cs' => rfl

theorem Alike.upsert (alike : Alike s s') {c c' : Contact} (hc : unnamed c' = unnamed c) :
    Alike (s.upsert c) (s'.upsert c') := by
  rw [upsert_eq, upsert_eq]
  refine Alike.save ⟨?_, alike.messages, alike.requests, alike.persistent, alike.path, alike.salt,
    alike.key⟩
  rw [upserted_unnamed, upserted_unnamed, hc, alike.contacts]

theorem Alike.change (alike : Alike s s') (peer : Bytes) (f : Contact → Contact)
    (hf : ∀ c c', unnamed c' = unnamed c → unnamed (f c') = unnamed (f c)) :
    Alike (s.upsert (f ((s.find peer).getD {}))) (s'.upsert (f ((s'.find peer).getD {}))) := by
  refine alike.upsert (hf _ _ ?_)
  have hfind := alike.find peer
  cases hs : s.find peer <;> cases hs' : s'.find peer <;> simp_all

theorem Alike.appendMessage (alike : Alike s s') (message : Message) :
    Alike (s.appendMessage message) (s'.appendMessage message) := by
  refine Alike.save ⟨alike.contacts, ?_, alike.requests, alike.persistent, alike.path, alike.salt,
    alike.key⟩
  rw [alike.messages]

theorem Alike.addRequest (alike : Alike s s') (request : Request) :
    Alike (s.addRequest request) (s'.addRequest request) := by
  unfold Store.addRequest
  rw [alike.requests]
  split
  · exact alike
  · exact Alike.save ⟨alike.contacts, alike.messages, rfl, alike.persistent, alike.path, alike.salt,
      alike.key⟩

theorem Alike.removeRequest (alike : Alike s s') (peer : Bytes) :
    Alike (s.removeRequest peer) (s'.removeRequest peer) := by
  have hwithout : Alike { s with requests := s.requests.filter (·.peer ≠ peer) }
      { s' with requests := s.requests.filter (·.peer ≠ peer) } :=
    ⟨alike.contacts, alike.messages, rfl, alike.persistent, alike.path, alike.salt, alike.key⟩
  unfold Store.removeRequest
  rw [alike.requests]
  dsimp only
  split
  · exact hwithout.save
  · exact hwithout

theorem Alike.openAt (alike : Alike s s') (C : Sodium) (io : OpenIO) (path passphrase : Bytes) :
    Alike (s.openAt C io path passphrase).1 (s'.openAt C io path passphrase).1 ∧
      (s'.openAt C io path passphrase).2 = (s.openAt C io path passphrase).2 := by
  unfold Store.openAt
  split
  · split
    · exact ⟨alike, rfl⟩
    · dsimp only
      split
      · exact ⟨alike, rfl⟩
      · split
        · exact ⟨alike, rfl⟩
        · split
          · exact ⟨alike, rfl⟩
          · exact ⟨⟨rfl, rfl, rfl, rfl, rfl, rfl, rfl⟩, rfl⟩
  · dsimp only
    split
    · exact ⟨alike, rfl⟩
    · have hnew : Alike { s with
            salt := io.salt, key := deriveKey C passphrase io.salt, path, persistent := true }
          { s' with
            salt := io.salt, key := deriveKey C passphrase io.salt, path, persistent := true } :=
        ⟨alike.contacts, alike.messages, alike.requests, rfl, rfl, rfl, rfl⟩
      exact ⟨hnew.save, rfl⟩

theorem alike_named {peer name : Bytes} (h : s.trustOf peer ≠ none) :
    Alike s (s.upsert { (s.find peer).getD {} with publicKey := peer, nickname := name }) := by
  rw [Store.trustOf_eq_find] at h
  cases hfind : s.find peer with
  | none =>
    rw [hfind] at h
    exact absurd rfl h
  | some c =>
    have hkey : c.publicKey = peer := by simpa using List.find?_some hfind
    have hname : unnamed { c with publicKey := peer, nickname := name } = unnamed c := by
      rw [← hkey]
      rfl
    have hreplace : Store.replaceFirst (unnamed c) (s.contacts.map unnamed) =
        some (s.contacts.map unnamed) := by
      apply Store.replaceFirst_self
      rw [show (unnamed c).publicKey = peer from hkey, ← find_unnamed, ← Store.find, hfind]
      rfl
    have hsame : (upserted { c with publicKey := peer, nickname := name } s.contacts).map unnamed =
        s.contacts.map unnamed := by
      rw [upserted_unnamed, hname, upserted, hreplace, Option.getD_some]
    rw [Option.getD_some, upsert_eq]
    unfold Store.save
    split <;> exact ⟨hsame, rfl, rfl, rfl, rfl, rfl, rfl⟩

end Stores

section Engines

variable {C : Sodium} {env : Env} {e e' : Engine} {peer : Bytes}

def knowing (e : Engine) (contacts : Store) : Engine := { e with contacts }

/-- A function that neither looks at the contacts nor changes them. -/
def Blind (f : Engine → Engine) : Prop := ∀ e contacts, f (knowing e contacts) = knowing (f e) contacts

theorem Blind.likewise {f : Engine → Engine} (hf : Blind f) (h : Likewise e e') :
    Likewise (f e) (f e') := by
  have hsame : f e = knowing (f e) e.contacts := hf e e.contacts
  have hkeeps : (f e).contacts = e.contacts := by
    rw [hsame]
    rfl
  have hafter : f e' = knowing (f e) e'.contacts := by
    rw [← hf]
    exact congrArg f h.rest
  rw [hafter]
  exact ⟨rfl, hkeeps.symm ▸ h.contacts⟩

theorem Blind.comp {f g : Engine → Engine} (hf : Blind f) (hg : Blind g) : Blind fun e => f (g e) :=
  fun e contacts => (congrArg f (hg e contacts)).trans (hf (g e) contacts)

theorem blind_startProbing (env : Env) (peer : Bytes) (candidate : Endpoint) :
    Blind fun e => e.startProbing env peer candidate := by
  intro e contacts
  unfold Engine.startProbing knowing
  dsimp only
  split
  · split <;> rfl
  · rfl

theorem blind_connect (env : Env) (peer : Bytes) (candidate : Endpoint) :
    Blind fun e => (e.connect env peer candidate).1 := fun e contacts =>
  blind_startProbing env peer candidate
    { e with endpoints := e.endpoints.insert (toHex peer) (e.relay.getD candidate) } contacts

theorem blind_tickProbe (env : Env) (key : Bytes) : Blind fun e => e.tickProbe env key := by
  intro e contacts
  unfold Engine.tickProbe knowing
  dsimp only
  split
  · rfl
  · split_ifs <;> rfl

theorem blind_foldl {f : Engine → Bytes → Engine} (hf : ∀ key, Blind fun e => f e key)
    (keys : List Bytes) : Blind fun e => keys.foldl f e := by
  induction keys with
  | nil => exact fun _ _ => rfl
  | cons key keys ih =>
    intro e contacts
    have hhead : f (knowing e contacts) key = knowing (f e key) contacts := hf key e contacts
    dsimp only
    rw [List.foldl_cons, hhead]
    exact ih (f e key) contacts

theorem blind_tick (env : Env) : Blind fun e => e.tick env := fun e contacts =>
  blind_foldl (blind_tickProbe env) e.probes.keys e contacts

theorem blind_handleProbe (env : Env) (peer : Bytes) (origin : Endpoint) :
    Blind fun e => e.handleProbe env peer origin := by
  intro e contacts
  unfold Engine.handleProbe knowing
  dsimp only
  split <;> rfl

theorem blind_handleConnect (env : Env) (peer payload : Bytes) :
    Blind fun e => e.handleConnect env peer payload := by
  cases hp : parseEndpoint payload with
  | none =>
    intro e contacts
    simp only [Engine.handleConnect, hp]
  | some candidate =>
    have hblind := blind_startProbing env peer candidate
    intro e contacts
    simp only [Engine.handleConnect, hp]
    unfold knowing
    dsimp only
    split
    · next relay _ _ =>
      exact hblind { e with endpoints := e.endpoints.insert (toHex peer) relay } contacts
    · exact hblind e contacts

theorem blind_sealAndSend (env : Env) (peer : Bytes) (s : Session) (type : PacketType)
    (text : Bytes) : Blind fun e => (e.sealAndSend C env peer s type text).1 := by
  intro e contacts
  dsimp only
  rw [Engine.sealAndSend_eq, Engine.sealAndSend_eq]
  rfl

def Matches (r r' : Engine × Bool) : Prop := Likewise r.1 r'.1 ∧ r'.2 = r.2

theorem Likewise.trustOf (h : Likewise e e') (peer : Bytes) : e'.trustOf peer = e.trustOf peer :=
  h.contacts.trustOf peer

theorem Likewise.sealAndSend (h : Likewise e e') (s : Session) (type : PacketType) (text : Bytes) :
    Matches (e.sealAndSend C env peer s type text) (e'.sealAndSend C env peer s type text) := by
  refine ⟨(blind_sealAndSend env peer s type text).likewise h, ?_⟩
  rw [Engine.sealAndSend_eq, Engine.sealAndSend_eq, h.rest]
  rfl

theorem Likewise.ensureSession (h : Likewise e e') (C : Sodium) (peer : Bytes) :
    e.ensureSession C peer = none ∧ e'.ensureSession C peer = none ∨
    ∃ e₁ e₁' s, e.ensureSession C peer = some (e₁, s) ∧ e'.ensureSession C peer = some (e₁', s) ∧
      Likewise e₁ e₁' := by
  rw [h.rest]
  unfold Engine.ensureSession
  dsimp only
  split
  · exact Or.inr ⟨_, _, _, rfl, rfl, h.rest ▸ h⟩
  · split
    · exact Or.inr ⟨_, _, _, rfl, rfl, rfl, h.contacts⟩
    · exact Or.inl ⟨rfl, rfl⟩

theorem Likewise.setTrust (h : Likewise e e') (peer : Bytes) (trust : TrustStatus) :
    Likewise (e.setTrust peer trust) (e'.setTrust peer trust) := by
  refine ⟨?_, h.contacts.change peer (fun c => { c with publicKey := peer, trust }) ?_⟩
  · rw [h.rest]
    rfl
  · intro c c' hc
    obtain ⟨_, -, _, hseen⟩ := Contact.mk.inj hc
    simp only [unnamed, hseen]

theorem Likewise.setNickname (h : Likewise e e') (peer name : Bytes) :
    Likewise (e.setNickname peer name) (e'.setNickname peer name) := by
  refine ⟨?_, h.contacts.change peer (fun c => { c with publicKey := peer, nickname := name }) ?_⟩
  · rw [h.rest]
    rfl
  · intro c c' hc
    obtain ⟨_, -, htrust, hseen⟩ := Contact.mk.inj hc
    simp only [unnamed, htrust, hseen]

theorem likewise_addPeer (h : Likewise e e') (endpoint : Endpoint) :
    Matches (e.addPeer C peer endpoint) (e'.addPeer C peer endpoint) := by
  unfold Engine.addPeer
  obtain ⟨hs, hs'⟩ | ⟨e₁, e₁', s, hs, hs', h₁⟩ := h.ensureSession C peer
  · rw [hs, hs']
    exact ⟨h, rfl⟩
  · rw [hs, hs']
    have hplaced : Blind fun e => { e with endpoints := e.endpoints.insert (toHex peer) endpoint } :=
      fun _ _ => rfl
    exact ⟨(hplaced.likewise h₁).setTrust peer .accepted, rfl⟩

theorem likewise_sendContactRequest (h : Likewise e e') (endpoint : Endpoint) (greeting : Bytes) :
    Matches (e.sendContactRequest C env peer endpoint greeting)
      (e'.sendContactRequest C env peer endpoint greeting) := by
  unfold Engine.sendContactRequest
  rw [h.trustOf]
  split
  · exact ⟨h, rfl⟩
  · obtain ⟨hs, hs'⟩ | ⟨e₁, e₁', s, hs, hs', h₁⟩ := h.ensureSession C peer
    · rw [hs, hs']
      exact ⟨h, rfl⟩
    · rw [hs, hs']
      have hasked : Blind fun e => { e with
          endpoints := e.endpoints.insert (toHex peer) endpoint
          outgoingRequests := insert (toHex peer) e.outgoingRequests } := fun _ _ => rfl
      exact ((hasked.likewise h₁).setTrust peer .pending).sealAndSend s .contactRequest greeting

theorem likewise_answerContact (h : Likewise e e') (trust : TrustStatus) (decision : UInt8) :
    Matches (e.answerContact C env peer trust decision)
      (e'.answerContact C env peer trust decision) := by
  have hincoming : e'.incomingRequests = e.incomingRequests := by rw [h.rest]
  unfold Engine.answerContact
  dsimp only
  rw [hincoming]
  split
  · exact ⟨h, rfl⟩
  · obtain ⟨hs, hs'⟩ | ⟨e₁, e₁', s, hs, hs', h₁⟩ := h.ensureSession C peer
    · rw [hs, hs']
      exact ⟨h, rfl⟩
    · rw [hs, hs']
      have hremoved : Likewise { e₁ with
            incomingRequests := e₁.incomingRequests.erase (toHex peer)
            contacts := e₁.contacts.removeRequest peer }
          { e₁' with
            incomingRequests := e₁'.incomingRequests.erase (toHex peer)
            contacts := e₁'.contacts.removeRequest peer } := by
        refine ⟨?_, h₁.contacts.removeRequest peer⟩
        rw [h₁.rest]
      exact (hremoved.setTrust peer trust).sealAndSend s .contactResponse [decision]

theorem likewise_appendMessage (h : Likewise e e') (message : Message) :
    Likewise { e with contacts := e.contacts.appendMessage message }
      { e' with contacts := e'.contacts.appendMessage message } := by
  refine ⟨?_, h.contacts.appendMessage message⟩
  rw [h.rest]

theorem likewise_send (h : Likewise e e') (text : Bytes) :
    Matches (e.send C env peer text) (e'.send C env peer text) := by
  unfold Engine.send
  rw [h.trustOf]
  split
  · exact ⟨h, rfl⟩
  · obtain ⟨hs, hs'⟩ | ⟨e₁, e₁', s, hs, hs', h₁⟩ := h.ensureSession C peer
    · rw [hs, hs']
      exact ⟨h, rfl⟩
    · rw [hs, hs']
      dsimp only
      obtain ⟨hsent, hok⟩ : Matches (e₁.sealAndSend C env peer s .message text)
          (e₁'.sealAndSend C env peer s .message text) := h₁.sealAndSend s .message text
      obtain ⟨e₂, ok, he⟩ : ∃ e₂ ok, e₁.sealAndSend C env peer s .message text = (e₂, ok) :=
        ⟨_, _, rfl⟩
      obtain ⟨e₂', ok', he'⟩ : ∃ e₂' ok', e₁'.sealAndSend C env peer s .message text = (e₂', ok') :=
        ⟨_, _, rfl⟩
      rw [he, he'] at hsent hok
      rw [he, he']
      dsimp only at hsent hok
      rw [hok]
      cases ok with
      | false => exact ⟨hsent, rfl⟩
      | true => exact ⟨likewise_appendMessage hsent _, rfl⟩

theorem likewise_handleMessage (h : Likewise e e') (text : Bytes) :
    Likewise (e.handleMessage env peer text) (e'.handleMessage env peer text) := by
  have hcalled : Blind fun e => { e with messageHandler := e.messageHandler.call ⟨peer, text, false⟩ } :=
    fun _ _ => rfl
  exact hcalled.likewise (likewise_appendMessage h ⟨peer, text, false, env.nowSeconds⟩)

theorem likewise_handleContactRequest (h : Likewise e e') (greeting : Bytes) :
    Likewise (e.handleContactRequest env peer greeting)
      (e'.handleContactRequest env peer greeting) := by
  have hincoming : e'.incomingRequests = e.incomingRequests := by rw [h.rest]
  unfold Engine.handleContactRequest
  dsimp only
  rw [h.trustOf, hincoming]
  split
  · exact h
  · have hinserted : Blind fun e => { e with
        incomingRequests := insert (toHex peer) e.incomingRequests } := fun _ _ => rfl
    have hpending : Likewise
        ({ e with incomingRequests := insert (toHex peer) e.incomingRequests }.setTrust peer .pending)
        ({ e' with incomingRequests := insert (toHex peer) e'.incomingRequests }.setTrust peer
          .pending) := (hinserted.likewise h).setTrust peer .pending
    have hrecorded : ∀ {e e' : Engine}, Likewise e e' → Likewise
        { e with
          contacts := e.contacts.addRequest ⟨peer, greeting, env.nowSeconds⟩
          requestHandler := e.requestHandler.call (peer, greeting) }
        { e' with
          contacts := e'.contacts.addRequest ⟨peer, greeting, env.nowSeconds⟩
          requestHandler := e'.requestHandler.call (peer, greeting) } := by
      intro e e' h
      refine ⟨?_, h.contacts.addRequest _⟩
      rw [h.rest]
    rw [hincoming] at hpending
    split
    · exact hrecorded (hpending.setNickname peer greeting)
    · exact hrecorded hpending

theorem likewise_handleContactResponse (h : Likewise e e') (decision : Bytes) :
    Likewise (e.handleContactResponse peer decision) (e'.handleContactResponse peer decision) := by
  have houtgoing : e'.outgoingRequests = e.outgoingRequests := by rw [h.rest]
  unfold Engine.handleContactResponse
  dsimp only
  rw [houtgoing]
  split
  · exact h
  · have herased : Blind fun e => { e with
        outgoingRequests := e.outgoingRequests.erase (toHex peer) } := fun _ _ => rfl
    have hcalled : ∀ accepted, Blind fun e => { e with
        responseHandler := e.responseHandler.call (peer, accepted) } := fun _ _ _ => rfl
    have hsettled := herased.likewise h
    rw [houtgoing] at hsettled
    exact (hcalled _).likewise (hsettled.setTrust peer _)

theorem likewise_dispatch (h : Likewise e e') (packet : Packet) (text : Bytes) (origin : Endpoint) :
    Matches (e.dispatch env packet text origin) (e'.dispatch env packet text origin) := by
  have hplaced : Blind fun e => if e.hasDirectPath packet.source then e
      else { e with endpoints := e.endpoints.insert (toHex packet.source) origin } := by
    intro e contacts
    have hdirect : (knowing e contacts).hasDirectPath packet.source = e.hasDirectPath packet.source :=
      rfl
    dsimp only
    rw [hdirect]
    split <;> rfl
  have h₁ := hplaced.likewise h
  unfold Engine.dispatch
  cases packet.type with
  | message => exact ⟨likewise_handleMessage h₁ text, rfl⟩
  | contactRequest => exact ⟨likewise_handleContactRequest h₁ text, rfl⟩
  | contactResponse => exact ⟨likewise_handleContactResponse h₁ text, rfl⟩
  | _ => exact ⟨h₁, rfl⟩

theorem likewise_poll (h : Likewise e e') (incoming : Option Datagram) :
    Matches (e.poll C env incoming) (e'.poll C env incoming) := by
  have hlocal : e'.localPublic = e.localPublic := by rw [h.rest]
  unfold Engine.poll
  cases incoming.map receive with
  | none => exact ⟨h, rfl⟩
  | some datagram =>
    dsimp only
    cases deserialize datagram.data with
    | none => exact ⟨h, rfl⟩
    | some packet =>
      dsimp only
      rw [h.trustOf, hlocal]
      by_cases hhello : packet.type = .hello
      · rw [if_pos hhello, if_pos hhello]
        split
        · exact ⟨(blind_handleProbe env _ _).likewise h, rfl⟩
        · exact ⟨h, rfl⟩
      rw [if_neg hhello, if_neg hhello]
      split
      · exact ⟨(blind_handleConnect env _ _).likewise h, rfl⟩
      · split
        · exact ⟨h, rfl⟩
        · obtain ⟨hs, hs'⟩ | ⟨e₁, e₁', s, hs, hs', h₁⟩ := h.ensureSession C packet.source
          · rw [hs, hs']
            exact ⟨h, rfl⟩
          · rw [hs, hs']
            dsimp only
            cases s.decrypt C packet with
            | none => exact ⟨h₁, rfl⟩
            | some p =>
              have hstored : Blind fun e => { e with
                  sessions := e.sessions.insert (toHex packet.source) p.2 } := fun _ _ => rfl
              exact likewise_dispatch (hstored.likewise h₁) packet p.1 datagram.origin

theorem likewise_openStore (h : Likewise e e') (io : OpenIO) (path passphrase : Bytes) :
    Matches (e.openStore C io path passphrase) (e'.openStore C io path passphrase) := by
  obtain ⟨hopened, hok⟩ := h.contacts.openAt C io path passphrase
  unfold Engine.openStore
  dsimp only
  rw [hok]
  split
  · refine ⟨⟨?_, hopened⟩, rfl⟩
    rw [hopened.requests, h.rest]
  · refine ⟨⟨?_, hopened⟩, rfl⟩
    rw [h.rest]

/-- No call tells the two engines apart. -/
theorem likewise_call (h : Likewise e e') (c : Engine.Call) :
    Matches (e.call C env c) (e'.call C env c) := by
  cases c with
  | announceTo relay =>
    have hannounced : Blind fun e => (e.announceTo env relay).1 := fun _ _ => rfl
    refine ⟨hannounced.likewise h, ?_⟩
    rw [h.rest]
    rfl
  | openStore io path passphrase => exact likewise_openStore h io path passphrase
  | addPeer peer endpoint => exact likewise_addPeer h endpoint
  | setNickname peer name => exact ⟨h.setNickname peer name, rfl⟩
  | sendContactRequest peer endpoint greeting =>
    exact likewise_sendContactRequest h endpoint greeting
  | acceptContact peer => exact likewise_answerContact h .accepted kAccept
  | rejectContact peer => exact likewise_answerContact h .rejected kReject
  | send peer text => exact likewise_send h text
  | setRelay relay =>
    have hset : Blind fun e => { e with relay := some relay } := fun _ _ => rfl
    exact ⟨hset.likewise h, rfl⟩
  | connect peer candidate => exact ⟨(blind_connect env peer candidate).likewise h, rfl⟩
  | tick => exact ⟨(blind_tick env).likewise h, rfl⟩
  | poll incoming => exact likewise_poll h incoming
  | onMessage =>
    have hset : Blind fun e => { e with messageHandler := e.messageHandler.install } := fun _ _ => rfl
    exact ⟨hset.likewise h, rfl⟩
  | onContactRequest =>
    have hset : Blind fun e => { e with requestHandler := e.requestHandler.install } := fun _ _ => rfl
    exact ⟨hset.likewise h, rfl⟩
  | onContactResponse =>
    have hset : Blind fun e => { e with responseHandler := e.responseHandler.install } :=
      fun _ _ => rfl
    exact ⟨hset.likewise h, rfl⟩

end Engines

theorem Alike.trans {s s' s'' : Store} (h : Alike s s') (h' : Alike s' s'') : Alike s s'' :=
  ⟨h'.contacts.trans h.contacts, h'.messages.trans h.messages, h'.requests.trans h.requests,
    h'.persistent.trans h.persistent, h'.path.trans h.path, h'.salt.trans h.salt,
    h'.key.trans h.key⟩

theorem Likewise.trans {e e' e'' : Engine} (h : Likewise e e') (h' : Likewise e' e'') :
    Likewise e e'' := by
  refine ⟨?_, h.contacts.trans h'.contacts⟩
  rw [h'.rest, h.rest]

theorem likewise_named {e : Engine} {peer : Bytes} (name : Bytes) (h : e.trustOf peer ≠ none) :
    Likewise e (e.setNickname peer name) := ⟨rfl, alike_named h⟩

variable (C : Sodium) (e₀ : Engine)

/-- Where the run would have led without its calls of `set_nickname`. -/
def nameless : History Engine (Env × Engine.Call) → Engine
  | [] => e₀
  | m :: h => if m.2.2.names = none then engineStep C (nameless h) m.2 else nameless h

/-- Trust is what it would be without these calls, and so is what has been surfaced. -/
structure Unaffected (h : History Engine (Env × Engine.Call)) (e : Engine) : Prop where
  trust : ∀ peer, e.trustOf peer = (nameless C e₀ h).trustOf peer
  surfaced : e.requestHandler.calls = (nameless C e₀ h).requestHandler.calls

def Known (m : Engine × Env × Engine.Call) : Prop :=
  ∀ peer ∈ m.2.2.names, m.1.trustOf peer ≠ none

variable {C e₀} {e : Engine} {h : History Engine (Env × Engine.Call)}

theorem trustOf_setNickname (e : Engine) (peer name : Bytes) :
    (∀ q, (e.setNickname peer name).trustOf q = e.trustOf q) ↔ e.trustOf peer ≠ none := by
  constructor
  · intro hsame hnone
    have hnamed := hsame peer
    rw [hnone, Engine.trustOf, Engine.setNickname, Store.trustOf_upsert, if_pos rfl] at hnamed
    cases hnamed
  · exact fun hknown => (likewise_named name hknown).trustOf

theorem names_eq_some {c : Engine.Call} {peer : Bytes} (h : c.names = some peer) :
    ∃ name, c = .setNickname peer name := by
  cases c with
  | setNickname r name =>
    cases h
    exact ⟨name, rfl⟩
  | _ => cases h

theorem likewise_nameless (run : Run (engineStep C) (fun _ _ _ => True) e₀ h e)
    (known : Run.Each (fun _ m => Known m) h) : Likewise (nameless C e₀ h) e := by
  induction run with
  | start => exact ⟨rfl, .refl _⟩
  | @move h e m run _ ih =>
    have hold := ih known.2
    cases hn : m.2.names with
    | none =>
      rw [nameless, if_pos hn]
      exact (likewise_call hold m.2).1
    | some peer =>
      have hnamed : ¬ m.2.names = none := by simp [hn]
      obtain ⟨name, hc⟩ := names_eq_some hn
      rw [nameless, if_neg hnamed, engineStep, hc]
      exact hold.trans (likewise_named name (known.1 peer hn))

/-- As long as contacts alone are named, and no longer, every run goes as it would without the
names; and one call leaves all trust as it is for a contact alone. -/
theorem naming_unaffecting (run : Run (engineStep C) (fun _ _ _ => True) e₀ h e) :
    (Run.Throughout (Unaffected C e₀) h e ↔ Run.Each (fun _ m => Known m) h) ∧
    ∀ peer name, (∀ q, (e.setNickname peer name).trustOf q = e.trustOf q) ↔
      e.trustOf peer ≠ none := by
  refine ⟨?_, trustOf_setNickname e⟩
  have unaffected : ∀ {h e}, Likewise (nameless C e₀ h) e → Unaffected C e₀ h e := fun hl =>
    ⟨hl.trustOf, by rw [hl.rest]⟩
  induction run with
  | start => exact iff_of_true (unaffected ⟨rfl, .refl _⟩) trivial
  | @move h e m run hok ih =>
    constructor
    · rintro ⟨after, before⟩
      refine ⟨fun peer hn hnone => ?_, ih.mp before⟩
      have hnamed : ¬ m.2.names = none := by
        intro h
        rw [h] at hn
        cases hn
      obtain ⟨name, hc⟩ := names_eq_some hn
      have htrust := after.trust peer
      rw [nameless, if_neg hnamed, ← before.last.trust peer, show e.trustOf peer = none from hnone,
        engineStep, hc, Engine.call, Engine.trustOf, Engine.setNickname, Store.trustOf_upsert,
        if_pos rfl] at htrust
      cases htrust
    · exact fun known =>
        ⟨unaffected (likewise_nameless (.move run hok) known), ih.mpr known.2⟩

def calling : History Engine (Env × Engine.Call) × Engine :=
  Run.replay (engineStep reference) [] (newEngines .A)
    [(clock, asking), (clock, .setNickname (twoParties.key .B) [98])]

theorem naming_unaffecting_calling :
    Run.Throughout (Unaffected reference (newEngines .A)) calling.1 calling.2 := by
  have hknown : (engineStep reference (newEngines .A) (clock, asking)).trustOf (twoParties.key .B) =
      some .pending := by decide +kernel
  have hnamed : Known (engineStep reference (newEngines .A) (clock, asking), clock,
      .setNickname (twoParties.key .B) [98]) := by
    intro peer hpeer
    obtain rfl := Option.some.inj hpeer
    rw [hknown]
    nofun
  have hasked : Known (newEngines .A, clock, asking) := fun peer hpeer => nomatch hpeer
  have hmoves : calling.1 = [(engineStep reference (newEngines .A) (clock, asking), clock,
      .setNickname (twoParties.key .B) [98]), (newEngines .A, clock, asking)] := rfl
  have heach : Run.Each (fun _ m => Known m) calling.1 := by
    simp only [hmoves, Run.Each, hnamed, hasked, and_true]
  exact (naming_unaffecting (Run.replay_run .start (by decide +kernel))).1.mpr heach

def expecting : History Engine (Env × Engine.Call) × Engine :=
  Run.replay (engineStep reference) [] (newEngines .A)
    [(clock, .onContactRequest), (clock, .setNickname (twoParties.key .B) [98]), (clock, asking)]

theorem named_peer_ignored :
    Run (engineStep reference) (fun _ _ _ => True) (newEngines .A) expecting.1 expecting.2 ∧
    ¬ Unaffected reference (newEngines .A) expecting.1 expecting.2 ∧
    expecting.2.requestHandler.calls = [] ∧
    (nameless reference (newEngines .A) expecting.1).requestHandler.calls =
      [(twoParties.key .B, [66])] := by
  have hcalls : expecting.2.requestHandler.calls = [] ∧
      (nameless reference (newEngines .A) expecting.1).requestHandler.calls =
        [(twoParties.key .B, [66])] := by decide +kernel
  refine ⟨Run.replay_run .start (by decide +kernel), fun h => ?_, hcalls.1, hcalls.2⟩
  have hsurfaced := h.surfaced
  rw [hcalls.1, hcalls.2] at hsurfaced
  cases hsurfaced

end OpenMesh.Messaging.Nicknames
