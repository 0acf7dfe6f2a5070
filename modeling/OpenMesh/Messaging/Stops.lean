import OpenMesh.Messaging.Lifetimes

namespace OpenMesh.Messaging.Stops

open OpenMesh.Core.Buffers OpenMesh.Core.Hex OpenMesh.Crypto.Primitives
open OpenMesh.Crypto.Reference OpenMesh.Library.Runs OpenMesh.Storage
open OpenMesh.Storage.Database OpenMesh.Storage.Lookup
open OpenMesh.Messaging.Operations OpenMesh.Messaging.Sides OpenMesh.Messaging.Deeds
open OpenMesh.Messaging.Lifetimes OpenMesh.Messaging.Pairs OpenMesh.Messaging.Handshake

variable (C : Sodium) (e₀ : Engine) (peer : Bytes)

/-- The user's answer about the peer, once it is in the database. -/
def decides (m : Engine × Turn) : Option Bool :=
  if Complete C m.1 m.2 then
    match deed C m.2.env m.1 m.2.call with
    | .added r => if r = peer then some true else none
    | .answered r accept => if r = peer then some accept else none
    | _ => none
  else none

def chosen : History Engine Turn → Option Bool
  | [] => none
  | m :: h => (decides C peer m).or (chosen h)

/-- A request of the peer has made it a pending contact in the database. -/
def TakesIn (m : Engine × Turn) : Prop :=
  (∃ greeting, deed C m.2.env m.1 m.2.call = .requested peer greeting) ∧ edits C m.1 m.2 ≠ []

def Recorded (h : History Engine Turn) : Prop :=
  Store.Listed e₀.contacts peer ∨ ∃ m ∈ h, TakesIn C peer m

def Decided (h : History Engine Turn) (e : Engine) : Prop :=
  ∃ accept, chosen C peer h = some accept ∧ e.trustOf peer = some (verdict accept)

/-- Whoever has asked is still among the pending requests, or has been answered. -/
def Answerable (h : History Engine Turn) (e : Engine) : Prop :=
  ∀ peer, Recorded C e₀ peer h → (∃ q ∈ e.pendingRequests, q.peer = peer) ∨ Decided C peer h e

/-- The process does not stop between the changes that belong together, and no request or
response overrules what the user has chosen. -/
def Spared (h : History Engine Turn) (m : Engine × Turn) : Prop :=
  edits C m.1 m.2 = [] ∨
    match deed C m.2.env m.1 m.2.call with
    | .requested _ _ => Complete C m.1 m.2
    | .answered peer _ => Complete C m.1 m.2 ∨ Decided C peer h m.1
    | .asked peer => Recorded C e₀ peer h → Store.Listed m.1.contacts peer
    | .settled peer accepted =>
      Recorded C e₀ peer h → Store.Listed m.1.contacts peer ∨ chosen C peer h = some accepted
    | _ => True

def about : Deed → Option Bytes
  | .aside | .noted _ => none
  | .named peer _ | .added peer | .asked peer | .answered peer _ | .requested peer _
  | .settled peer _ => some peer

/-- What becomes of the trust in a peer, and of its request. -/
inductive Fate (e : Engine) (t : Turn) : Prop
  | untouched (hdeed : edits C e t = [] ∨ about (deed C t.env e t.call) ≠ some peer)
      (htrust : (left C e t).trustOf peer = e.trustOf peer)
      (hlisted : Store.Listed (left C e t) peer ↔ Store.Listed e.contacts peer)
  | named (name : Bytes) (hdeed : deed C t.env e t.call = .named peer name) (hne : edits C e t ≠ [])
      (htrust : e.trustOf peer ≠ none → (left C e t).trustOf peer = e.trustOf peer)
      (hlisted : Store.Listed (left C e t) peer ↔ Store.Listed e.contacts peer)
  | added (hdeed : deed C t.env e t.call = .added peer) (hne : edits C e t ≠ [])
      (hc : Complete C e t) (htrust : (left C e t).trustOf peer = some .accepted)
      (hlisted : Store.Listed (left C e t) peer ↔ Store.Listed e.contacts peer)
  | asked (hdeed : deed C t.env e t.call = .asked peer) (hne : edits C e t ≠ [])
      (htrust : (left C e t).trustOf peer = some .pending)
      (hlisted : Store.Listed (left C e t) peer ↔ Store.Listed e.contacts peer)
  | settled (accepted : Bool) (hdeed : deed C t.env e t.call = .settled peer accepted)
      (hne : edits C e t ≠ []) (htrust : (left C e t).trustOf peer = some (verdict accepted))
      (hlisted : Store.Listed (left C e t) peer ↔ Store.Listed e.contacts peer)
  | removed (accept : Bool) (hdeed : deed C t.env e t.call = .answered peer accept)
      (hne : edits C e t ≠ []) (hc : ¬ Complete C e t)
      (htrust : (left C e t).trustOf peer = e.trustOf peer)
      (hlisted : ¬ Store.Listed (left C e t) peer)
  | answered (accept : Bool) (hdeed : deed C t.env e t.call = .answered peer accept)
      (hne : edits C e t ≠ []) (hc : Complete C e t)
      (htrust : (left C e t).trustOf peer = some (verdict accept))
      (hlisted : ¬ Store.Listed (left C e t) peer)
  | torn (greeting : Bytes) (hdeed : deed C t.env e t.call = .requested peer greeting)
      (hne : edits C e t ≠ []) (hc : ¬ Complete C e t)
      (hlisted : Store.Listed (left C e t) peer ↔ Store.Listed e.contacts peer)
      (htrust : (left C e t).trustOf peer = some .pending)
  | taken (greeting : Bytes) (hdeed : deed C t.env e t.call = .requested peer greeting)
      (hne : edits C e t ≠ []) (hc : Complete C e t)
      (htrust : (left C e t).trustOf peer = some .pending)
      (hlisted : Store.Listed (left C e t) peer)

variable {C e₀ peer} {e : Engine} {t : Turn} {h : History Engine Turn}

theorem edits_cut (e : Engine) (t : Turn) : ∃ k, edits C e t = (changes C e t).take k ∧
    (Complete C e t ↔ (changes C e t).length ≤ k) := by
  cases hs : t.stop with
  | none =>
    refine ⟨(changes C e t).length, ?_, iff_of_true ?_ (Nat.le_refl _)⟩
    · rw [edits, hs, List.take_length]
    · intro s hmem
      rw [hs] at hmem
      cases hmem
  | some s =>
    refine ⟨s.saved, by rw [edits, hs], fun hc => hc s hs, fun hlen s' hs' => ?_⟩
    rw [hs] at hs'
    cases hs'
    exact hlen

theorem edits_single {c : Durability.Call} (hchanges : changes C e t = [c])
    (hne : edits C e t ≠ []) : Complete C e t ∧ left C e t = c.run e.contacts := by
  obtain ⟨k, hedits, hc⟩ := edits_cut (C := C) e t
  rw [hchanges] at hedits hc
  cases k with
  | zero => exact absurd hedits hne
  | succ k =>
    have hcomplete : Complete C e t := hc.mpr (Nat.succ_le_succ (Nat.zero_le k))
    refine ⟨hcomplete, ?_⟩
    rw [left, edits_of_complete hcomplete, hchanges]
    rfl

theorem trustOf_trusted (s s' : Store) (peer : Bytes) (trust : TrustStatus) :
    (s.upsert (trusted s' peer trust)).trustOf peer = some trust := by
  rw [Store.trustOf_upsert]
  exact if_pos rfl

theorem listed_upsert (s : Store) (contact : Contact) (peer : Bytes) :
    Store.Listed (s.upsert contact) peer ↔ Store.Listed s peer := by
  rw [Store.Listed, Store.upsert_requests, Store.Listed]

theorem left_trusted {trust : TrustStatus}
    (hchanges : changes C e t = [.upsert (trusted e.contacts peer trust)])
    (hne : edits C e t ≠ []) : Complete C e t ∧ (left C e t).trustOf peer = some trust ∧
      (Store.Listed (left C e t) peer ↔ Store.Listed e.contacts peer) := by
  obtain ⟨hc, hleft⟩ := edits_single hchanges hne
  rw [hleft]
  exact ⟨hc, trustOf_trusted _ _ _ _, listed_upsert _ _ _⟩

def Spares (peer : Bytes) : Durability.Call → Prop
  | .upsert contact | .addContact contact => contact.publicKey ≠ peer
  | .appendMessage _ => True
  | .addRequest request => request.peer ≠ peer
  | .removeRequest r => r ≠ peer

theorem run_spares {c : Durability.Call} (hc : Spares peer c) (s : Store) :
    (c.run s).trustOf peer = s.trustOf peer ∧
      (Store.Listed (c.run s) peer ↔ Store.Listed s peer) := by
  cases c with
  | upsert contact =>
    rw [Durability.Call.run, Store.trustOf_upsert, if_neg hc, Store.Listed, Store.upsert_requests]
    exact ⟨rfl, Iff.rfl⟩
  | addContact contact =>
    simp only [Durability.Call.run, Store.addContact, Store.trustOf, Store.save_contacts,
      Store.Listed, Store.save_requests, and_true]
    rw [List.find?_append, List.find?_cons_of_neg (by simpa [Spares] using hc), List.find?_nil, Option.or_none]
  | appendMessage message =>
    rw [Durability.Call.run, Store.appendMessage_trustOf, Store.Listed, Store.appendMessage_requests]
    exact ⟨rfl, Iff.rfl⟩
  | addRequest request =>
    rw [Durability.Call.run, Store.addRequest_trustOf, Store.listed_addRequest]
    exact ⟨rfl, or_iff_right hc⟩
  | removeRequest r =>
    rw [Durability.Call.run, Store.removeRequest_trustOf, Store.listed_removeRequest]
    exact ⟨rfl, and_iff_right (Ne.symm hc)⟩

theorem changes_spare (habout : about (deed C t.env e t.call) ≠ some peer) :
    ∀ c ∈ changes C e t, Spares peer c := by
  intro c hc
  unfold changes at hc
  cases hd : deed C t.env e t.call with
  | aside =>
    rw [hd] at hc
    cases hc
  | noted message =>
    rw [hd] at hc
    rw [List.mem_singleton.mp hc]
    trivial
  | requested r greeting =>
    rw [hd] at hc habout
    have hr : r ≠ peer := fun hr => habout (congrArg some hr)
    simp only [Deed.edits, List.mem_cons, List.mem_append, List.not_mem_nil, or_false] at hc
    obtain rfl | hc | rfl := hc
    · exact hr
    · split_ifs at hc
      · rw [List.mem_singleton.mp hc]
        exact hr
      · cases hc
    · exact hr
  | answered r accept =>
    rw [hd] at hc habout
    have hr : r ≠ peer := fun hr => habout (congrArg some hr)
    simp only [Deed.edits, List.mem_cons, List.not_mem_nil, or_false] at hc
    obtain rfl | rfl := hc <;> exact hr
  | named r _ | added r | asked r | settled r _ =>
    rw [hd] at hc habout
    rw [List.mem_singleton.mp hc]
    exact fun hr => habout (congrArg some hr)

theorem fate_answered {accept : Bool} (hd : deed C t.env e t.call = .answered peer accept)
    (hne : edits C e t ≠ []) : Fate C peer e t := by
  obtain ⟨k, hedits, hc⟩ := edits_cut (C := C) e t
  rw [changes, hd, Deed.edits] at hedits hc
  obtain _ | _ | k := k
  · exact absurd hedits hne
  · have hleft : left C e t = e.contacts.removeRequest peer := by
      rw [left, hedits]
      rfl
    refine .removed accept hd hne (fun h => absurd (hc.mp h) (by simp)) ?_ ?_
    · rw [hleft, Store.removeRequest_trustOf, Engine.trustOf]
    · rw [hleft, Store.listed_removeRequest]
      exact fun h => h.1 rfl
  · have hleft : left C e t = (e.contacts.removeRequest peer).upsert
        (trusted e.contacts peer (verdict accept)) := by
      rw [left, hedits, List.take_of_length_le (by simp)]
      rfl
    refine .answered accept hd hne (hc.mpr (by simp)) ?_ ?_
    · rw [hleft, trustOf_trusted]
    · rw [hleft, listed_upsert, Store.listed_removeRequest]
      exact fun h => h.1 rfl

theorem fate_requested {greeting : Bytes} (hd : deed C t.env e t.call = .requested peer greeting)
    (hne : edits C e t ≠ []) : Fate C peer e t := by
  obtain ⟨nick, hchanges, hnick⟩ : ∃ nick : List Durability.Call, changes C e t =
      .upsert (trusted e.contacts peer .pending) ::
        (nick ++ [.addRequest ⟨peer, greeting, t.env.nowSeconds⟩]) ∧
      ∀ c ∈ nick, c = .upsert { trusted e.contacts peer .pending with nickname := greeting } := by
    rw [changes, hd, Deed.edits]
    refine ⟨_, rfl, fun c hc => ?_⟩
    split_ifs at hc
    · exact List.mem_singleton.mp hc
    · cases hc
  have hkeeps : ∀ cs : List Durability.Call, (∀ c ∈ cs, c ∈ nick) →
      (cs.foldl Durability.Call.run (e.contacts.upsert (trusted e.contacts peer .pending))).trustOf
        peer = some .pending ∧
      (Store.Listed (cs.foldl Durability.Call.run
        (e.contacts.upsert (trusted e.contacts peer .pending))) peer ↔
        Store.Listed e.contacts peer) := by
    intro cs hcs
    refine List.foldlRecOn (motive := fun s => s.trustOf peer = some .pending ∧
      (Store.Listed s peer ↔ Store.Listed e.contacts peer)) cs Durability.Call.run
      ⟨trustOf_trusted _ _ _ _, listed_upsert _ _ _⟩ fun s hs c hc => ?_
    rw [hnick c (hcs c hc), Durability.Call.run, Store.trustOf_upsert, listed_upsert]
    exact ⟨if_pos rfl, hs.2⟩
  obtain ⟨k, hedits, hc⟩ := edits_cut (C := C) e t
  rw [hchanges] at hedits hc
  obtain _ | k := k
  · exact absurd hedits hne
  rw [List.take_succ_cons] at hedits
  by_cases hlen : k ≤ nick.length
  · have hleft : left C e t = (nick.take k).foldl Durability.Call.run
        (e.contacts.upsert (trusted e.contacts peer .pending)) := by
      rw [left, hedits, List.take_append_of_le_length hlen]
      rfl
    obtain ⟨htrust, hlisted⟩ := hkeeps (nick.take k) fun c hc => List.mem_of_mem_take hc
    rw [← hleft] at htrust hlisted
    refine .torn greeting hd hne (fun h => ?_) hlisted htrust
    have hk := hc.mp h
    simp only [List.length_cons, List.length_append, List.length_nil] at hk
    omega
  · have hcomplete : Complete C e t := hc.mpr (by
      simp only [List.length_cons, List.length_append, List.length_nil]
      omega)
    refine .taken greeting hd hne hcomplete (left_requested hcomplete hd) ?_
    rw [left, edits_of_complete hcomplete, hchanges, List.foldl_cons, List.foldl_append,
      List.foldl_cons, List.foldl_nil]
    exact (Store.listed_addRequest _ _ _).mpr (Or.inl rfl)

theorem fate (e : Engine) (t : Turn) (peer : Bytes) : Fate C peer e t := by
  by_cases hne : edits C e t = []
  · have hleft : left C e t = e.contacts := by rw [left, hne, List.foldl_nil]
    exact .untouched (Or.inl hne) (by rw [hleft, Engine.trustOf]) (by rw [hleft])
  by_cases habout : about (deed C t.env e t.call) = some peer
  · cases hd : deed C t.env e t.call with
    | aside | noted _ =>
      rw [hd] at habout
      cases habout
    | named r name =>
      rw [hd] at habout
      cases habout
      obtain ⟨-, hleft⟩ := edits_single (by rw [changes, hd, Deed.edits]) hne
      refine .named name hd hne ?_ ?_
      · intro hknown
        rw [hleft, Durability.Call.run, Store.trustOf_upsert, if_pos rfl]
        rw [Engine.trustOf, Store.trustOf_eq_find] at hknown ⊢
        cases hf : e.contacts.find peer with
        | none => rw [hf] at hknown; exact absurd rfl hknown
        | some c => rfl
      · rw [hleft, Durability.Call.run, Store.Listed, Store.upsert_requests]
        exact Iff.rfl
    | added r =>
      rw [hd] at habout
      cases habout
      obtain ⟨hc, htrust, hlisted⟩ := left_trusted (by rw [changes, hd, Deed.edits]) hne
      exact .added hd hne hc htrust hlisted
    | asked r =>
      rw [hd] at habout
      cases habout
      obtain ⟨-, htrust, hlisted⟩ := left_trusted (by rw [changes, hd, Deed.edits]) hne
      exact .asked hd hne htrust hlisted
    | settled r accepted =>
      rw [hd] at habout
      cases habout
      obtain ⟨-, htrust, hlisted⟩ := left_trusted (by rw [changes, hd, Deed.edits]) hne
      exact .settled accepted hd hne htrust hlisted
    | answered r accept =>
      rw [hd] at habout
      cases habout
      exact fate_answered hd hne
    | requested r greeting =>
      rw [hd] at habout
      cases habout
      exact fate_requested hd hne
  · obtain ⟨htrust, hlisted⟩ := left_keeps (C := C) (e := e) (t := t)
      (P := fun s => s.trustOf peer = e.trustOf peer ∧
        (Store.Listed s peer ↔ Store.Listed e.contacts peer)) (fun s hs c hc => by
          obtain ⟨htrust, hlisted⟩ := run_spares (changes_spare habout c hc) s
          exact ⟨htrust.trans hs.1, hlisted.trans hs.2⟩) ⟨rfl, Iff.rfl⟩
    exact .untouched (Or.inr habout) htrust hlisted

theorem deed_answered {env : Env} {c : Engine.Call} {accept : Bool}
    (hd : deed C env e c = .answered peer accept) : toHex peer ∈ e.incomingRequests := by
  have hanswer : ∀ r b, answer C e r b = .answered peer accept → toHex peer ∈ e.incomingRequests := by
    intro r b h
    unfold answer at h
    split_ifs at h with hin
    cases h
    exact hin.1
  cases c with
  | acceptContact r => exact hanswer r true hd
  | rejectContact r => exact hanswer r false hd
  | poll datagram =>
    simp only [deed, deedOf] at hd
    split at hd
    · cases hd
    · split at hd
      · cases hd
      · split_ifs at hd
      · split_ifs at hd
      · cases hd
  | addPeer r endpoint =>
    simp only [deed] at hd
    split_ifs at hd
  | sendContactRequest r endpoint text =>
    simp only [deed] at hd
    split_ifs at hd
  | send r text =>
    simp only [deed] at hd
    split_ifs at hd
  | _ => cases hd

structure Tracked (C : Sodium) (e₀ : Engine) (h : History Engine Turn) (e : Engine) : Prop where
  synced : ∀ peer, toHex peer ∈ e.incomingRequests ↔ Store.Listed e.contacts peer
  recorded : ∀ peer, Store.Listed e.contacts peer → Recorded C e₀ peer h
  known : ∀ peer, chosen C peer h ≠ none → e.trustOf peer ≠ none

theorem turn_listed (lawful : Lawful C e t) (peer : Bytes) :
    Store.Listed (turn C e t).contacts peer ↔ Store.Listed (left C e t) peer := by
  rw [Store.Listed, Store.Listed, (turn_store lawful).2]

theorem synced_openStore (io : OpenIO) (localPublic localSecret path passphrase peer : Bytes) :
    toHex peer ∈ ((Engine.new localPublic localSecret).openStore C io path
        passphrase).1.incomingRequests ↔
      Store.Listed ((Engine.new localPublic localSecret).openStore C io path
        passphrase).1.contacts peer := by
  have hfail := Store.openAt_failed C io path passphrase
  unfold Engine.openStore
  obtain ⟨contacts, ok, hopen⟩ : ∃ contacts ok,
      ({} : Store).openAt C io path passphrase = (contacts, ok) := ⟨_, _, rfl⟩
  rw [show (Engine.new localPublic localSecret).contacts = {} from rfl, hopen]
  rw [hopen] at hfail
  cases ok with
  | true => simp [Engine.new, Store.Listed]
  | false =>
    have hnil : contacts.requests = [] := hfail rfl
    simp [Engine.new, Store.Listed, hnil]

theorem incoming_untouched {d : Deed} (habout : about d ≠ some peer) (keys : Finset Bytes) :
    toHex peer ∈ d.incoming keys ↔ toHex peer ∈ keys := by
  cases d with
  | answered r accept =>
    have hr : peer ≠ r := fun hr => habout (congrArg some hr.symm)
    simp [Deed.incoming, hr]
  | requested r greeting =>
    have hr : peer ≠ r := fun hr => habout (congrArg some hr.symm)
    simp [Deed.incoming, hr]
  | _ => exact Iff.rfl

theorem about_untouched (hc : Complete C e t)
    (hdeed : edits C e t = [] ∨ about (deed C t.env e t.call) ≠ some peer) :
    about (deed C t.env e t.call) ≠ some peer := by
  obtain hnone | habout := hdeed
  · rw [edits_of_complete hc, changes] at hnone
    cases hd : deed C t.env e t.call with
    | aside | noted _ => exact (Option.some_ne_none peer).symm
    | _ =>
      rw [hd] at hnone
      cases hnone
  · exact habout

theorem synced_turn (synced : ∀ peer, toHex peer ∈ e.incomingRequests ↔ Store.Listed e.contacts peer)
    (lawful : Lawful C e t) (peer : Bytes) :
    toHex peer ∈ (turn C e t).incomingRequests ↔ Store.Listed (turn C e t).contacts peer := by
  cases hs : t.stop with
  | some s =>
    have hturn : turn C e t = (reopened C e s).1 := by rw [turn, hs]
    rw [hturn]
    exact synced_openStore s.io _ _ s.path s.passphrase peer
  | none =>
    have hc : Complete C e t := fun s hmem => by
      rw [hs] at hmem
      cases hmem
    have hincoming : (turn C e t).incomingRequests =
        (deed C t.env e t.call).incoming e.incomingRequests := by
      rw [turn, hs]
      exact (shows_call t.env e t.call lawful.stays).incoming
    rw [hincoming, turn_listed lawful]
    cases fate (C := C) e t peer with
    | untouched hdeed htrust hlisted =>
      rw [hlisted, ← synced]
      exact incoming_untouched (about_untouched hc hdeed) e.incomingRequests
    | named name hdeed hne htrust hlisted
    | added hdeed hne hc htrust hlisted
    | asked hdeed hne htrust hlisted
    | settled accepted hdeed hne htrust hlisted =>
      rw [hlisted, ← synced, hdeed, Deed.incoming]
      all_goals nofun
    | removed accept hdeed hne hc' htrust hlisted => exact absurd hc hc'
    | answered accept hdeed hne hc htrust hlisted =>
      rw [hdeed, Deed.incoming]
      exact iff_of_false (by simp) hlisted
    | torn greeting hdeed hne hc' hlisted htrust => exact absurd hc hc'
    | taken greeting hdeed hne hc htrust hlisted =>
      rw [hdeed, Deed.incoming]
      exact iff_of_true (Finset.mem_insert_self _ _) hlisted

theorem Recorded.cons (hr : Recorded C e₀ peer h) (m : Engine × Turn) :
    Recorded C e₀ peer (m :: h) :=
  hr.imp_right fun ⟨m', hm', htakes⟩ => ⟨m', List.mem_cons_of_mem m hm', htakes⟩

theorem recorded_cons (m : Engine × Turn) :
    Recorded C e₀ peer (m :: h) ↔ Recorded C e₀ peer h ∨ TakesIn C peer m := by
  unfold Recorded
  rw [List.exists_mem_cons_iff, or_comm (a := TakesIn C peer m), or_assoc]

theorem decides_eq_some {accept : Bool} (hd : decides C peer (e, t) = some accept) :
    Complete C e t ∧ (deed C t.env e t.call = .added peer ∧ accept = true ∨
      deed C t.env e t.call = .answered peer accept) := by
  unfold decides at hd
  split_ifs at hd with hc
  refine ⟨hc, ?_⟩
  dsimp only at hd
  split at hd
  · next r hr =>
    split_ifs at hd with hp
    cases hd
    exact Or.inl ⟨hp ▸ hr, rfl⟩
  · next r b hr =>
    split_ifs at hd with hp
    cases hd
    exact Or.inr (hp ▸ hr)
  · cases hd

theorem left_decides {accept : Bool} (hd : decides C peer (e, t) = some accept) :
    (left C e t).trustOf peer = some (verdict accept) := by
  obtain ⟨hc, ⟨hadded, rfl⟩ | hanswered⟩ := decides_eq_some hd
  · rw [left, edits_of_complete hc, changes, hadded]
    exact trustOf_trusted _ _ _ _
  · rw [left, edits_of_complete hc, changes, hanswered]
    exact trustOf_trusted _ _ _ _

theorem tracked_turn (tracked : Tracked C e₀ h e) (lawful : Lawful C e t) :
    Tracked C e₀ ((e, t) :: h) (turn C e t) := by
  refine ⟨synced_turn tracked.synced lawful, fun peer hlisted' => ?_, fun peer hchosen => ?_⟩
  · rw [turn_listed lawful] at hlisted'
    cases fate (C := C) e t peer with
    | untouched hdeed htrust hlisted
    | named name hdeed hne htrust hlisted
    | added hdeed hne hc htrust hlisted
    | asked hdeed hne htrust hlisted
    | settled accepted hdeed hne htrust hlisted
    | torn greeting hdeed hne hc hlisted htrust =>
      exact (tracked.recorded peer (hlisted.mp hlisted')).cons _
    | removed accept hdeed hne hc htrust hlisted
    | answered accept hdeed hne hc htrust hlisted => exact absurd hlisted' hlisted
    | taken greeting hdeed hne hc htrust hlisted =>
      exact Or.inr ⟨(e, t), List.mem_cons_self, ⟨greeting, hdeed⟩, hne⟩
  · cases hd : decides C peer (e, t) with
    | some accept =>
      rw [turn_trustOf lawful, left_decides hd]
      nofun
    | none =>
      rw [chosen, hd, Option.none_or] at hchosen
      exact known_turn lawful (tracked.known peer hchosen)

theorem decided_cons (lawful : Lawful C e t) :
    Decided C peer ((e, t) :: h) (turn C e t) ↔ ∃ accept,
      (decides C peer (e, t)).or (chosen C peer h) = some accept ∧
        (left C e t).trustOf peer = some (verdict accept) := by
  rw [Decided, chosen, turn_trustOf lawful]

theorem verdict_ne_pending (accept : Bool) : some (verdict accept) ≠ some TrustStatus.pending := by
  cases accept <;> nofun

theorem verdict_inj {a b : Bool} (h : some (verdict a) = some (verdict b)) : a = b := by
  revert h
  cases a <;> cases b <;> decide

theorem decides_of_deed {d : Deed} (hd : deed C t.env e t.call = d)
    (hother : d ≠ .added peer ∧ ∀ accept, d ≠ .answered peer accept) :
    decides C peer (e, t) = none := by
  cases hdec : decides C peer (e, t) with
  | none => rfl
  | some accept =>
    obtain ⟨-, ⟨hadded, -⟩ | hanswered⟩ := decides_eq_some hdec
    · exact absurd (hd ▸ hadded) hother.1
    · exact absurd (hd ▸ hanswered) (hother.2 accept)

theorem not_takesIn {d : Deed} (peer : Bytes) (hd : deed C t.env e t.call = d)
    (hother : ∀ greeting, d ≠ .requested peer greeting) : ¬ TakesIn C peer (e, t) := by
  rintro ⟨⟨greeting, hrequested⟩, -⟩
  exact hother greeting (hd ▸ hrequested)

theorem resolvable_untouched (hdeed : edits C e t = [] ∨ about (deed C t.env e t.call) ≠ some peer)
    (htrust : (left C e t).trustOf peer = e.trustOf peer)
    (hlisted : Store.Listed (left C e t) peer ↔ Store.Listed e.contacts peer)
    (hold : Recorded C e₀ peer h → Store.Listed e.contacts peer ∨ Decided C peer h e)
    (hrecorded : Recorded C e₀ peer h ∨ TakesIn C peer (e, t)) :
    Store.Listed (left C e t) peer ∨ ∃ accept,
      (decides C peer (e, t)).or (chosen C peer h) = some accept ∧
        (left C e t).trustOf peer = some (verdict accept) := by
  have hdecides : decides C peer (e, t) = none := by
    cases hdec : decides C peer (e, t) with
    | none => rfl
    | some accept =>
      obtain ⟨hc, hd⟩ := decides_eq_some hdec
      have habout := about_untouched hc hdeed
      obtain ⟨hd, -⟩ | hd := hd
      · exact absurd (by rw [hd, about]) habout
      · exact absurd (by rw [hd, about]) habout
  have htakes : ¬ TakesIn C peer (e, t) := by
    rintro ⟨⟨greeting, hd⟩, hne⟩
    obtain hnone | habout := hdeed
    · exact hne hnone
    · exact habout (by rw [hd, about])
  rw [hdecides, Option.none_or, htrust, hlisted]
  exact hold (hrecorded.resolve_right htakes)

/-- A turn leaves a peer that has asked with somewhere to be answered, exactly if it does not
go wrong over this peer. -/
theorem resolvable_turn (tracked : Tracked C e₀ h e) (lawful : Lawful C e t)
    (hold : Recorded C e₀ peer h → Store.Listed e.contacts peer ∨ Decided C peer h e) :
    (Recorded C e₀ peer ((e, t) :: h) → Store.Listed (turn C e t).contacts peer ∨
      Decided C peer ((e, t) :: h) (turn C e t)) ↔
      (about (deed C t.env e t.call) = some peer → Spared C e₀ h (e, t)) := by
  rw [recorded_cons, turn_listed lawful, decided_cons lawful]
  cases fate (C := C) e t peer with
  | untouched hdeed htrust hlisted =>
    refine iff_of_true (resolvable_untouched hdeed htrust hlisted hold) fun habout => ?_
    exact Or.inl (hdeed.resolve_right fun hne => hne habout)
  | named name hdeed hne htrust hlisted =>
    have htakes := not_takesIn peer hdeed (by nofun)
    refine iff_of_true (fun hrecorded => ?_) fun _ => Or.inr (by rw [hdeed]; trivial)
    rw [decides_of_deed hdeed ⟨nofun, nofun⟩, Option.none_or, hlisted]
    obtain hl | ⟨accept, hchosen, ht⟩ := hold (hrecorded.resolve_right htakes)
    · exact Or.inl hl
    · exact Or.inr ⟨accept, hchosen, by rw [htrust (by rw [ht]; nofun), ht]⟩
  | added hdeed hne hc htrust hlisted =>
    refine iff_of_true (fun _ => Or.inr ⟨true, ?_, htrust⟩) fun _ => Or.inr (by rw [hdeed]; trivial)
    simp [decides, hc, hdeed]
  | asked hdeed hne htrust hlisted =>
    have htakes := not_takesIn peer hdeed (by nofun)
    have hspared : Spared C e₀ h (e, t) ↔
        (Recorded C e₀ peer h → Store.Listed e.contacts peer) := by
      rw [Spared, hdeed]
      exact or_iff_right hne
    rw [hspared, hdeed, about, hlisted, htrust, or_iff_left htakes]
    constructor
    · rintro hleft - hrecorded
      obtain hl | ⟨accept, -, hpending⟩ := hleft hrecorded
      · exact hl
      · exact absurd hpending.symm (verdict_ne_pending accept)
    · exact fun hright hrecorded => Or.inl (hright rfl hrecorded)
  | settled accepted hdeed hne htrust hlisted =>
    have htakes := not_takesIn peer hdeed (by nofun)
    have hspared : Spared C e₀ h (e, t) ↔ (Recorded C e₀ peer h →
        Store.Listed e.contacts peer ∨ chosen C peer h = some accepted) := by
      rw [Spared, hdeed]
      exact or_iff_right hne
    rw [hspared, decides_of_deed hdeed ⟨nofun, nofun⟩, Option.none_or, hdeed, about, hlisted, htrust,
      or_iff_left htakes]
    constructor
    · rintro hleft - hrecorded
      obtain hl | ⟨accept, hchosen, hverdict⟩ := hleft hrecorded
      · exact Or.inl hl
      · exact Or.inr (verdict_inj hverdict ▸ hchosen)
    · intro hright hrecorded
      exact (hright rfl hrecorded).imp_right fun hchosen => ⟨accepted, hchosen, rfl⟩
  | removed accept hdeed hne hc htrust hlisted =>
    have hlisted' := (tracked.synced peer).mp (deed_answered hdeed)
    have hspared : Spared C e₀ h (e, t) ↔ Decided C peer h e := by
      rw [Spared, hdeed]
      exact (or_iff_right hne).trans (or_iff_right hc)
    have hdecides : decides C peer (e, t) = none := by
      cases hdec : decides C peer (e, t) with
      | none => rfl
      | some _ => exact absurd (decides_eq_some hdec).1 hc
    rw [hspared, hdecides, Option.none_or, hdeed, about, htrust]
    constructor
    · rintro hleft -
      exact (hleft (Or.inl (tracked.recorded peer hlisted'))).resolve_left hlisted
    · exact fun hright _ => Or.inr (hright rfl)
  | answered accept hdeed hne hc htrust hlisted =>
    refine iff_of_true (fun _ => Or.inr ⟨accept, ?_, htrust⟩) fun _ => ?_
    · simp [decides, hc, hdeed]
    · exact Or.inr (by rw [hdeed]; exact Or.inl hc)
  | torn greeting hdeed hne hc hlisted htrust =>
    obtain ⟨hnone, hin⟩ := deed_requested hdeed
    refine iff_of_false (fun hleft => ?_) fun hright => ?_
    · obtain hl | ⟨accept, -, hpending⟩ := hleft (Or.inr ⟨⟨greeting, hdeed⟩, hne⟩)
      · exact hin ((tracked.synced peer).mpr (hlisted.mp hl))
      · rw [htrust] at hpending
        exact verdict_ne_pending accept hpending.symm
    · have hspared := hright (by rw [hdeed, about])
      rw [Spared, hdeed] at hspared
      exact hspared.elim hne hc
  | taken greeting hdeed hne hc htrust hlisted =>
    exact iff_of_true (fun _ => Or.inl hlisted) fun _ => Or.inr (by rw [hdeed]; exact hc)

theorem answerable_turn (tracked : Tracked C e₀ h e) (lawful : Lawful C e t)
    (answerable : Answerable C e₀ h e) :
    Answerable C e₀ ((e, t) :: h) (turn C e t) ↔ Spared C e₀ h (e, t) := by
  constructor
  · intro hall
    cases habout : about (deed C t.env e t.call) with
    | none =>
      right
      cases hd : deed C t.env e t.call with
      | aside | noted _ => trivial
      | _ =>
        rw [hd] at habout
        cases habout
    | some peer => exact (resolvable_turn tracked lawful (answerable peer)).mp (hall peer) habout
  · intro hspared peer
    exact (resolvable_turn tracked lawful (answerable peer)).mpr fun _ => hspared

/-- Wherever the process stops, whoever has asked can be answered, or has been answered as the
user has chosen, exactly if no stop and no overruling breaks that. -/
theorem answerable_iff {io : OpenIO} {localPublic localSecret path passphrase : Bytes}
    (hopen : (Engine.new localPublic localSecret).openStore C io path passphrase = (e₀, true))
    (run : Run (turn C) (fun _ e t => Lawful C e t) e₀ h e) :
    Run.Throughout (Answerable C e₀) h e ↔ Run.Each (Spared C e₀) h := by
  have hstart : Tracked C e₀ [] e₀ := by
    refine ⟨fun peer => ?_, fun peer => Or.inl, fun peer hne => absurd rfl hne⟩
    have hsynced := synced_openStore (C := C) io localPublic localSecret path passphrase peer
    rwa [hopen] at hsynced
  have htracked : ∀ {h e}, Run (turn C) (fun _ e t => Lawful C e t) e₀ h e → Tracked C e₀ h e :=
    fun run => run.invariant (fun h e => Tracked C e₀ h e) hstart
      fun _ _ _ _ tracked lawful => tracked_turn tracked lawful
  refine run.throughout_iff ?_ fun h e t run answerable lawful =>
    answerable_turn (htracked run) lawful answerable
  rintro peer (hlisted | ⟨m, hm, -⟩)
  · exact Or.inl hlisted
  · cases hm

theorem spared_requested {greeting : Bytes} (hd : deed C t.env e t.call = .requested peer greeting)
    (hc : Complete C e t) : Spared C e₀ h (e, t) := by
  right
  rw [hd]
  exact hc

def whole : History Engine Turn × Engine :=
  Run.replay (turn reference) [] Restart.opened
    [stopping Restart.opened asking 3, ⟨clock, .acceptContact (twoParties.key .B), none⟩]

theorem opened_eq : (Engine.new (newEngines .A).localPublic (newEngines .A).localSecret).openStore
    reference Restart.freshDisk [112] [113] = (Restart.opened, true) :=
  Prod.ext rfl (by decide +kernel)

theorem answerable_iff_whole :
    Run.Throughout (Answerable reference Restart.opened) whole.1 whole.2 := by
  have run : Run (turn reference) (fun _ e t => Lawful reference e t) Restart.opened whole.1
      whole.2 := Run.replay_run .start (by decide +kernel)
  refine (answerable_iff opened_eq run).mpr ⟨Or.inr ?_, ?_, trivial⟩
  · have hdeed : deed reference clock (turn reference Restart.opened
        (stopping Restart.opened asking 3)) (.acceptContact (twoParties.key .B)) =
        .answered (twoParties.key .B) true := by decide +kernel
    rw [hdeed]
    exact Or.inl (by decide +kernel)
  · have hdeed : deed reference clock Restart.opened asking =
        .requested (twoParties.key .B) [66] := by decide +kernel
    exact spared_requested (t := stopping Restart.opened asking 3) hdeed (by decide +kernel)

def torn : History Engine Turn × Engine :=
  Run.replay (turn reference) [] Restart.opened [stopping Restart.opened asking 1]

theorem request_lost :
    Run (turn reference) (fun _ e t => Lawful reference e t) Restart.opened torn.1 torn.2 ∧
    ¬ Answerable reference Restart.opened torn.1 torn.2 ∧
    torn.2.trustOf (twoParties.key .B) = some .pending ∧
    (torn.2.call reference clock asking).1.pendingRequests = [] := by
  refine ⟨Run.replay_run .start (by decide +kernel), fun answerable => ?_, by decide +kernel,
    by decide +kernel⟩
  have hdeed : deed reference clock Restart.opened asking =
      .requested (twoParties.key .B) [66] := by decide +kernel
  have hedits : (edits reference Restart.opened (stopping Restart.opened asking 1)).length = 1 := by
    decide +kernel
  have hrecorded : Recorded reference Restart.opened (twoParties.key .B) torn.1 := by
    refine Or.inr ⟨_, List.mem_cons_self, ⟨[66], hdeed⟩, fun hnil => ?_⟩
    rw [hnil] at hedits
    cases hedits
  have hnone : torn.2.pendingRequests = [] ∧
      chosen reference (twoParties.key .B) torn.1 = none := by decide +kernel
  obtain ⟨q, hq, -⟩ | ⟨accept, hchosen, -⟩ := answerable (twoParties.key .B) hrecorded
  · rw [hnone.1] at hq
    cases hq
  · rw [hnone.2] at hchosen
    cases hchosen

end OpenMesh.Messaging.Stops
