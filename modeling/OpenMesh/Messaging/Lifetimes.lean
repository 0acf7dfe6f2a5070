import OpenMesh.Messaging.Deeds
import OpenMesh.Messaging.Restart

namespace OpenMesh.Messaging.Lifetimes

open OpenMesh.Core.Buffers OpenMesh.Core.Hex OpenMesh.Crypto.Primitives
open OpenMesh.Crypto.Reference OpenMesh.Library.Runs
open OpenMesh.Protocol.Envelope OpenMesh.Net.Transport OpenMesh.Storage
open OpenMesh.Storage.Database OpenMesh.Storage.Lookup
open OpenMesh.Messaging.Operations OpenMesh.Messaging.Deeds
open OpenMesh.Messaging.Pairs OpenMesh.Messaging.Routes OpenMesh.Messaging.Handshake

/-- The process stops with so many changes of the call in the database, and a new engine with
the same identity opens a store. -/
structure Stop where
  saved : Nat
  io : OpenIO
  path : Bytes
  passphrase : Bytes

/-- A call that is made, and whether the process stops before it is over. A restart between two
calls is a stop with nothing saved. -/
structure Turn where
  env : Env
  call : Engine.Call
  stop : Option Stop := none

variable (C : Sodium) (e : Engine) (t : Turn)

def changes : List Durability.Call := (deed C t.env e t.call).edits t.env e.contacts

def edits : List Durability.Call :=
  match t.stop with
  | none => changes C e t
  | some s => (changes C e t).take s.saved

def Complete : Prop := ∀ s ∈ t.stop, (changes C e t).length ≤ s.saved

instance : Decidable (Complete C e t) := by
  unfold Complete
  infer_instance

def left : Store := (edits C e t).foldl Durability.Call.run e.contacts

def reopened (s : Stop) : Engine × Bool :=
  (Engine.new e.localPublic e.localSecret).openStore C s.io s.path s.passphrase

def turn : Engine :=
  match t.stop with
  | none => (e.call C t.env t.call).1
  | some s => (reopened C e s).1

/-- The new engine succeeds in opening the store, and finds in it what was left there. -/
structure Reopens (s : Stop) : Prop where
  opens : (reopened C e s).2 = true
  contacts : (reopened C e s).1.contacts.contacts = (left C e t).contacts
  requests : (reopened C e s).1.contacts.requests = (left C e t).requests

/-- Nothing else opens a store, and a new engine gets the same store again. -/
structure Lawful : Prop where
  stays : t.call.reopens = false
  reopens : ∀ s ∈ t.stop, Reopens C e t s

instance (s : Stop) : Decidable (Reopens C e t s) :=
  decidable_of_iff (_ ∧ _ ∧ _)
    ⟨fun h => ⟨h.1, h.2.1, h.2.2⟩, fun h => ⟨h.opens, h.contacts, h.requests⟩⟩

instance : Decidable (Lawful C e t) :=
  decidable_of_iff (_ ∧ _) ⟨fun h => ⟨h.1, h.2⟩, fun h => ⟨h.stays, h.reopens⟩⟩

variable {C e t} {e₀ : Engine} {h : History Engine Turn} {peer : Bytes}

section Disk

variable {path passphrase : Bytes} {m₀ m : Durability.Medium}
variable {saves : History Durability.Medium (Durability.Call × Nonce)}

theorem durable_saves (hopen : Durability.Open C path passphrase m₀)
    (durable : Durability.Durable C path passphrase m₀)
    (run : Run (Durability.step C) (fun _ m i => Durability.Counted (Durability.step C m i).store ∧
      Durability.Fitting m.store i.1) m₀ saves m) :
    Durability.Open C path passphrase m ∧ Durability.Durable C path passphrase m := by
  refine run.invariant (fun _ m => Durability.Open C path passphrase m ∧
    Durability.Durable C path passphrase m) ⟨hopen, durable⟩ ?_
  rintro _ m i - ⟨hopen, durable⟩ ⟨hcount, hfitting⟩
  obtain ⟨hopen', hdurable⟩ := Durability.open_step hopen i hcount
  exact ⟨hopen', (hdurable durable).mpr hfitting⟩

theorem store_saves {ok} (run : Run (Durability.step C) ok m₀ saves m) :
    m.store = (saves.map (·.2.1)).reverse.foldl Durability.Call.run m₀.store := by
  induction run with
  | start => rfl
  | move _ _ ih =>
    rw [List.map_cons, List.reverse_cons, List.foldl_append, ← ih]
    rfl

theorem openStore_store (C : Sodium) (io : OpenIO) (e : Engine) (path passphrase : Bytes) :
    (e.openStore C io path passphrase).2 = (e.contacts.openAt C io path passphrase).2 ∧
      (e.openStore C io path passphrase).1.contacts =
        (e.contacts.openAt C io path passphrase).1 := by
  unfold Engine.openStore
  obtain ⟨contacts, ok, hopen⟩ : ∃ contacts ok,
      e.contacts.openAt C io path passphrase = (contacts, ok) := ⟨_, _, rfl⟩
  rw [hopen]
  cases ok <;> exact ⟨rfl, rfl⟩

/-- Where all that is saved fits the format, the new engine that is pointed to the file does
get the same store again. -/
theorem reopens_fitting {s : Stop} (hstore : m₀.store = e.contacts)
    (hopen : Durability.Open C s.path s.passphrase m₀)
    (durable : Durability.Durable C s.path s.passphrase m₀)
    (run : Run (Durability.step C) (fun _ m i => Durability.Counted (Durability.step C m i).store ∧
      Durability.Fitting m.store i.1) m₀ saves m)
    (hsaves : (saves.map (·.2.1)).reverse = edits C e t)
    (hio : s.io = ⟨(m.disk s.path).isSome, m.disk s.path, s.io.salt, true⟩) :
    Reopens C e t s := by
  have hleft : m.store = left C e t := by
    rw [store_saves run, hsaves, hstore]
    rfl
  let io : OpenIO := ⟨(m.disk s.path).isSome, m.disk s.path, s.io.salt, true⟩
  have hdurable : (({} : Store).openAt C io s.path s.passphrase).2 = true ∧
      (({} : Store).openAt C io s.path s.passphrase).1.contacts = m.store.contacts ∧
      (({} : Store).openAt C io s.path s.passphrase).1.messages = m.store.messages ∧
      (({} : Store).openAt C io s.path s.passphrase).1.requests = m.store.requests :=
    (durable_saves hopen durable run).2 {} s.io.salt
      ⟨List.replicate kAeadNonceBytes 0, List.length_replicate⟩
  obtain ⟨hok, hcontacts, -, hrequests⟩ := hdurable
  obtain ⟨hopens, hsame⟩ := openStore_store C s.io (Engine.new e.localPublic e.localSecret) s.path
    s.passphrase
  rw [hio] at hopens hsame
  refine ⟨?_, ?_, ?_⟩
  · rw [reopened, hio, hopens]
    exact hok
  · rw [reopened, hio, hsame, ← hleft]
    exact hcontacts
  · rw [reopened, hio, hsame, ← hleft]
    exact hrequests

end Disk

theorem edits_of_complete (hc : Complete C e t) : edits C e t = changes C e t := by
  unfold edits
  cases hs : t.stop with
  | none => rfl
  | some s => exact List.take_of_length_le (hc s hs)

theorem mem_edits {c : Durability.Call} (hc : c ∈ edits C e t) : c ∈ changes C e t := by
  unfold edits at hc
  cases hs : t.stop with
  | none => rwa [hs] at hc
  | some s =>
    rw [hs] at hc
    exact List.mem_of_mem_take hc

/-- What the next engine has in its database is what the turn has left. -/
theorem turn_store (lawful : Lawful C e t) :
    (turn C e t).contacts.contacts = (left C e t).contacts ∧
      (turn C e t).contacts.requests = (left C e t).requests := by
  unfold turn
  cases hs : t.stop with
  | none =>
    have hshows := (shows_call (C := C) t.env e t.call lawful.stays).contacts
    have hleft : left C e t = (e.call C t.env t.call).1.contacts := by
      rw [left, edits, hs, hshows]
      rfl
    rw [hleft]
    exact ⟨rfl, rfl⟩
  | some s => exact ⟨(lawful.reopens s hs).contacts, (lawful.reopens s hs).requests⟩

theorem turn_trustOf (lawful : Lawful C e t) (peer : Bytes) :
    (turn C e t).trustOf peer = (left C e t).trustOf peer := by
  rw [Engine.trustOf, Store.trustOf, Store.trustOf, (turn_store lawful).1]

theorem left_keeps {P : Store → Prop} (hP : ∀ s, P s → ∀ c ∈ changes C e t, P (c.run s))
    (hstart : P e.contacts) : P (left C e t) :=
  List.foldlRecOn (edits C e t) Durability.Call.run hstart
    fun s hs c hc => hP s hs c (mem_edits hc)

theorem run_known (s : Store) (c : Durability.Call) (hs : s.trustOf peer ≠ none) :
    (c.run s).trustOf peer ≠ none := by
  cases c with
  | upsert contact =>
    rw [Durability.Call.run, Store.trustOf_upsert]
    split
    · exact Option.some_ne_none _
    · exact hs
  | addContact contact =>
    simp only [Durability.Call.run, Store.addContact, Store.trustOf, Store.save_contacts,
      List.find?_append, ne_eq, Option.map_eq_none_iff, Option.or_eq_none_iff] at hs ⊢
    exact fun hnone => hs hnone.1
  | appendMessage message => rwa [Durability.Call.run, Store.appendMessage_trustOf]
  | addRequest request => rwa [Durability.Call.run, Store.addRequest_trustOf]
  | removeRequest peer => rwa [Durability.Call.run, Store.removeRequest_trustOf]

theorem run_single (s : Store) (c : Durability.Call) (hs : (Store.requestsOf s peer).length ≤ 1) :
    (Store.requestsOf (c.run s) peer).length ≤ 1 := by
  cases c with
  | upsert contact => rwa [Store.requestsOf, Durability.Call.run, Store.upsert_requests]
  | addContact contact => rwa [Store.requestsOf, Durability.Call.run, Store.addContact, Store.save_requests]
  | appendMessage message => rwa [Store.requestsOf, Durability.Call.run, Store.appendMessage_requests]
  | addRequest request =>
    rw [Durability.Call.run]
    by_cases hp : request.peer = peer
    · unfold Store.addRequest
      split
      · exact hs
      · next hany =>
        have hnone : s.requests.filter (·.peer = peer) = [] := by
          apply List.filter_eq_nil_iff.mpr
          intro q hq hqp
          apply hany
          rw [List.any_eq_true]
          exact ⟨q, hq, by simpa [hp] using hqp⟩
        simp [Store.requestsOf, hnone, hp]
    · rwa [Store.addRequest_requestsOf s request hp]
  | removeRequest r =>
    have hrequests : (s.removeRequest r).requests = s.requests.filter (·.peer ≠ r) := by
      simp only [Store.removeRequest]
      split <;> simp
    rw [Durability.Call.run, Store.requestsOf, hrequests, List.filter_comm]
    exact (List.length_filter_le _ _).trans hs

theorem known_turn (lawful : Lawful C e t) (hknown : e.trustOf peer ≠ none) :
    (turn C e t).trustOf peer ≠ none := by
  rw [turn_trustOf lawful]
  exact left_keeps (P := fun s => s.trustOf peer ≠ none) (fun s hs c _ => run_known s c hs) hknown

/-- A request is only made of a packet of a peer of whom nothing is known. -/
theorem deed_requested {env : Env} {c : Engine.Call} {greeting : Bytes}
    (hd : deed C env e c = .requested peer greeting) :
    e.trustOf peer = none ∧ toHex peer ∉ e.incomingRequests := by
  cases c with
  | poll datagram =>
    simp only [deed] at hd
    cases ha : e.accepts C datagram with
    | none =>
      rw [ha] at hd
      cases hd
    | some p =>
      obtain ⟨packet, text, s⟩ := p
      rw [ha] at hd
      dsimp only at hd
      unfold deedOf at hd
      split at hd
      · cases hd
      · split_ifs at hd with hknown
        cases hd
        simpa only [not_or, Bool.not_eq_true, Option.isSome_eq_false_iff, Option.isNone_iff_eq_none]
          using hknown
      · split_ifs at hd
      · cases hd
  | addPeer r endpoint =>
    simp only [deed] at hd
    split_ifs at hd
  | sendContactRequest r endpoint text =>
    simp only [deed] at hd
    split_ifs at hd
  | acceptContact r =>
    simp only [deed, answer] at hd
    split_ifs at hd
  | rejectContact r =>
    simp only [deed, answer] at hd
    split_ifs at hd
  | send r text =>
    simp only [deed] at hd
    split_ifs at hd
  | _ => cases hd

theorem left_requested (hc : Complete C e t) {greeting : Bytes}
    (hd : deed C t.env e t.call = .requested peer greeting) :
    (left C e t).trustOf peer = some .pending := by
  rw [left, edits_of_complete hc, changes, hd, Deed.edits]
  split_ifs <;> simp [Durability.Call.run, Store.trustOf_upsert, trusted]

theorem single_turn (lawful : Lawful C e t) (hs : (Store.requestsOf e.contacts peer).length ≤ 1) :
    (Store.requestsOf (turn C e t).contacts peer).length ≤ 1 := by
  rw [Store.requestsOf, (turn_store lawful).2]
  exact left_keeps (P := fun s => (Store.requestsOf s peer).length ≤ 1)
    (fun s hs c _ => run_single s c hs) hs

def stopping (e : Engine) (c : Engine.Call) (saved : Nat) : Turn :=
  let s := left reference e ⟨clock, c, some ⟨saved, Restart.freshDisk, [], []⟩⟩
  ⟨clock, c, some ⟨saved, { Restart.freshDisk with
    pathExists := true, content := Restart.onDisk reference clock.nonce s }, s.path, [113]⟩⟩

def asking : Engine.Call := .poll (some (box .B 0 .contactRequest [66]))

def once : History Engine Turn × Engine :=
  Run.replay (turn reference) [] Restart.opened [⟨clock, .onContactRequest, none⟩, ⟨clock, asking, none⟩]

def again : History Engine Turn × Engine :=
  Run.replay (turn reference) once.1 once.2
    [stopping once.2 .tick 0, ⟨clock, .onContactRequest, none⟩, ⟨clock, asking, none⟩]

end OpenMesh.Messaging.Lifetimes
