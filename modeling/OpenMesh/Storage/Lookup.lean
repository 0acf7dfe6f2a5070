import OpenMesh.Storage.Database

namespace OpenMesh.Storage.Lookup

open OpenMesh.Core.Buffers OpenMesh.Crypto.Primitives OpenMesh.Storage.Database

namespace Store

variable (s : Store)

@[simp] theorem save_contacts : s.save.contacts = s.contacts := by unfold Store.save; split <;> rfl
@[simp] theorem save_messages : s.save.messages = s.messages := by unfold Store.save; split <;> rfl
@[simp] theorem save_requests : s.save.requests = s.requests := by unfold Store.save; split <;> rfl

theorem find?_replaceFirst {contact : Contact} {cs cs' : List Contact}
    (h : Store.replaceFirst contact cs = some cs') (k : Bytes) :
    cs'.find? (·.publicKey = k) =
      if contact.publicKey = k then some contact else cs.find? (·.publicKey = k) := by
  induction cs generalizing cs' with
  | nil => cases h
  | cons c cs ih =>
    simp only [Store.replaceFirst] at h
    split at h
    · next hc =>
      cases h
      by_cases hk : contact.publicKey = k
      · simp [hk]
      · simp [hk, hc]
    · next hc =>
      obtain ⟨cs'', hcs, rfl⟩ := Option.map_eq_some_iff.mp h
      by_cases hck : c.publicKey = k
      · have hk : ¬ contact.publicKey = k := fun hk => hc (hck.trans hk.symm)
        simp [hck, hk]
      · simp [hck, ih hcs]

theorem find?_of_replaceFirst_none {contact : Contact} {cs : List Contact}
    (h : Store.replaceFirst contact cs = none) :
    cs.find? (·.publicKey = contact.publicKey) = none := by
  induction cs with
  | nil => rfl
  | cons c cs ih =>
    simp only [Store.replaceFirst] at h
    split at h
    · cases h
    · next hc => simp [hc, ih (Option.map_eq_none_iff.mp h)]

theorem replaceFirst_self {contact : Contact} {cs : List Contact}
    (h : cs.find? (·.publicKey = contact.publicKey) = some contact) :
    Store.replaceFirst contact cs = some cs := by
  induction cs with
  | nil => cases h
  | cons c cs ih =>
    by_cases hc : c.publicKey = contact.publicKey
    · rw [List.find?_cons_of_pos (by simpa using hc)] at h
      rw [Store.replaceFirst, if_pos hc, Option.some.inj h]
    · rw [List.find?_cons_of_neg (by simpa using hc)] at h
      rw [Store.replaceFirst, if_neg hc, ih h, Option.map_some]

/-- The last write to a key wins, and no other key is touched. -/
theorem find_upsert (contact : Contact) (k : Bytes) :
    (s.upsert contact).find k = if contact.publicKey = k then some contact else s.find k := by
  unfold Store.upsert Store.find
  cases h : Store.replaceFirst contact s.contacts with
  | some cs => simpa using find?_replaceFirst h k
  | none =>
    have hn := find?_of_replaceFirst_none h
    by_cases hk : contact.publicKey = k
    · subst hk
      simp [List.find?_append, hn]
    · simp [List.find?_append, hk]

theorem trustOf_eq_find (k : Bytes) : s.trustOf k = (s.find k).map (·.trust) := rfl

theorem trustOf_upsert (contact : Contact) (k : Bytes) :
    (s.upsert contact).trustOf k =
      if contact.publicKey = k then some contact.trust else s.trustOf k := by
  rw [trustOf_eq_find, find_upsert]
  split <;> rfl

@[simp] theorem upsert_messages (contact : Contact) : (s.upsert contact).messages = s.messages := by
  unfold Store.upsert
  split <;> simp

@[simp] theorem upsert_requests (contact : Contact) : (s.upsert contact).requests = s.requests := by
  unfold Store.upsert
  split <;> simp

@[simp] theorem appendMessage_trustOf (m : Message) (k : Bytes) :
    (s.appendMessage m).trustOf k = s.trustOf k := by
  simp [Store.appendMessage, Store.trustOf]

@[simp] theorem appendMessage_messages (m : Message) :
    (s.appendMessage m).messages = s.messages ++ [m] := by
  simp [Store.appendMessage]

@[simp] theorem appendMessage_requests (m : Message) :
    (s.appendMessage m).requests = s.requests := by
  simp [Store.appendMessage]

@[simp] theorem addRequest_trustOf (q : Request) (k : Bytes) :
    (s.addRequest q).trustOf k = s.trustOf k := by
  unfold Store.addRequest Store.trustOf
  split <;> simp

@[simp] theorem addRequest_messages (q : Request) : (s.addRequest q).messages = s.messages := by
  unfold Store.addRequest
  split <;> simp

theorem openAt_failed (C : Sodium) (io : OpenIO) (path passphrase : Bytes)
    (h : (({} : Store).openAt C io path passphrase).2 = false) :
    (({} : Store).openAt C io path passphrase).1.requests = [] := by
  unfold Store.openAt at h ⊢
  dsimp only at h ⊢
  repeat' split
  all_goals first | rfl | simp_all

def recordsOf (publicKey : Bytes) : List Contact := s.contacts.filter (·.publicKey = publicKey)

def requestsOf (peer : Bytes) : List Request := s.requests.filter (·.peer = peer)

theorem filter_replaceFirst {contact : Contact} {cs cs' : List Contact}
    (h : Store.replaceFirst contact cs = some cs') {k : Bytes} (hk : contact.publicKey ≠ k) :
    cs'.filter (·.publicKey = k) = cs.filter (·.publicKey = k) := by
  induction cs generalizing cs' with
  | nil => cases h
  | cons c cs ih =>
    simp only [Store.replaceFirst] at h
    split at h
    · next hc =>
      cases h
      have hck : c.publicKey ≠ k := hc ▸ hk
      simp [hk, hck]
    · obtain ⟨cs'', hcs, rfl⟩ := Option.map_eq_some_iff.mp h
      rw [List.filter_cons, List.filter_cons, ih hcs]

theorem upsert_recordsOf (contact : Contact) {k : Bytes} (hk : contact.publicKey ≠ k) :
    recordsOf (s.upsert contact) k = recordsOf s k := by
  unfold Store.upsert recordsOf
  cases h : Store.replaceFirst contact s.contacts with
  | some cs => simpa using filter_replaceFirst h hk
  | none => simp [hk]

theorem addRequest_requestsOf (q : Request) {k : Bytes} (hk : q.peer ≠ k) :
    requestsOf (s.addRequest q) k = requestsOf s k := by
  unfold Store.addRequest requestsOf
  split
  · rfl
  · simp [hk]

@[simp] theorem addRequest_contacts (q : Request) : (s.addRequest q).contacts = s.contacts := by
  unfold Store.addRequest
  split <;> simp

@[simp] theorem appendMessage_contacts (m : Message) :
    (s.appendMessage m).contacts = s.contacts := by
  simp [Store.appendMessage]

def Listed (peer : Bytes) : Prop := ∃ q ∈ s.requests, q.peer = peer

theorem listed_addRequest (q : Request) (peer : Bytes) :
    Listed (s.addRequest q) peer ↔ q.peer = peer ∨ Listed s peer := by
  unfold Store.addRequest Listed
  split
  · next h =>
    constructor
    · exact Or.inr
    · rintro (rfl | h')
      · simpa using h
      · exact h'
  · simp [or_and_right, exists_or, or_comm]

@[simp] theorem removeRequest_trustOf (peer k : Bytes) :
    (s.removeRequest peer).trustOf k = s.trustOf k := by
  simp only [Store.removeRequest]
  split <;> simp [Store.trustOf]

@[simp] theorem removeRequest_find (peer k : Bytes) :
    (s.removeRequest peer).find k = s.find k := by
  simp only [Store.removeRequest]
  split <;> simp [Store.find]

@[simp] theorem removeRequest_messages (peer : Bytes) :
    (s.removeRequest peer).messages = s.messages := by
  simp only [Store.removeRequest]
  split <;> simp

theorem listed_removeRequest (peer k : Bytes) :
    Listed (s.removeRequest peer) k ↔ k ≠ peer ∧ Listed s k := by
  have h : (s.removeRequest peer).requests = s.requests.filter (·.peer ≠ peer) := by
    simp only [Store.removeRequest]
    split <;> simp
  unfold Listed
  rw [h]
  constructor
  · rintro ⟨q, hq, rfl⟩
    simp only [List.mem_filter, decide_eq_true_eq] at hq
    exact ⟨hq.2, q, hq.1, rfl⟩
  · rintro ⟨hne, q, hq, rfl⟩
    exact ⟨q, by simp [hq, hne], rfl⟩

end Store

end OpenMesh.Storage.Lookup
