import OpenMesh.Storage.Opening

namespace OpenMesh.Storage.Uniqueness

open OpenMesh.Core.Buffers OpenMesh.Crypto.Primitives OpenMesh.Crypto.Reference
open OpenMesh.Storage.Blob OpenMesh.Storage.Database OpenMesh.Storage.DatabaseCodec
open OpenMesh.Storage.Lookup OpenMesh.Storage.Durability OpenMesh.Storage.Opening

/-- The life of a database: its calls, and its openings, of a path where nothing can be read or
of a file that another database, with a life of its own, has saved. -/
inductive Life where
  | new
  | call (life : Life) (c : Call)
  | openEmpty (life : Life) (io : OpenIO) (path passphrase : Bytes)
  | openFile (life writer : Life) (nonce : Nonce) (io : OpenIO) (path passphrase : Bytes)

def fileOf (C : Sodium) (nonce : Nonce) (s : Store) : Option Bytes :=
  sealedFile C nonce kMagic s.salt s.key (encode s.contacts s.messages s.requests)

def note (latest : Bytes → Option Contact) : Call → Bytes → Option Contact
  | .upsert contact | .addContact contact =>
    Function.update latest contact.publicKey (some contact)
  | .appendMessage _ | .addRequest _ | .removeRequest _ => latest

namespace Life

variable (C : Sodium)

def store : Life → Store
  | new => {}
  | call life c => c.run life.store
  | openEmpty life io path passphrase =>
    (life.store.openAt C { io with content := none } path passphrase).1
  | openFile life writer nonce io path passphrase =>
    (life.store.openAt C { io with pathExists := true, content := fileOf C nonce writer.store }
      path passphrase).1

/-- The contact most recently written for each key, in the database itself or, where that has
been replaced by a file, in the one that saved the file. -/
def latest : Life → Bytes → Option Contact
  | new => fun _ => none
  | call life c => note life.latest c
  | openEmpty life _ _ _ => life.latest
  | openFile life writer nonce io path passphrase =>
    if ((life.store C).openAt C { io with
        pathExists := true, content := fileOf C nonce (writer.store C) } path passphrase).2 then
      writer.latest
    else life.latest

end Life

/-- There is one record for each key, and it is the last one written. -/
structure Faithful (s : Store) (latest : Bytes → Option Contact) : Prop where
  unique : (s.contacts.map (·.publicKey)).Nodup
  found : ∀ k, s.find k = latest k
  trusted : ∀ k, s.trustOf k = (latest k).map (·.trust)

/-- Only a contact whose key has no record yet is added without looking. -/
def Fresh (s : Store) : Call → Prop
  | .addContact contact => ∀ c ∈ s.contacts, c.publicKey ≠ contact.publicKey
  | .upsert _ | .appendMessage _ | .addRequest _ | .removeRequest _ => True

/-- Every contact is added under a new key, and every file that is opened was saved from lists
that fit the format. -/
def Sound (C : Sodium) : Life → Prop
  | .new => True
  | .call life c => Sound C life ∧ Fresh (life.store C) c
  | .openEmpty life _ _ _ => Sound C life
  | .openFile life writer _ _ _ _ =>
    Sound C life ∧ Sound C writer ∧ Fits (writer.store C) ∧ Counted (writer.store C)

theorem map_replaceFirst {contact : Contact} {cs cs' : List Contact}
    (h : Store.replaceFirst contact cs = some cs') :
    cs'.map (·.publicKey) = cs.map (·.publicKey) := by
  induction cs generalizing cs' with
  | nil => cases h
  | cons c cs ih =>
    simp only [Store.replaceFirst] at h
    split at h
    case isTrue hc =>
      cases h
      rw [List.map_cons, List.map_cons, hc]
    case isFalse =>
      obtain ⟨cs'', hcs, rfl⟩ := Option.map_eq_some_iff.mp h
      rw [List.map_cons, List.map_cons, ih hcs]

theorem nodup_append {contact : Contact} {cs : List Contact}
    (h : (cs.map (·.publicKey)).Nodup) :
    ((cs ++ [contact]).map (·.publicKey)).Nodup ↔ ∀ c ∈ cs, c.publicKey ≠ contact.publicKey := by
  rw [List.map_append, List.map_singleton, List.nodup_append]
  refine ⟨fun hn c hc => ?_, fun hne => ⟨h, List.nodup_singleton _, ?_⟩⟩
  · exact hn.2.2 _ (List.mem_map_of_mem hc) _ (List.mem_singleton_self _)
  · intro k hk k' hk'
    obtain ⟨c, hc, rfl⟩ := List.mem_map.mp hk
    rw [List.mem_singleton.mp hk']
    exact hne c hc

theorem unique_upsert {s : Store} (h : (s.contacts.map (·.publicKey)).Nodup) (contact : Contact) :
    ((s.upsert contact).contacts.map (·.publicKey)).Nodup := by
  rw [Store.upsert]
  cases hcs : Store.replaceFirst contact s.contacts with
  | some cs =>
    simp only [Store.save_contacts]
    rwa [map_replaceFirst hcs]
  | none =>
    have hnone := Store.find?_of_replaceFirst_none hcs
    simp only [Store.save_contacts]
    apply (nodup_append h).mpr
    intro c hc hk
    have hfalse := List.find?_eq_none.mp hnone c hc
    simp [hk] at hfalse

theorem find_addContact {s : Store} {contact : Contact}
    (h : ∀ c ∈ s.contacts, c.publicKey ≠ contact.publicKey) (k : Bytes) :
    (s.addContact contact).find k = if contact.publicKey = k then some contact else s.find k := by
  have hnone : s.contacts.find? (·.publicKey = contact.publicKey) = none := by
    apply List.find?_eq_none.mpr
    intro c hc
    simpa using h c hc
  simp only [Store.addContact, Store.find, Store.save_contacts, List.find?_append]
  by_cases hk : contact.publicKey = k
  · subst hk
    simp [hnone]
  · simp [hk]

theorem update_apply (latest : Bytes → Option Contact) (contact : Contact) (k : Bytes) :
    Function.update latest contact.publicKey (some contact) k =
      if contact.publicKey = k then some contact else latest k := by
  rw [Function.update_apply]
  simp only [eq_comm]

theorem faithful_of_find {s : Store} {latest : Bytes → Option Contact}
    (hunique : (s.contacts.map (·.publicKey)).Nodup) (hfind : ∀ k, s.find k = latest k) :
    Faithful s latest :=
  ⟨hunique, hfind, fun k => by rw [Store.trustOf_eq_find, hfind]⟩

theorem faithful_same {s s' : Store} {latest : Bytes → Option Contact} (h : Faithful s latest)
    (hcontacts : s'.contacts = s.contacts) : Faithful s' latest := by
  apply faithful_of_find
  · rw [hcontacts]
    exact h.unique
  · intro k
    rw [← h.found k, Store.find, Store.find, hcontacts]

theorem removeRequest_contacts (s : Store) (peer : Bytes) :
    (s.removeRequest peer).contacts = s.contacts := by
  simp only [Store.removeRequest]
  split <;> simp

/-- One call keeps the records faithful exactly if it adds no second record for a key. -/
theorem faithful_call {s : Store} {latest : Bytes → Option Contact} (h : Faithful s latest)
    (c : Call) : Faithful (c.run s) (note latest c) ↔ Fresh s c := by
  cases c with
  | addContact contact =>
    refine ⟨fun hadded => ?_, fun hfresh => ?_⟩
    · have hunique := hadded.unique
      simp only [Call.run, Store.addContact, Store.save_contacts] at hunique
      exact (nodup_append h.unique).mp hunique
    · apply faithful_of_find
      · simp only [Call.run, Store.addContact, Store.save_contacts]
        exact (nodup_append h.unique).mpr hfresh
      · intro k
        rw [Call.run, find_addContact hfresh, note, update_apply, h.found]
  | upsert contact =>
    refine iff_of_true (faithful_of_find (unique_upsert h.unique contact) fun k => ?_) trivial
    rw [Call.run, Store.find_upsert, note, update_apply, h.found]
  | appendMessage message =>
    exact iff_of_true (faithful_same h (Store.appendMessage_contacts s message)) trivial
  | addRequest request =>
    exact iff_of_true (faithful_same h (Store.addRequest_contacts s request)) trivial
  | removeRequest peer =>
    exact iff_of_true (faithful_same h (removeRequest_contacts s peer)) trivial

/-- What was sealed is opened as it was sealed, or, with a wrong key, not at all. -/
def Authentic (C : Sodium) : Prop := ∀ nonce key key' plaintext aad opened,
  aeadOpen C key' (aeadSeal C nonce key plaintext aad) aad = some opened → opened = plaintext

theorem openEmpty_contacts (C : Sodium) (s : Store) (io : OpenIO) (path passphrase : Bytes) :
    (s.openAt C { io with content := none } path passphrase).1.contacts = s.contacts := by
  simp only [Store.openAt, readSalt]
  split
  · rfl
  · split
    · rfl
    · exact Store.save_contacts _

theorem fileOf_some {C : Sodium} {nonce : Nonce} {writer : Store} {file : Bytes}
    (h : fileOf C nonce writer = some file) : writer.salt.length = kSaltBytes ∧
      file = header kMagic writer.salt ++ aeadSeal C nonce writer.key
        (encode writer.contacts writer.messages writer.requests) (header kMagic writer.salt) := by
  by_cases hlengths : writer.salt.length = kSaltBytes ∧ writer.key.length = kSessionKeyBytes
  · rw [fileOf, sealedFile_eq hlengths.1 hlengths.2] at h
    exact ⟨hlengths.1, (Option.some.inj h).symm⟩
  · rw [fileOf, sealedFile, if_pos (not_and_or.mp hlengths)] at h
    cases h

theorem readBlob_fileOf {C : Sodium} (hauth : Authentic C) {nonce : Nonce} {writer : Store}
    {key plaintext : Bytes} (h : readBlob C (fileOf C nonce writer) kMagic key = some plaintext) :
    plaintext = encode writer.contacts writer.messages writer.requests := by
  cases hfile : fileOf C nonce writer with
  | none =>
    rw [hfile] at h
    cases h
  | some file =>
    obtain ⟨hsalt, rfl⟩ := fileOf_some hfile
    have hlen := header_length kMagic_length hsalt
    rw [hfile] at h
    simp only [readBlob, validHeader_sealed _ kMagic_length hsalt, ↓reduceIte,
      List.drop_left' hlen, List.take_left' hlen] at h
    exact hauth _ _ _ _ _ _ h

theorem openFile_contacts {C : Sodium} (hauth : Authentic C) {writer : Store}
    (hfits : Fits writer) (hcount : Counted writer) (s : Store) (nonce : Nonce) (io : OpenIO)
    (path passphrase : Bytes) :
    let result := s.openAt C { io with pathExists := true, content := fileOf C nonce writer }
      path passphrase
    result.1.contacts = if result.2 then writer.contacts else s.contacts := by
  have hstorable := (storable_iff hcount).mpr hfits
  simp only [Store.openAt, ↓reduceIte]
  cases readSalt (fileOf C nonce writer) kMagic with
  | none => rfl
  | some salt =>
    by_cases hkey : deriveKey C passphrase salt = []
    · simp only [hkey, ↓reduceIte]
      rfl
    · simp only [hkey, ↓reduceIte]
      cases hblob : readBlob C (fileOf C nonce writer) kMagic (deriveKey C passphrase salt) with
      | none => rfl
      | some plaintext =>
        rw [readBlob_fileOf hauth hblob]
        have hdecode := decode_encode hstorable
        simp only [hdecode, ↓reduceIte]

/-- In every life that adds no second record for a key, there is one record for each key, and
it is the last one written. -/
theorem contacts_unique {C : Sodium} (hauth : Authentic C) (life : Life) (h : Sound C life) :
    Faithful (life.store C) (life.latest C) := by
  induction life with
  | new => exact ⟨List.nodup_nil, fun _ => rfl, fun _ => rfl⟩
  | call life c ih =>
    obtain ⟨hlife, hfresh⟩ := h
    exact (faithful_call (ih hlife) c).mpr hfresh
  | openEmpty life io path passphrase ih =>
    exact faithful_same (ih h) (openEmpty_contacts C _ io path passphrase)
  | openFile life writer nonce io path passphrase ih ihw =>
    obtain ⟨hlife, hwriter, hfits, hcount⟩ := h
    have hcontacts := openFile_contacts hauth hfits hcount (life.store C) nonce io path passphrase
    simp only [Life.store, Life.latest] at hcontacts ⊢
    split
    case isTrue hok =>
      rw [if_pos hok] at hcontacts
      exact faithful_same (ihw hwriter) hcontacts
    case isFalse hok =>
      rw [if_neg hok] at hcontacts
      exact faithful_same (ih hlife) hcontacts

theorem reference_authentic : Authentic reference := by
  intro nonce key key' plaintext aad opened h
  by_cases hkey : key.length = kSessionKeyBytes
  · have hbox : aeadSeal reference nonce key plaintext aad =
        nonce.val ++ (plaintext ++ tag plaintext aad nonce.val key) := by
      simp [aeadSeal, hkey, reference]
    rw [aeadOpen] at h
    split at h
    case isTrue => cases h
    case isFalse =>
      rw [hbox, List.drop_left' nonce.property, List.take_left' nonce.property] at h
      have htake : (plaintext ++ tag plaintext aad nonce.val key).take
          ((plaintext ++ tag plaintext aad nonce.val key).length - kAeadTagBytes) = plaintext := by
        simp [tag]
      simp only [reference, htake] at h
      split at h
      · exact (Option.some.inj h).symm
      · cases h
  · have hbox : aeadSeal reference nonce key plaintext aad = [] := by
      simp [aeadSeal, hkey]
    rw [hbox, aeadOpen, if_pos (Or.inr (by decide))] at h
    cases h

def met : Life :=
  .call (.call (.openEmpty .new ⟨false, none, fixedSalt, true⟩ vault secret)
    (.addContact { publicKey := [1] })) (.upsert { publicKey := [1], trust := .blocked })

def metAgain : Life := .openFile .new met fixedNonce ⟨true, none, fixedSalt, true⟩ vault secret

theorem metAgain_sound : Sound reference metAgain := by
  have hempty : ((Life.new.openEmpty ⟨false, none, fixedSalt, true⟩ vault secret).store
      reference).contacts = [] := by
    decide +kernel
  refine ⟨trivial, ⟨⟨trivial, fun c hc => ?_⟩, trivial⟩, ⟨?_, ?_, ?_⟩, ?_, ?_, ?_⟩
  · rw [hempty] at hc
    cases hc
  all_goals decide +kernel

theorem contacts_unique_met : metAgain.latest reference [1] =
      some { publicKey := [1], trust := .blocked } ∧
    Faithful (metAgain.store reference) (metAgain.latest reference) :=
  ⟨by decide +kernel, contacts_unique reference_authentic metAgain metAgain_sound⟩

/-- Where the other is added a second time instead, the block is written and never read. -/
def metTwice : Life :=
  .call (.call .new (.addContact { publicKey := [1], trust := .accepted }))
    (.addContact { publicKey := [1], trust := .blocked })

theorem metTwice_stale :
    ¬ ((metTwice.store reference).contacts.map (·.publicKey)).Nodup ∧
    metTwice.latest reference [1] = some { publicKey := [1], trust := .blocked } ∧
    (metTwice.store reference).trustOf [1] = some .accepted ∧
    ¬ Faithful (metTwice.store reference) (metTwice.latest reference) := by
  have htwice : ¬ ((metTwice.store reference).contacts.map (·.publicKey)).Nodup := by
    decide +kernel
  exact ⟨htwice, by decide +kernel, by decide +kernel, fun h => htwice h.unique⟩

end OpenMesh.Storage.Uniqueness
