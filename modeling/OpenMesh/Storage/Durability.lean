import OpenMesh.Crypto.Reference
import OpenMesh.Library.Runs
import OpenMesh.Storage.DatabaseCodec
import OpenMesh.Storage.Lookup

namespace OpenMesh.Storage.Durability

open OpenMesh.Core.Buffers OpenMesh.Crypto.Primitives OpenMesh.Crypto.Reference
open OpenMesh.Library.Runs OpenMesh.Storage.Blob OpenMesh.Storage.Database
open OpenMesh.Storage.DatabaseCodec OpenMesh.Storage.Lookup

section Sealed

variable {C : Sodium} {nonce : Nonce} {magic salt key plaintext : Bytes}

def header (magic salt : Bytes) : Bytes := magic ++ [kFileVersion] ++ salt

theorem sealedFile_eq (hsalt : salt.length = kSaltBytes) (hkey : key.length = kSessionKeyBytes) :
    sealedFile C nonce magic salt key plaintext = some
      (header magic salt ++ aeadSeal C nonce key plaintext (header magic salt)) := by
  have hbox : aeadSeal C nonce key plaintext (header magic salt) ≠ [] := by
    intro he
    have hlen : (aeadSeal C nonce key plaintext (header magic salt)).length = _ :=
      aeadSeal_length _ _ hkey
    rw [he, List.length_nil, kAeadTagBytes] at hlen
    omega
  unfold sealedFile
  rw [if_neg (by simp [hsalt, hkey])]
  exact if_neg hbox

theorem header_length (hmagic : magic.length = 4) (hsalt : salt.length = kSaltBytes) :
    (header magic salt).length = kHeaderSize := by
  simp only [header, List.length_append, List.length_singleton, hmagic, hsalt, kHeaderSize]

theorem validHeader_sealed (box : Bytes) (hmagic : magic.length = 4)
    (hsalt : salt.length = kSaltBytes) : validHeader (header magic salt ++ box) magic = true := by
  have hlen := header_length hmagic hsalt
  have htake : (header magic salt ++ box).take 4 = magic := by
    rw [header, List.append_assoc, List.append_assoc, List.take_left' hmagic]
  have hversion : (header magic salt ++ box)[4]? = some kFileVersion := by
    rw [header, List.append_assoc, List.append_assoc, List.getElem?_append_right (by omega), hmagic]
    rfl
  simp [validHeader, htake, hversion, hlen]

theorem readSalt_sealed (box : Bytes) (hmagic : magic.length = 4)
    (hsalt : salt.length = kSaltBytes) :
    readSalt (some (header magic salt ++ box)) magic = some salt := by
  have hdrop : (header magic salt ++ box).drop 5 = salt ++ box := by
    rw [header, List.append_assoc (magic ++ _), List.drop_left' (by simp [hmagic])]
  simp only [readSalt, validHeader_sealed box hmagic hsalt, ↓reduceIte, hdrop,
    List.take_left' hsalt]

theorem readBlob_sealed (hmagic : magic.length = 4) (hsalt : salt.length = kSaltBytes)
    (hkey : key.length = kSessionKeyBytes) :
    readBlob C (some (header magic salt ++ aeadSeal C nonce key plaintext (header magic salt)))
      magic key = some plaintext := by
  have hlen := header_length hmagic hsalt
  simp only [readBlob, validHeader_sealed _ hmagic hsalt, ↓reduceIte, List.drop_left' hlen,
    List.take_left' hlen]
  exact aeadOpen_aeadSeal plaintext _ hkey

end Sealed

structure Medium where
  store : Store
  disk : Bytes → Option Bytes

variable (C : Sodium)

/-- A write that the code does not refuse, and that succeeds. -/
def put (nonce : Nonce) (disk : Bytes → Option Bytes) (w : Write) : Bytes → Option Bytes :=
  match sealedFile C nonce kMagic w.salt w.key w.payload with
  | some file => Function.update disk w.path (some file)
  | none => disk

def flush (nonce : Nonce) (disk : Bytes → Option Bytes) (before after : Store) :
    Bytes → Option Bytes :=
  (after.writes.drop before.writes.length).foldl (put C nonce) disk

inductive Call where
  | upsert (contact : Contact)
  | addContact (contact : Contact)
  | appendMessage (message : Message)
  | addRequest (request : Request)
  | removeRequest (peer : Bytes)

def Call.run (s : Store) : Call → Store
  | .upsert contact => s.upsert contact
  | .addContact contact => s.addContact contact
  | .appendMessage message => s.appendMessage message
  | .addRequest request => s.addRequest request
  | .removeRequest peer => s.removeRequest peer

/-- One call, and the nonce of the file it may write. -/
def step (m : Medium) (i : Call × Nonce) : Medium :=
  ⟨i.1.run m.store, flush C i.2 m.disk m.store (i.1.run m.store)⟩

/-- `Store::open` on this disk; its own write, if there is one, succeeds. -/
def opened (salt : { bytes : Bytes // bytes.length = kKdfSaltBytes }) (nonce : Nonce) (m : Medium)
    (path passphrase : Bytes) : Medium × Bool :=
  let io : OpenIO :=
    { pathExists := (m.disk path).isSome, content := m.disk path, salt, writeOk := true }
  let (s, ok) := m.store.openAt C io path passphrase
  (⟨s, flush C nonce m.disk m.store s⟩, ok)

/-- Any other database that opens the same path with the same passphrase holds the same. -/
def Durable (path passphrase : Bytes) (m : Medium) : Prop :=
  ∀ (t : Store) salt nonce,
    let (m', ok) := opened C salt nonce ⟨t, m.disk⟩ path passphrase
    ok = true ∧ m'.store.contacts = m.store.contacts ∧ m'.store.messages = m.store.messages ∧
      m'.store.requests = m.store.requests

structure Open (path passphrase : Bytes) (m : Medium) : Prop where
  persistent : m.store.persistent = true
  path_eq : m.store.path = path
  salt_length : m.store.salt.length = kSaltBytes
  key_eq : m.store.key = deriveKey C passphrase m.store.salt
  key_length : m.store.key.length = kSessionKeyBytes
  present : (m.disk path).isSome

variable {C} {path passphrase : Bytes} {m : Medium}

theorem kMagic_length : kMagic.length = 4 := rfl

def contents (C : Sodium) (file passphrase : Bytes) :
    Option (List Contact × List Message × List Request) :=
  match readSalt (some file) kMagic with
  | none => none
  | some salt =>
    if deriveKey C passphrase salt = [] then none
    else match readBlob C (some file) kMagic (deriveKey C passphrase salt) with
      | none => none
      | some plaintext => (decode plaintext).toOption

variable (C passphrase) in
theorem opened_present {file : Bytes} (hfile : m.disk path = some file) (t : Store)
    (salt : { bytes : Bytes // bytes.length = kKdfSaltBytes }) (nonce : Nonce) :
    match contents C file passphrase with
    | none => (opened C salt nonce ⟨t, m.disk⟩ path passphrase).2 = false
    | some (contacts, messages, requests) =>
      let (m', ok) := opened C salt nonce ⟨t, m.disk⟩ path passphrase
      ok = true ∧ m'.store.contacts = contacts ∧ m'.store.messages = messages ∧
        m'.store.requests = requests := by
  unfold opened Store.openAt contents
  simp only [hfile, Option.isSome_some, ↓reduceIte]
  cases readSalt (some file) kMagic with
  | none => rfl
  | some salt' =>
    dsimp only
    split_ifs
    · rfl
    · cases readBlob C (some file) kMagic (deriveKey C passphrase salt') with
      | none => rfl
      | some plaintext =>
        dsimp only
        cases decode plaintext with
        | error e => rfl
        | ok x => exact ⟨rfl, rfl, rfl, rfl⟩

theorem durable_iff_contents {file : Bytes} (hfile : m.disk path = some file) :
    Durable C path passphrase m ↔ contents C file passphrase =
      some (m.store.contacts, m.store.messages, m.store.requests) := by
  constructor
  · intro durable
    have hopened := opened_present C passphrase hfile {}
      ⟨List.replicate kKdfSaltBytes 0, List.length_replicate⟩
      ⟨List.replicate kAeadNonceBytes 0, List.length_replicate⟩
    obtain ⟨hok, hcontacts, hmessages, hrequests⟩ := durable {}
      ⟨List.replicate kKdfSaltBytes 0, List.length_replicate⟩
      ⟨List.replicate kAeadNonceBytes 0, List.length_replicate⟩
    cases hc : contents C file passphrase with
    | none =>
      rw [hc] at hopened
      cases hok.symm.trans hopened
    | some x =>
      rw [hc] at hopened
      obtain ⟨-, hcontacts', hmessages', hrequests'⟩ := hopened
      rw [← hcontacts, ← hmessages, ← hrequests, hcontacts', hmessages', hrequests']
  · intro hc t salt nonce
    have hopened := opened_present C passphrase hfile t salt nonce
    rwa [hc] at hopened

theorem contents_sealed {salt : Bytes} (nonce : Nonce) (payload : Bytes)
    (hsalt : salt.length = kSaltBytes)
    (hkey : (deriveKey C passphrase salt).length = kSessionKeyBytes) :
    contents C (header kMagic salt ++
      aeadSeal C nonce (deriveKey C passphrase salt) payload (header kMagic salt)) passphrase =
        (decode payload).toOption := by
  have hne : deriveKey C passphrase salt ≠ [] := by
    intro he
    rw [he] at hkey
    cases hkey
  simp only [contents, readSalt_sealed _ kMagic_length hsalt, if_neg hne,
    readBlob_sealed kMagic_length hsalt hkey]

def Fits (s : Store) : Prop :=
  (∀ c ∈ s.contacts, c.publicKey.length ≤ 65535 ∧ c.nickname.length ≤ 65535) ∧
  (∀ m ∈ s.messages, m.peer.length ≤ 65535 ∧ m.text.length ≤ 65535) ∧
  ∀ q ∈ s.requests, q.peer.length ≤ 65535 ∧ q.greeting.length ≤ 65535

def Counted (s : Store) : Prop :=
  s.contacts.length < 2 ^ 32 ∧ s.messages.length < 2 ^ 32 ∧ s.requests.length < 2 ^ 32

theorem storable_iff {s : Store} (hcount : Counted s) :
    Storable s.contacts s.messages s.requests ↔ Fits s := by
  constructor
  · intro h
    exact ⟨h.contacts_fit, h.messages_fit, h.requests_fit⟩
  · rintro ⟨hcontacts, hmessages, hrequests⟩
    obtain ⟨h₁, h₂, h₃⟩ := hcount
    exact ⟨by simpa using h₁, by simpa using h₂, by simpa using h₃, hcontacts, hmessages, hrequests⟩

theorem decode_encode_iff {s : Store} (hcount : Counted s) :
    (decode (encode s.contacts s.messages s.requests)).toOption =
      some (s.contacts, s.messages, s.requests) ↔ Fits s := by
  rw [← storable_iff hcount]
  constructor
  · intro h
    cases hd : decode (encode s.contacts s.messages s.requests) with
    | error e =>
      rw [hd] at h
      cases h
    | ok x =>
      rw [hd] at h
      rw [Option.some.inj h] at hd
      exact storable_of_decode hd
  · intro h
    rw [decode_encode h]
    rfl

/-- A save leaves a file from which the same comes back, exactly if what is saved fits. -/
theorem durable_put {s : Store} (hsalt : s.salt.length = kSaltBytes)
    (hkey : s.key = deriveKey C passphrase s.salt) (hlen : s.key.length = kSessionKeyBytes)
    (hcount : Counted s) (nonce : Nonce) (disk : Bytes → Option Bytes) :
    (put C nonce disk ⟨s.path, s.salt, s.key, encode s.contacts s.messages s.requests⟩
        s.path).isSome ∧
      (Durable C s.path passphrase ⟨s, put C nonce disk
        ⟨s.path, s.salt, s.key, encode s.contacts s.messages s.requests⟩⟩ ↔ Fits s) := by
  have hfile : put C nonce disk
      ⟨s.path, s.salt, s.key, encode s.contacts s.messages s.requests⟩ s.path =
      some (header kMagic s.salt ++ aeadSeal C nonce s.key
        (encode s.contacts s.messages s.requests) (header kMagic s.salt)) := by
    simp only [put, sealedFile_eq hsalt hlen, Function.update_self]
  rw [hfile]
  refine ⟨rfl, ?_⟩
  rw [durable_iff_contents hfile, ← decode_encode_iff hcount]
  rw [hkey] at hlen ⊢
  rw [contents_sealed nonce _ hsalt hlen]

theorem flush_save {s s' : Store} (hwrites : s'.writes = s.writes) (hp : s'.persistent = true)
    (nonce : Nonce) (disk : Bytes → Option Bytes) : flush C nonce disk s s'.save =
      put C nonce disk ⟨s'.path, s'.salt, s'.key, encode s'.contacts s'.messages s'.requests⟩ := by
  simp only [flush, Store.save, if_pos hp, hwrites, List.drop_left, List.foldl_cons,
    List.foldl_nil]

theorem flush_same (s : Store) (nonce : Nonce) (disk : Bytes → Option Bytes) :
    flush C nonce disk s s = disk := by
  rw [flush, List.drop_length, List.foldl_nil]

/-- What a call adds to the database fits the format. -/
def Fitting (s : Store) : Call → Prop
  | .upsert c | .addContact c => c.publicKey.length ≤ 65535 ∧ c.nickname.length ≤ 65535
  | .appendMessage m => m.peer.length ≤ 65535 ∧ m.text.length ≤ 65535
  | .addRequest q =>
    (∃ q' ∈ s.requests, q'.peer = q.peer) ∨ q.peer.length ≤ 65535 ∧ q.greeting.length ≤ 65535
  | .removeRequest _ => True

theorem mem_replaceFirst {contact : Contact} {cs cs' : List Contact}
    (h : Store.replaceFirst contact cs = some cs') :
    contact ∈ cs' ∧ ∀ c ∈ cs', c = contact ∨ c ∈ cs := by
  induction cs generalizing cs' with
  | nil => cases h
  | cons c cs ih =>
    simp only [Store.replaceFirst] at h
    split at h
    · cases h
      exact ⟨List.mem_cons_self, fun x hx => (List.mem_cons.mp hx).imp_right
        (List.mem_cons_of_mem c)⟩
    · obtain ⟨cs'', hcs, rfl⟩ := Option.map_eq_some_iff.mp h
      obtain ⟨hmem, hall⟩ := ih hcs
      refine ⟨List.mem_cons_of_mem c hmem, fun x hx => ?_⟩
      obtain rfl | hx := List.mem_cons.mp hx
      · exact Or.inr List.mem_cons_self
      · exact (hall x hx).imp_right (List.mem_cons_of_mem c)

inductive Outcome (s : Store) (c : Call) (t : Store) : Prop
  | saved (s' : Store) (ht : t = s'.save) (hwrites : s'.writes = s.writes)
      (hpersistent : s'.persistent = s.persistent) (hpath : s'.path = s.path)
      (hkey : s'.key = s.key) (hsalt : s'.salt = s.salt)
      (hfits : Fits s → (Fits s' ↔ Fitting s c))
  | same (ht : t = s) (hfitting : Fitting s c)

theorem call_outcome (s : Store) (c : Call) : Outcome s c (c.run s) := by
  cases c with
  | upsert contact =>
    simp only [Call.run, Store.upsert]
    cases hcs : Store.replaceFirst contact s.contacts with
    | some cs =>
      refine .saved { s with contacts := cs } rfl rfl rfl rfl rfl rfl ?_
      rintro ⟨hcontacts, hmessages, hrequests⟩
      obtain ⟨hmem, hall⟩ := mem_replaceFirst hcs
      refine ⟨fun h => h.1 contact hmem, fun h => ⟨fun x hx => ?_, hmessages, hrequests⟩⟩
      obtain rfl | hx := hall x hx
      · exact h
      · exact hcontacts x hx
    | none =>
      refine .saved { s with contacts := s.contacts ++ [contact] } rfl rfl rfl rfl rfl rfl ?_
      rintro ⟨hcontacts, hmessages, hrequests⟩
      simp only [Fits, Fitting, List.forall_mem_append, List.forall_mem_singleton]
      exact ⟨fun h => h.1.2, fun h => ⟨⟨hcontacts, h⟩, hmessages, hrequests⟩⟩
  | addContact contact =>
    refine .saved { s with contacts := s.contacts ++ [contact] } rfl rfl rfl rfl rfl rfl ?_
    rintro ⟨hcontacts, hmessages, hrequests⟩
    simp only [Fits, Fitting, List.forall_mem_append, List.forall_mem_singleton]
    exact ⟨fun h => h.1.2, fun h => ⟨⟨hcontacts, h⟩, hmessages, hrequests⟩⟩
  | appendMessage message =>
    refine .saved { s with messages := s.messages ++ [message] } rfl rfl rfl rfl rfl rfl ?_
    rintro ⟨hcontacts, hmessages, hrequests⟩
    simp only [Fits, Fitting, List.forall_mem_append, List.forall_mem_singleton]
    exact ⟨fun h => h.2.1.2, fun h => ⟨hcontacts, ⟨hmessages, h⟩, hrequests⟩⟩
  | addRequest request =>
    simp only [Call.run, Store.addRequest]
    split
    · next hany => exact .same rfl (Or.inl (by simpa using hany))
    · next hany =>
      refine .saved { s with requests := s.requests ++ [request] } rfl rfl rfl rfl rfl rfl ?_
      rintro ⟨hcontacts, hmessages, hrequests⟩
      have hnone : ¬ ∃ q' ∈ s.requests, q'.peer = request.peer := by simpa using hany
      simp only [Fits, Fitting, hnone, false_or, List.forall_mem_append, List.forall_mem_singleton]
      exact ⟨fun h => h.2.2.2, fun h => ⟨hcontacts, hmessages, hrequests, h⟩⟩
  | removeRequest peer =>
    simp only [Call.run, Store.removeRequest]
    split
    · refine .saved { s with requests := s.requests.filter (·.peer ≠ peer) } rfl rfl rfl rfl rfl rfl ?_
      rintro ⟨hcontacts, hmessages, hrequests⟩
      exact iff_of_true ⟨hcontacts, hmessages, fun q hq => hrequests q (List.mem_filter.mp hq).1⟩
        trivial
    · next hlen =>
      have hfilter : s.requests.filter (·.peer ≠ peer) = s.requests :=
        List.filter_eq_self.mpr (List.length_filter_eq_length_iff.mp (not_not.mp hlen))
      refine .same ?_ trivial
      rw [hfilter]

theorem save_fixed (s : Store) : s.save.persistent = s.persistent ∧ s.save.path = s.path ∧
    s.save.key = s.key ∧ s.save.salt = s.salt := by
  unfold Store.save
  split <;> exact ⟨rfl, rfl, rfl, rfl⟩

theorem durable_save (s : Store) (disk : Bytes → Option Bytes) :
    Durable C path passphrase ⟨s.save, disk⟩ ↔ Durable C path passphrase ⟨s, disk⟩ := by
  simp only [Durable, Store.save_contacts, Store.save_messages, Store.save_requests]

theorem fits_of_contents {file : Bytes} {s : Store}
    (h : contents C file passphrase = some (s.contacts, s.messages, s.requests)) : Fits s := by
  unfold contents at h
  split at h
  · cases h
  · split at h
    · cases h
    · split at h
      · cases h
      · next plaintext _ =>
        cases hd : decode plaintext with
        | error e =>
          rw [hd] at h
          cases h
        | ok x =>
          rw [hd] at h
          rw [Option.some.inj h] at hd
          have hs := storable_of_decode hd
          exact ⟨hs.contacts_fit, hs.messages_fit, hs.requests_fit⟩

theorem fits_of_durable (hopen : Open C path passphrase m) (durable : Durable C path passphrase m) :
    Fits m.store := by
  obtain ⟨file, hfile⟩ := Option.isSome_iff_exists.mp hopen.present
  exact fits_of_contents ((durable_iff_contents hfile).mp durable)

theorem open_put {s : Store} (hpersistent : s.persistent = true) (hpath : s.path = path)
    (hsalt : s.salt.length = kSaltBytes) (hkey : s.key = deriveKey C passphrase s.salt)
    (hlen : s.key.length = kSessionKeyBytes) (hcount : Counted s) (nonce : Nonce)
    (disk : Bytes → Option Bytes) {m : Medium}
    (hm : m = ⟨s.save, put C nonce disk
      ⟨s.path, s.salt, s.key, encode s.contacts s.messages s.requests⟩⟩) :
    Open C path passphrase m ∧ (Durable C path passphrase m ↔ Fits s) := by
  subst hm hpath
  obtain ⟨hpresent, hdurable⟩ := durable_put (C := C) hsalt hkey hlen hcount nonce disk
  obtain ⟨hp, hpath, hk, hs⟩ := save_fixed s
  refine ⟨⟨hp.trans hpersistent, hpath, by rwa [hs], by rwa [hk, hs], by rwa [hk], hpresent⟩, ?_⟩
  rw [durable_save, hdurable]

theorem open_step (hopen : Open C path passphrase m) (i : Call × Nonce)
    (hcount : Counted (step C m i).store) :
    Open C path passphrase (step C m i) ∧ (Durable C path passphrase m →
      (Durable C path passphrase (step C m i) ↔ Fitting m.store i.1)) := by
  obtain ⟨c, nonce⟩ := i
  cases call_outcome m.store c with
  | same ht hfitting =>
    have hm : step C m (c, nonce) = m := by
      simp only [step, ht, flush_same]
    rw [hm]
    exact ⟨hopen, fun durable => iff_of_true durable hfitting⟩
  | saved s' ht hwrites hpersistent hpath hkey hsalt hfits =>
    have hp : s'.persistent = true := hpersistent.trans hopen.persistent
    have hcount' : Counted s' := by
      simpa only [step, ht, Counted, Store.save_contacts, Store.save_messages,
        Store.save_requests] using hcount
    have hm : step C m (c, nonce) = ⟨s'.save, put C nonce m.disk
        ⟨s'.path, s'.salt, s'.key, encode s'.contacts s'.messages s'.requests⟩⟩ := by
      simp only [step, ht, flush_save hwrites hp]
    obtain ⟨hopen', hdurable⟩ := open_put hp (hpath.trans hopen.path_eq)
      (hsalt ▸ hopen.salt_length) (hkey.trans (hsalt ▸ hopen.key_eq)) (hkey ▸ hopen.key_length)
      hcount' nonce m.disk hm
    exact ⟨hopen', fun durable => hdurable.trans (hfits (fits_of_durable hopen durable))⟩

theorem readSalt_length {file : Option Bytes} {magic salt : Bytes}
    (h : readSalt file magic = some salt) : salt.length = kSaltBytes := by
  unfold readSalt at h
  split at h
  · cases h
  · split at h
    · next hvalid =>
      cases h
      simp only [validHeader, Bool.and_eq_true, decide_eq_true_eq, kHeaderSize] at hvalid
      have hlen := of_decide_eq_true hvalid.1.1
      rw [List.length_take, List.length_drop]
      omega
    · cases h

theorem opened_open {s₀ : Store} {disk₀ : Bytes → Option Bytes}
    {salt : { bytes : Bytes // bytes.length = kKdfSaltBytes }} {nonce : Nonce}
    (h : opened C salt nonce ⟨s₀, disk₀⟩ path passphrase = (m, true)) (hcount : Counted m.store) :
    Open C path passphrase m ∧ (Durable C path passphrase m ↔ Fits m.store) := by
  cases hfile : disk₀ path with
  | none =>
    unfold opened Store.openAt at h
    simp only [hfile, Option.isSome_none, Bool.false_eq_true, ↓reduceIte] at h
    split_ifs at h with hkey
    · cases h
    · obtain rfl := (Prod.mk.inj h).1
      have hlen := deriveKey_length hkey
      refine open_put (s := { s₀ with
        salt := salt, key := deriveKey C passphrase salt, path, persistent := true })
        rfl rfl salt.property rfl hlen ?_ nonce disk₀ ?_
      · simpa only [Counted, Store.save_contacts, Store.save_messages, Store.save_requests] using hcount
      · refine congrArg (Medium.mk _) (flush_save ?_ ?_ nonce disk₀) <;> rfl
  | some file =>
    unfold opened Store.openAt at h
    simp only [hfile, Option.isSome_some, ↓reduceIte] at h
    cases hsalt : readSalt (some file) kMagic with
    | none =>
      rw [hsalt] at h
      cases h
    | some salt' =>
      rw [hsalt] at h
      dsimp only at h
      split_ifs at h with hkey
      · cases h
      · cases hplain : readBlob C (some file) kMagic (deriveKey C passphrase salt') with
        | none =>
          rw [hplain] at h
          cases h
        | some plaintext =>
          rw [hplain] at h
          dsimp only at h
          cases hd : decode plaintext with
          | error e =>
            rw [hd] at h
            cases h
          | ok x =>
            rw [hd] at h
            obtain rfl := (Prod.mk.inj h).1
            have hsame : (flush C nonce disk₀ s₀ { s₀ with
                contacts := x.1, messages := x.2.1, requests := x.2.2, salt := salt',
                key := deriveKey C passphrase salt', path, persistent := true }) = disk₀ :=
              flush_same s₀ nonce disk₀
            have hc : contents C file passphrase = some x := by
              simp only [contents, hsalt, if_neg hkey, hplain, hd]
              rfl
            refine ⟨⟨rfl, rfl, readSalt_length hsalt, rfl, deriveKey_length hkey, ?_⟩, ?_⟩
            · exact (congrArg (fun d => (d path).isSome) hsame).trans (by rw [hfile])
            · exact iff_of_true
                ((durable_iff_contents ((congrFun hsame path).trans hfile)).mpr hc)
                (fits_of_contents hc)

/-- A database is durable in every state of a run, exactly if what it held in memory when it
made its file fits the format, and so does whatever the calls add. -/
theorem durable_iff {s₀ : Store} {disk₀ : Bytes → Option Bytes}
    {salt : { bytes : Bytes // bytes.length = kKdfSaltBytes }} {nonce : Nonce} {m₀ : Medium}
    (hopened : opened C salt nonce ⟨s₀, disk₀⟩ path passphrase = (m₀, true))
    (hcount : Counted m₀.store) {h : History Medium (Call × Nonce)}
    (run : Run (step C) (fun _ m i => Counted (step C m i).store) m₀ h m) :
    Run.Throughout (fun _ m => Durable C path passphrase m) h m ↔
      Fits m₀.store ∧ Run.Each (fun _ m => Fitting m.1.store m.2.1) h := by
  obtain ⟨hopen₀, hdurable₀⟩ := opened_open hopened hcount
  by_cases hfits : Fits m₀.store
  · rw [and_iff_right hfits]
    refine run.throughout_iff (hdurable₀.mpr hfits) fun h m i run durable hcount => ?_
    have hopen : Open C path passphrase m :=
      run.invariant (fun _ m => Open C path passphrase m) hopen₀
        fun _ _ i _ hopen hcount => (open_step hopen i hcount).1
    exact (open_step hopen i hcount).2 durable
  · refine iff_of_false (fun hall => hfits (hdurable₀.mp ?_)) fun hall => hfits hall.1
    exact hall.first run

/-- A text whose length does not fit its two bytes is written behind a wrong length. -/
theorem long_lost {peer text : Bytes} {nonce : Nonce} (hopen : Open C path passphrase m)
    (durable : Durable C path passphrase m)
    (hcount : Counted (step C m (.appendMessage { peer, text }, nonce)).store)
    (hlong : 65535 < text.length) :
    ¬ Durable C path passphrase (step C m (.appendMessage { peer, text }, nonce)) := by
  intro hdurable
  have hfitting := ((open_step hopen _ hcount).2 durable).mp hdurable
  exact absurd hfitting.2 (Nat.not_le.mpr hlong)

def vault : Bytes := [118]

def secret : Bytes := [115]

def fixedSalt : { bytes : Bytes // bytes.length = kKdfSaltBytes } :=
  ⟨List.replicate kKdfSaltBytes 1, List.length_replicate⟩

def fixedNonce : Nonce := ⟨List.replicate kAeadNonceBytes 2, List.length_replicate⟩

@[irreducible] def created : Medium := (opened reference fixedSalt fixedNonce ⟨{}, fun _ => none⟩ vault secret).1

def saying (text : Bytes) : Call := .appendMessage { peer := [1], text }

theorem created_opened :
    opened reference fixedSalt fixedNonce ⟨{}, fun _ => none⟩ vault secret = (created, true) := by
  unfold created
  rfl

theorem created_empty : created.store.contacts = [] ∧ created.store.messages = [] ∧
    created.store.requests = [] := by
  decide +kernel

theorem created_counted : Counted created.store := by
  obtain ⟨hcontacts, hmessages, hrequests⟩ := created_empty
  simp [Counted, hcontacts, hmessages, hrequests]

theorem created_fits : Fits created.store := by
  obtain ⟨hcontacts, hmessages, hrequests⟩ := created_empty
  simp [Fits, hcontacts, hmessages, hrequests]

theorem saying_counted (text : Bytes) :
    Counted (step reference created (saying text, fixedNonce)).store := by
  obtain ⟨hcontacts, hmessages, hrequests⟩ := created_empty
  simp [Counted, step, saying, Call.run, hcontacts, hmessages, hrequests]

theorem saying_run (text : Bytes) : Run (step reference)
    (fun _ m i => Counted (step reference m i).store) created
    [(created, (saying text, fixedNonce))] (step reference created (saying text, fixedNonce)) :=
  .move .start (saying_counted text)

theorem durable_iff_said :
    Durable reference vault secret (step reference created (saying [7], fixedNonce)) := by
  have hall := (durable_iff created_opened created_counted (saying_run [7])).mpr
    ⟨created_fits, ⟨by decide, by decide⟩, trivial⟩
  exact Run.Throughout.last hall

/-- A message of 65536 bytes is saved behind the length 0. -/
theorem long_text_lost :
    opened reference fixedSalt fixedNonce ⟨{}, fun _ => none⟩ vault secret = (created, true) ∧
    Run (step reference) (fun _ m i => Counted (step reference m i).store) created
      [(created, (saying (List.replicate 65536 7), fixedNonce))]
      (step reference created (saying (List.replicate 65536 7), fixedNonce)) ∧
    ¬ Durable reference vault secret
      (step reference created (saying (List.replicate 65536 7), fixedNonce)) := by
  obtain ⟨hopen, hdurable⟩ := opened_open created_opened created_counted
  refine ⟨created_opened, saying_run _, ?_⟩
  refine long_lost hopen (hdurable.mpr created_fits) (saying_counted _) ?_
  rw [List.length_replicate]
  omega

end OpenMesh.Storage.Durability
