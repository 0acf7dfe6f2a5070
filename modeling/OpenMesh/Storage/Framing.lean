import OpenMesh.Storage.DatabaseCodec
import OpenMesh.Storage.Durability

namespace OpenMesh.Storage.Framing

open OpenMesh.Core.Buffers OpenMesh.Library.Wire OpenMesh.Crypto.Primitives
open OpenMesh.Storage.Blob OpenMesh.Storage.Database OpenMesh.Storage.DatabaseCodec

def encodeMarked (x : Message × UInt8) : Bytes :=
  putBytes x.1.peer ++ putStr x.1.text ++ putU8 x.2 ++ putU64 x.1.timestamp.toUInt64

/-- The layout of `encode`, with a byte of one's own choice in each message. -/
def encodeWith (contacts : List Contact) (marked : List (Message × UInt8))
    (requests : List Request) : Bytes :=
  putU8 kPayloadVersion ++ encodeContacts contacts ++
    (putU32 (UInt32.ofNat marked.length) ++ marked.flatMap encodeMarked) ++
    (putU32 (UInt32.ofNat requests.length) ++ requests.flatMap encodeRequest)

def normal (x : Message × UInt8) : Message × UInt8 := (x.1, if x.2 = 0 then 0 else 1)

def Truthful (marked : List (Message × UInt8)) : Prop :=
  ∀ x ∈ marked, x.1.outgoing = true ↔ x.2 ≠ 0

theorem encodeMarked_normal {x : Message × UInt8} (h : x.1.outgoing = true ↔ x.2 ≠ 0) :
    encodeMarked (normal x) = encodeMessage x.1 := by
  have hmark : (if x.2 = 0 then 0 else 1 : UInt8) = if x.1.outgoing then 1 else 0 := by
    by_cases h0 : x.2 = 0
    · simp [h0, h]
    · simp [h0, h]
  rw [encodeMarked, encodeMessage, normal, hmark]

theorem encodeWith_normal {contacts : List Contact} {marked : List (Message × UInt8)}
    {requests : List Request} (h : Truthful marked) :
    encodeWith contacts (marked.map normal) requests =
      encode contacts (marked.map Prod.fst) requests := by
  have hbytes : (marked.map normal).flatMap encodeMarked =
      (marked.map Prod.fst).flatMap encodeMessage := by
    rw [List.flatMap_map, List.flatMap_map]
    apply List.flatMap_congr
    intro x hx
    exact encodeMarked_normal (h x hx)
  rw [encodeWith, encode, hbytes, List.length_map, List.length_map]

theorem toByte_ofByte (b : UInt8) : (TrustStatus.ofByte b).toByte = b := by
  have h : ∀ n : Fin 256, (TrustStatus.ofByte (UInt8.ofFin n)).toByte = UInt8.ofFin n := by
    decide +kernel
  simpa using h b.toFin

theorem ofContact_toContact (x : Bytes × Bytes × UInt8 × UInt64) : ofContact (toContact x) = x := by
  simp only [ofContact, toContact, toByte_ofByte, UInt64.toUInt64_toInt64, Prod.mk.eta]

theorem ofRequest_toRequest (x : Bytes × Bytes × UInt64) : ofRequest (toRequest x) = x := by
  simp only [ofRequest, toRequest, UInt64.toUInt64_toInt64, Prod.mk.eta]

def toMarked (x : Bytes × Bytes × UInt8 × UInt64) : Message × UInt8 := (toMessage x, x.2.2.1)

theorem encodeMarked_toMarked {x : Bytes × Bytes × UInt8 × UInt64} (h : contactFields.dom x) :
    encodeMarked (toMarked x) = contactFields.put x := by
  obtain ⟨hpeer, htext⟩ := contactFields_dom.mp h
  have htime : putU64 x.2.2.2 = Codec.u64.put x.2.2.2 := Protocol.EnvelopeCodec.putU64_eq _
  simp only [encodeMarked, toMarked, toMessage, putStr, putBytes_eq hpeer, putBytes_eq htext,
    UInt64.toUInt64_toInt64, htime, List.append_assoc]
  rfl

theorem encodeContact_toContact {x : Bytes × Bytes × UInt8 × UInt64} (h : contactFields.dom x) :
    encodeContact (toContact x) = contactFields.put x := by
  obtain ⟨hkey, hnick⟩ := contactFields_dom.mp h
  rw [encodeContact_eq hkey hnick, ofContact_toContact]

theorem encodeRequest_toRequest {x : Bytes × Bytes × UInt64} (h : requestFields.dom x) :
    encodeRequest (toRequest x) = requestFields.put x := by
  obtain ⟨hpeer, hgreeting⟩ := requestFields_dom.mp h
  rw [encodeRequest_eq hpeer hgreeting, ofRequest_toRequest]

theorem counted_put {α β : Type} {c : Codec α} {put : β → Bytes} {f : α → β} {xs : List α}
    (h : (Codec.counted 4 c).dom xs) (hput : ∀ x, c.dom x → put (f x) = c.put x) :
    putU32 (UInt32.ofNat (xs.map f).length) ++ (xs.map f).flatMap put =
      (Codec.counted 4 c).put xs := by
  have hwords : putU32 (UInt32.ofNat xs.length) ++ xs.flatMap (put ∘ f) =
      (Codec.counted 4 c).put (xs.map id) := listOf_eq h.1 fun x hx => hput x (h.2 x hx)
  rw [List.map_id] at hwords
  rw [← hwords, List.length_map, List.flatMap_map]
  rfl

theorem accepted_lists {blob : Bytes} {contacts : List Contact} {messages : List Message}
    {requests : List Request} (hversion : blob.head? = some kPayloadVersion)
    (h : decode blob = .ok (contacts, messages, requests)) :
    ∃ x, lists.dom x ∧ blob = kPayloadVersion :: lists.put x ∧
      toLists x = (contacts, messages, requests) := by
  obtain ⟨rest, rfl⟩ := List.head?_eq_some_iff.mp hversion
  rw [decode_current] at h
  split at h
  case h_1 x hget =>
    obtain ⟨hdom, hrest⟩ := lists.put_get _ _ _ hget
    rw [List.append_nil] at hrest
    exact ⟨x, hdom, by rw [hrest], Except.ok.inj h⟩
  case h_2 => cases h

theorem encodeWith_lists {x} (h : lists.dom x) :
    encodeWith (x.1.map toContact) (x.2.1.map toMarked) (x.2.2.map toRequest) =
      kPayloadVersion :: lists.put x := by
  rw [encodeWith, encodeContacts, counted_put h.1 fun _ => encodeContact_toContact,
    counted_put h.2.1 fun _ => encodeMarked_toMarked,
    counted_put h.2.2 fun _ => encodeRequest_toRequest, List.append_assoc, List.append_assoc]
  rfl

theorem decode_encodeWith {blob : Bytes} {contacts : List Contact} {messages : List Message}
    {requests : List Request} (hversion : blob.head? = some kPayloadVersion)
    (h : decode blob = .ok (contacts, messages, requests)) :
    ∃ marked, marked.map Prod.fst = messages ∧ Truthful marked ∧
      blob = encodeWith contacts marked requests := by
  obtain ⟨x, hdom, rfl, hx⟩ := accepted_lists hversion h
  cases hx
  refine ⟨x.2.1.map toMarked, ?_, ?_, (encodeWith_lists hdom).symm⟩
  · rw [List.map_map]
    rfl
  · intro z hz
    obtain ⟨y, -, rfl⟩ := List.mem_map.mp hz
    simp [toMarked, toMessage]

theorem decode_answers {blob : Bytes} (hversion : blob.head? = some kPayloadVersion) :
    decode blob = .error .refused ∨ ∃ found, decode blob = .ok found := by
  obtain ⟨rest, rfl⟩ := List.head?_eq_some_iff.mp hversion
  rw [decode_current]
  split
  case h_1 x _ => exact .inr ⟨_, rfl⟩
  case h_2 => exact .inl rfl

/-- Nothing can be cut from the end of an accepted blob, and nothing can be put behind it. -/
theorem accepted_whole {blob more : Bytes} {found found'}
    (hversion : blob.head? = some kPayloadVersion) (h : decode blob = .ok found)
    (h' : decode (blob ++ more) = .ok found') : more = [] := by
  have hversion' : (blob ++ more).head? = some kPayloadVersion := by
    rw [List.head?_append, hversion, Option.some_or]
  obtain ⟨x, hdom, hblob, -⟩ := accepted_lists hversion h
  obtain ⟨y, hdom', hblob', -⟩ := accepted_lists hversion' h'
  rw [hblob, List.cons_append, List.cons.injEq, ← List.append_nil (lists.put y)] at hblob'
  exact (lists.put_append_inj hdom hdom' hblob'.2).2

/-- What the decoder makes of a blob: it stays inside, and it accepts nothing but the layout of
the encoder, where only the bytes that mark the messages are not fixed by the lists. -/
structure Framed (blob : Bytes) : Prop where
  inside : decode blob ≠ .error .outside
  layout : ∀ contacts messages requests, decode blob = .ok (contacts, messages, requests) →
    ∃ marked, marked.map Prod.fst = messages ∧ Truthful marked ∧
      blob = encodeWith contacts marked requests ∧
      encode contacts messages requests = encodeWith contacts (marked.map normal) requests
  twins : ∀ other contacts messages requests, other.head? = some kPayloadVersion →
    decode blob = .ok (contacts, messages, requests) →
    decode other = .ok (contacts, messages, requests) →
    ∃ marked marked', marked.map Prod.fst = marked'.map Prod.fst ∧
      blob = encodeWith contacts marked requests ∧ other = encodeWith contacts marked' requests
  longer : ∀ found more, decode blob = .ok found → more ≠ [] →
    decode (blob ++ more) = .error .refused
  shorter : ∀ found n, decode blob = .ok found → n < blob.length →
    decode (blob.take n) = .error .refused

theorem refused_of_ne {blob : Bytes} (hversion : blob.head? = some kPayloadVersion)
    (h : ∀ found, decode blob ≠ .ok found) : decode blob = .error .refused := by
  obtain h' | ⟨found, h'⟩ := decode_answers hversion
  · exact h'
  · exact absurd h' (h found)

/-- A blob of the current version is accepted only as the encoder lays it out. -/
theorem decode_framing (blob : Bytes) (hversion : blob.head? = some kPayloadVersion) :
    Framed blob where
  inside := by
    obtain h | ⟨found, h⟩ := decode_answers hversion
    · simp [h]
    · simp [h]
  layout contacts messages requests h := by
    obtain ⟨marked, hmarked, htruthful, hblob⟩ := decode_encodeWith hversion h
    refine ⟨marked, hmarked, htruthful, hblob, ?_⟩
    rw [encodeWith_normal htruthful, hmarked]
  twins other contacts messages requests hversion' h h' := by
    obtain ⟨marked, hmarked, -, hblob⟩ := decode_encodeWith hversion h
    obtain ⟨marked', hmarked', -, hother⟩ := decode_encodeWith hversion' h'
    exact ⟨marked, marked', hmarked.trans hmarked'.symm, hblob, hother⟩
  longer found more h hmore := by
    apply refused_of_ne
    · rw [List.head?_append, hversion, Option.some_or]
    · intro found' h'
      exact hmore (accepted_whole hversion h h')
  shorter found n h hn := by
    cases n with
    | zero => rfl
    | succ n =>
      have hversion' : (blob.take (n + 1)).head? = some kPayloadVersion := by
        rw [List.head?_take, if_neg (Nat.succ_ne_zero n), hversion]
      apply refused_of_ne hversion'
      intro found' h'
      have hwhole : decode (blob.take (n + 1) ++ blob.drop (n + 1)) = .ok found := by
        rw [List.take_append_drop, h]
      have hnil := accepted_whole hversion' h' hwhole
      have hlen := List.length_drop (i := n + 1) (l := blob)
      rw [hnil, List.length_nil] at hlen
      omega

def oddlyMarked : Bytes := encodeWith [] [(⟨[1], [104, 105], true, 5⟩, 7)] []

theorem decode_framing_odd : oddlyMarked.head? = some kPayloadVersion ∧
    decode oddlyMarked = .ok ([], [⟨[1], [104, 105], true, 5⟩], []) ∧ Framed oddlyMarked :=
  ⟨by decide, by decide +kernel, decode_framing oddlyMarked (by decide)⟩

section Legacy

variable {contacts : List Contact}

theorem encodeContacts_head (hcount : contacts.length < 2 ^ 32) :
    (encodeContacts contacts).head? = some kPayloadVersion ↔ contacts.length / 2 ^ 24 = 2 := by
  have hn : (UInt32.ofNat contacts.length).toNat = contacts.length :=
    UInt32.toNat_ofNat_of_lt' (lt_of_lt_of_eq hcount (by norm_num))
  have htop : (encodeContacts contacts).head? =
      some (UInt8.ofNat (contacts.length / 256 ^ 3)) := by
    rw [encodeContacts, putU32_eq]
    change (bigEndian 4 (UInt32.ofNat contacts.length).toNat ++ _).head? = _
    rw [hn]
    rfl
  have hlt : contacts.length / 2 ^ 24 < 256 := by omega
  rw [htop, Option.some.injEq, ← UInt8.toNat_inj, UInt8.toNat_ofNat', kPayloadVersion]
  norm_num at hlt ⊢
  rw [Nat.mod_eq_of_lt hlt]
  rfl

theorem encodeContacts_eq (hcount : contacts.length < 256 ^ 4)
    (hfit : ∀ c ∈ contacts, c.publicKey.length ≤ 65535 ∧ c.nickname.length ≤ 65535) :
    encodeContacts contacts = (Codec.counted 4 contactFields).put (contacts.map ofContact) :=
  listOf_eq hcount fun c hc => encodeContact_eq (hfit c hc).1 (hfit c hc).2

theorem decode_encodeContacts (hcount : contacts.length < 256 ^ 4)
    (hfit : ∀ c ∈ contacts, c.publicKey.length ≤ 65535 ∧ c.nickname.length ≤ 65535)
    (htop : (encodeContacts contacts).head? ≠ some kPayloadVersion) :
    decode (encodeContacts contacts) = .ok (contacts, [], []) := by
  have hdom : (Codec.counted 4 contactFields).dom (contacts.map ofContact) := by
    refine ⟨lt_of_eq_of_lt (List.length_map _) hcount, List.forall_mem_map.mpr fun c hc => ?_⟩
    exact contactFields_dom.mpr (hfit c hc)
  have hget := (Codec.counted 4 contactFields).get_put _ [] hdom
  rw [List.append_nil] at hget
  rw [decode_legacy htop, encodeContacts_eq hcount hfit, hget]
  simp only [List.map_map, Function.comp_def, toContact_ofContact, List.map_id']

/-- As a blob of the current version, a list of contacts is nine bytes short. -/
theorem encodeContacts_lost (htop : (encodeContacts contacts).head? = some kPayloadVersion) :
    decode (encodeContacts contacts) ≠ .ok (contacts, [], []) := by
  intro h
  obtain ⟨marked, hmarked, -, hblob⟩ := decode_encodeWith htop h
  rw [List.map_eq_nil_iff] at hmarked
  have hlen := congrArg List.length hblob
  simp only [hmarked, encodeWith, putU8, List.length_append, List.length_cons] at hlen
  omega

theorem encode_head (contacts : List Contact) (messages : List Message) (requests : List Request) :
    (encode contacts messages requests).head? = some kPayloadVersion := rfl

/-- A database of the first version goes over into one of the second: it opens as the same
contacts and nothing else, its next save can be read back as the same, and neither format is
taken for the other. -/
structure Migrates (C : Sodium) (contacts : List Contact) : Prop where
  decoded : decode (encodeContacts contacts) = .ok (contacts, [], [])
  resaved : ∀ (io : OpenIO) (s : Store) path passphrase salt, io.pathExists = true →
    readSalt io.content kMagic = some salt → deriveKey C passphrase salt ≠ [] →
    readBlob C io.content kMagic (deriveKey C passphrase salt) = some (encodeContacts contacts) →
    ∃ loaded w, s.openAt C io path passphrase = (loaded, true) ∧ loaded.contacts = contacts ∧
      loaded.messages = [] ∧ loaded.requests = [] ∧ loaded.save.writes = loaded.writes ++ [w] ∧
      w.payload.head? = some kPayloadVersion ∧ decode w.payload = .ok (contacts, [], [])
  legacy : (encodeContacts contacts).head? ≠ some kPayloadVersion
  current : ∀ messages requests,
    (encode contacts messages requests).head? = some kPayloadVersion

/-- A list of contacts goes over exactly when the top byte of its count is not the version
byte; where it is, the contacts are not read back. -/
theorem migrates_iff (C : Sodium) (hcount : contacts.length < 2 ^ 32)
    (hfit : ∀ c ∈ contacts, c.publicKey.length ≤ 65535 ∧ c.nickname.length ≤ 65535) :
    (Migrates C contacts ↔ contacts.length / 2 ^ 24 ≠ 2) ∧
    (decode (encodeContacts contacts) = .ok (contacts, [], []) ↔
      contacts.length / 2 ^ 24 ≠ 2) := by
  have hcount' : contacts.length < 256 ^ 4 := lt_of_lt_of_eq hcount (by norm_num)
  have hdecode : decode (encodeContacts contacts) = .ok (contacts, [], []) ↔
      contacts.length / 2 ^ 24 ≠ 2 := by
    refine ⟨fun h htop => ?_, fun htop => ?_⟩
    · exact encodeContacts_lost ((encodeContacts_head hcount).mpr htop) h
    · exact decode_encodeContacts hcount' hfit (mt (encodeContacts_head hcount).mp htop)
  refine ⟨⟨fun h => hdecode.mp h.decoded, fun htop => ?_⟩, hdecode⟩
  have hstorable : Storable contacts [] [] :=
    ⟨hcount', by simp, by simp, hfit, by simp, by simp⟩
  refine ⟨hdecode.mpr htop, ?_, mt (encodeContacts_head hcount).mp htop, fun _ _ => rfl⟩
  intro io s path passphrase salt hexists hsalt hkey hblob
  refine ⟨{ s with
      contacts, messages := [], requests := [], salt, key := deriveKey C passphrase salt, path,
      persistent := true },
    ⟨path, salt, deriveKey C passphrase salt, encode contacts [] []⟩, ?_, rfl, rfl, rfl, rfl,
    encode_head contacts [] [], decode_encode hstorable⟩
  simp only [Store.openAt, hexists, hsalt, hkey, hblob, hdecode.mpr htop, if_true, if_false]

theorem migrates_one : (Migrates Crypto.Reference.reference [⟨[1, 2], [65], .accepted, 7⟩] ↔
      [(⟨[1, 2], [65], .accepted, 7⟩ : Contact)].length / 2 ^ 24 ≠ 2) ∧
    (decode (encodeContacts [⟨[1, 2], [65], .accepted, 7⟩]) =
        .ok ([⟨[1, 2], [65], .accepted, 7⟩], [], []) ↔
      [(⟨[1, 2], [65], .accepted, 7⟩ : Contact)].length / 2 ^ 24 ≠ 2) :=
  migrates_iff _ (by decide) (by decide)

def crowd (n : ℕ) : List Contact := List.replicate n {}

theorem crowd_fits {n : ℕ} {c : Contact} (hc : c ∈ crowd n) :
    c.publicKey.length ≤ 65535 ∧ c.nickname.length ≤ 65535 := by
  rw [List.eq_of_mem_replicate hc]
  exact ⟨Nat.zero_le _, Nat.zero_le _⟩

theorem crowd_head {n : ℕ} (hn : n < 2 ^ 32) (htop : n / 2 ^ 24 = 2) :
    (encodeContacts (crowd n)).head? = some kPayloadVersion := by
  have hlen : (crowd n).length = n := List.length_replicate
  rw [encodeContacts_head (by rwa [hlen]), hlen, htop]

/-- With 2 ^ 25 contacts the count itself starts with the version byte. -/
theorem crowd_lost : ∃ n < 2 ^ 32, n = 2 ^ 25 ∧ (crowd n).length = n ∧
    (∀ c ∈ crowd n, c.publicKey.length ≤ 65535 ∧ c.nickname.length ≤ 65535) ∧
    (encodeContacts (crowd n)).head? = some kPayloadVersion ∧
    decode (encodeContacts (crowd n)) ≠ .ok (crowd n, [], []) := by
  obtain ⟨n, hn⟩ : ∃ n : ℕ, n = 2 ^ 25 := ⟨_, rfl⟩
  have hlt : n < 2 ^ 32 := by omega
  have htop : n / 2 ^ 24 = 2 := by omega
  exact ⟨n, hlt, hn, List.length_replicate, fun c => crowd_fits, crowd_head hlt htop,
    encodeContacts_lost (crowd_head hlt htop)⟩

end Legacy

end OpenMesh.Storage.Framing
