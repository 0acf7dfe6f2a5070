import OpenMesh.Storage.Durability

namespace OpenMesh.Storage.Tampering

open OpenMesh.Core.Buffers OpenMesh.Crypto.Primitives OpenMesh.Crypto.Reference
open OpenMesh.Library.Wire
open OpenMesh.Storage.Blob OpenMesh.Storage.Database OpenMesh.Storage.DatabaseCodec
open OpenMesh.Storage.Durability

abbrev Magic := { bytes : Bytes // bytes.length = 4 }

/-- `'O','M','I','D'`. -/
def kIdentityMagic : Magic := ⟨[0x4F, 0x4D, 0x49, 0x44], rfl⟩

variable (C : Sodium)

/-- `read_salt`, `derive_key` and `read_blob` on one file. -/
def loadBlob (file : Bytes) (magic passphrase : Bytes) : Option Bytes :=
  match readSalt (some file) magic with
  | none => none
  | some salt =>
    let key := deriveKey C passphrase salt
    if key = [] then none else readBlob C (some file) magic key

/-- The file that `save_identity` writes. -/
def saveIdentity (nonce : Nonce) (salt : { bytes : Bytes // bytes.length = kKdfSaltBytes })
    (identity : Identity) (passphrase : Bytes) : Option Bytes :=
  let key := deriveKey C passphrase salt
  if key = [] then none
  else sealedFile C nonce kIdentityMagic salt key
    (putBytes identity.publicKey ++ putBytes identity.secretKey)

def readIdentity (r : Reader) : Except Stop (Bytes × Bytes) := do
  let (publicKey, r) ← r.bytes
  let (secretKey, r) ← r.bytes
  if r.done then return (publicKey, secretKey) else throw .refused

def loadIdentity (file passphrase : Bytes) : Option Identity :=
  match loadBlob C file kIdentityMagic passphrase with
  | none => none
  | some plaintext => match readIdentity { b := plaintext } with
    | .error _ => none
    | .ok (publicKey, secretKey) =>
      if h : publicKey.length = kPublicKeyBytes ∧ secretKey.length = kSecretKeyBytes then
        some ⟨publicKey, secretKey, h.1, h.2⟩
      else none

/-- Only what was sealed opens, under the same key and with the same associated data. -/
def IdealAead : Prop := ∀ key box aad plaintext, aeadOpen C key box aad = some plaintext →
  ∃ nonce, box = aeadSeal C nonce key plaintext aad

/-- No other passphrase or salt gives this key. -/
def IdealKdf (passphrase salt : Bytes) : Prop := ∀ passphrase' salt',
  deriveKey C passphrase' salt' = deriveKey C passphrase salt →
    passphrase' = passphrase ∧ salt' = salt

/-- What sealed this box did so under one key and with one associated data. -/
def Committing (box : Bytes) : Prop := ∀ nonce nonce' key key' plaintext plaintext' aad aad',
  key.length = kSessionKeyBytes → key'.length = kSessionKeyBytes →
    box = aeadSeal C nonce key plaintext aad → box = aeadSeal C nonce' key' plaintext' aad' →
      key' = key ∧ aad' = aad

/-- No sealed box but that of the file `f` stands in the file `f'`. -/
def NoOther (f f' : Bytes) : Prop := ∀ nonce key plaintext aad, key.length = kSessionKeyBytes →
  f'.drop kHeaderSize = aeadSeal C nonce key plaintext aad →
    f'.drop kHeaderSize = f.drop kHeaderSize

variable {C} {nonce : Nonce} {magic magic' : Magic} {salt passphrase passphrase' f f' plaintext : Bytes}

theorem sealedFile_lengths {key : Bytes}
    (h : sealedFile C nonce magic salt key plaintext = some f) :
    salt.length = kSaltBytes ∧ key.length = kSessionKeyBytes := by
  unfold sealedFile at h
  split_ifs at h with hlen
  simpa using hlen

theorem sealedFile_layout (h : sealedFile C nonce magic salt (deriveKey C passphrase salt) plaintext =
    some f) : f.take kHeaderSize = header magic salt ∧
      f = header magic salt ++
        aeadSeal C nonce (deriveKey C passphrase salt) plaintext (header magic salt) := by
  obtain ⟨hsalt, hkey⟩ := sealedFile_lengths h
  rw [sealedFile_eq hsalt hkey] at h
  cases h
  exact ⟨List.take_left' (header_length magic.property hsalt), rfl⟩

theorem loadBlob_sealed
    (h : sealedFile C nonce magic salt (deriveKey C passphrase salt) plaintext = some f) :
    loadBlob C f magic passphrase = some plaintext := by
  obtain ⟨hsalt, hkey⟩ := sealedFile_lengths h
  have hne : deriveKey C passphrase salt ≠ [] := by
    intro hnil
    rw [hnil] at hkey
    cases hkey
  rw [(sealedFile_layout h).2, loadBlob, readSalt_sealed _ magic.property hsalt]
  dsimp only
  rw [if_neg hne, readBlob_sealed magic.property hsalt hkey]

theorem validHeader_magic {file : Bytes} (h : validHeader file magic = true) :
    magic.val = file.take 4 := by
  simp only [validHeader, Bool.and_eq_true, decide_eq_true_eq] at h
  exact h.1.2.symm

/-- A file that opens is the one that was written, and is opened as it was closed. -/
theorem written_of_loadBlob (hideal : IdealAead C) (hkdf : IdealKdf C passphrase salt)
    (hcommit : Committing C (f.drop kHeaderSize)) (hother : NoOther C f f')
    (h : sealedFile C nonce magic salt (deriveKey C passphrase salt) plaintext = some f)
    {p : Bytes} (hload : loadBlob C f' magic' passphrase' = some p) :
    f' = f ∧ magic' = magic ∧ passphrase' = passphrase := by
  by_cases hvalid : validHeader f' magic' = true
  swap
  · simp only [loadBlob, readSalt, hvalid, Bool.false_eq_true, ↓reduceIte] at hload
    cases hload
  simp only [loadBlob, readSalt, readBlob, hvalid, ↓reduceIte] at hload
  split_ifs at hload with hkey
  obtain ⟨nonce', hbox⟩ := hideal _ _ _ _ hload
  have hlen := deriveKey_length hkey
  have hdrop := hother _ _ _ _ hlen hbox
  obtain ⟨htake, hlayout⟩ := sealedFile_layout h
  have hown : f.drop kHeaderSize =
      aeadSeal C nonce (deriveKey C passphrase salt) plaintext (header magic salt) := by
    apply (List.append_right_inj (f.take kHeaderSize)).mp
    rw [List.take_append_drop, htake, ← hlayout]
  obtain ⟨hkey', haad⟩ := hcommit _ _ _ _ _ _ _ _ (sealedFile_lengths h).2 hlen hown
    (hdrop.symm.trans hbox)
  have hfile : f' = f := by
    rw [← List.take_append_drop kHeaderSize f', ← List.take_append_drop kHeaderSize f, haad, hdrop,
      htake]
  refine ⟨hfile, Subtype.ext ?_, (hkdf _ _ hkey').1⟩
  have hmagic : f.take 4 = magic := by
    rw [hlayout, header, List.append_assoc, List.append_assoc, List.take_left' magic.property]
  rw [validHeader_magic hvalid, hfile, hmagic]

theorem readIdentity_put (identity : Identity) :
    readIdentity { b := putBytes identity.publicKey ++ putBytes identity.secretKey } =
      .ok (identity.publicKey, identity.secretKey) := by
  have hpublic : identity.publicKey.length ≤ 65535 := by
    rw [identity.public_length]
    decide
  have hsecret : identity.secretKey.length ≤ 65535 := by
    rw [identity.secret_length]
    decide
  let b := putBytes identity.publicKey ++ putBytes identity.secretKey
  have hb : b = Codec.field.put identity.publicKey ++ Codec.field.put identity.secretKey := by
    rw [← putBytes_eq hpublic, ← putBytes_eq hsecret]
  have hfirst : Reader.bytes { b := b } =
      .ok (identity.publicKey, left b (Codec.field.put identity.secretKey)) := by
    have hread := reads_bytes b b (List.suffix_refl b)
    rw [left, Nat.sub_self] at hread
    rw [hread, hb, Codec.field.get_put _ _ (Nat.lt_succ_of_le hpublic)]
    rfl
  have hsecond : Reader.bytes (left b (Codec.field.put identity.secretKey)) =
      .ok (identity.secretKey, left b []) := by
    have hread := reads_bytes b (Codec.field.put identity.secretKey) (by rw [hb]; exact List.suffix_append _ _)
    have hget := Codec.field.get_put identity.secretKey [] (Nat.lt_succ_of_le hsecret)
    rw [List.append_nil] at hget
    rw [hread, hget]
    rfl
  have hdone : (left b []).done = true := left_done (List.nil_suffix)
  change (Reader.bytes { b := b } >>= _) = _
  rw [hfirst]
  change (Reader.bytes (left b (Codec.field.put identity.secretKey)) >>= _) = _
  rw [hsecond]
  change (if (left b []).done then _ else _) = _
  rw [hdone]
  rfl

theorem loadIdentity_saved {identity : Identity}
    (h : loadBlob C f kIdentityMagic passphrase =
      some (putBytes identity.publicKey ++ putBytes identity.secretKey)) :
    loadIdentity C f passphrase = some identity := by
  rw [loadIdentity, h]
  dsimp only
  rw [readIdentity_put]
  exact dif_pos ⟨identity.public_length, identity.secret_length⟩

theorem saveIdentity_sealed {salt' : { bytes : Bytes // bytes.length = kKdfSaltBytes }}
    {identity : Identity} (h : saveIdentity C nonce salt' identity passphrase = some f) :
    sealedFile C nonce kIdentityMagic salt' (deriveKey C passphrase salt')
      (putBytes identity.publicKey ++ putBytes identity.secretKey) = some f := by
  unfold saveIdentity at h
  dsimp only at h
  split_ifs at h
  exact h

/-- A sealed file opens as it was written, and where no other seal is put in its place only so;
the same holds of the file of an identity. -/
theorem opens_only_as_written :
    (∀ nonce (magic : Magic) plaintext,
      sealedFile C nonce magic salt (deriveKey C passphrase salt) plaintext = some f →
        loadBlob C f magic passphrase = some plaintext ∧
        (IdealAead C → IdealKdf C passphrase salt → Committing C (f.drop kHeaderSize) →
          ∀ f' (magic' : Magic) passphrase', NoOther C f f' →
            loadBlob C f' magic' passphrase' =
              if f' = f ∧ magic' = magic ∧ passphrase' = passphrase then some plaintext
              else none)) ∧
    ∀ nonce (salt' : { bytes : Bytes // bytes.length = kKdfSaltBytes }) identity,
      salt'.val = salt → saveIdentity C nonce salt' identity passphrase = some f →
        loadIdentity C f passphrase = some identity ∧
        (IdealAead C → IdealKdf C passphrase salt → Committing C (f.drop kHeaderSize) →
          ∀ f' passphrase', NoOther C f f' →
            loadIdentity C f' passphrase' =
              if f' = f ∧ passphrase' = passphrase then some identity else none) := by
  constructor
  · intro nonce magic plaintext h
    refine ⟨loadBlob_sealed h, fun hideal hkdf hcommit f' magic' passphrase' hother => ?_⟩
    split_ifs with hsame
    · obtain ⟨rfl, rfl, rfl⟩ := hsame
      exact loadBlob_sealed h
    · cases hload : loadBlob C f' magic' passphrase' with
      | none => rfl
      | some p => exact absurd (written_of_loadBlob hideal hkdf hcommit hother h hload) hsame
  · rintro nonce salt' identity rfl hsave
    have h := saveIdentity_sealed hsave
    refine ⟨loadIdentity_saved (loadBlob_sealed h),
      fun hideal hkdf hcommit f' passphrase' hother => ?_⟩
    split_ifs with hsame
    · obtain ⟨rfl, rfl⟩ := hsame
      exact loadIdentity_saved (loadBlob_sealed h)
    · rw [loadIdentity]
      cases hload : loadBlob C f' kIdentityMagic passphrase' with
      | none => rfl
      | some p =>
        obtain ⟨hfile, -, hword⟩ := written_of_loadBlob hideal hkdf hcommit hother h hload
        exact absurd ⟨hfile, hword⟩ hsame

def word : Bytes := List.replicate 16 7

def mark (aad key : Bytes) : UInt8 :=
  if key = fixedSalt.val ++ word ∧ aad = header kIdentityMagic fixedSalt.val then 1 else 0

def pinned : Sodium :=
  { reference with
    aeadEncrypt := fun plaintext aad _ key =>
      plaintext ++ List.replicate kAeadTagBytes (mark aad key)
    aeadDecrypt := fun cipher aad _ key =>
      let plaintext := cipher.take (cipher.length - kAeadTagBytes)
      if cipher = plaintext ++ List.replicate kAeadTagBytes (mark aad key) then some plaintext
      else none
    pwhash := fun passphrase salt =>
      if salt.length = kKdfSaltBytes ∧ passphrase.length = 16 then some (salt ++ passphrase) else none
    aeadEncrypt_length := fun plaintext aad nonce key => by simp
    aeadDecrypt_length := fun cipher aad nonce key plaintext h => by
      dsimp only at h
      split at h
      · next he =>
        cases h
        have hlen := congrArg List.length he
        rw [List.length_append, List.length_replicate] at hlen
        exact hlen
      · cases h
    pwhash_length := fun passphrase salt key h => by
      split at h
      · next hlen =>
        cases h
        rw [List.length_append, hlen.1, hlen.2]
        rfl
      · cases h
    aeadDecrypt_aeadEncrypt := fun plaintext aad nonce key _ _ => by
      have htake : (plaintext ++ List.replicate kAeadTagBytes (mark aad key)).take
          ((plaintext ++ List.replicate kAeadTagBytes (mark aad key)).length - kAeadTagBytes) =
          plaintext := by simp
      simp only [htake, ↓reduceIte] }

theorem pinned_aead : IdealAead pinned := by
  intro key box aad plaintext h
  unfold aeadOpen at h
  split_ifs at h with hlen
  simp only [not_or, not_not, Nat.not_lt] at hlen
  have hnonce : (box.take kAeadNonceBytes).length = kAeadNonceBytes := by
    rw [List.length_take]
    omega
  simp only [pinned] at h
  split_ifs at h with hbox
  refine ⟨⟨box.take kAeadNonceBytes, hnonce⟩, ?_⟩
  rw [Option.some.inj h] at hbox
  rw [aeadSeal, if_neg (not_not.mpr hlen.1)]
  change box = box.take kAeadNonceBytes ++
    (plaintext ++ List.replicate kAeadTagBytes (mark aad key))
  rw [← hbox, List.take_append_drop]

theorem pinned_kdf : IdealKdf pinned word fixedSalt.val := by
  intro passphrase' salt' h
  have hkey : deriveKey pinned word fixedSalt.val = fixedSalt.val ++ word := by decide +kernel
  rw [hkey, deriveKey] at h
  split_ifs at h with hlen
  · cases h
  · simp only [pinned] at h
    split_ifs at h with hlens
    · obtain ⟨hsalt, hword⟩ := List.append_inj h (hlens.1.trans fixedSalt.property.symm)
      exact ⟨hword, hsalt⟩
    · cases h

def tag (box : Bytes) : Bytes := box.drop (box.length - kAeadTagBytes)

theorem tag_seal {key : Bytes} (nonce : Nonce) (plaintext aad : Bytes)
    (hkey : key.length = kSessionKeyBytes) :
    tag (aeadSeal pinned nonce key plaintext aad) =
      List.replicate kAeadTagBytes (mark aad key) := by
  rw [tag, aeadSeal, if_neg (not_not.mpr hkey)]
  change (nonce.val ++ (plaintext ++ List.replicate kAeadTagBytes (mark aad key))).drop _ = _
  rw [← List.append_assoc]
  apply List.drop_left'
  simp only [pinned, List.length_append, List.length_replicate]
  omega

def own : Bytes := (saveIdentity pinned fixedNonce fixedSalt (identity 5) word).getD []

def resalted : Bytes := header kIdentityMagic (List.replicate 16 2) ++ own.drop kHeaderSize

def truncated : Bytes := own.dropLast

def extended : Bytes := own ++ [0]

theorem own_committing : Committing pinned (own.drop kHeaderSize) := by
  have htag : tag (own.drop kHeaderSize) = List.replicate kAeadTagBytes 1 := by decide +kernel
  have hall : ∀ nonce key plaintext aad, key.length = kSessionKeyBytes →
      own.drop kHeaderSize = aeadSeal pinned nonce key plaintext aad →
        key = fixedSalt.val ++ word ∧ aad = header kIdentityMagic fixedSalt.val := by
    intro nonce key plaintext aad hkey hbox
    rw [hbox, tag_seal nonce plaintext aad hkey, mark] at htag
    split_ifs at htag with hmark
    · exact hmark
    · cases htag
  intro nonce nonce' key key' plaintext plaintext' aad aad' hkey hkey' hbox hbox'
  obtain ⟨hk, ha⟩ := hall _ _ _ _ hkey hbox
  obtain ⟨hk', ha'⟩ := hall _ _ _ _ hkey' hbox'
  exact ⟨hk'.trans hk.symm, ha'.trans ha.symm⟩

theorem unsealed_noOther (hzero : tag (f'.drop kHeaderSize) ≠ List.replicate kAeadTagBytes 0)
    (hone : tag (f'.drop kHeaderSize) ≠ List.replicate kAeadTagBytes 1) :
    NoOther pinned f f' := by
  intro nonce key plaintext aad hkey hbox
  rw [hbox, tag_seal nonce plaintext aad hkey, mark] at hzero hone
  split_ifs at hzero hone
  · exact absurd rfl hone
  · exact absurd rfl hzero

theorem opens_only_as_written_own : loadIdentity pinned own word = some (identity 5) ∧
    loadIdentity pinned resalted word = none ∧ loadIdentity pinned truncated word = none ∧
    loadIdentity pinned extended word = none ∧
    loadIdentity pinned own (List.replicate 16 8) = none ∧
    loadBlob pinned own kMagic word = none := by
  have hsave : saveIdentity pinned fixedNonce fixedSalt (identity 5) word = some own := by
    decide +kernel
  have hsame : resalted.drop kHeaderSize = own.drop kHeaderSize ∧ resalted ≠ own := by
    decide +kernel
  have hshort : truncated ≠ own := by decide +kernel
  have hlong : extended ≠ own := by decide +kernel
  have hword : List.replicate 16 8 ≠ word := by decide
  have hmagic : (⟨kMagic, rfl⟩ : Magic) ≠ kIdentityMagic := by decide
  have hitself : NoOther pinned own own := by
    intro nonce key plaintext aad _ _
    rfl
  have hresalted : NoOther pinned own resalted := by
    intro nonce key plaintext aad _ _
    exact hsame.1
  have htruncated : NoOther pinned own truncated :=
    unsealed_noOther (by decide +kernel) (by decide +kernel)
  have hextended : NoOther pinned own extended :=
    unsealed_noOther (by decide +kernel) (by decide +kernel)
  obtain ⟨hblob, hidentity⟩ := @opens_only_as_written pinned fixedSalt.val word own
  obtain ⟨hown, hclosed⟩ := hidentity fixedNonce fixedSalt (identity 5) rfl hsave
  have honly := hclosed pinned_aead pinned_kdf own_committing
  refine ⟨hown, ?_, ?_, ?_, ?_, ?_⟩
  · exact (honly resalted word hresalted).trans (if_neg fun h => hsame.2 h.1)
  · exact (honly truncated word htruncated).trans (if_neg fun h => hshort h.1)
  · exact (honly extended word hextended).trans (if_neg fun h => hlong h.1)
  · exact (honly own _ hitself).trans (if_neg fun h => hword h.2)
  · exact ((hblob _ _ _ (saveIdentity_sealed hsave)).2 pinned_aead pinned_kdf own_committing own
      ⟨kMagic, rfl⟩ word hitself).trans (if_neg fun h => hmagic h.2.1)

end OpenMesh.Storage.Tampering
