import OpenMesh.Core.Buffers

namespace OpenMesh.Crypto.Primitives

open OpenMesh.Core.Buffers

def kPublicKeyBytes : Nat := 32
def kSecretKeyBytes : Nat := 64
def kSignatureBytes : Nat := 64
def kSessionKeyBytes : Nat := 32
def kAeadNonceBytes : Nat := 24
def kAeadTagBytes : Nat := 16
def kKdfSaltBytes : Nat := 16
def kCurveBytes : Nat := 32

/-- The libsodium functions behind `openmesh::crypto`, with the documented
behaviour the code relies on: output sizes, and that decryption under the same
key, nonce and associated data undoes encryption. -/
structure Sodium where
  signEd25519SkToPk : Bytes → Bytes
  signEd25519SkToCurve25519 : Bytes → Option Bytes
  signEd25519PkToCurve25519 : Bytes → Option Bytes
  scalarmult : Bytes → Bytes → Option Bytes
  generichash : Bytes → Bytes
  aeadEncrypt (plaintext aad nonce key : Bytes) : Bytes
  aeadDecrypt (cipher aad nonce key : Bytes) : Option Bytes
  signVerifyDetached (signature message publicKey : Bytes) : Bool
  pwhash (passphrase salt : Bytes) : Option Bytes
  signEd25519PkToCurve25519_length : ∀ publicKey curve,
    signEd25519PkToCurve25519 publicKey = some curve → curve.length = kCurveBytes
  generichash_length : ∀ input, (generichash input).length = kSessionKeyBytes
  aeadEncrypt_length : ∀ plaintext aad nonce key,
    (aeadEncrypt plaintext aad nonce key).length = plaintext.length + kAeadTagBytes
  aeadDecrypt_length : ∀ cipher aad nonce key plaintext,
    aeadDecrypt cipher aad nonce key = some plaintext →
      cipher.length = plaintext.length + kAeadTagBytes
  pwhash_length : ∀ passphrase salt key,
    pwhash passphrase salt = some key → key.length = kSessionKeyBytes
  aeadDecrypt_aeadEncrypt : ∀ plaintext aad nonce key,
    nonce.length = kAeadNonceBytes → key.length = kSessionKeyBytes →
      aeadDecrypt (aeadEncrypt plaintext aad nonce key) aad nonce key = some plaintext

abbrev Nonce := { bytes : Bytes // bytes.length = kAeadNonceBytes }

structure Identity where
  publicKey : Bytes
  secretKey : Bytes
  public_length : publicKey.length = kPublicKeyBytes
  secret_length : secretKey.length = kSecretKeyBytes

def memcmp : Bytes → Bytes → Int
  | a :: as, b :: bs => if a < b then -1 else if b < a then 1 else memcmp as bs
  | _, _ => 0

variable (C : Sodium)

def agreeSharedKey (mySecretKey theirPublicKey : Bytes) : Option Bytes :=
  if mySecretKey.length ≠ kSecretKeyBytes ∨ theirPublicKey.length ≠ kPublicKeyBytes then none
  else do
    let myEdPk := C.signEd25519SkToPk mySecretKey
    let myCurveSk ← C.signEd25519SkToCurve25519 mySecretKey
    let myCurvePk ← C.signEd25519PkToCurve25519 myEdPk
    let theirCurvePk ← C.signEd25519PkToCurve25519 theirPublicKey
    let dh ← C.scalarmult myCurveSk theirCurvePk
    let (lo, hi) := if memcmp myCurvePk theirCurvePk > 0 then (theirCurvePk, myCurvePk)
      else (myCurvePk, theirCurvePk)
    return C.generichash (dh ++ lo ++ hi)

def aeadSeal (nonce : Nonce) (key plaintext aad : Bytes) : Bytes :=
  if key.length ≠ kSessionKeyBytes then []
  else nonce.val ++ C.aeadEncrypt plaintext aad nonce.val key

def aeadOpen (key box aad : Bytes) : Option Bytes :=
  if key.length ≠ kSessionKeyBytes ∨ box.length < kAeadNonceBytes + kAeadTagBytes then none
  else C.aeadDecrypt (box.drop kAeadNonceBytes) aad (box.take kAeadNonceBytes) key

def deriveKey (passphrase salt : Bytes) : Bytes :=
  if salt.length ≠ kKdfSaltBytes then [] else (C.pwhash passphrase salt).getD []

def verifyDetached (signature message publicKey : Bytes) : Bool :=
  if signature.length ≠ kSignatureBytes ∨ publicKey.length ≠ kPublicKeyBytes then false
  else C.signVerifyDetached signature message publicKey

variable {C}

theorem verifyDetached_lengths {signature message publicKey : Bytes}
    (h : verifyDetached C signature message publicKey) :
    signature.length = kSignatureBytes ∧ publicKey.length = kPublicKeyBytes := by
  unfold verifyDetached at h
  split at h
  · cases h
  · next hl => simpa using hl

theorem memcmp_swap (xs ys : Bytes) : memcmp ys xs = -memcmp xs ys := by
  induction xs generalizing ys with
  | nil => cases ys <;> rfl
  | cons x xs ih => cases ys with
    | nil => rfl
    | cons y ys =>
      simp only [memcmp]
      by_cases h : x < y
      · have h' : ¬ y < x := UInt8.not_lt.mpr (UInt8.le_of_lt h)
        simp [h, h']
      · by_cases h' : y < x
        · simp [h, h']
        · simp [h, h', ih]

theorem eq_of_memcmp {xs ys : Bytes} (hlen : xs.length = ys.length) (h : memcmp xs ys = 0) :
    xs = ys := by
  induction xs generalizing ys with
  | nil => exact (List.length_eq_zero_iff.mp hlen.symm).symm
  | cons x xs ih => cases ys with
    | nil => cases hlen
    | cons y ys =>
      simp only [memcmp] at h
      by_cases h1 : x < y
      · simp [h1] at h
      by_cases h2 : y < x
      · simp [h1, h2] at h
      have hxy : x = y := UInt8.le_antisymm (UInt8.not_lt.mp h2) (UInt8.not_lt.mp h1)
      rw [hxy, ih (Nat.succ.inj hlen) (by simpa [h1, h2] using h)]

theorem ordered_swap {p q : Bytes} (hlen : p.length = q.length) :
    (if memcmp p q > 0 then (q, p) else (p, q)) = if memcmp q p > 0 then (p, q) else (q, p) := by
  rw [memcmp_swap p q]
  by_cases hpos : memcmp p q > 0
  · rw [if_pos hpos, if_neg (by omega)]
  · rw [if_neg hpos]
    by_cases hneg : -memcmp p q > 0
    · rw [if_pos hneg]
    · rw [if_neg hneg, eq_of_memcmp hlen (by omega)]

/-- Two identities agree on one key: what libsodium documents of the two
conversions and of `crypto_scalarmult` is all it takes. -/
theorem agreeSharedKey_comm (a b : Identity)
    (ha : C.signEd25519SkToPk a.secretKey = a.publicKey)
    (hb : C.signEd25519SkToPk b.secretKey = b.publicKey)
    (hka : (C.signEd25519SkToCurve25519 a.secretKey).isSome)
    (hkb : (C.signEd25519SkToCurve25519 b.secretKey).isSome)
    (hdh : ∀ x y p q, C.signEd25519SkToCurve25519 a.secretKey = some x →
      C.signEd25519SkToCurve25519 b.secretKey = some y →
      C.signEd25519PkToCurve25519 a.publicKey = some p →
      C.signEd25519PkToCurve25519 b.publicKey = some q → C.scalarmult x q = C.scalarmult y p) :
    agreeSharedKey C a.secretKey b.publicKey = agreeSharedKey C b.secretKey a.publicKey := by
  obtain ⟨x, hx⟩ := Option.isSome_iff_exists.mp hka
  obtain ⟨y, hy⟩ := Option.isSome_iff_exists.mp hkb
  simp only [agreeSharedKey, a.public_length, a.secret_length, b.public_length, b.secret_length,
    ne_eq, not_true_eq_false, or_self, ↓reduceIte, ha, hb, hx, hy, Option.bind_eq_bind,
    Option.bind_some]
  cases hp : C.signEd25519PkToCurve25519 a.publicKey with
  | none => cases C.signEd25519PkToCurve25519 b.publicKey <;> rfl
  | some p => cases hq : C.signEd25519PkToCurve25519 b.publicKey with
    | none => rfl
    | some q =>
      have hlen : p.length = q.length :=
        (C.signEd25519PkToCurve25519_length _ p hp).trans
          (C.signEd25519PkToCurve25519_length _ q hq).symm
      simp only [Option.bind_some, hdh x y p q hx hy hp hq, ordered_swap hlen]

theorem agreeSharedKey_length {mine theirs key : Bytes}
    (h : agreeSharedKey C mine theirs = some key) :
    theirs.length = kPublicKeyBytes ∧ key.length = kSessionKeyBytes := by
  unfold agreeSharedKey at h
  split at h
  · cases h
  · simp only [Option.bind_eq_bind, Option.bind_eq_some_iff, Option.pure_def, Option.some.injEq] at h
    obtain ⟨_, _, _, _, _, _, _, _, rfl⟩ := h
    exact ⟨by simp_all, C.generichash_length _⟩

theorem deriveKey_length {passphrase salt : Bytes} (h : deriveKey C passphrase salt ≠ []) :
    (deriveKey C passphrase salt).length = kSessionKeyBytes := by
  unfold deriveKey at h ⊢
  split at h
  · exact absurd rfl h
  · next hlen =>
    rw [if_neg hlen]
    cases hkey : C.pwhash passphrase salt with
    | none =>
      rw [hkey] at h
      exact absurd rfl h
    | some key => exact C.pwhash_length _ _ _ hkey

theorem aeadSeal_length {nonce : Nonce} {key : Bytes} (plaintext aad : Bytes)
    (hk : key.length = kSessionKeyBytes) :
    (aeadSeal C nonce key plaintext aad).length =
      kAeadNonceBytes + (plaintext.length + kAeadTagBytes) := by
  simp [aeadSeal, hk, nonce.property, C.aeadEncrypt_length]

theorem aeadOpen_length {key box aad plaintext : Bytes}
    (h : aeadOpen C key box aad = some plaintext) :
    box.length = kAeadNonceBytes + (plaintext.length + kAeadTagBytes) := by
  unfold aeadOpen at h
  split at h
  · cases h
  · next hk =>
    have hlen := C.aeadDecrypt_length _ _ _ _ _ h
    rw [List.length_drop] at hlen
    omega

theorem aeadOpen_aeadSeal {nonce : Nonce} {key : Bytes} (plaintext aad : Bytes)
    (hk : key.length = kSessionKeyBytes) :
    aeadOpen C key (aeadSeal C nonce key plaintext aad) aad = some plaintext := by
  have hl : (aeadSeal C nonce key plaintext aad).length =
      kAeadNonceBytes + (plaintext.length + kAeadTagBytes) := aeadSeal_length plaintext aad hk
  have hlt : ¬ (aeadSeal C nonce key plaintext aad).length < kAeadNonceBytes + kAeadTagBytes := by
    omega
  have hbox : aeadSeal C nonce key plaintext aad =
      nonce.val ++ C.aeadEncrypt plaintext aad nonce.val key := by simp [aeadSeal, hk]
  rw [aeadOpen, if_neg (by simp [hk, hlt]), hbox, List.drop_left' nonce.property,
    List.take_left' nonce.property]
  exact C.aeadDecrypt_aeadEncrypt _ _ _ _ nonce.property hk

end OpenMesh.Crypto.Primitives
