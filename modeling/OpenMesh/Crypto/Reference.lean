import OpenMesh.Crypto.Primitives

namespace OpenMesh.Crypto.Reference

open OpenMesh.Core.Buffers OpenMesh.Crypto.Primitives

def sum (bytes : Bytes) : UInt8 := bytes.foldl (· + ·) 0

def tag (plaintext aad nonce key : Bytes) : Bytes :=
  List.replicate kAeadTagBytes (sum (plaintext ++ aad ++ nonce ++ key))

/-- Functions with the shapes of libsodium and none of its strength, to run the
model with. -/
def reference : Sodium where
  signEd25519SkToPk secret := secret.take kPublicKeyBytes
  signEd25519SkToCurve25519 secret := some (secret.take kCurveBytes)
  signEd25519PkToCurve25519 publicKey :=
    if publicKey.length = kCurveBytes then some publicKey else none
  scalarmult scalar point := some (List.zipWith (· ^^^ ·) scalar point)
  generichash input := (input ++ List.replicate kSessionKeyBytes 0).take kSessionKeyBytes
  aeadEncrypt plaintext aad nonce key := plaintext ++ tag plaintext aad nonce key
  aeadDecrypt cipher aad nonce key :=
    let plaintext := cipher.take (cipher.length - kAeadTagBytes)
    if cipher = plaintext ++ tag plaintext aad nonce key then some plaintext else none
  signVerifyDetached signature message publicKey := signature = publicKey ++ message
  pwhash _ salt := if salt.length = kKdfSaltBytes then some (salt ++ salt) else none
  signEd25519PkToCurve25519_length publicKey curve h := by
    split at h
    · cases h
      assumption
    · cases h
  generichash_length input := by simp [kSessionKeyBytes]
  aeadEncrypt_length plaintext aad nonce key := by simp [tag]
  aeadDecrypt_length cipher aad nonce key plaintext h := by
    dsimp only at h
    split at h
    · next he =>
      cases h
      have hlen := congrArg List.length he
      rw [List.length_append, tag, List.length_replicate] at hlen
      exact hlen
    · cases h
  pwhash_length passphrase salt key h := by
    split at h
    · next hlen =>
      cases h
      rw [List.length_append, hlen]
      rfl
    · cases h
  aeadDecrypt_aeadEncrypt plaintext aad nonce key _ _ := by
    have htake : (plaintext ++ tag plaintext aad nonce key).take
        ((plaintext ++ tag plaintext aad nonce key).length - kAeadTagBytes) = plaintext := by
      simp [tag]
    simp only [htake, ↓reduceIte]

def identity (b : UInt8) : Identity where
  publicKey := List.replicate kPublicKeyBytes b
  secretKey := List.replicate kSecretKeyBytes b
  public_length := List.length_replicate
  secret_length := List.length_replicate

end OpenMesh.Crypto.Reference
