import OpenMesh.Crypto.Reference
import OpenMesh.Messaging.Sessions

namespace OpenMesh.Messaging.SharedKeys

open OpenMesh.Core.Buffers OpenMesh.Crypto.Primitives OpenMesh.Crypto.Reference
open OpenMesh.Messaging.Sessions

/-- A key pair as libsodium makes it: the public key is the one of the secret key. -/
structure KeyPair (C : Sodium) extends Identity where
  derived : C.signEd25519SkToPk secretKey = publicKey

def Scalar (C : Sodium) (x : Bytes) : Prop :=
  ∃ secretKey, secretKey.length = kSecretKeyBytes ∧ C.signEd25519SkToCurve25519 secretKey = some x

/-- What the key agreement rests on, where `base` gives the Curve25519 public key of a scalar:
the two conversions belong together, multiplication commutes, and none of them fails on one
side only. -/
structure CurveLaws (C : Sodium) (base : Bytes → Bytes) : Prop where
  converted : ∀ secretKey x p, secretKey.length = kSecretKeyBytes →
    C.signEd25519SkToCurve25519 secretKey = some x →
    C.signEd25519PkToCurve25519 (C.signEd25519SkToPk secretKey) = some p → p = base x
  conversion_fails : ∀ secretKey, secretKey.length = kSecretKeyBytes →
    C.signEd25519SkToCurve25519 secretKey = none →
    C.signEd25519PkToCurve25519 (C.signEd25519SkToPk secretKey) = none
  commutes : ∀ x y k l, Scalar C x → Scalar C y → C.scalarmult x (base y) = some k →
    C.scalarmult y (base x) = some l → k = l
  scalarmult_fails : ∀ x y, Scalar C x → Scalar C y → C.scalarmult x (base y) = none →
    C.scalarmult y (base x) = none

variable {C : Sodium} {base : Bytes → Bytes}

theorem scalarmult_comm (laws : CurveLaws C base) {x y : Bytes} (hx : Scalar C x)
    (hy : Scalar C y) : C.scalarmult x (base y) = C.scalarmult y (base x) := by
  cases hk : C.scalarmult x (base y) with
  | none => rw [laws.scalarmult_fails x y hx hy hk]
  | some k =>
    cases hl : C.scalarmult y (base x) with
    | none =>
      rw [laws.scalarmult_fails y x hy hx hl] at hk
      cases hk
    | some l => rw [laws.commutes x y k l hx hy hk hl]

theorem agreeSharedKey_theirs {mine theirs : Bytes}
    (h : C.signEd25519PkToCurve25519 theirs = none) : agreeSharedKey C mine theirs = none := by
  rw [agreeSharedKey]
  split_ifs
  · rfl
  · cases C.signEd25519SkToCurve25519 mine with
    | none => rfl
    | some x =>
      cases hp : C.signEd25519PkToCurve25519 (C.signEd25519SkToPk mine) with
      | none => simp [hp]
      | some p => simp [hp, h]

theorem agreeSharedKey_mine {mine theirs : Bytes} (h : C.signEd25519SkToCurve25519 mine = none) :
    agreeSharedKey C mine theirs = none := by
  rw [agreeSharedKey, h]
  split_ifs <;> rfl

theorem agreeSharedKey_pair (laws : CurveLaws C base) (a b : KeyPair C) :
    agreeSharedKey C a.secretKey b.publicKey = agreeSharedKey C b.secretKey a.publicKey := by
  have hfails : ∀ a b : KeyPair C, C.signEd25519SkToCurve25519 a.secretKey = none →
      agreeSharedKey C a.secretKey b.publicKey = agreeSharedKey C b.secretKey a.publicKey := by
    intro a b h
    have hpublic := laws.conversion_fails a.secretKey a.secret_length h
    rw [a.derived] at hpublic
    rw [agreeSharedKey_mine h, agreeSharedKey_theirs hpublic]
  cases hx : C.signEd25519SkToCurve25519 a.secretKey with
  | none => exact hfails a b hx
  | some x =>
    cases hy : C.signEd25519SkToCurve25519 b.secretKey with
    | none => exact (hfails b a hy).symm
    | some y =>
      refine agreeSharedKey_comm a.toIdentity b.toIdentity a.derived b.derived ?_ ?_ ?_
      · rw [hx]
        rfl
      · rw [hy]
        rfl
      · intro x' y' p q hx' hy' hp hq
        rw [← a.derived] at hp
        rw [← b.derived] at hq
        rw [laws.converted _ _ _ a.secret_length hx' hp,
          laws.converted _ _ _ b.secret_length hy' hq]
        exact scalarmult_comm laws ⟨_, a.secret_length, hx'⟩ ⟨_, b.secret_length, hy'⟩

/-- Both ends derive the same 32 bytes, or neither derives any; so a session is valid at both
ends or at none. -/
theorem shared_key_symmetric (laws : CurveLaws C base) (a b : KeyPair C) :
    ((agreeSharedKey C a.secretKey b.publicKey = none ∧
        agreeSharedKey C b.secretKey a.publicKey = none) ∨
      ∃ key, key.length = 32 ∧ agreeSharedKey C a.secretKey b.publicKey = some key ∧
        agreeSharedKey C b.secretKey a.publicKey = some key) ∧
    ((Session.new C a.publicKey a.secretKey b.publicKey).valid = true ↔
      (Session.new C b.publicKey b.secretKey a.publicKey).valid = true) := by
  have hsame := agreeSharedKey_pair laws a b
  rw [Session.new, Session.new, ← hsame]
  cases hkey : agreeSharedKey C a.secretKey b.publicKey with
  | none => exact ⟨.inl ⟨rfl, rfl⟩, Iff.rfl⟩
  | some key => exact ⟨.inr ⟨key, (agreeSharedKey_length hkey).2, rfl, rfl⟩, Iff.rfl⟩

theorem reference_laws : CurveLaws reference id where
  converted secretKey x p hlen hx hp := by
    simp only [reference, Option.some.injEq] at hx hp
    split at hp
    · rw [← Option.some.inj hp, ← hx]
      rfl
    · cases hp
  conversion_fails secretKey hlen h := by cases h
  commutes x y k l _ _ hk hl := by
    simp only [reference, Option.some.injEq, id] at hk hl
    rw [← hk, ← hl, List.zipWith_comm_of_comm UInt8.xor_comm]
  scalarmult_fails x y _ _ h := by cases h

def ending (b : UInt8) : KeyPair reference where
  publicKey := List.replicate 31 7 ++ [b]
  secretKey := List.replicate 31 7 ++ [b] ++ List.replicate 32 0
  public_length := rfl
  secret_length := rfl
  derived := rfl

theorem shared_key_symmetric_ending :
    ((agreeSharedKey reference (ending 1).secretKey (ending 2).publicKey = none ∧
        agreeSharedKey reference (ending 2).secretKey (ending 1).publicKey = none) ∨
      ∃ key, key.length = 32 ∧
        agreeSharedKey reference (ending 1).secretKey (ending 2).publicKey = some key ∧
        agreeSharedKey reference (ending 2).secretKey (ending 1).publicKey = some key) ∧
    ((Session.new reference (ending 1).publicKey (ending 1).secretKey (ending 2).publicKey).valid =
        true ↔
      (Session.new reference (ending 2).publicKey (ending 2).secretKey (ending 1).publicKey).valid =
        true) :=
  shared_key_symmetric reference_laws (ending 1) (ending 2)

end OpenMesh.Messaging.SharedKeys
