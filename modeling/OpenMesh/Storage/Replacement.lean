import OpenMesh.Storage.Durability

namespace OpenMesh.Storage.Replacement

open OpenMesh.Core.Buffers OpenMesh.Crypto.Primitives OpenMesh.Crypto.Reference
open OpenMesh.Storage.Blob OpenMesh.Storage.Database OpenMesh.Storage.Durability

abbrev Disk := Bytes → Option Bytes

/-- `".tmp"`. -/
def kTmpSuffix : Bytes := [0x2E, 0x74, 0x6D, 0x70]

/-- What the file system makes of one call: whether the temporary file opens, how long it is
seen to be while it is written, whether `write` reports success, how long it is once it has
been closed, and how `rename` and `remove` end. -/
structure WriteIO where
  opens : Bool
  lengths : List Nat
  writes : Bool
  closed : Nat
  renames : Bool
  removes : Bool

/-- The disks that are there one after the other, and the result. The stream is closed by its
destructor, and nobody asks how that went. -/
def writeBlob (C : Sodium) (nonce : Nonce) (io : WriteIO) (disk : Disk)
    (path magic salt key plaintext : Bytes) : List Disk × Bool :=
  match sealedFile C nonce magic salt key plaintext with
  | none => ([disk], false)
  | some out =>
    let tmp := path ++ kTmpSuffix
    let holding (n : Nat) : Disk := Function.update disk tmp (some (out.take n))
    if io.opens = false then ([disk], false)
    else
      let written := disk :: holding 0 :: io.lengths.map holding ++ [holding io.closed]
      if io.writes = false then (written, false)
      else if io.renames then
        (written ++ [Function.update (Function.update disk tmp none) path
          (some (out.take io.closed))], true)
      else if io.removes then (written ++ [Function.update disk tmp none], false)
      else (written, false)

/-- The path has the old content, or all of the new one. -/
structure Atomic (C : Sodium) (nonce : Nonce) (disk : Disk) (path magic salt key plaintext : Bytes)
    (result : List Disk × Bool) : Prop where
  done : result.2 = true → ∀ d ∈ result.1.getLast?, d path =
    some (header magic salt ++ aeadSeal C nonce key plaintext (header magic salt))
  failed : result.2 = false → ∀ d ∈ result.1.getLast?, d path = disk path
  between : ∀ d ∈ result.1, d path = disk path ∨ d path =
    some (header magic salt ++ aeadSeal C nonce key plaintext (header magic salt))

def Whole (C : Sodium) (nonce : Nonce) (io : WriteIO) (magic salt key plaintext : Bytes) : Prop :=
  ∀ out ∈ sealedFile C nonce magic salt key plaintext, io.opens = true → io.writes = true →
    io.renames = true → out.length ≤ io.closed

variable {C : Sodium} {nonce : Nonce} {io : WriteIO} {disk : Disk}
variable {path magic salt key plaintext : Bytes}

theorem tmp_ne (path : Bytes) : path ≠ path ++ kTmpSuffix := by
  intro h
  have hnil := List.self_eq_append_right.mp h
  cases hnil

theorem sealedFile_some {out : Bytes} (h : sealedFile C nonce magic salt key plaintext = some out) :
    out = header magic salt ++ aeadSeal C nonce key plaintext (header magic salt) := by
  unfold sealedFile at h
  split_ifs at h
  dsimp only at h
  split_ifs at h
  exact (Option.some.inj h).symm

theorem atomic_of_untouched (ds : List Disk) {d : Disk} (hall : ∀ d ∈ ds, d path = disk path)
    (hd : d path = disk path) :
    Atomic C nonce disk path magic salt key plaintext (ds ++ [d], false) := by
  have hevery : ∀ d' ∈ ds ++ [d], d' path = disk path := by
    intro d' hd'
    obtain hd' | hd' := List.mem_append.mp hd'
    · exact hall d' hd'
    · rw [List.mem_singleton.mp hd', hd]
  exact ⟨nofun, fun _ d' hd' => hevery d' (List.mem_of_getLast? hd'), fun d' hd' =>
    Or.inl (hevery d' hd')⟩

/-- Exactly if what is renamed is the whole file, the path never holds anything but the old
content or the new one, and the result says which. -/
theorem write_blob_atomic : Atomic C nonce disk path magic salt key plaintext
    (writeBlob C nonce io disk path magic salt key plaintext) ↔
      Whole C nonce io magic salt key plaintext := by
  unfold writeBlob Whole
  cases hsealed : sealedFile C nonce magic salt key plaintext with
  | none =>
    refine iff_of_true ?_ nofun
    exact atomic_of_untouched [] nofun rfl
  | some out =>
    have hout := sealedFile_some hsealed
    let holding (n : Nat) : Disk := Function.update disk (path ++ kTmpSuffix) (some (out.take n))
    have hholding : ∀ n, holding n path = disk path := fun n =>
      Function.update_of_ne (tmp_ne path) _ _
    have hbefore : ∀ d ∈ disk :: holding 0 :: io.lengths.map holding, d path = disk path := by
      intro d hd
      obtain rfl | rfl | hd := by simpa only [List.mem_cons] using hd
      · rfl
      · exact hholding 0
      · obtain ⟨n, -, rfl⟩ := List.mem_map.mp hd
        exact hholding n
    have hwritten : ∀ d ∈ disk :: holding 0 :: io.lengths.map holding ++ [holding io.closed],
        d path = disk path := by
      intro d hd
      obtain hd | hd := List.mem_append.mp hd
      · exact hbefore d hd
      · rw [List.mem_singleton.mp hd, hholding]
    dsimp only
    cases hopens : io.opens with
    | false => exact iff_of_true (atomic_of_untouched [] nofun rfl) (by simp)
    | true =>
      cases hwrites : io.writes with
      | false =>
        refine iff_of_true ?_ (by simp)
        exact atomic_of_untouched _ hbefore (hholding io.closed)
      | true =>
        cases hrenames : io.renames with
        | false =>
          refine iff_of_true ?_ (by simp)
          cases io.removes with
          | true => exact atomic_of_untouched _ hwritten (Function.update_of_ne (tmp_ne path) _ _)
          | false => exact atomic_of_untouched _ hbefore (hholding io.closed)
        | true =>
          have hlast : ∀ disk' : Disk, Function.update disk' path (some (out.take io.closed)) path =
              some (out.take io.closed) := fun disk' => Function.update_self _ _ _
          simp only [Bool.true_eq_false, ↓reduceIte, Option.mem_some_iff, forall_eq', true_implies]
          constructor
          · intro atomic
            have hdone := atomic.done rfl _ List.getLast?_concat
            rw [hlast, ← hout] at hdone
            have hlen := congrArg List.length (Option.some.inj hdone)
            rw [List.length_take] at hlen
            omega
          · intro hlen
            have hfull : ∀ disk' : Disk, Function.update disk' path (some (out.take io.closed)) path =
                some (header magic salt ++ aeadSeal C nonce key plaintext (header magic salt)) := by
              intro disk'
              rw [hlast, List.take_of_length_le hlen, hout]
            refine ⟨fun _ d hd => ?_, nofun, fun d hd => ?_⟩
            · rw [List.getLast?_concat] at hd
              cases hd
              exact hfull _
            · obtain hd | hd := List.mem_append.mp hd
              · exact Or.inl (hwritten d hd)
              · rw [List.mem_singleton.mp hd]
                exact Or.inr (hfull _)

/-- Where nothing fails, the disk that is left is the one that the saves of a database assume. -/
theorem writeBlob_put {w : Write} (hw : Whole C nonce io kMagic w.salt w.key w.payload)
    (hok : io.opens = true ∧ io.writes = true ∧ io.renames = true)
    (htmp : disk (w.path ++ kTmpSuffix) = none) :
    (writeBlob C nonce io disk w.path kMagic w.salt w.key w.payload).1.getLast? =
      some (put C nonce disk w) := by
  obtain ⟨hopens, hwrites, hrenames⟩ := hok
  unfold writeBlob put
  cases hsealed : sealedFile C nonce kMagic w.salt w.key w.payload with
  | none => rfl
  | some out =>
    have hlen := hw out hsealed hopens hwrites hrenames
    have hnone : Function.update disk (w.path ++ kTmpSuffix) none = disk :=
      Function.update_eq_self_iff.mpr htmp.symm
    simp only [hopens, hwrites, hrenames, Bool.true_eq_false, ↓reduceIte, List.getLast?_concat,
      hnone, List.take_of_length_le hlen]

/-- The disk is full: `write` puts everything into the buffer of the stream, and closing the
stream cannot get it out. -/
def full : WriteIO := ⟨true, [], true, 0, true, true⟩

theorem truncated_file_renamed :
    (writeBlob reference fixedNonce full (fun _ => some [1]) vault kMagic fixedSalt.val
      (deriveKey reference secret fixedSalt.val) []).2 = true ∧
    (writeBlob reference fixedNonce full (fun _ => some [1]) vault kMagic fixedSalt.val
      (deriveKey reference secret fixedSalt.val) []).1.getLast?.map (· vault) = some (some []) ∧
    ¬ Atomic reference fixedNonce (fun _ => some [1]) vault kMagic fixedSalt.val
      (deriveKey reference secret fixedSalt.val) []
      (writeBlob reference fixedNonce full (fun _ => some [1]) vault kMagic fixedSalt.val
        (deriveKey reference secret fixedSalt.val) []) := by
  have hlast : (writeBlob reference fixedNonce full (fun _ => some [1]) vault kMagic fixedSalt.val
      (deriveKey reference secret fixedSalt.val) []).1.getLast?.map (· vault) = some (some []) := by
    decide +kernel
  refine ⟨by decide +kernel, hlast, fun atomic => ?_⟩
  obtain ⟨d, hd, hempty⟩ := Option.map_eq_some_iff.mp hlast
  have hdone := atomic.done (by decide +kernel) d hd
  rw [hempty] at hdone
  cases hdone

end OpenMesh.Storage.Replacement
