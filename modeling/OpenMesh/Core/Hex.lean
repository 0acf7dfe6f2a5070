import OpenMesh.Core.Buffers

namespace OpenMesh.Core.Hex

open OpenMesh.Core.Buffers

def kHex : Bytes :=
  [0x30, 0x31, 0x32, 0x33, 0x34, 0x35, 0x36, 0x37, 0x38, 0x39, 0x61, 0x62, 0x63, 0x64, 0x65, 0x66]

def toHex : Bytes → Bytes
  | [] => []
  | b :: bytes => kHex.getD (b >>> 4).toNat 0 :: kHex.getD (b &&& 0x0F).toNat 0 :: toHex bytes

def digitValue (d : UInt8) : UInt8 := if d < 0x40 then d - 0x30 else d - 0x57

theorem digits_inj (b c : UInt8)
    (hh : kHex.getD (b >>> 4).toNat 0 = kHex.getD (c >>> 4).toNat 0)
    (hl : kHex.getD (b &&& 0x0F).toNat 0 = kHex.getD (c &&& 0x0F).toNat 0) : b = c := by
  have hv : ∀ n : Fin 256, digitValue (kHex.getD (UInt8.ofFin n >>> 4).toNat 0) * 16 +
      digitValue (kHex.getD (UInt8.ofFin n &&& 0x0F).toNat 0) = UInt8.ofFin n := by decide +kernel
  have hb := hv b.toFin
  have hc := hv c.toFin
  simp only [UInt8.ofFin_toFin] at hb hc
  rw [← hb, ← hc, hh, hl]

theorem toHex_injective : Function.Injective toHex := by
  intro bs cs h
  induction bs generalizing cs with
  | nil => cases cs with
    | nil => rfl
    | cons c cs => simp [toHex] at h
  | cons b bs ih => cases cs with
    | nil => simp [toHex] at h
    | cons c cs =>
      simp only [toHex, List.cons.injEq] at h
      rw [digits_inj b c h.1 h.2.1, ih h.2.2]

@[simp] theorem toHex_inj {bs cs : Bytes} : toHex bs = toHex cs ↔ bs = cs :=
  toHex_injective.eq_iff

end OpenMesh.Core.Hex
