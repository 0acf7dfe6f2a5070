import Mathlib

namespace OpenMesh.Core.Buffers

/-- Byte vectors, and `std::string`, which is one byte per character. -/
abbrev Bytes := List UInt8

/-- How a reader can stop: it read outside the buffer, or it said no. -/
inductive Stop where
  | outside | refused
  deriving DecidableEq, Repr

def byteAt (bytes : Bytes) (offset : Nat) : Except Stop UInt8 :=
  match bytes[offset]? with
  | some b => .ok b
  | none => .error .outside

def slice (bytes : Bytes) (start stop : Nat) : Except Stop Bytes :=
  if stop ≤ bytes.length then .ok ((bytes.take stop).drop start) else .error .outside

/-- What the code keys by `std::string` in an `unordered_map`. -/
abbrev Table (β : Type) := AList (fun _ : Bytes => β)

namespace Table

variable {β : Type}

def keep (t : Table β) (p : β → Bool) : Table β :=
  ⟨t.entries.filter fun e => p e.2, t.nodupKeys.sublist List.filter_sublist⟩

theorem lookup_keep (t : Table β) (p : β → Bool) (key : Bytes) :
    (t.keep p).lookup key = (t.lookup key).filter p := by
  ext b
  have hmem : ∀ (u : Table β), u.lookup key = some b ↔ ⟨key, b⟩ ∈ u.entries := fun _ =>
    AList.mem_lookup_iff
  rw [hmem, Option.filter_eq_some_iff, hmem]
  simp [keep]

end Table

end OpenMesh.Core.Buffers
