import Mathlib

namespace OpenMesh.Library.Windows

variable {α κ : Type*}

/-- The events that are no older than the span, oldest or newest first as they come. -/
def window (time : α → Int) (span now : Int) (events : List α) : List α :=
  events.filter fun e => now - span ≤ time e

theorem mem_window {time : α → Int} {span now : Int} {events : List α} {e : α} :
    e ∈ window time span now events ↔ e ∈ events ∧ now - span ≤ time e := by
  rw [window, List.mem_filter, decide_eq_true_eq]

theorem length_le_of_written {keys : List κ} (nodup : keys.Nodup) {events : List α}
    {w : α → κ → Prop} (unique : ∀ e k k', w e k → w e k' → k = k')
    (written : ∀ k ∈ keys, ∃ e ∈ events, w e k) : keys.length ≤ events.length := by
  classical
  have hsub : keys ⊆ events.filterMap fun e =>
      if h : ∃ k, w e k then some h.choose else none := by
    intro k hk
    obtain ⟨e, he, hw⟩ := written k hk
    refine List.mem_filterMap.mpr ⟨e, he, ?_⟩
    have hex : ∃ k, w e k := ⟨k, hw⟩
    rw [dif_pos hex, unique e _ k hex.choose_spec hw]
  exact (nodup.subperm hsub).length_le.trans (List.length_filterMap_le _ _)

theorem countP_le_add {p q r : α → Bool} (himp : ∀ a, p a → q a ∨ r a) (l : List α) :
    l.countP p ≤ l.countP q + l.countP r := by
  induction l with
  | nil => exact Nat.zero_le _
  | cons a l ih =>
    simp only [List.countP_cons]
    have hone : (if p a then 1 else 0) ≤ (if q a then 1 else 0) + (if r a then 1 else 0) := by
      have hor := himp a
      revert hor
      cases p a <;> cases q a <;> cases r a <;> simp
    omega

/-- Where at most so many events come at a time, a window has at most so many of them for each
point of time in it. -/
theorem window_length_le {time : α → Int} {now : Int} {events : List α} {rate : Nat}
    (hrate : ∀ t, events.countP (fun e => time e = t) ≤ rate) (hnow : ∀ e ∈ events, time e ≤ now)
    (span : Nat) : (window time span now events).length ≤ rate * (span + 1) := by
  rw [window, ← List.countP_eq_length_filter]
  induction span with
  | zero =>
    have heq : events.countP (fun e => now - (0 : Nat) ≤ time e) =
        events.countP (fun e => time e = now) := by
      apply List.countP_congr
      intro e he
      have := hnow e he
      simp only [decide_eq_true_eq]
      omega
    rw [heq]
    have := hrate now
    omega
  | succ span ih =>
    have hsplit : events.countP (fun e => now - (span + 1 : Nat) ≤ time e) ≤
        events.countP (fun e => now - (span : Nat) ≤ time e) +
          events.countP (fun e => time e = now - (span + 1 : Nat)) := by
      apply countP_le_add
      intro e he
      simp only [decide_eq_true_eq] at he ⊢
      omega
    have hlast := hrate (now - (span + 1 : Nat))
    rw [Nat.mul_succ]
    omega

end OpenMesh.Library.Windows
