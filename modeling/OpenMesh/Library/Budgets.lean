import OpenMesh.Library.Runs

namespace OpenMesh.Library.Budgets

open OpenMesh.Library.Runs

variable {α β σ ι : Type*}

section Tables

variable [DecidableEq α]

def total (w : β → ℕ) (t : AList fun _ : α => β) : ℕ := (t.entries.map fun x => w x.2).sum

theorem sum_kerase (w : β → ℕ) (a : α) (xs : List (Sigma fun _ : α => β)) :
    ((xs.kerase a).map fun x => w x.2).sum + ((xs.dlookup a).elim 0 w) =
      (xs.map fun x => w x.2).sum := by
  induction xs with
  | nil => rfl
  | cons x xs ih =>
    obtain ⟨k, b⟩ := x
    by_cases h : a = k
    · subst h
      have herase : List.kerase a (⟨a, b⟩ :: xs) = xs := List.kerase_cons_eq rfl
      rw [herase, List.dlookup_cons_eq, List.map_cons, List.sum_cons, add_comm]
      rfl
    · have herase : List.kerase a (⟨k, b⟩ :: xs) = ⟨k, b⟩ :: xs.kerase a := List.kerase_cons_ne h
      have hlookup : List.dlookup a (⟨k, b⟩ :: xs) = xs.dlookup a := List.dlookup_cons_ne _ _ h
      rw [herase, hlookup, List.map_cons, List.map_cons, List.sum_cons, List.sum_cons, ← ih,
        add_assoc]

theorem total_insert (w : β → ℕ) (t : AList fun _ : α => β) (a : α) (b : β) :
    total w (t.insert a b) + (t.lookup a).elim 0 w = total w t + w b := by
  rw [total, total, AList.entries_insert, List.map_cons, List.sum_cons, ← sum_kerase w a t.entries,
    add_assoc, add_comm (w b)]
  rfl

end Tables

theorem sum_indicator (p : α → Bool) (xs : List α) :
    (xs.map fun x => if p x then 1 else 0).sum = (xs.filter p).length := by
  induction xs with
  | nil => rfl
  | cons x xs ih =>
    rw [List.map_cons, List.sum_cons, ih, List.filter_cons]
    split
    · rw [List.length_cons, add_comm]
    · rw [zero_add]

def spent (cost : σ → ι → ℕ) (h : History σ ι) : ℕ := (h.map fun m => cost m.1 m.2).sum

theorem spent_cons (cost : σ → ι → ℕ) (s : σ) (i : ι) (h : History σ ι) :
    spent cost ((s, i) :: h) = cost s i + spent cost h := rfl

/-- Where every move pays for its cost out of its own income, out of what is reserved in the
state, or by earning something for good, the whole run does. -/
theorem run_budget {step : σ → ι → σ} {ok : History σ ι → σ → ι → Prop} {s₀ : σ}
    {cost income : σ → ι → ℕ} {reserve earned : σ → ℕ}
    (hmove : ∀ s i, cost s i + reserve (step s i) + earned s ≤
      reserve s + earned (step s i) + income s i)
    {h : History σ ι} {s : σ} (run : Run step ok s₀ h s) :
    spent cost h + reserve s + earned s₀ ≤ reserve s₀ + earned s + spent income h := by
  induction run with
  | start => exact le_of_eq (by rw [spent, spent, List.map_nil, List.map_nil]; omega)
  | @move h s i _ _ ih =>
    have hstep := hmove s i
    rw [spent_cons, spent_cons]
    omega

end OpenMesh.Library.Budgets
