import Mathlib

namespace OpenMesh.Library.Runs

variable {σ ι α : Type*}

/-- The moves of a run, newest first, each with the state it was made in. -/
abbrev History (σ ι : Type*) := List (σ × ι)

/-- Runs of a machine from a fixed state. A move may be forbidden on account of
everything that happened before it, so `ok` sees the history as well. -/
inductive Run (step : σ → ι → σ) (ok : History σ ι → σ → ι → Prop) (s₀ : σ) :
    History σ ι → σ → Prop
  | start : Run step ok s₀ [] s₀
  | move {h : History σ ι} {s : σ} {i : ι} :
      Run step ok s₀ h s → ok h s i → Run step ok s₀ ((s, i) :: h) (step s i)

namespace Run

variable {step : σ → ι → σ} {ok ok' : History σ ι → σ → ι → Prop} {s₀ : σ}

theorem invariant (inv : History σ ι → σ → Prop) (hstart : inv [] s₀)
    (hmove : ∀ h s i, Run step ok s₀ h s → inv h s → ok h s i → inv ((s, i) :: h) (step s i))
    {h : History σ ι} {s : σ} (run : Run step ok s₀ h s) : inv h s := by
  induction run with
  | start => exact hstart
  | move run hok ih => exact hmove _ _ _ run ih hok

theorem mono (himp : ∀ h s i, ok h s i → ok' h s i) {h : History σ ι} {s : σ}
    (run : Run step ok s₀ h s) : Run step ok' s₀ h s := by
  induction run with
  | start => exact .start
  | move _ hok ih => exact .move ih (himp _ _ _ hok)

theorem restrict {P : σ → ι → Prop} {h : History σ ι} {s : σ} (run : Run step ok s₀ h s)
    (hall : ∀ m ∈ h, P m.1 m.2) : Run step (fun h s i => ok h s i ∧ P s i) s₀ h s := by
  induction run with
  | start => exact .start
  | move _ hok ih =>
    have hcons := List.forall_mem_cons.mp hall
    exact .move (ih hcons.2) ⟨hok, hcons.1⟩

theorem cut {newer older : History σ ι} {s t : σ} {i : ι}
    (run : Run step ok s₀ (newer ++ (s, i) :: older) t) :
    Run step ok s₀ older s ∧ ok older s i := by
  induction newer generalizing t with
  | nil => cases run with | move run hok => exact ⟨run, hok⟩
  | cons e newer ih => cases run with | move run _ => exact ih run

theorem of_mem {h : History σ ι} {t : σ} (run : Run step ok s₀ h t) {m : σ × ι} (hm : m ∈ h) :
    ∃ newer older, h = newer ++ m :: older ∧ Run step ok s₀ older m.1 ∧ ok older m.1 m.2 := by
  obtain ⟨newer, older, rfl⟩ := List.append_of_mem hm
  exact ⟨newer, older, rfl, run.cut⟩

theorem behind {newer older : History σ ι} {s t : σ} {i : ι}
    (run : Run step ok s₀ (newer ++ (s, i) :: older) t) :
    newer = [] ∧ t = step s i ∨ ∃ m ∈ newer, m.1 = step s i := by
  induction newer generalizing t with
  | nil => cases run with | move _ _ => exact Or.inl ⟨rfl, rfl⟩
  | cons m newer ih =>
    right
    cases run with
    | move run _ =>
      obtain ⟨rfl, rfl⟩ | ⟨m', hm', hstate⟩ := ih run
      · exact ⟨_, List.mem_cons_self, rfl⟩
      · exact ⟨m', List.mem_cons_of_mem _ hm', hstate⟩

/-- A map of states and moves that follows every step takes runs to runs. -/
theorem simulate {σ' ι' : Type*} {step' : σ' → ι' → σ'} {ok' : History σ' ι' → σ' → ι' → Prop}
    (f : σ → σ') (g : σ → ι → ι')
    (hsim : ∀ h s i, Run step ok s₀ h s → ok h s i → f (step s i) = step' (f s) (g s i) ∧
      ok' (h.map fun m => (f m.1, g m.1 m.2)) (f s) (g s i))
    {h : History σ ι} {s : σ} (run : Run step ok s₀ h s) :
    Run step' ok' (f s₀) (h.map fun m => (f m.1, g m.1 m.2)) (f s) := by
  induction run with
  | start => exact .start
  | @move h s i run hok ih =>
    obtain ⟨hstep, hok'⟩ := hsim h s i run hok
    rw [hstep]
    exact .move ih hok'

/-- What holds at a move and is kept by every later one holds at the end. -/
theorem stable (keeps : History σ ι → σ → Prop) {newer older : History σ ι} {s t : σ} {i : ι}
    (hmove : ∀ h s i, Run step ok s₀ h s → keeps h s → ok h s i → keeps ((s, i) :: h) (step s i))
    (run : Run step ok s₀ (newer ++ (s, i) :: older) t)
    (hkeep : keeps ((s, i) :: older) (step s i)) : keeps (newer ++ (s, i) :: older) t := by
  induction newer generalizing t with
  | nil => cases run with | move _ _ => exact hkeep
  | cons e newer ih => cases run with | move run hok => exact hmove _ _ _ run (ih run) hok

def replay (step : σ → ι → σ) : History σ ι → σ → List ι → History σ ι × σ
  | h, s, [] => (h, s)
  | h, s, i :: is => replay step ((s, i) :: h) (step s i) is

def Lawful (step : σ → ι → σ) (ok : History σ ι → σ → ι → Prop) : History σ ι → σ → List ι → Prop
  | _, _, [] => True
  | h, s, i :: is => ok h s i ∧ Lawful step ok ((s, i) :: h) (step s i) is

instance decidableLawful [∀ h s i, Decidable (ok h s i)] :
    ∀ h s is, Decidable (Lawful step ok h s is)
  | _, _, [] => inferInstanceAs (Decidable True)
  | h, s, i :: is =>
    have := decidableLawful ((s, i) :: h) (step s i) is
    inferInstanceAs (Decidable (_ ∧ _))

theorem replay_moves (step : σ → ι → σ) (h : History σ ι) (s : σ) (is : List ι) :
    (replay step h s is).1.map (·.2) = is.reverse ++ h.map (·.2) := by
  induction is generalizing h s with
  | nil => rfl
  | cons i is ih => simp [replay, ih]

theorem replay_run {h : History σ ι} {s : σ} {is : List ι} (run : Run step ok s₀ h s)
    (lawful : Lawful step ok h s is) :
    Run step ok s₀ (replay step h s is).1 (replay step h s is).2 := by
  induction is generalizing h s with
  | nil => exact run
  | cons i is ih => exact ih (.move run lawful.1) lawful.2

theorem lawful_of_forall (hall : ∀ h s i, ok h s i) (h : History σ ι) (s : σ) (is : List ι) :
    Lawful step ok h s is := by
  induction is generalizing h s with
  | nil => trivial
  | cons i is ih => exact ⟨hall h s i, ih _ _⟩

def Throughout (P : History σ ι → σ → Prop) : History σ ι → σ → Prop
  | [], s => P [] s
  | m :: h, s => P (m :: h) s ∧ Throughout P h m.1

/-- A property of every move of a run, given the moves before it. -/
def Each (Q : History σ ι → σ × ι → Prop) : History σ ι → Prop
  | [] => True
  | m :: h => Q h m ∧ Each Q h

instance decidableEach {Q : History σ ι → σ × ι → Prop} [∀ h m, Decidable (Q h m)] :
    ∀ h, Decidable (Each Q h)
  | [] => inferInstanceAs (Decidable True)
  | m :: h =>
    have : Decidable (Each Q h) := decidableEach h
    inferInstanceAs (Decidable (Q h m ∧ Each Q h))

theorem Throughout.last {P : History σ ι → σ → Prop} {h : History σ ι} {s : σ}
    (hP : Throughout P h s) : P h s := by
  cases h with
  | nil => exact hP
  | cons m h => exact hP.1

theorem Throughout.first {P : History σ ι → σ → Prop} {h : History σ ι} {s : σ}
    (hP : Throughout P h s) (run : Run step ok s₀ h s) : P [] s₀ := by
  induction run with
  | start => exact hP
  | move _ _ ih => exact ih hP.2

theorem Throughout.before {P : History σ ι → σ → Prop} {newer older : History σ ι} {s t : σ} {i : ι}
    (hP : Throughout P (newer ++ (s, i) :: older) t) : P older s := by
  induction newer generalizing t with
  | nil => exact hP.2.last
  | cons m newer ih => exact ih hP.2

theorem Each.split {Q : History σ ι → σ × ι → Prop} {newer older : History σ ι} {m : σ × ι}
    (hQ : Each Q (newer ++ m :: older)) : Q older m := by
  induction newer with
  | nil => exact hQ.1
  | cons m' newer ih => exact ih hQ.2

theorem each_iff {Q : History σ ι → σ × ι → Prop} {h : History σ ι} :
    Each Q h ↔ ∀ newer m older, h = newer ++ m :: older → Q older m := by
  constructor
  · rintro hQ newer m older rfl
    exact hQ.split
  · intro hall
    induction h with
    | nil => trivial
    | cons m h ih =>
      refine ⟨hall [] m h rfl, ih fun newer m' older he => hall (m :: newer) m' older ?_⟩
      rw [he, List.cons_append]

theorem Each.mono {Q Q' : History σ ι → σ × ι → Prop} (himp : ∀ h m, Q h m → Q' h m)
    {h : History σ ι} (hQ : Each Q h) : Each Q' h :=
  each_iff.mpr fun newer m older he => himp older m (each_iff.mp hQ newer m older he)

theorem each_of_forall {Q : History σ ι → σ × ι → Prop} {h : History σ ι}
    (hall : ∀ m ∈ h, ∀ older, Q older m) : Each Q h := by
  refine each_iff.mpr fun newer m older he => hall m ?_ older
  rw [he]
  exact List.mem_append_right _ List.mem_cons_self

theorem each_iff_forall {P : σ × ι → Prop} {h : History σ ι} :
    Each (fun _ m => P m) h ↔ ∀ m ∈ h, P m := by
  constructor
  · intro hP m hm
    obtain ⟨newer, older, rfl⟩ := List.append_of_mem hm
    exact hP.split
  · exact fun hall => each_of_forall fun m hm _ => hall m hm

theorem each_congr {Q Q' : History σ ι → σ × ι → Prop}
    (hmove : ∀ h s i, Run step ok s₀ h s → ok h s i → (Q h (s, i) ↔ Q' h (s, i)))
    {h : History σ ι} {s : σ} (run : Run step ok s₀ h s) : Each Q h ↔ Each Q' h := by
  induction run with
  | start => exact Iff.rfl
  | move run hok ih => exact and_congr (hmove _ _ _ run hok) ih

/-- Where a move keeps a property exactly when it meets a condition, the property holds
throughout exactly the runs whose moves all meet it. -/
theorem throughout_iff {P : History σ ι → σ → Prop} {Q : History σ ι → σ × ι → Prop}
    (hstart : P [] s₀)
    (hmove : ∀ h s i, Run step ok s₀ h s → P h s → ok h s i →
      (P ((s, i) :: h) (step s i) ↔ Q h (s, i)))
    {h : History σ ι} {s : σ} (run : Run step ok s₀ h s) : Throughout P h s ↔ Each Q h := by
  induction run with
  | start => exact iff_of_true hstart trivial
  | @move h s i run hok ih =>
    constructor
    · rintro ⟨hP, hall⟩
      exact ⟨(hmove h s i run hall.last hok).mp hP, ih.mp hall⟩
    · rintro ⟨hQ, hall⟩
      have hbefore := ih.mpr hall
      exact ⟨(hmove h s i run hbefore.last hok).mpr hQ, hbefore⟩

end Run

/-- `q` happened, and `p` has held of everything since. -/
def Since (p q : α → Prop) : List α → Prop
  | [] => False
  | x :: xs => q x ∨ p x ∧ Since p q xs

theorem since_iff {p q : α → Prop} {xs : List α} :
    Since p q xs ↔ ∃ newer x older, xs = newer ++ x :: older ∧ q x ∧ ∀ y ∈ newer, p y := by
  induction xs with
  | nil => simp [Since]
  | cons x xs ih =>
    constructor
    · rintro (hq | ⟨hp, hs⟩)
      · exact ⟨[], x, xs, rfl, hq, by simp⟩
      · obtain ⟨newer, y, older, rfl, hq, hn⟩ := ih.mp hs
        exact ⟨x :: newer, y, older, rfl, hq, by simpa [hp] using hn⟩
    · rintro ⟨newer, y, older, he, hq, hn⟩
      cases newer with
      | nil =>
        obtain ⟨rfl, rfl⟩ := List.cons.inj he
        exact Or.inl hq
      | cons z newer =>
        obtain ⟨rfl, rfl⟩ := List.cons.inj he
        exact Or.inr ⟨hn x (by simp), ih.mpr ⟨newer, y, older, rfl, hq, fun w hw => hn w (by simp [hw])⟩⟩

theorem Since.exists {p q : α → Prop} {xs : List α} (h : Since p q xs) : ∃ x ∈ xs, q x := by
  obtain ⟨newer, x, older, rfl, hq, _⟩ := since_iff.mp h
  exact ⟨x, by simp, hq⟩

theorem exists_oldest {p : α → Prop} {xs : List α} (h : ∃ x ∈ xs, p x) :
    ∃ newer x older, xs = newer ++ x :: older ∧ p x ∧ ∀ y ∈ older, ¬ p y := by
  induction xs with
  | nil =>
    obtain ⟨x, hx, -⟩ := h
    cases hx
  | cons x xs ih =>
    by_cases hall : ∃ y ∈ xs, p y
    · obtain ⟨newer, y, older, rfl, hy, hnone⟩ := ih hall
      exact ⟨x :: newer, y, older, rfl, hy, hnone⟩
    · obtain ⟨y, hy, hp⟩ := h
      obtain rfl | hy := List.mem_cons.mp hy
      · exact ⟨[], y, xs, rfl, hp, fun z hz hpz => hall ⟨z, hz, hpz⟩⟩
      · exact absurd ⟨y, hy, hp⟩ hall

theorem sublist_of_increasing {κ : Type*} [Preorder κ] (key : α → κ) {xs ys : List α}
    (hx : xs.Pairwise (fun a b => key a < key b)) (hy : ys.Pairwise (fun a b => key a < key b))
    (hsub : xs ⊆ ys) : xs.Sublist ys := by
  have hnodup : xs.Nodup := by
    apply hx.imp
    rintro a _ h rfl
    exact lt_irrefl _ h
  have : Std.Antisymm (fun a b : α => key a < key b) := ⟨fun a b h h' => absurd h (lt_asymm h')⟩
  exact List.sublist_of_subperm_of_pairwise (List.subperm_of_subset hnodup hsub) hx hy

end OpenMesh.Library.Runs
