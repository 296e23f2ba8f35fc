import Mathlib.Logic.Basic
import Mathlib.Data.Option.Basic

/-!
Runs of a labelled transition system given by a partial step function. The
label of a step carries every choice the step depends on, so a run is
determined by its first state and its labels.
-/

namespace FastDCS.Runs

universe u v

variable {σ : Type u} {α : Type v}

/-- The state reached by taking the actions in order, when each one is enabled
in the state where it is taken. -/
def run (step : σ → α → Option σ) : σ → List α → Option σ
  | s, [] => some s
  | s, a :: as => (step s a).bind fun s' => run step s' as

/-- Every action of the run is taken in a state where `allowed` permits it. -/
def Along (step : σ → α → Option σ) (allowed : σ → α → Prop) : σ → List α → Prop
  | _, [] => True
  | s, a :: as => allowed s a ∧ ∀ s', step s a = some s' → Along step allowed s' as

variable {step : σ → α → Option σ}

instance decidableAlong {allowed : σ → α → Prop} [∀ s a, Decidable (allowed s a)] :
    ∀ s as, Decidable (Along step allowed s as)
  | _, [] => isTrue trivial
  | s, a :: as =>
      match h : step s a with
      | none => decidable_of_iff (allowed s a) (by simp [Along, h])
      | some s' =>
          have : Decidable (Along step allowed s' as) := decidableAlong s' as
          decidable_of_iff (allowed s a ∧ Along step allowed s' as) (by simp [Along, h])

@[simp] theorem run_nil (s : σ) : run step s [] = some s := rfl

theorem run_cons_eq_some {s t : σ} {a : α} {as : List α} :
    run step s (a :: as) = some t ↔
      ∃ s', step s a = some s' ∧ run step s' as = some t := by
  simp [run, Option.bind_eq_some_iff]

theorem run_append {s t : σ} {as bs : List α} :
    run step s (as ++ bs) = some t ↔
      ∃ u, run step s as = some u ∧ run step u bs = some t := by
  induction as generalizing s with
  | nil => simp
  | cons a as ih =>
      rw [List.cons_append, run_cons_eq_some]
      constructor
      · rintro ⟨s', hs', hrest⟩
        obtain ⟨u, hu, ht⟩ := ih.mp hrest
        exact ⟨u, run_cons_eq_some.mpr ⟨s', hs', hu⟩, ht⟩
      · rintro ⟨u, hu, ht⟩
        obtain ⟨s', hs', hrest⟩ := run_cons_eq_some.mp hu
        exact ⟨s', hs', ih.mpr ⟨u, hrest, ht⟩⟩

theorem along_of_forall {allowed : α → Prop} {as : List α} (h : ∀ a ∈ as, allowed a) (s : σ) :
    Along step (fun _ a => allowed a) s as := by
  induction as generalizing s with
  | nil => trivial
  | cons a as ih =>
      exact ⟨h a List.mem_cons_self,
        fun s' _ => ih (fun b hb => h b (List.mem_cons_of_mem _ hb)) s'⟩

/-- What every permitted step preserves holds at the end of every run whose
steps are all permitted. -/
theorem invariant_along {allowed : σ → α → Prop} {inv : σ → Prop}
    (hstep : ∀ s a s', inv s → allowed s a → step s a = some s' → inv s')
    {s t : σ} {as : List α} (hs : inv s) (hall : Along step allowed s as)
    (hrun : run step s as = some t) : inv t := by
  induction as generalizing s with
  | nil =>
      obtain rfl : s = t := by simpa using hrun
      exact hs
  | cons a as ih =>
      obtain ⟨s', hs', hrest⟩ := run_cons_eq_some.mp hrun
      exact ih (hstep s a s' hs hall.1 hs') (hall.2 s' hs') hrest

theorem invariant {inv : σ → Prop}
    (hstep : ∀ s a s', inv s → step s a = some s' → inv s')
    {s t : σ} {as : List α} (hs : inv s) (hrun : run step s as = some t) : inv t := by
  induction as generalizing s with
  | nil =>
      obtain rfl : s = t := by simpa using hrun
      exact hs
  | cons a as ih =>
      obtain ⟨s', hs', hrest⟩ := run_cons_eq_some.mp hrun
      exact ih (hstep s a s' hs hs') hrest

/-- A measure that every step makes smaller bounds the number of steps. -/
theorem length_add_le {inv : σ → Prop} (measure : σ → Nat)
    (hstep : ∀ s a s', inv s → step s a = some s' → inv s' ∧ measure s' < measure s)
    {s t : σ} {as : List α} (hs : inv s) (hrun : run step s as = some t) :
    as.length + measure t ≤ measure s := by
  induction as generalizing s with
  | nil =>
      obtain rfl : s = t := by simpa using hrun
      exact Nat.le_of_eq (Nat.zero_add _)
  | cons a as ih =>
      obtain ⟨s', hs', hrest⟩ := run_cons_eq_some.mp hrun
      obtain ⟨hinv, hlt⟩ := hstep s a s' hs hs'
      have hle := ih hinv hrest
      rw [List.length_cons]
      omega

/-- The property holds in every state the run reaches. -/
def Throughout (step : σ → α → Option σ) (P : σ → Prop) : σ → List α → Prop :=
  Along step fun s a => ∀ s', step s a = some s' → P s'

theorem forall_next_iff {s s' : σ} {a : α} (h : step s a = some s') {Q : σ → Prop} :
    (∀ u, step s a = some u → Q u) ↔ Q s' := by
  rw [h]
  constructor
  · intro hall
    exact hall s' rfl
  · intro hQ u hu
    exact Option.some.inj hu ▸ hQ

/-- In the runs that meet an assumption, where permitted steps keep the invariant and a
step has the property behind it exactly when it is permitted, the property holds
throughout a run exactly when all its steps are permitted. -/
theorem throughout_iff_along_under {assumed allowed : σ → α → Prop} {P inv : σ → Prop}
    (hstep : ∀ s a s', inv s → assumed s a → step s a = some s' →
      (P s' ↔ allowed s a) ∧ (allowed s a → inv s'))
    {s t : σ} {as : List α} (hinv : inv s) (hassumed : Along step assumed s as)
    (hrun : run step s as = some t) :
    Throughout step P s as ↔ Along step allowed s as := by
  induction as generalizing s with
  | nil => exact Iff.rfl
  | cons a as ih =>
      obtain ⟨s', hs', hrest⟩ := run_cons_eq_some.mp hrun
      obtain ⟨hiff, hkept⟩ := hstep s a s' hinv hassumed.1 hs'
      have hassumed' := hassumed.2 s' hs'
      rw [Throughout, Along, Along, forall_next_iff hs', forall_next_iff hs', forall_next_iff hs']
      constructor
      · rintro ⟨hP', hall⟩
        have hallowed := hiff.mp hP'
        exact ⟨hallowed, (ih (hkept hallowed) hassumed' hrest).mp hall⟩
      · rintro ⟨hallowed, hall⟩
        exact ⟨hiff.mpr hallowed, (ih (hkept hallowed) hassumed' hrest).mpr hall⟩

/-- The same in all runs, where the invariant is kept by every step from a state with
the property. -/
theorem throughout_iff_along {allowed : σ → α → Prop} {P inv : σ → Prop}
    (hstep : ∀ s a s', P s → inv s → step s a = some s' → (P s' ↔ allowed s a) ∧ inv s')
    {s t : σ} {as : List α} (hP : P s) (hinv : inv s) (hrun : run step s as = some t) :
    Throughout step P s as ↔ Along step allowed s as := by
  have hassumed : Along step (fun _ _ => True) s as := along_of_forall (fun _ _ => trivial) s
  have hboth : ∀ s a s', P s ∧ inv s → True → step s a = some s' →
      (P s' ↔ allowed s a) ∧ (allowed s a → P s' ∧ inv s') := by
    rintro s a s' ⟨hP, hinv⟩ - h
    obtain ⟨hiff, hkept⟩ := hstep s a s' hP hinv h
    exact ⟨hiff, fun hallowed => ⟨hiff.mpr hallowed, hkept⟩⟩
  exact throughout_iff_along_under hboth ⟨hP, hinv⟩ hassumed hrun

/-- Where every step from a state with the property has a result and keeps the
property exactly when it is permitted, no run needs to be given. -/
theorem throughout_iff_along_of_progress {allowed : σ → α → Prop} {P : σ → Prop}
    (hstep : ∀ s a, P s → ∃ s', step s a = some s' ∧ (P s' ↔ allowed s a)) {s : σ} (hP : P s)
    (as : List α) : Throughout step P s as ↔ Along step allowed s as := by
  induction as generalizing s with
  | nil => exact Iff.rfl
  | cons a as ih =>
      obtain ⟨s', hs', hiff⟩ := hstep s a hP
      rw [Throughout, Along, Along, forall_next_iff hs', forall_next_iff hs', forall_next_iff hs']
      constructor
      · rintro ⟨hP', hall⟩
        exact ⟨hiff.mp hP', (ih hP').mp hall⟩
      · rintro ⟨hallowed, hall⟩
        exact ⟨hiff.mpr hallowed, (ih (hiff.mpr hallowed)).mpr hall⟩

end FastDCS.Runs
