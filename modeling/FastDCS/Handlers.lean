import Mathlib.Logic.Basic

/-!
Verification conditions of imperative handlers: programs that read and write a
state and may stop with a fault. `Ensures x s Q E` says that a handler started
in `s` either returns where `Q` holds or stops with a fault that `E` permits.
-/

namespace FastDCS.Handlers

universe u

variable {ε σ α β : Type u}

/-- `Q` holds of the value and the state the handler returns with, `E` of the
fault it stops with. -/
def Ensures (x : StateT σ (Except ε) α) (s : σ) (Q : α → σ → Prop) (E : ε → Prop) : Prop :=
  match x.run s with
  | .ok r => Q r.1 r.2
  | .error e => E e

variable {x : StateT σ (Except ε) α} {s : σ} {Q : α → σ → Prop} {E : ε → Prop}

theorem Ensures.mono {P : α → σ → Prop} {D : ε → Prop} (h : Ensures x s P D)
    (hP : ∀ a t, P a t → Q a t) (hD : ∀ e, D e → E e) : Ensures x s Q E := by
  unfold Ensures at h ⊢
  cases hx : x.run s with
  | ok r =>
      rw [hx] at h
      exact hP _ _ h
  | error e =>
      rw [hx] at h
      exact hD _ h

theorem Ensures.imp {P : α → σ → Prop} (h : Ensures x s P E) (hP : ∀ a t, P a t → Q a t) :
    Ensures x s Q E :=
  h.mono hP fun _ he => he

theorem Ensures.and {P : α → σ → Prop} (hP : Ensures x s P E) (hQ : Ensures x s Q E) :
    Ensures x s (fun a t => P a t ∧ Q a t) E := by
  unfold Ensures at hP hQ ⊢
  cases hx : x.run s with
  | ok r =>
      rw [hx] at hP hQ
      exact ⟨hP, hQ⟩
  | error e =>
      rw [hx] at hP
      exact hP

/-- What holds whenever a handler returns holds beside what it ensures. -/
theorem Ensures.and_frame {P : α → σ → Prop} (hP : Ensures x s P E)
    (hQ : Ensures x s Q fun _ => True) :
    Ensures x s (fun a t => P a t ∧ Q a t) E := by
  unfold Ensures at hP hQ ⊢
  cases hx : x.run s with
  | ok r =>
      rw [hx] at hP hQ
      exact ⟨hP, hQ⟩
  | error e =>
      rw [hx] at hP
      exact hP

/-- Two conditions that agree wherever the handler can return. -/
theorem Ensures.congr {P R : α → σ → Prop} (hP : Ensures x s P fun _ => True)
    (hQR : ∀ a t, P a t → (Q a t ↔ R a t)) : Ensures x s Q E ↔ Ensures x s R E := by
  unfold Ensures at hP ⊢
  cases hx : x.run s with
  | ok r =>
      rw [hx] at hP
      exact hQR _ _ hP
  | error e => exact Iff.rfl

theorem Ensures.of_run_eq_ok {r : α × σ} (h : Ensures x s Q E) (hrun : x.run s = .ok r) :
    Q r.1 r.2 := by
  unfold Ensures at h
  rwa [hrun] at h

theorem Ensures.of_run_eq_error {e : ε} (h : Ensures x s Q E) (hrun : x.run s = .error e) :
    E e := by
  unfold Ensures at h
  rwa [hrun] at h

theorem ensures_iff_of_ok {r : α × σ} (hrun : x.run s = .ok r) :
    Ensures x s Q E ↔ Q r.1 r.2 := by
  unfold Ensures
  rw [hrun]

theorem ensures_iff_of_error {e : ε} (hrun : x.run s = .error e) : Ensures x s Q E ↔ E e := by
  unfold Ensures
  rw [hrun]

/-- A handler none of whose faults is permitted returns. -/
theorem Ensures.returns (h : Ensures x s Q fun _ => False) : ∃ r, x.run s = .ok r ∧ Q r.1 r.2 := by
  unfold Ensures at h
  cases hx : x.run s with
  | ok r =>
      rw [hx] at h
      exact ⟨r, rfl, h⟩
  | error e =>
      rw [hx] at h
      exact h.elim

/-- A handler returns where the one fault that it may stop with is not possible. -/
theorem Ensures.returns_of_ne {e : ε} {R : α → σ → Prop} (h : Ensures x s Q (· = e))
    (hne : Ensures x s R (· ≠ e)) : ∃ r, x.run s = .ok r ∧ Q r.1 r.2 := by
  unfold Ensures at h hne
  cases hx : x.run s with
  | ok r =>
      rw [hx] at h
      exact ⟨r, rfl, h⟩
  | error e' =>
      rw [hx] at h hne
      exact absurd h hne

@[simp] theorem ensures_pure (a : α) :
    Ensures (pure a : StateT σ (Except ε) α) s Q E ↔ Q a s := Iff.rfl

@[simp] theorem ensures_throw (e : ε) :
    Ensures (throw e : StateT σ (Except ε) α) s Q E ↔ E e := Iff.rfl

@[simp] theorem ensures_get {Q : σ → σ → Prop} :
    Ensures (get : StateT σ (Except ε) σ) s Q E ↔ Q s s := Iff.rfl

@[simp] theorem ensures_modify (f : σ → σ) {Q : PUnit → σ → Prop} :
    Ensures (modify f : StateT σ (Except ε) PUnit) s Q E ↔ Q ⟨⟩ (f s) := Iff.rfl

/-- Sequential composition: the first handler returns where the rest is right. -/
@[simp] theorem ensures_bind {f : α → StateT σ (Except ε) β} {Q : β → σ → Prop} :
    Ensures (x >>= f) s Q E ↔ Ensures x s (fun a t => Ensures (f a) t Q E) E := by
  unfold Ensures
  rw [StateT.run_bind]
  cases x.run s with
  | ok r => exact Iff.rfl
  | error e => exact Iff.rfl

theorem ensures_ite {c : Prop} [Decidable c] {x y : StateT σ (Except ε) α} :
    Ensures (if c then x else y) s Q E ↔ (c → Ensures x s Q E) ∧ (¬c → Ensures y s Q E) := by
  rcases em c with hc | hc <;> simp [hc]

section Invariants

variable {I : σ → Prop}

/-- A handler keeps an invariant of the state where it returns. -/
def Maintains (I : σ → Prop) (E : ε → Prop) (x : StateT σ (Except ε) α) : Prop :=
  ∀ s, I s → Ensures x s (fun _ t => I t) E

theorem Maintains.bind {f : α → StateT σ (Except ε) β} (hx : Maintains I E x)
    (hf : ∀ a, Maintains I E (f a)) : Maintains I E (x >>= f) := by
  intro s hs
  rw [ensures_bind]
  exact (hx s hs).imp fun a t ht => hf a t ht

theorem Maintains.ite {c : Prop} [Decidable c] {y : StateT σ (Except ε) α}
    (hx : Maintains I E x) (hy : Maintains I E y) : Maintains I E (if c then x else y) := by
  intro s hs
  rw [ensures_ite]
  exact ⟨fun _ => hx s hs, fun _ => hy s hs⟩

theorem maintains_pure (a : α) : Maintains I E (pure a : StateT σ (Except ε) α) :=
  fun _ hs => hs

theorem maintains_get : Maintains I E (get : StateT σ (Except ε) σ) := fun _ hs => hs

theorem maintains_throw {e : ε} (he : E e) : Maintains I E (throw e : StateT σ (Except ε) α) :=
  fun _ _ => he

theorem maintains_modify {f : σ → σ} (hf : ∀ s, I s → I (f s)) :
    Maintains I E (modify f : StateT σ (Except ε) PUnit) := hf

end Invariants

end FastDCS.Handlers
