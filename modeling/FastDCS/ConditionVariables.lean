import Mathlib.Data.List.Basic
import Mathlib.Order.Lattice

/-!
Threads that wait on condition variables. A thread is a value, and the threads
of a system are a list of them; waking a thread changes its value. A signal
wakes one of the waiting threads, whichever the scheduler picks.
-/

namespace FastDCS

universe u

/-- Which threads wait on the condition variable, which were woken and have not
run yet, and what a thread is once it is woken. -/
structure ConditionVariable (τ : Type u) where
  waiting : τ → Bool
  woken : τ → Bool
  wake : τ → τ
  woken_wake : ∀ t, waiting t = true → woken (wake t) = true
  waiting_wake : ∀ t, waiting t = true → waiting (wake t) = false
  woken_of_waiting : ∀ t, waiting t = true → woken t = false

namespace ConditionVariable

variable {τ : Type u} (c d : ConditionVariable τ)

def signal (pick : Nat) (threads : List τ) : Option (List τ) :=
  if threads.any c.waiting then
    match threads[pick]? with
    | some t => if c.waiting t then some (threads.set pick (c.wake t)) else none
    | none => none
  else some threads

def broadcast (threads : List τ) : List τ :=
  threads.map fun t => if c.waiting t then c.wake t else t

/-- While a thread waits, at least so many woken ones have still to run. -/
def Covered (n : Nat) (threads : List τ) : Prop :=
  (∃ t ∈ threads, c.waiting t = true) → n ≤ threads.countP c.woken

/-- Waking a thread that waits on `d` is nothing to `c`. -/
def Ignores : Prop :=
  ∀ t, d.waiting t = true → c.waiting (d.wake t) = c.waiting t ∧ c.woken (d.wake t) = c.woken t

variable {c d} {n : Nat} {threads : List τ} {t t' : τ} {k : Nat}

theorem covered_zero : c.Covered 0 threads := fun _ => Nat.zero_le _

theorem Covered.mono {m : Nat} (h : c.Covered n threads) (hle : m ≤ n) : c.Covered m threads :=
  fun hwaiting => hle.trans (h hwaiting)

theorem Covered.exists_woken (h : c.Covered n threads) (hn : 0 < n)
    (hwaiting : ∃ t ∈ threads, c.waiting t = true) : ∃ t ∈ threads, c.woken t = true :=
  List.countP_pos_iff.mp (hn.trans_le (h hwaiting))

/-- A thread that changes takes at most one wake-up away, if it does not begin
to wait. -/
theorem Covered.set (h : c.Covered n threads) (hk : threads[k]? = some t)
    (hwaiting : c.waiting t' = true → c.waiting t = true) :
    c.Covered (n - if c.woken t = true ∧ c.woken t' = false then 1 else 0)
      (threads.set k t') := by
  intro hexists
  obtain ⟨hlt, hget⟩ := List.getElem?_eq_some_iff.mp hk
  have hbefore : ∃ u ∈ threads, c.waiting u = true := by
    obtain ⟨u, hu, huw⟩ := hexists
    rcases List.mem_or_eq_of_mem_set hu with hold | rfl
    · exact ⟨u, hold, huw⟩
    · exact ⟨t, List.mem_of_getElem? hk, hwaiting huw⟩
  have hcount := h hbefore
  rw [List.countP_set hlt, hget]
  have hpos : c.woken t = true → 0 < threads.countP c.woken := fun hwoken =>
    List.countP_pos_iff.mpr ⟨t, List.mem_of_getElem? hk, hwoken⟩
  cases hold : c.woken t with
  | true =>
      have := hpos hold
      cases hnew : c.woken t' <;> simp <;> omega
  | false => cases hnew : c.woken t' <;> simp <;> omega

theorem Covered.set_same (h : c.Covered n threads) (hk : threads[k]? = some t)
    (hwaiting : c.waiting t' = c.waiting t) (hwoken : c.woken t' = c.woken t) :
    c.Covered n (threads.set k t') := by
  have hset := h.set hk fun hw => hwaiting.symm.trans hw
  rwa [if_neg (by rw [hwoken]; simp), Nat.sub_zero] at hset

theorem Covered.wake (h : c.Covered n threads) (hk : threads[k]? = some t)
    (hwaiting : c.waiting t = true) :
    c.Covered (n + 1) (threads.set k (c.wake t)) := by
  intro hexists
  obtain ⟨hlt, hget⟩ := List.getElem?_eq_some_iff.mp hk
  have hcount := h ⟨t, List.mem_of_getElem? hk, hwaiting⟩
  rw [List.countP_set hlt, hget, c.woken_wake t hwaiting, c.woken_of_waiting t hwaiting]
  simpa using hcount

/-- A signal is one more wake-up. -/
theorem Covered.signal (h : c.Covered n threads) {pick : Nat} {threads' : List τ}
    (hsignal : c.signal pick threads = some threads') : c.Covered (n + 1) threads' := by
  unfold ConditionVariable.signal at hsignal
  split_ifs at hsignal with hany
  · split at hsignal
    · next t ht =>
        split_ifs at hsignal with hwaiting
        obtain rfl := Option.some.inj hsignal
        exact h.wake ht hwaiting
    · cases hsignal
  · obtain rfl := Option.some.inj hsignal
    rintro ⟨t, ht, hwaiting⟩
    exact absurd (List.any_eq_true.mpr ⟨t, ht, hwaiting⟩) hany

theorem Covered.signal_of_ignores (h : c.Covered n threads) (hignores : c.Ignores d) {pick : Nat}
    {threads' : List τ} (hsignal : d.signal pick threads = some threads') :
    c.Covered n threads' := by
  unfold ConditionVariable.signal at hsignal
  split_ifs at hsignal with hany
  · split at hsignal
    · next t ht =>
        split_ifs at hsignal with hwaiting
        obtain rfl := Option.some.inj hsignal
        exact h.set_same ht (hignores t hwaiting).1 (hignores t hwaiting).2
    · cases hsignal
  · obtain rfl := Option.some.inj hsignal
    exact h

theorem exists_signal (c : ConditionVariable τ) (threads : List τ) :
    ∃ pick threads', c.signal pick threads = some threads' := by
  unfold ConditionVariable.signal
  cases hany : threads.any c.waiting with
  | false => exact ⟨0, threads, rfl⟩
  | true =>
      obtain ⟨t, ht, hwaiting⟩ := List.any_eq_true.mp hany
      obtain ⟨pick, hpick⟩ := List.getElem?_of_mem ht
      refine ⟨pick, threads.set pick (c.wake t), ?_⟩
      rw [if_pos rfl, hpick]
      exact if_pos hwaiting

theorem covered_broadcast (threads : List τ) : c.Covered n (c.broadcast threads) := by
  rintro ⟨t, ht, hwaiting⟩
  obtain ⟨u, _, rfl⟩ := List.mem_map.mp ht
  split_ifs at hwaiting with hu
  · rw [c.waiting_wake u hu] at hwaiting
    cases hwaiting
  · exact absurd hwaiting hu

theorem Covered.broadcast_of_ignores (h : c.Covered n threads) (hignores : c.Ignores d) :
    c.Covered n (d.broadcast threads) := by
  have hsame : ∀ t, c.waiting (if d.waiting t then d.wake t else t) = c.waiting t ∧
      c.woken (if d.waiting t then d.wake t else t) = c.woken t := by
    intro t
    split_ifs with hwaiting
    · exact hignores t hwaiting
    · exact ⟨rfl, rfl⟩
  rintro ⟨t, ht, hwaiting⟩
  obtain ⟨u, hu, rfl⟩ := List.mem_map.mp ht
  rw [broadcast, List.countP_map]
  have hcount := h ⟨u, hu, (hsame u).1 ▸ hwaiting⟩
  refine hcount.trans_eq (List.countP_congr fun t _ => ?_)
  exact Bool.eq_iff_iff.mp (hsame t).2.symm

/-- What holds of every thread and survives its waking survives a signal. -/
theorem forall_signal {P : τ → Prop} (hwake : ∀ t, P t → P (c.wake t))
    (h : ∀ t ∈ threads, P t) {pick : Nat} {threads' : List τ}
    (hsignal : c.signal pick threads = some threads') : ∀ t ∈ threads', P t := by
  unfold ConditionVariable.signal at hsignal
  split_ifs at hsignal with hany
  · split at hsignal
    · next t ht =>
        split_ifs at hsignal with hwaiting
        obtain rfl := Option.some.inj hsignal
        intro u hu
        rcases List.mem_or_eq_of_mem_set hu with hold | rfl
        · exact h u hold
        · exact hwake t (h t (List.mem_of_getElem? ht))
    · cases hsignal
  · obtain rfl := Option.some.inj hsignal
    exact h

theorem forall_broadcast {P : τ → Prop} (hwake : ∀ t, P t → P (c.wake t))
    (h : ∀ t ∈ threads, P t) : ∀ t ∈ c.broadcast threads, P t := by
  intro t ht
  obtain ⟨u, hu, rfl⟩ := List.mem_map.mp ht
  split_ifs
  · exact hwake u (h u hu)
  · exact h u hu

theorem forall_set {P : τ → Prop} (h : ∀ t ∈ threads, P t) (ht' : P t') :
    ∀ u ∈ threads.set k t', P u := by
  intro u hu
  rcases List.mem_or_eq_of_mem_set hu with hold | rfl
  · exact h u hold
  · exact ht'

end ConditionVariable

end FastDCS
