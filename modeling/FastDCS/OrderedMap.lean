import Mathlib.Order.Lattice
import Mathlib.Data.List.Pairwise
import Mathlib.Data.List.Nodup
import Mathlib.Data.List.Perm.Basic
import Mathlib.Tactic.SplitIfs

/-!
Finite maps kept in key order, with the operations of an ordered associative
container: look up, insert without overwriting, erase, change a stored value
and walk over the values in key order with a loop state.
-/

namespace FastDCS

universe u v w x

/-- An association list in strictly increasing key order. -/
@[ext] structure OrderedMap (κ : Type u) (ν : Type v) [LinearOrder κ] where
  entries : List (κ × ν)
  sorted : entries.Pairwise fun a b => a.1 < b.1

namespace OrderedMap

variable {κ : Type u} {ν : Type v} {σ : Type w} {μ : Type x}

section Lists

variable [LinearOrder κ]

def lookup (k : κ) : List (κ × ν) → Option ν
  | [] => none
  | (k', x) :: rest => if k = k' then some x else lookup k rest

/-- Put `f old` under a key, where `old` is what the key held before. -/
def upsert (k : κ) (f : Option ν → ν) : List (κ × ν) → List (κ × ν)
  | [] => [(k, f none)]
  | (k', x) :: rest =>
      if k < k' then (k, f none) :: (k', x) :: rest
      else if k = k' then (k, f (some x)) :: rest
      else (k', x) :: upsert k f rest

theorem mem_upsert_key {k : κ} {f : Option ν → ν} {l : List (κ × ν)} {e : κ × ν}
    (he : e ∈ upsert k f l) : e.1 = k ∨ e ∈ l := by
  induction l with
  | nil =>
      left
      simp only [upsert, List.mem_singleton] at he
      rw [he]
  | cons head rest ih =>
      obtain ⟨k', x⟩ := head
      rw [upsert] at he
      split_ifs at he with hlt heq
      · rcases List.mem_cons.mp he with rfl | he
        · exact Or.inl rfl
        · exact Or.inr he
      · rcases List.mem_cons.mp he with rfl | he
        · exact Or.inl rfl
        · exact Or.inr (List.mem_cons_of_mem _ he)
      · rcases List.mem_cons.mp he with rfl | he
        · exact Or.inr List.mem_cons_self
        · exact (ih he).imp id (List.mem_cons_of_mem _)

theorem upsert_sorted {k : κ} {f : Option ν → ν} {l : List (κ × ν)}
    (h : l.Pairwise fun a b => a.1 < b.1) :
    (upsert k f l).Pairwise fun a b => a.1 < b.1 := by
  induction l with
  | nil => simp [upsert]
  | cons head rest ih =>
      obtain ⟨k', x⟩ := head
      have hhead := (List.pairwise_cons.mp h).1
      have hrest := (List.pairwise_cons.mp h).2
      rw [upsert]
      split_ifs with hlt heq
      · refine List.pairwise_cons.mpr ⟨?_, h⟩
        intro e he
        rcases List.mem_cons.mp he with rfl | he
        · exact hlt
        · exact lt_trans hlt (hhead e he)
      · subst heq
        exact List.pairwise_cons.mpr ⟨hhead, hrest⟩
      · refine List.pairwise_cons.mpr ⟨?_, ih hrest⟩
        intro e he
        rcases mem_upsert_key he with hk | he
        · rw [hk]
          exact lt_of_le_of_ne (not_lt.mp hlt) (Ne.symm heq)
        · exact hhead e he

theorem lookup_eq_none_of_forall_ne {k : κ} {l : List (κ × ν)}
    (h : ∀ e ∈ l, e.1 ≠ k) : lookup k l = none := by
  induction l with
  | nil => rfl
  | cons head rest ih =>
      obtain ⟨k', x⟩ := head
      have hne : k ≠ k' := fun heq => h (k', x) List.mem_cons_self heq.symm
      simp [lookup, hne, ih fun e he => h e (List.mem_cons_of_mem _ he)]

theorem lookup_upsert {k k' : κ} {f : Option ν → ν} {l : List (κ × ν)}
    (h : l.Pairwise fun a b => a.1 < b.1) :
    lookup k' (upsert k f l) = if k' = k then some (f (lookup k l)) else lookup k' l := by
  induction l with
  | nil => simp [upsert, lookup]
  | cons head rest ih =>
      obtain ⟨k₀, x⟩ := head
      have hhead := (List.pairwise_cons.mp h).1
      have hrest := (List.pairwise_cons.mp h).2
      rw [upsert]
      by_cases hlt : k < k₀
      · -- the new key stands before every stored one, so it was absent
        have hnone : lookup k ((k₀, x) :: rest) = none := by
          apply lookup_eq_none_of_forall_ne
          intro e he
          rcases List.mem_cons.mp he with rfl | he
          · exact ne_of_gt hlt
          · exact ne_of_gt (lt_trans hlt (hhead e he))
        rw [if_pos hlt, hnone]
        by_cases hkk : k' = k <;> simp [lookup, hkk]
      · rw [if_neg hlt]
        by_cases heq : k = k₀
        · subst heq
          by_cases hkk : k' = k <;> simp [lookup, hkk]
        · rw [if_neg heq]
          by_cases hk₀ : k' = k₀
          · subst hk₀
            simp [lookup, Ne.symm heq]
          · simp [lookup, hk₀, heq, ih hrest]

theorem upsert_of_some {k : κ} {f : Option ν → ν} {l : List (κ × ν)} {x : ν}
    (h : l.Pairwise fun a b => a.1 < b.1) (hx : lookup k l = some x) (hf : f (some x) = x) :
    upsert k f l = l := by
  induction l with
  | nil => cases hx
  | cons head rest ih =>
      obtain ⟨k', x'⟩ := head
      obtain ⟨hhead, hrest⟩ := List.pairwise_cons.mp h
      rw [lookup] at hx
      rw [upsert]
      by_cases heq : k = k'
      · subst heq
        rw [if_pos rfl] at hx
        obtain rfl := Option.some.inj hx
        rw [if_neg (lt_irrefl k), if_pos rfl, hf]
      · rw [if_neg heq] at hx
        have hnlt : ¬k < k' := by
          intro hlt
          have hnone := lookup_eq_none_of_forall_ne (k := k) (l := rest) fun e he =>
            ne_of_gt (lt_trans hlt (hhead e he))
          rw [hnone] at hx
          cases hx
        rw [if_neg hnlt, if_neg heq, ih hrest hx]

theorem upsert_perm {k : κ} {f : Option ν → ν} {l : List (κ × ν)} (h : lookup k l = none) :
    (upsert k f l).Perm ((k, f none) :: l) := by
  induction l with
  | nil => exact List.Perm.refl _
  | cons head rest ih =>
      obtain ⟨k', x⟩ := head
      rw [lookup] at h
      rw [upsert]
      split_ifs at h ⊢
      · exact List.Perm.refl _
      · exact ((ih h).cons _).trans (List.Perm.swap _ _ _)

theorem lookup_map {k : κ} {f : ν → μ} {l : List (κ × ν)} :
    lookup k (l.map fun e => (e.1, f e.2)) = (lookup k l).map f := by
  induction l with
  | nil => rfl
  | cons head rest ih =>
      obtain ⟨k', x⟩ := head
      rw [List.map_cons, lookup, lookup]
      split_ifs
      · rfl
      · exact ih

theorem upsert_map {k : κ} {f : ν → μ} {x : ν} {l : List (κ × ν)} :
    (upsert k (fun old => old.getD x) l).map (fun e => (e.1, f e.2)) =
      upsert k (fun old => old.getD (f x)) (l.map fun e => (e.1, f e.2)) := by
  induction l with
  | nil => rfl
  | cons head rest ih =>
      obtain ⟨k', x'⟩ := head
      rw [List.map_cons, upsert, upsert]
      split_ifs
      · rfl
      · rfl
      · rw [List.map_cons, ih]

theorem lookup_filter_ne {k k' : κ} {l : List (κ × ν)} :
    lookup k' (l.filter fun e => decide (e.1 ≠ k)) =
      if k' = k then none else lookup k' l := by
  induction l with
  | nil => simp [lookup]
  | cons head rest ih =>
      obtain ⟨k₀, x⟩ := head
      by_cases hk₀ : k₀ = k
      · subst hk₀
        simp only [ne_eq, not_true_eq_false, decide_false, Bool.false_eq_true,
          not_false_eq_true, List.filter_cons_of_neg, ih]
        split_ifs with hkk
        · rfl
        · simp [lookup, hkk]
      · rw [List.filter_cons_of_pos (by simpa using hk₀)]
        by_cases hkk : k' = k₀
        · subst hkk
          simp [lookup, hk₀]
        · simp only [lookup, if_neg hkk, ih]

theorem perm_filter_ne {k : κ} {x : ν} {l : List (κ × ν)} (h : l.Pairwise fun a b => a.1 < b.1)
    (hx : lookup k l = some x) : l.Perm ((k, x) :: l.filter fun e => decide (e.1 ≠ k)) := by
  induction l with
  | nil => cases hx
  | cons head rest ih =>
      obtain ⟨k', x'⟩ := head
      obtain ⟨hhead, hrest⟩ := List.pairwise_cons.mp h
      rw [lookup] at hx
      split_ifs at hx with heq
      · subst heq
        obtain rfl := Option.some.inj hx
        have hkeep : rest.filter (fun e => decide (e.1 ≠ k)) = rest :=
          List.filter_eq_self.mpr fun e he => decide_eq_true (ne_of_gt (hhead e he))
        rw [List.filter_cons_of_neg (by simp), hkeep]
      · rw [List.filter_cons_of_pos (by simpa using Ne.symm heq)]
        exact ((ih hrest hx).cons _).trans (List.Perm.swap _ _ _)

theorem lookup_map_value {k k' : κ} {f : ν → ν} {l : List (κ × ν)} :
    lookup k' (l.map fun e => if e.1 = k then (e.1, f e.2) else e) =
      if k' = k then (lookup k l).map f else lookup k' l := by
  induction l with
  | nil => simp [lookup]
  | cons head rest ih =>
      obtain ⟨k₀, x⟩ := head
      by_cases hk₀ : k₀ = k
      · subst hk₀
        by_cases hkk : k' = k₀
        · subst hkk
          simp [lookup]
        · simp [lookup, hkk, ih]
      · by_cases hkk : k' = k₀
        · subst hkk
          simp [lookup, hk₀]
        · simp only [List.map_cons, if_neg hk₀, lookup, if_neg hkk, ih, if_neg (Ne.symm hk₀)]

theorem lookup_eq_some_iff {k : κ} {x : ν} {l : List (κ × ν)}
    (h : l.Pairwise fun a b => a.1 < b.1) : lookup k l = some x ↔ (k, x) ∈ l := by
  induction l with
  | nil => simp [lookup]
  | cons head rest ih =>
      obtain ⟨k₀, y⟩ := head
      have hhead := (List.pairwise_cons.mp h).1
      have hrest := (List.pairwise_cons.mp h).2
      by_cases hk : k = k₀
      · subst hk
        have hnot : (k, x) ∉ rest := fun hmem => lt_irrefl _ (hhead (k, x) hmem)
        simp [lookup, hnot, eq_comm]
      · simp [lookup, hk, ih hrest]

end Lists

/-- Walk over the values in list order. The loop body returns the next loop
state, the value left in place and whether the loop goes on. -/
def walkList (body : σ → ν → σ × ν × Bool) : σ → List (κ × ν) → σ × List (κ × ν)
  | s, [] => (s, [])
  | s, (k, x) :: rest =>
      match body s x with
      | (s', x', true) => ((walkList body s' rest).1, (k, x') :: (walkList body s' rest).2)
      | (s', x', false) => (s', (k, x') :: rest)

theorem keys_walkList (body : σ → ν → σ × ν × Bool) (s : σ) (l : List (κ × ν)) :
    (walkList body s l).2.map Prod.fst = l.map Prod.fst := by
  induction l generalizing s with
  | nil => rfl
  | cons head rest ih =>
      obtain ⟨k, x⟩ := head
      rw [walkList]
      split
      · simp [ih]
      · rfl

theorem walkList_frame {body : σ → ν → σ × ν × Bool} {r : σ → μ}
    (h : ∀ s x, r (body s x).1 = r s) (s : σ) (l : List (κ × ν)) :
    r (walkList body s l).1 = r s := by
  induction l generalizing s with
  | nil => rfl
  | cons head rest ih =>
      obtain ⟨k, x⟩ := head
      have hbody := h s x
      rw [walkList]
      split <;> rename_i heq <;> rw [heq] at hbody
      · rw [ih, hbody]
      · exact hbody

/-- What the loop body leaves of each value, the loop leaves of the list. -/
theorem mem_walkList {body : σ → ν → σ × ν × Bool} {r : ν → μ}
    (h : ∀ s x, r (body s x).2.1 = r x) {s : σ} {l : List (κ × ν)} {k : κ} {y : ν}
    (hy : (k, y) ∈ (walkList body s l).2) : ∃ x, (k, x) ∈ l ∧ r y = r x := by
  induction l generalizing s with
  | nil => simp [walkList] at hy
  | cons head rest ih =>
      obtain ⟨k₀, x₀⟩ := head
      have hbody := h s x₀
      rcases hb : body s x₀ with ⟨s', y₀, goOn⟩
      rw [hb] at hbody
      rw [walkList, hb] at hy
      cases goOn with
      | true =>
          rcases List.mem_cons.mp hy with heq | hrest
          · obtain ⟨rfl, rfl⟩ := Prod.mk.inj heq
            exact ⟨x₀, List.mem_cons_self, hbody⟩
          · obtain ⟨x, hx, hr⟩ := ih hrest
            exact ⟨x, List.mem_cons_of_mem _ hx, hr⟩
      | false =>
          rcases List.mem_cons.mp hy with heq | hrest
          · obtain ⟨rfl, rfl⟩ := Prod.mk.inj heq
            exact ⟨x₀, List.mem_cons_self, hbody⟩
          · exact ⟨y, List.mem_cons_of_mem _ hrest, rfl⟩

/-- Loop bodies that agree on the values and on related states keep the states
related and leave the same list. -/
theorem walkList_simulates {τ : Type x} (body : σ → ν → σ × ν × Bool)
    (body' : τ → ν → τ × ν × Bool) (r : σ → τ → Prop)
    (h : ∀ s t x, r s t → r (body s x).1 (body' t x).1 ∧ (body s x).2 = (body' t x).2)
    {s : σ} {t : τ} (hr : r s t) (l : List (κ × ν)) :
    r (walkList body s l).1 (walkList body' t l).1 ∧
      (walkList body s l).2 = (walkList body' t l).2 := by
  induction l generalizing s t with
  | nil => exact ⟨hr, rfl⟩
  | cons head rest ih =>
      obtain ⟨k, x⟩ := head
      obtain ⟨hnext, hval⟩ := h s t x hr
      rcases hb : body s x with ⟨s', y, goOn⟩
      rcases hb' : body' t x with ⟨t', y', goOn'⟩
      rw [hb, hb'] at hnext hval
      obtain ⟨rfl, rfl⟩ := Prod.mk.inj hval
      rw [walkList, walkList, hb, hb']
      cases goOn with
      | true =>
          obtain ⟨ihr, ihl⟩ := ih hnext
          exact ⟨ihr, congrArg _ ihl⟩
      | false => exact ⟨hnext, rfl⟩

/-- The first `q` values that satisfy `p`, and the list with `f` applied to them. -/
def updateFirstList (p : ν → Bool) (f : ν → ν) : Nat → List (κ × ν) → List ν × List (κ × ν)
  | 0, l => ([], l)
  | _ + 1, [] => ([], [])
  | q + 1, (k, x) :: rest =>
      if p x then
        (x :: (updateFirstList p f q rest).1, (k, f x) :: (updateFirstList p f q rest).2)
      else ((updateFirstList p f (q + 1) rest).1, (k, x) :: (updateFirstList p f (q + 1) rest).2)

theorem keys_updateFirstList (p : ν → Bool) (f : ν → ν) (q : Nat) (l : List (κ × ν)) :
    (updateFirstList p f q l).2.map Prod.fst = l.map Prod.fst := by
  induction l generalizing q with
  | nil => cases q <;> rfl
  | cons head rest ih =>
      obtain ⟨k, x⟩ := head
      cases q with
      | zero => rfl
      | succ q =>
          rw [updateFirstList]
          split_ifs <;> simp [ih]

theorem mem_updateFirstList_fst {p : ν → Bool} {f : ν → ν} {q : Nat} {l : List (κ × ν)} {x : ν}
    (hx : x ∈ (updateFirstList p f q l).1) :
    p x = true ∧ ∃ k, (k, x) ∈ l ∧ (k, f x) ∈ (updateFirstList p f q l).2 := by
  induction l generalizing q with
  | nil => cases q <;> simp [updateFirstList] at hx
  | cons head rest ih =>
      obtain ⟨k₀, x₀⟩ := head
      cases q with
      | zero => simp [updateFirstList] at hx
      | succ q =>
          rw [updateFirstList] at hx ⊢
          split_ifs at hx ⊢ with hp
          · rcases List.mem_cons.mp hx with rfl | hx
            · exact ⟨hp, k₀, List.mem_cons_self, List.mem_cons_self⟩
            · obtain ⟨hpx, k, hk, hk'⟩ := ih hx
              exact ⟨hpx, k, List.mem_cons_of_mem _ hk, List.mem_cons_of_mem _ hk'⟩
          · obtain ⟨hpx, k, hk, hk'⟩ := ih hx
            exact ⟨hpx, k, List.mem_cons_of_mem _ hk, List.mem_cons_of_mem _ hk'⟩

theorem mem_updateFirstList_snd {p : ν → Bool} {f : ν → ν} {q : Nat} {l : List (κ × ν)}
    {k : κ} {y : ν} (hy : (k, y) ∈ (updateFirstList p f q l).2) :
    (k, y) ∈ l ∨
      ∃ x, (k, x) ∈ l ∧ p x = true ∧ y = f x ∧ x ∈ (updateFirstList p f q l).1 := by
  induction l generalizing q with
  | nil => cases q <;> simp [updateFirstList] at hy
  | cons head rest ih =>
      obtain ⟨k₀, x₀⟩ := head
      cases q with
      | zero => exact Or.inl hy
      | succ q =>
          rw [updateFirstList] at hy ⊢
          split_ifs at hy ⊢ with hp
          · rcases List.mem_cons.mp hy with heq | hy
            · obtain ⟨rfl, rfl⟩ := Prod.mk.inj heq
              exact Or.inr ⟨x₀, List.mem_cons_self, hp, rfl, List.mem_cons_self⟩
            · rcases ih hy with hy | ⟨x, hx, hpx, rfl, hmem⟩
              · exact Or.inl (List.mem_cons_of_mem _ hy)
              · exact Or.inr ⟨x, List.mem_cons_of_mem _ hx, hpx, rfl, List.mem_cons_of_mem _ hmem⟩
          · rcases List.mem_cons.mp hy with heq | hy
            · obtain ⟨rfl, rfl⟩ := Prod.mk.inj heq
              exact Or.inl List.mem_cons_self
            · rcases ih hy with hy | ⟨x, hx, hpx, rfl, hmem⟩
              · exact Or.inl (List.mem_cons_of_mem _ hy)
              · exact Or.inr ⟨x, List.mem_cons_of_mem _ hx, hpx, rfl, hmem⟩

/-- A loop that skips the values outside `p`, changes the others with `f` and
records them as `g`, and stops after a number of changes that it reads off its
state. -/
structure ChangesFirst (body : σ → ν → σ × ν × Bool) (p : ν → Bool) (f : ν → ν) (g : ν → μ)
    (quota : σ → Nat) (selected : σ → List μ) : Prop where
  skips : ∀ s x, p x = false → body s x = (s, x, true)
  stops : ∀ s x, p x = true → quota s = 0 →
    (body s x).2 = (x, false) ∧ selected (body s x).1 = selected s
  changes : ∀ s x q, p x = true → quota s = q + 1 →
    (body s x).2.1 = f x ∧ selected (body s x).1 = selected s ++ [g x] ∧
      ((body s x).2.2 = true → quota (body s x).1 = q) ∧ ((body s x).2.2 = false → q = 0)

theorem ChangesFirst.walkList {body : σ → ν → σ × ν × Bool} {p : ν → Bool} {f : ν → ν}
    {g : ν → μ} {quota : σ → Nat} {selected : σ → List μ}
    (h : ChangesFirst body p f g quota selected) (s : σ) (l : List (κ × ν)) :
    (OrderedMap.walkList body s l).2 = (updateFirstList p f (quota s) l).2 ∧
      selected (OrderedMap.walkList body s l).1 =
        selected s ++ (updateFirstList p f (quota s) l).1.map g := by
  induction l generalizing s with
  | nil => cases hq : quota s <;> simp [OrderedMap.walkList, updateFirstList]
  | cons head rest ih =>
      obtain ⟨k, x⟩ := head
      cases hp : p x with
      | false =>
          obtain ⟨ih₁, ih₂⟩ := ih s
          rw [OrderedMap.walkList, h.skips s x hp]
          cases hq : quota s with
          | zero =>
              rw [hq] at ih₁ ih₂
              simpa [updateFirstList] using And.intro ih₁ ih₂
          | succ q =>
              rw [hq] at ih₁ ih₂
              simpa [updateFirstList, hp] using And.intro ih₁ ih₂
      | true =>
          rw [OrderedMap.walkList]
          cases hq : quota s with
          | zero =>
              obtain ⟨hbody, hsel⟩ := h.stops s x hp hq
              rcases hb : body s x with ⟨s', x', goOn⟩
              rw [hb] at hbody hsel
              obtain ⟨rfl, rfl⟩ := Prod.mk.inj hbody
              simpa [updateFirstList] using hsel
          | succ q =>
              obtain ⟨hval, hsel, hmore, hlast⟩ := h.changes s x q hp hq
              rcases hb : body s x with ⟨s', x', goOn⟩
              rw [hb] at hval hsel hmore hlast
              cases goOn with
              | false =>
                  obtain rfl := hlast rfl
                  cases rest <;> simp_all [updateFirstList]
              | true =>
                  obtain ⟨ih₁, ih₂⟩ := ih s'
                  rw [hmore rfl] at ih₁ ih₂
                  simp_all [updateFirstList]

theorem walkList_findFirst (p : ν → Bool) (f : ν → ν) (found : Option ν) (l : List (κ × ν)) :
    walkList (fun s x => if p x then (some (f x), f x, false) else (s, x, true)) found l =
      (((updateFirstList p f 1 l).1.head?.map f).or found, (updateFirstList p f 1 l).2) := by
  induction l with
  | nil => simp [walkList, updateFirstList]
  | cons head rest ih =>
      obtain ⟨k, x⟩ := head
      rw [walkList, updateFirstList]
      cases hp : p x with
      | false => simp [ih]
      | true => cases rest <;> simp [updateFirstList]

variable [LinearOrder κ]

def empty : OrderedMap κ ν := ⟨[], List.Pairwise.nil⟩

def find? (m : OrderedMap κ ν) (k : κ) : Option ν := lookup k m.entries

def keys (m : OrderedMap κ ν) : List κ := m.entries.map Prod.fst

/-- Store a value under a key, keeping the value of a key that is present. -/
def insert (m : OrderedMap κ ν) (k : κ) (x : ν) : OrderedMap κ ν :=
  ⟨upsert k (fun old => old.getD x) m.entries, upsert_sorted m.sorted⟩

/-- Store a value under a key, replacing the value of a key that is present. -/
def set (m : OrderedMap κ ν) (k : κ) (x : ν) : OrderedMap κ ν :=
  ⟨upsert k (fun _ => x) m.entries, upsert_sorted m.sorted⟩

def erase (m : OrderedMap κ ν) (k : κ) : OrderedMap κ ν :=
  ⟨m.entries.filter fun e => decide (e.1 ≠ k), m.sorted.filter _⟩

/-- The map with every value sent through a function. -/
def map (m : OrderedMap κ ν) (f : ν → μ) : OrderedMap κ μ :=
  ⟨m.entries.map fun e => (e.1, f e.2), List.pairwise_map.mpr m.sorted⟩

def values (m : OrderedMap κ ν) : List ν := m.entries.map Prod.snd

/-- Change the value stored under a key; an absent key stays absent. -/
def modify (m : OrderedMap κ ν) (k : κ) (f : ν → ν) : OrderedMap κ ν :=
  ⟨m.entries.map fun e => if e.1 = k then (e.1, f e.2) else e,
    List.pairwise_map.mpr <| m.sorted.imp fun {a b} h => by split_ifs <;> exact h⟩

def walk (m : OrderedMap κ ν) (body : σ → ν → σ × ν × Bool) (s : σ) : σ × OrderedMap κ ν :=
  ((walkList body s m.entries).1,
    ⟨(walkList body s m.entries).2, by
      have h : (m.entries.map Prod.fst).Pairwise (· < ·) := List.pairwise_map.mpr m.sorted
      rw [← keys_walkList body s m.entries] at h
      exact List.pairwise_map.mp h⟩)

/-- The first `q` values in key order that satisfy `p`, and the map with `f`
applied to them. -/
def updateFirst (m : OrderedMap κ ν) (p : ν → Bool) (f : ν → ν) (q : Nat) :
    List ν × OrderedMap κ ν :=
  ((updateFirstList p f q m.entries).1,
    ⟨(updateFirstList p f q m.entries).2, by
      have h : (m.entries.map Prod.fst).Pairwise (· < ·) := List.pairwise_map.mpr m.sorted
      rw [← keys_updateFirstList p f q m.entries] at h
      exact List.pairwise_map.mp h⟩)

@[simp] theorem find?_empty (k : κ) : (empty : OrderedMap κ ν).find? k = none := rfl

theorem find?_insert (m : OrderedMap κ ν) (k k' : κ) (x : ν) :
    (m.insert k x).find? k' =
      if k' = k then some ((m.find? k).getD x) else m.find? k' :=
  lookup_upsert m.sorted

theorem insert_of_some {m : OrderedMap κ ν} {k : κ} {x y : ν} (h : m.find? k = some y) :
    m.insert k x = m :=
  OrderedMap.ext (upsert_of_some m.sorted h rfl)

theorem values_insert_perm {m : OrderedMap κ ν} {k : κ} {x : ν} (h : m.find? k = none) :
    (m.insert k x).values.Perm (x :: m.values) :=
  (upsert_perm (f := fun old => old.getD x) h).map Prod.snd

theorem values_erase_perm {m : OrderedMap κ ν} {k : κ} {x : ν} (h : m.find? k = some x) :
    m.values.Perm (x :: (m.erase k).values) :=
  (perm_filter_ne m.sorted h).map Prod.snd

theorem mem_values {m : OrderedMap κ ν} {x : ν} : x ∈ m.values ↔ ∃ k, m.find? k = some x := by
  constructor
  · intro hx
    obtain ⟨⟨k, x⟩, hmem, rfl⟩ := List.mem_map.mp hx
    exact ⟨k, lookup_eq_some_iff m.sorted |>.mpr hmem⟩
  · rintro ⟨k, hk⟩
    exact List.mem_map.mpr ⟨(k, x), lookup_eq_some_iff m.sorted |>.mp hk, rfl⟩

theorem find?_map (m : OrderedMap κ ν) (f : ν → μ) (k : κ) :
    (m.map f).find? k = (m.find? k).map f := lookup_map

theorem map_insert (m : OrderedMap κ ν) (f : ν → μ) (k : κ) (x : ν) :
    (m.insert k x).map f = (m.map f).insert k (f x) :=
  OrderedMap.ext upsert_map

theorem map_erase (m : OrderedMap κ ν) (f : ν → μ) (k : κ) :
    (m.erase k).map f = (m.map f).erase k := by
  apply OrderedMap.ext
  change (m.entries.filter _).map _ = (m.entries.map _).filter _
  rw [List.filter_map]
  rfl

theorem map_congr {m : OrderedMap κ ν} {f g : ν → μ} (h : ∀ x ∈ m.values, f x = g x) :
    m.map f = m.map g :=
  OrderedMap.ext <| List.map_congr_left fun e he => by
    rw [h e.2 (List.mem_map_of_mem he)]

theorem find?_set (m : OrderedMap κ ν) (k k' : κ) (x : ν) :
    (m.set k x).find? k' = if k' = k then some x else m.find? k' :=
  lookup_upsert m.sorted

theorem find?_erase (m : OrderedMap κ ν) (k k' : κ) :
    (m.erase k).find? k' = if k' = k then none else m.find? k' :=
  lookup_filter_ne

theorem find?_modify (m : OrderedMap κ ν) (k k' : κ) (f : ν → ν) :
    (m.modify k f).find? k' = if k' = k then (m.find? k).map f else m.find? k' :=
  lookup_map_value

theorem find?_eq_some_iff (m : OrderedMap κ ν) {k : κ} {x : ν} :
    m.find? k = some x ↔ (k, x) ∈ m.entries :=
  lookup_eq_some_iff m.sorted

theorem mem_keys_iff (m : OrderedMap κ ν) {k : κ} :
    k ∈ m.keys ↔ (m.find? k).isSome := by
  rw [Option.isSome_iff_exists]
  constructor
  · intro hk
    obtain ⟨⟨k', x⟩, hmem, rfl⟩ := List.mem_map.mp hk
    exact ⟨x, m.find?_eq_some_iff.mpr hmem⟩
  · rintro ⟨x, hx⟩
    exact List.mem_map.mpr ⟨(k, x), m.find?_eq_some_iff.mp hx, rfl⟩

theorem keys_nodup (m : OrderedMap κ ν) : m.keys.Nodup :=
  List.pairwise_map.mpr (m.sorted.imp fun h => ne_of_lt h)

theorem not_mem_keys_iff (m : OrderedMap κ ν) {k : κ} : k ∉ m.keys ↔ m.find? k = none := by
  rw [mem_keys_iff, Bool.not_eq_true, Option.isSome_eq_false_iff, Option.isNone_iff_eq_none]

theorem ChangesFirst.walk {body : σ → ν → σ × ν × Bool} {p : ν → Bool} {f : ν → ν}
    {g : ν → μ} {quota : σ → Nat} {selected : σ → List μ}
    (h : ChangesFirst body p f g quota selected) (s : σ) (m : OrderedMap κ ν) :
    (m.walk body s).2 = (m.updateFirst p f (quota s)).2 ∧
      selected (m.walk body s).1 = selected s ++ (m.updateFirst p f (quota s)).1.map g := by
  obtain ⟨h₁, h₂⟩ := h.walkList s m.entries
  exact ⟨OrderedMap.ext h₁, h₂⟩

theorem keys_updateFirst (m : OrderedMap κ ν) (p : ν → Bool) (f : ν → ν) (q : Nat) :
    (m.updateFirst p f q).2.keys = m.keys :=
  keys_updateFirstList p f q m.entries

theorem mem_updateFirst_fst {m : OrderedMap κ ν} {p : ν → Bool} {f : ν → ν} {q : Nat} {x : ν}
    (hx : x ∈ (m.updateFirst p f q).1) :
    p x = true ∧ ∃ k, m.find? k = some x ∧ (m.updateFirst p f q).2.find? k = some (f x) := by
  obtain ⟨hp, k, hk, hk'⟩ := mem_updateFirstList_fst hx
  exact ⟨hp, k, m.find?_eq_some_iff.mpr hk, (find?_eq_some_iff _).mpr hk'⟩

/-- A value of the updated map is an old one, or the change of a selected one. -/
theorem find?_updateFirst {m : OrderedMap κ ν} {p : ν → Bool} {f : ν → ν} {q : Nat} {k : κ}
    {y : ν} (hy : (m.updateFirst p f q).2.find? k = some y) :
    m.find? k = some y ∨
      ∃ x, m.find? k = some x ∧ p x = true ∧ y = f x ∧ x ∈ (m.updateFirst p f q).1 := by
  rcases mem_updateFirstList_snd ((find?_eq_some_iff _).mp hy) with hy | ⟨x, hx, hpx, rfl, hmem⟩
  · exact Or.inl (m.find?_eq_some_iff.mpr hy)
  · exact Or.inr ⟨x, m.find?_eq_some_iff.mpr hx, hpx, rfl, hmem⟩

end OrderedMap

end FastDCS
