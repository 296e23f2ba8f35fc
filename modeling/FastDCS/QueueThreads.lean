import FastDCS.ConditionVariables
import FastDCS.QueueCalls
import FastDCS.Runs

/-!
Any number of threads on one `SignalingQueue`. A call runs under `mutex_` until
it returns or waits on a condition variable; a woken thread runs when it gets
the mutex again.
-/

namespace FastDCS.QueueThreads

open FastDCS.Strings
open FastDCS.QueueCalls
open FastDCS.Runs

/-- A thread outside the queue, in the loop of `Add` with its message, or in the
loop of `Remove` with its limit. In a loop it waits, or has been woken. -/
inductive Thread where
  | idle
  | adding (message : Str) (woken : Bool)
  | removing (maxSize : Option Int) (woken : Bool)
deriving DecidableEq

def Thread.isAdding : Thread → Bool
  | .adding _ _ => true
  | _ => false

def Thread.isRemoving : Thread → Bool
  | .removing _ _ => true
  | _ => false

def condNotFull : ConditionVariable Thread where
  waiting
    | .adding _ woken => !woken
    | _ => false
  woken
    | .adding _ woken => woken
    | _ => false
  wake
    | .adding message _ => .adding message true
    | thread => thread
  woken_wake thread h := by cases thread <;> simp_all
  waiting_wake thread h := by cases thread <;> simp_all
  woken_of_waiting thread h := by cases thread <;> simp_all

def condNotEmpty : ConditionVariable Thread where
  waiting
    | .removing _ woken => !woken
    | _ => false
  woken
    | .removing _ woken => woken
    | _ => false
  wake
    | .removing maxSize _ => .removing maxSize true
    | thread => thread
  woken_wake thread h := by cases thread <;> simp_all
  waiting_wake thread h := by cases thread <;> simp_all
  woken_of_waiting thread h := by cases thread <;> simp_all

/-- The queue and its threads. `ended` says that `EmptyAndNoMoreAdd` has returned
true or a blocking `Remove` has returned 0; `late` are the messages stored since
then. -/
structure State where
  queue : SignalingQueue
  threads : List Thread
  ended : Bool := false
  late : List Str := []

/-- A thread makes a call, a woken thread gets the mutex, or a waiting thread
wakes up without a signal. A call that signals wakes the thread `pick`. -/
inductive Action where
  | call (thread : Nat) (c : Call) (isBlocking : Bool) (pick : Nat)
  | resume (thread pick : Nat)
  | wakeUp (thread : Nat)

def State.setThread (s : State) (thread : Nat) (t : Thread) : State :=
  { s with threads := s.threads.set thread t }

/-- The loop of `Add` and what comes behind it. -/
def addLoop (s : State) (thread : Nat) (message : Str) (isBlocking : Bool) (pick : Nat) :
    Option State :=
  if message.length > s.queue.freeSize then
    if isBlocking then some (s.setThread thread (.adding message false)) else some s
  else
    (condNotEmpty.signal pick (s.threads.set thread .idle)).map fun threads =>
      { s with
        queue := s.queue.store message
        threads := threads
        late := if s.ended then s.late ++ [message] else s.late }

/-- The loop of `Remove` and what comes behind it. -/
def removeLoop (s : State) (thread : Nat) (maxSize : Option Int) (isBlocking : Bool) (pick : Nat) :
    Option State :=
  match s.queue.removeWithin maxSize with
  | none =>
      if !isBlocking then some s
      else if s.queue.noMoreAdd then some { s.setThread thread .idle with ended := true }
      else some (s.setThread thread (.removing maxSize false))
  | some (_, _, left) =>
      (condNotFull.signal pick (s.threads.set thread .idle)).map fun threads =>
        { s with queue := left, threads := threads }

def call (s : State) (thread : Nat) (isBlocking : Bool) (pick : Nat) : Call → Option State
  | .add src size _ =>
      if s.queue.rejects size then some s
      else addLoop s thread (src.take size.toNat) isBlocking pick
  | .remove maxSize => removeLoop s thread maxSize isBlocking pick
  | .signal producerId =>
      let queue := s.queue.signal producerId
      some
        { s with
          queue := queue
          threads := if queue.noMoreAdd then condNotEmpty.broadcast s.threads else s.threads }
  | .emptyAndNoMoreAdd => some { s with ended := s.ended || s.queue.emptyAndNoMoreAdd }

def step (s : State) : Action → Option State
  | .call thread c isBlocking pick =>
      match s.threads[thread]? with
      | some .idle => call s thread isBlocking pick c
      | _ => none
  | .resume thread pick =>
      match s.threads[thread]? with
      | some (.adding message true) => addLoop s thread message true pick
      | some (.removing maxSize true) => removeLoop s thread maxSize true pick
      | _ => none
  | .wakeUp thread =>
      match s.threads[thread]? with
      | some (.adding message false) => some (s.setThread thread (.adding message true))
      | some (.removing maxSize false) => some (s.setThread thread (.removing maxSize true))
      | _ => none

def initial (queueSize numProducers numThreads : Nat) : State where
  queue := .create queueSize numProducers
  threads := List.replicate numThreads .idle

variable {s s' : State} {thread pick : Nat} {t : Thread}

/-- A thread in the loop of `Add` waits, returns or stores its message. -/
theorem addLoop_cases {message : Str} {isBlocking : Bool}
    (h : addLoop s thread message isBlocking pick = some s') :
    (s.queue.freeSize < message.length ∧
        (isBlocking = false ∧ s' = s ∨
          isBlocking = true ∧ s' = s.setThread thread (.adding message false))) ∨
      (message.length ≤ s.queue.freeSize ∧ ∃ threads,
        condNotEmpty.signal pick (s.threads.set thread .idle) = some threads ∧
          s' = { s with
            queue := s.queue.store message
            threads := threads
            late := if s.ended then s.late ++ [message] else s.late }) := by
  unfold addLoop at h
  rcases Nat.lt_or_ge s.queue.freeSize message.length with hfull | hroom
  · rw [if_pos hfull] at h
    refine Or.inl ⟨hfull, ?_⟩
    cases isBlocking with
    | false => exact Or.inl ⟨rfl, (Option.some.inj h).symm⟩
    | true => exact Or.inr ⟨rfl, (Option.some.inj h).symm⟩
  · rw [if_neg (Nat.not_lt.mpr hroom)] at h
    obtain ⟨threads, hsignal, rfl⟩ := Option.map_eq_some_iff.mp h
    exact Or.inr ⟨hroom, threads, hsignal, rfl⟩

/-- A thread in the loop of `Remove` returns without a message, waits, or takes
the first message. -/
theorem removeLoop_cases {maxSize : Option Int} {isBlocking : Bool}
    (h : removeLoop s thread maxSize isBlocking pick = some s') :
    (s.queue.removeWithin maxSize = none ∧
        (isBlocking = false ∧ s' = s ∨
          isBlocking = true ∧ s.queue.noMoreAdd = true ∧
            s' = { s.setThread thread .idle with ended := true } ∨
          isBlocking = true ∧ s.queue.noMoreAdd = false ∧
            s' = s.setThread thread (.removing maxSize false))) ∨
      ∃ retval dest left threads, s.queue.removeWithin maxSize = some (retval, dest, left) ∧
        condNotFull.signal pick (s.threads.set thread .idle) = some threads ∧
          s' = { s with queue := left, threads := threads } := by
  unfold removeLoop at h
  rcases hremove : s.queue.removeWithin maxSize with _ | ⟨retval, dest, left⟩
  · rw [hremove] at h
    refine Or.inl ⟨rfl, ?_⟩
    cases isBlocking with
    | false => exact Or.inl ⟨rfl, (Option.some.inj h).symm⟩
    | true =>
        cases hfinished : s.queue.noMoreAdd with
        | true =>
            simp only [hfinished] at h
            exact Or.inr (Or.inl ⟨rfl, rfl, (Option.some.inj h).symm⟩)
        | false =>
            simp only [hfinished] at h
            exact Or.inr (Or.inr ⟨rfl, rfl, (Option.some.inj h).symm⟩)
  · rw [hremove] at h
    obtain ⟨threads, hsignal, rfl⟩ := Option.map_eq_some_iff.mp h
    exact Or.inr ⟨retval, dest, left, threads, rfl, hsignal, rfl⟩

/-- What a thread does where it can take a step. -/
inductive Steps (s : State) : Action → State → Prop where
  | call {s' : State} {thread pick : Nat} {c : Call} {isBlocking : Bool}
      (idle : s.threads[thread]? = some .idle)
      (calls : call s thread isBlocking pick c = some s') :
      Steps s (.call thread c isBlocking pick) s'
  | resumeAdd {s' : State} {thread pick : Nat} {message : Str}
      (woken : s.threads[thread]? = some (.adding message true))
      (adds : addLoop s thread message true pick = some s') : Steps s (.resume thread pick) s'
  | resumeRemove {s' : State} {thread pick : Nat} {maxSize : Option Int}
      (woken : s.threads[thread]? = some (.removing maxSize true))
      (removes : removeLoop s thread maxSize true pick = some s') :
      Steps s (.resume thread pick) s'
  | wakeUpAdd {thread : Nat} {message : Str}
      (waiting : s.threads[thread]? = some (.adding message false)) :
      Steps s (.wakeUp thread) (s.setThread thread (.adding message true))
  | wakeUpRemove {thread : Nat} {maxSize : Option Int}
      (waiting : s.threads[thread]? = some (.removing maxSize false)) :
      Steps s (.wakeUp thread) (s.setThread thread (.removing maxSize true))

theorem step_cases {a : Action} (h : step s a = some s') : Steps s a s' := by
  cases a with
  | call thread c isBlocking pick =>
      simp only [step] at h
      split at h
      · next hidle => exact .call hidle h
      · cases h
  | resume thread pick =>
      simp only [step] at h
      split at h
      · next message hwoken => exact .resumeAdd hwoken h
      · next maxSize hwoken => exact .resumeRemove hwoken h
      · cases h
  | wakeUp thread =>
      simp only [step] at h
      split at h
      · next message hwaiting =>
          obtain rfl := Option.some.inj h
          exact .wakeUpAdd hwaiting
      · next maxSize hwaiting =>
          obtain rfl := Option.some.inj h
          exact .wakeUpRemove hwaiting
      · cases h

/-- A call that does not block leaves the queue as it does without threads. -/
theorem queue_of_call {c : Call} (h : step s (.call thread c false pick) = some s') :
    s'.queue = (s.queue.call c).2 := by
  cases step_cases h with
  | call _ hcalls =>
      cases c with
      | add src size readable =>
          simp only [call] at hcalls
          rw [SignalingQueue.call]
          cases hrejects : s.queue.rejects size with
          | true =>
              rw [if_pos hrejects] at hcalls
              rw [← Option.some.inj hcalls]
              rfl
          | false =>
              have hpos : 0 < size := by
                simp only [SignalingQueue.rejects, Bool.or_eq_false_iff,
                  decide_eq_false_iff_not, not_le] at hrejects
                exact hrejects.1.2
              have hlength : ((src.take size.toNat).length : Int) = size := by
                rw [List.length_take]
                omega
              rw [hrejects] at hcalls
              rw [if_neg Bool.false_ne_true]
              obtain ⟨hfull, ⟨_, rfl⟩ | ⟨hblocks, _⟩⟩ | ⟨hroom, threads, _, rfl⟩ :=
                addLoop_cases hcalls
              · have hover : size > (s'.queue.freeSize : Int) := by omega
                rw [if_pos hover]
              · cases hblocks
              · have hfits : ¬size > (s.queue.freeSize : Int) := by omega
                rw [if_neg hfits]
      | remove maxSize =>
          rw [SignalingQueue.call]
          obtain ⟨hnone, ⟨_, rfl⟩ | ⟨hblocks, _⟩ | ⟨hblocks, _⟩⟩ |
            ⟨retval, dest, left, threads, hremove, _, rfl⟩ := removeLoop_cases hcalls
          · rw [hnone]
          · cases hblocks
          · cases hblocks
          · rw [hremove]
      | signal producerId =>
          rw [← Option.some.inj hcalls]
          rfl
      | emptyAndNoMoreAdd =>
          rw [← Option.some.inj hcalls]
          rfl

section Wakeups

theorem notEmpty_ignores_notFull : condNotEmpty.Ignores condNotFull := by
  intro t ht
  cases t with
  | idle => cases ht
  | adding message woken => exact ⟨rfl, rfl⟩
  | removing maxSize woken => cases ht

theorem notFull_ignores_notEmpty : condNotFull.Ignores condNotEmpty := by
  intro t ht
  cases t with
  | idle => cases ht
  | adding message woken => cases ht
  | removing maxSize woken => exact ⟨rfl, rfl⟩

/-- The wake-ups a producer needs: one while the queue is empty. -/
def needed (queue : SignalingQueue) : Nat := if queue.contents = [] then 1 else 0

def Fits (queueSize : Nat) : Thread → Prop
  | .adding message _ => message.length ≤ queueSize
  | _ => True

/-- For every stored message a consumer is awake if one waits, and for an empty
queue a producer. -/
structure Sound (s : State) : Prop where
  consistent : s.queue.Consistent
  fits : ∀ t ∈ s.threads, Fits s.queue.queueSize t
  consumers : condNotEmpty.Covered s.queue.contents.length s.threads
  producers : condNotFull.Covered (needed s.queue) s.threads

theorem fits_wake_notFull {queueSize : Nat} (t : Thread) (h : Fits queueSize t) :
    Fits queueSize (condNotFull.wake t) := by
  cases t with
  | idle => exact h
  | adding message woken => exact h
  | removing maxSize woken => exact h

theorem fits_wake_notEmpty {queueSize : Nat} (t : Thread) (h : Fits queueSize t) :
    Fits queueSize (condNotEmpty.wake t) := by
  cases t with
  | idle => exact h
  | adding message woken => exact h
  | removing maxSize woken => exact h

theorem contents_ne_nil_of_full (hs : Sound s) {message : Str}
    (hfits : message.length ≤ s.queue.queueSize) (hfull : s.queue.freeSize < message.length) :
    s.queue.contents ≠ [] := by
  intro hnil
  have htotal := SignalingQueue.freeSize_add_total hs.consistent
  rw [hnil, List.map_nil, List.sum_nil] at htotal
  omega

theorem sound_addLoop (hs : Sound s) (hthread : s.threads[thread]? = some t)
    (ht : t = .idle ∨ ∃ message, t = .adding message true) {message : Str} {isBlocking : Bool}
    (hfits : message.length ≤ s.queue.queueSize)
    (h : addLoop s thread message isBlocking pick = some s') : Sound s' := by
  have hsame : ∀ u : Thread, (u = .idle ∨ ∃ m w, u = .adding m w) →
      condNotEmpty.waiting u = condNotEmpty.waiting t ∧
        condNotEmpty.woken u = condNotEmpty.woken t := by
    rintro u (rfl | ⟨m, w, rfl⟩)
    · rcases ht with rfl | ⟨m', rfl⟩
      · exact ⟨rfl, rfl⟩
      · exact ⟨rfl, rfl⟩
    · rcases ht with rfl | ⟨m', rfl⟩
      · exact ⟨rfl, rfl⟩
      · exact ⟨rfl, rfl⟩
  obtain ⟨hfull, ⟨_, rfl⟩ | ⟨_, rfl⟩⟩ | ⟨hroom, threads, hsignal, rfl⟩ := addLoop_cases h
  · exact hs
  · have hwaits := hsame (.adding message false) (Or.inr ⟨_, _, rfl⟩)
    refine ⟨hs.consistent, ConditionVariable.forall_set hs.fits hfits,
      hs.consumers.set_same hthread hwaits.1 hwaits.2, ?_⟩
    have hstored := contents_ne_nil_of_full hs hfits hfull
    change condNotFull.Covered (needed s.queue) _
    rw [needed, if_neg hstored]
    exact ConditionVariable.covered_zero
  · have hcontents := SignalingQueue.contents_store hs.consistent hroom
    have hreturns := hsame .idle (Or.inl rfl)
    have hidle : Fits s.queue.queueSize .idle := trivial
    refine ⟨SignalingQueue.consistent_store hs.consistent hroom, ?_, ?_, ?_⟩
    · exact ConditionVariable.forall_signal fits_wake_notEmpty
        (ConditionVariable.forall_set hs.fits hidle) hsignal
    · dsimp only
      rw [hcontents, List.length_append]
      exact (hs.consumers.set_same hthread hreturns.1 hreturns.2).signal hsignal
    · dsimp only
      rw [needed, hcontents, if_neg (by simp)]
      exact ConditionVariable.covered_zero

theorem contents_of_removeWithin {q : SignalingQueue} {maxSize : Option Int}
    (h : q.removeWithin maxSize = none) : q.contents = [] := by
  unfold SignalingQueue.removeWithin at h
  split at h
  · next hpositions => exact SignalingQueue.contents_eq_nil.mpr hpositions
  · split_ifs at h

theorem sound_removeLoop (hs : Sound s) (hthread : s.threads[thread]? = some t)
    (ht : t = .idle ∨ ∃ maxSize, t = .removing maxSize true) {maxSize : Option Int}
    {isBlocking : Bool} (h : removeLoop s thread maxSize isBlocking pick = some s') :
    Sound s' := by
  have hsame : ∀ u : Thread, (u = .idle ∨ ∃ m w, u = .removing m w) →
      condNotFull.waiting u = condNotFull.waiting t ∧
        condNotFull.woken u = condNotFull.woken t := by
    rintro u (rfl | ⟨m, w, rfl⟩)
    · rcases ht with rfl | ⟨m', rfl⟩
      · exact ⟨rfl, rfl⟩
      · exact ⟨rfl, rfl⟩
    · rcases ht with rfl | ⟨m', rfl⟩
      · exact ⟨rfl, rfl⟩
      · exact ⟨rfl, rfl⟩
  have hreturns := hsame .idle (Or.inl rfl)
  have hidle : Fits s.queue.queueSize .idle := trivial
  have hremoving : ∀ w, Fits s.queue.queueSize (.removing maxSize w) := fun _ => trivial
  obtain ⟨hnone, ⟨_, rfl⟩ | ⟨_, _, rfl⟩ | ⟨_, _, rfl⟩⟩ |
    ⟨retval, dest, left, threads, hremove, hsignal, rfl⟩ := removeLoop_cases h
  · exact hs
  · refine ⟨hs.consistent, ConditionVariable.forall_set hs.fits hidle, ?_,
      hs.producers.set_same hthread hreturns.1 hreturns.2⟩
    change condNotEmpty.Covered s.queue.contents.length _
    rw [contents_of_removeWithin hnone]
    exact ConditionVariable.covered_zero
  · have hwaits := hsame (.removing maxSize false) (Or.inr ⟨_, _, rfl⟩)
    refine ⟨hs.consistent, ConditionVariable.forall_set hs.fits (hremoving _), ?_,
      hs.producers.set_same hthread hwaits.1 hwaits.2⟩
    change condNotEmpty.Covered s.queue.contents.length _
    rw [contents_of_removeWithin hnone]
    exact ConditionVariable.covered_zero
  · obtain ⟨hleft, hsize, hlength⟩ : left.Consistent ∧ left.queueSize = s.queue.queueSize ∧
        s.queue.contents.length = left.contents.length + 1 := by
      rcases hcontents : s.queue.contents with _ | ⟨message, rest⟩
      · rw [SignalingQueue.removeWithin_nil (SignalingQueue.contents_eq_nil.mp hcontents)]
          at hremove
        cases hremove
      · obtain ⟨left', hleft, hrest, hqueue, heq⟩ :=
          SignalingQueue.removeWithin_cons hs.consistent hcontents maxSize
        obtain rfl : left' = left := by
          rw [heq] at hremove
          split_ifs at hremove
          · simpa using congrArg (fun r => r.2.2) (Option.some.inj hremove)
          · simpa using congrArg (fun r => r.2.2) (Option.some.inj hremove)
        refine ⟨hleft, by rw [hqueue], by rw [hrest, List.length_cons]⟩
    refine ⟨hleft, ?_, ?_, ?_⟩
    · dsimp only
      rw [hsize]
      exact ConditionVariable.forall_signal fits_wake_notFull
        (ConditionVariable.forall_set hs.fits hidle) hsignal
    · -- the message taken makes up for the wake-up this thread has used
      have hset := hs.consumers.set hthread
        fun hwaits : condNotEmpty.waiting .idle = true => by cases hwaits
      refine (hset.mono ?_).signal_of_ignores notEmpty_ignores_notFull hsignal
      dsimp only
      rw [hlength]
      split_ifs <;> omega
    · have hset := hs.producers.set_same hthread hreturns.1 hreturns.2
      refine ((hset.mono (Nat.zero_le _)).signal hsignal).mono ?_
      rw [needed]
      split_ifs <;> omega

theorem sound_call (hs : Sound s) (hthread : s.threads[thread]? = some .idle) {c : Call}
    {isBlocking : Bool} (h : call s thread isBlocking pick c = some s') : Sound s' := by
  cases c with
  | add src size readable =>
      simp only [call] at h
      split_ifs at h with hrejects
      · rw [← Option.some.inj h]
        exact hs
      · refine sound_addLoop hs hthread (Or.inl rfl) ?_ h
        simp only [SignalingQueue.rejects, Bool.or_eq_true, decide_eq_true_iff] at hrejects
        rw [List.length_take]
        omega
  | remove maxSize => exact sound_removeLoop hs hthread (Or.inl rfl) h
  | signal producerId =>
      obtain rfl := Option.some.inj h
      refine ⟨⟨hs.consistent.size_pos, hs.consistent.length_queue, hs.consistent.laid⟩, ?_, ?_, ?_⟩
      · dsimp only
        split_ifs
        · exact ConditionVariable.forall_broadcast fits_wake_notEmpty hs.fits
        · exact hs.fits
      · dsimp only
        split_ifs
        · exact ConditionVariable.covered_broadcast _
        · exact hs.consumers
      · dsimp only
        split_ifs
        · exact hs.producers.broadcast_of_ignores notFull_ignores_notEmpty
        · exact hs.producers
  | emptyAndNoMoreAdd =>
      obtain rfl := Option.some.inj h
      exact ⟨hs.consistent, hs.fits, hs.consumers, hs.producers⟩

theorem sound_step (hs : Sound s) {a : Action} (h : step s a = some s') : Sound s' := by
  cases step_cases h with
  | call hidle hcalls => exact sound_call hs hidle hcalls
  | @resumeAdd _ _ _ message hwoken hadds =>
      have hfits : Fits s.queue.queueSize (.adding message true) :=
        hs.fits _ (List.mem_of_getElem? hwoken)
      exact sound_addLoop hs hwoken (Or.inr ⟨message, rfl⟩) hfits hadds
  | @resumeRemove _ _ _ maxSize hwoken hremoves =>
      exact sound_removeLoop hs hwoken (Or.inr ⟨maxSize, rfl⟩) hremoves
  | @wakeUpAdd _ message hwaiting =>
      have hfits : Fits s.queue.queueSize (.adding message false) :=
        hs.fits _ (List.mem_of_getElem? hwaiting)
      exact ⟨hs.consistent, ConditionVariable.forall_set hs.fits hfits,
        hs.consumers.set_same hwaiting rfl rfl,
        (hs.producers.wake hwaiting rfl).mono (Nat.le_succ _)⟩
  | wakeUpRemove hwaiting =>
      exact ⟨hs.consistent, ConditionVariable.forall_set hs.fits trivial,
        (hs.consumers.wake hwaiting rfl).mono (Nat.le_succ _),
        hs.producers.set_same hwaiting rfl rfl⟩

theorem sound_initial {queueSize : Nat} (hsize : 0 < queueSize) (numProducers numThreads : Nat) :
    Sound (initial queueSize numProducers numThreads) where
  consistent := (represents_create hsize numProducers).consistent
  fits t ht := by
    rw [List.eq_of_mem_replicate ht]
    trivial
  consumers := ConditionVariable.covered_zero
  producers := by
    rintro ⟨t, ht, hwaiting⟩
    rw [List.eq_of_mem_replicate ht] at hwaiting
    cases hwaiting

theorem sound_of_run {queueSize : Nat} (hsize : 0 < queueSize) {numProducers numThreads : Nat}
    {as : List Action} (hrun : run step (initial queueSize numProducers numThreads) as = some s) :
    Sound s :=
  invariant (fun _ _ _ hs h => sound_step hs h) (sound_initial hsize numProducers numThreads) hrun

/-- A consumer that waits while a message is stored, or a producer that waits
while the queue is empty, has no woken one to wait for. -/
def LostWakeup (s : State) : Prop :=
  ((∃ t ∈ s.threads, condNotEmpty.waiting t = true) ∧ s.queue.contents ≠ [] ∧
      ∀ t ∈ s.threads, condNotEmpty.woken t = false) ∨
    ((∃ t ∈ s.threads, condNotFull.waiting t = true) ∧ s.queue.contents = [] ∧
      ∀ t ∈ s.threads, condNotFull.woken t = false)

theorem no_lost_wakeup {queueSize : Nat} (hsize : 0 < queueSize) {numProducers numThreads : Nat}
    {as : List Action} (hrun : run step (initial queueSize numProducers numThreads) as = some s) :
    ¬LostWakeup s := by
  have hs := sound_of_run hsize hrun
  rintro (⟨hwaiting, hstored, hnone⟩ | ⟨hwaiting, hempty, hnone⟩)
  · obtain ⟨t, ht, hwoken⟩ :=
      hs.consumers.exists_woken (List.length_pos_iff.mpr hstored) hwaiting
    rw [hnone t ht] at hwoken
    cases hwoken
  · have hneeded : 0 < needed s.queue := by
      rw [needed, if_pos hempty]
      exact Nat.one_pos
    obtain ⟨t, ht, hwoken⟩ := hs.producers.exists_woken hneeded hwaiting
    rw [hnone t ht] at hwoken
    cases hwoken

/-- A consumer waits and is woken, but another takes the message first; then a
producer waits for the room of a message that is taken without a wait. -/
def stealingRun : List Action :=
  [.call 0 (.remove none) true 0, .call 1 (addString ['a']) true 0, .call 2 (.remove none) false 0,
    .resume 0 0, .call 1 (addString ['b']) true 0, .call 1 (addString ['c']) true 0,
    .call 2 (.remove none) false 1]

theorem stealingRun_loses_no_wakeup :
    ∃ s, run step (initial 1 1 3) stealingRun = some s ∧
      s.threads = [.removing none true, .adding ['c'] true, .idle] ∧ ¬LostWakeup s := by
  have hthreads : (run step (initial 1 1 3) stealingRun).map State.threads =
      some [.removing none true, .adding ['c'] true, .idle] := by
    decide +kernel
  obtain ⟨s, hrun, hs⟩ := Option.map_eq_some_iff.mp hthreads
  exact ⟨s, hrun, hs, no_lost_wakeup Nat.one_pos hrun⟩

end Wakeups

section EndOfStream

/-- The step tells its caller that the stream has ended. -/
def observesEnd (s : State) : Action → Bool
  | .call _ .emptyAndNoMoreAdd _ _ => s.queue.emptyAndNoMoreAdd
  | .call _ (.remove _) isBlocking _ => isBlocking && s.queue.emptyAndNoMoreAdd
  | .resume thread _ =>
      s.threads[thread]?.any Thread.isRemoving && s.queue.emptyAndNoMoreAdd
  | _ => false

/-- Where the end is told, no thread is in the loop of `Add`. -/
def EndsAlone (s : State) (a : Action) : Prop :=
  observesEnd s a = true → ∀ t ∈ s.threads, t.isAdding = false

instance (s : State) (a : Action) : Decidable (EndsAlone s a) :=
  inferInstanceAs (Decidable (_ → _))

/-- After the end all producers have finished and none is in the loop of `Add`. -/
structure Final (s : State) : Prop where
  late : s.late = []
  noMoreAdd : s.ended = true → s.queue.noMoreAdd = true
  alone : s.ended = true → ∀ t ∈ s.threads, t.isAdding = false

theorem isAdding_wake_notFull (t : Thread) (h : t.isAdding = false) :
    (condNotFull.wake t).isAdding = false := by
  cases t with
  | idle => exact h
  | adding message woken => cases h
  | removing maxSize woken => exact h

theorem isAdding_wake_notEmpty (t : Thread) (h : t.isAdding = false) :
    (condNotEmpty.wake t).isAdding = false := by
  cases t with
  | idle => exact h
  | adding message woken => cases h
  | removing maxSize woken => exact h

theorem emptyAndNoMoreAdd_iff {q : SignalingQueue} :
    q.emptyAndNoMoreAdd = true ↔ q.contents = [] ∧ q.noMoreAdd = true := by
  rw [SignalingQueue.emptyAndNoMoreAdd, SignalingQueue.noMoreAdd, Bool.and_eq_true,
    decide_eq_true_iff, List.length_eq_zero_iff, SignalingQueue.contents_eq_nil]

theorem noMoreAdd_signal {q : SignalingQueue} (h : q.noMoreAdd = true) (producerId : Int) :
    (q.signal producerId).noMoreAdd = true := by
  rw [SignalingQueue.noMoreAdd, decide_eq_true_iff] at h ⊢
  refine le_trans h ?_
  rw [SignalingQueue.signal]
  dsimp only
  split_ifs
  · exact le_rfl
  · rw [List.length_append]
    exact Nat.le_add_right _ _

theorem noMoreAdd_removeWithin {q left : SignalingQueue} {maxSize : Option Int} {retval : Int}
    {dest : Option Str} (h : q.removeWithin maxSize = some (retval, dest, left)) :
    left.noMoreAdd = q.noMoreAdd := by
  unfold SignalingQueue.removeWithin at h
  split at h
  · cases h
  · split_ifs at h
    · obtain ⟨-, -, rfl⟩ : _ ∧ _ ∧ _ = left := by simpa using h
      rfl
    · obtain ⟨-, -, rfl⟩ : _ ∧ _ ∧ _ = left := by simpa using h
      rfl

/-- Before the end a message may be stored. -/
theorem final_addLoop (hs : Final s) (hopen : s.ended = false) {message : Str} {isBlocking : Bool}
    (h : addLoop s thread message isBlocking pick = some s') : Final s' := by
  have hnot : ¬s.ended = true := by rw [hopen]; exact Bool.false_ne_true
  obtain ⟨_, ⟨_, rfl⟩ | ⟨_, rfl⟩⟩ | ⟨_, threads, _, rfl⟩ := addLoop_cases h
  · exact hs
  · exact ⟨hs.late, hs.noMoreAdd, fun hended => absurd hended hnot⟩
  · refine ⟨?_, fun hended => absurd hended hnot, fun hended => absurd hended hnot⟩
    dsimp only
    rw [if_neg hnot]
    exact hs.late

theorem final_removeLoop (hs : Final s) {maxSize : Option Int} {isBlocking : Bool}
    (halone : isBlocking = true → s.queue.emptyAndNoMoreAdd = true →
      ∀ t ∈ s.threads, t.isAdding = false)
    (h : removeLoop s thread maxSize isBlocking pick = some s') : Final s' := by
  obtain ⟨hnone, ⟨_, rfl⟩ | ⟨hblocks, hfinished, rfl⟩ | ⟨_, _, rfl⟩⟩ |
    ⟨retval, dest, left, threads, hremove, hsignal, rfl⟩ := removeLoop_cases h
  · exact hs
  · have hend := emptyAndNoMoreAdd_iff.mpr ⟨contents_of_removeWithin hnone, hfinished⟩
    exact ⟨hs.late, fun _ => hfinished,
      fun _ => ConditionVariable.forall_set (halone hblocks hend) rfl⟩
  · exact ⟨hs.late, hs.noMoreAdd,
      fun hended => ConditionVariable.forall_set (hs.alone hended) rfl⟩
  · refine ⟨hs.late, fun hended => ?_, fun hended => ?_⟩
    · exact (noMoreAdd_removeWithin hremove).trans (hs.noMoreAdd hended)
    · exact ConditionVariable.forall_signal isAdding_wake_notFull
        (ConditionVariable.forall_set (hs.alone hended) rfl) hsignal

theorem final_call (hs : Final s) {isBlocking : Bool} {c : Call}
    (halone : observesEnd s (.call thread c isBlocking pick) = true →
      ∀ t ∈ s.threads, t.isAdding = false)
    (h : call s thread isBlocking pick c = some s') : Final s' := by
  cases c with
  | add src size readable =>
      simp only [call] at h
      split_ifs at h with hrejects
      · rw [← Option.some.inj h]
        exact hs
      · refine final_addLoop hs (Bool.eq_false_iff.mpr fun hended => hrejects ?_) h
        rw [SignalingQueue.rejects, hs.noMoreAdd hended, Bool.or_true]
  | remove maxSize =>
      exact final_removeLoop hs
        (fun hblocks hend => halone (Bool.and_eq_true_iff.mpr ⟨hblocks, hend⟩)) h
  | signal producerId =>
      obtain rfl := Option.some.inj h
      refine ⟨hs.late, fun hended => noMoreAdd_signal (hs.noMoreAdd hended) producerId,
        fun hended => ?_⟩
      dsimp only
      split_ifs
      · exact ConditionVariable.forall_broadcast isAdding_wake_notEmpty (hs.alone hended)
      · exact hs.alone hended
  | emptyAndNoMoreAdd =>
      obtain rfl := Option.some.inj h
      refine ⟨hs.late, fun hended => ?_, fun hended => ?_⟩
      · rcases Bool.or_eq_true_iff.mp hended with hbefore | hend
        · exact hs.noMoreAdd hbefore
        · exact (emptyAndNoMoreAdd_iff.mp hend).2
      · rcases Bool.or_eq_true_iff.mp hended with hbefore | hend
        · exact hs.alone hbefore
        · exact halone hend

theorem final_step (hs : Final s) {a : Action} (halone : EndsAlone s a)
    (h : step s a = some s') : Final s' := by
  cases step_cases h with
  | call _ hcalls => exact final_call hs halone hcalls
  | resumeAdd hwoken hadds =>
      refine final_addLoop hs (Bool.eq_false_iff.mpr fun hended => ?_) hadds
      cases hs.alone hended _ (List.mem_of_getElem? hwoken)
  | resumeRemove hwoken hremoves =>
      refine final_removeLoop hs (fun _ hend => halone ?_) hremoves
      rw [observesEnd, hwoken, hend]
      rfl
  | wakeUpAdd hwaiting =>
      refine ⟨hs.late, hs.noMoreAdd, fun hended => ?_⟩
      cases hs.alone hended _ (List.mem_of_getElem? hwaiting)
  | wakeUpRemove =>
      exact ⟨hs.late, hs.noMoreAdd,
        fun hended => ConditionVariable.forall_set (hs.alone hended) rfl⟩

theorem final_initial (queueSize numProducers numThreads : Nat) :
    Final (initial queueSize numProducers numThreads) where
  late := rfl
  noMoreAdd h := by cases h
  alone h := by cases h

/-- While a producer is in the loop of `Add` and the queue is empty, some step
stores a message. -/
theorem stores_of_adding (hs : Sound s) (hempty : s.queue.contents = [])
    (hadding : ∃ t ∈ s.threads, t.isAdding = true) :
    ∃ thread pick message s', step s (.resume thread pick) = some s' ∧
      s'.late = if s.ended then s.late ++ [message] else s.late := by
  obtain ⟨message, hmessage⟩ : ∃ message, .adding message true ∈ s.threads := by
    obtain ⟨t, ht, hadds⟩ := hadding
    cases t with
    | idle => cases hadds
    | removing maxSize woken => cases hadds
    | adding message woken =>
        cases woken with
        | true => exact ⟨message, ht⟩
        | false =>
            have hneeded : 0 < needed s.queue := by
              rw [needed, if_pos hempty]
              exact Nat.one_pos
            obtain ⟨u, hu, hwoken⟩ := hs.producers.exists_woken hneeded ⟨_, ht, rfl⟩
            cases u with
            | idle => cases hwoken
            | removing maxSize woken => cases hwoken
            | adding other woken =>
                obtain rfl : woken = true := hwoken
                exact ⟨other, hu⟩
  obtain ⟨thread, hthread⟩ := List.getElem?_of_mem hmessage
  have hroom : ¬message.length > s.queue.freeSize := by
    have hfits : message.length ≤ s.queue.queueSize := hs.fits _ hmessage
    have htotal := SignalingQueue.freeSize_add_total hs.consistent
    rw [hempty, List.map_nil, List.sum_nil] at htotal
    omega
  obtain ⟨pick, threads, hsignal⟩ :=
    condNotEmpty.exists_signal (s.threads.set thread .idle)
  refine ⟨thread, pick, message,
    { s with
      queue := s.queue.store message
      threads := threads
      late := if s.ended then s.late ++ [message] else s.late }, ?_, rfl⟩
  simp only [step, hthread, addLoop, if_neg hroom, hsignal, Option.map_some]

theorem adding_set {u : Thread} (hthread : s.threads[thread]? = some t) (ht : t.isAdding = false)
    (hadding : ∃ t ∈ s.threads, t.isAdding = true) :
    ∃ t ∈ s.threads.set thread u, t.isAdding = true := by
  obtain ⟨other, hother, hadds⟩ := hadding
  obtain ⟨k, hk⟩ := List.getElem?_of_mem hother
  have hne : thread ≠ k := by
    rintro rfl
    rw [hthread] at hk
    obtain rfl := Option.some.inj hk
    rw [ht] at hadds
    cases hadds
  exact ⟨other, List.mem_of_getElem? ((List.getElem?_set_ne hne).trans hk), hadds⟩

/-- The step that tells the end changes neither the queue nor a producer. -/
theorem ended_removeLoop {maxSize : Option Int} (hend : s.queue.emptyAndNoMoreAdd = true)
    (h : removeLoop s thread maxSize true pick = some s') :
    s' = { s.setThread thread .idle with ended := true } := by
  obtain ⟨hempty, hfinished⟩ := emptyAndNoMoreAdd_iff.mp hend
  obtain ⟨_, ⟨hblocks, _⟩ | ⟨_, _, rfl⟩ | ⟨_, hopen, _⟩⟩ |
    ⟨retval, dest, left, threads, hremove, _, _⟩ := removeLoop_cases h
  · cases hblocks
  · rfl
  · rw [hfinished] at hopen
    cases hopen
  · rw [SignalingQueue.removeWithin_nil (SignalingQueue.contents_eq_nil.mp hempty)] at hremove
    cases hremove

theorem ended_of_observesEnd {a : Action} (hend : observesEnd s a = true)
    (hadding : ∃ t ∈ s.threads, t.isAdding = true) (h : step s a = some s') :
    s'.ended = true ∧ s'.queue.contents = [] ∧ ∃ t ∈ s'.threads, t.isAdding = true := by
  cases step_cases h with
  | @call _ _ _ c _ hidle hcalls =>
      cases c with
      | add src size readable => cases hend
      | signal producerId => cases hend
      | remove maxSize =>
          obtain ⟨rfl, hend⟩ := Bool.and_eq_true_iff.mp hend
          obtain rfl := ended_removeLoop hend hcalls
          exact ⟨rfl, (emptyAndNoMoreAdd_iff.mp hend).1, adding_set hidle rfl hadding⟩
      | emptyAndNoMoreAdd =>
          obtain rfl := Option.some.inj hcalls
          exact ⟨Bool.or_eq_true_iff.mpr (Or.inr hend), (emptyAndNoMoreAdd_iff.mp hend).1,
            hadding⟩
  | resumeAdd hwoken =>
      obtain ⟨hremoving, _⟩ := Bool.and_eq_true_iff.mp hend
      rw [hwoken] at hremoving
      cases hremoving
  | resumeRemove hwoken hremoves =>
      obtain ⟨_, hend⟩ := Bool.and_eq_true_iff.mp hend
      obtain rfl := ended_removeLoop hend hremoves
      exact ⟨rfl, (emptyAndNoMoreAdd_iff.mp hend).1, adding_set hwoken rfl hadding⟩
  | wakeUpAdd => cases hend
  | wakeUpRemove => cases hend

/-- Where the end is told while a thread is in the loop of `Add`, a message can
be stored after it. -/
theorem late_of_not_endsAlone {queueSize : Nat} (hsize : 0 < queueSize)
    {numProducers numThreads : Nat} {as : List Action}
    (hrun : run step (initial queueSize numProducers numThreads) as = some s) {a : Action}
    (halone : ¬EndsAlone s a) (h : step s a = some s') :
    ∃ b last, step s' b = some last ∧ last.late ≠ [] := by
  have hs := sound_of_run hsize hrun
  obtain ⟨hend, hadding⟩ : observesEnd s a = true ∧ ∃ t ∈ s.threads, t.isAdding = true := by
    rw [EndsAlone] at halone
    push Not at halone
    obtain ⟨hend, t, ht, hadds⟩ := halone
    exact ⟨hend, t, ht, Bool.eq_true_of_not_eq_false hadds⟩
  obtain ⟨hended, hempty, hadding'⟩ := ended_of_observesEnd hend hadding h
  obtain ⟨thread, pick, message, last, hstep, hlate⟩ :=
    stores_of_adding (sound_step hs h) hempty hadding'
  refine ⟨_, last, hstep, ?_⟩
  rw [hlate, if_pos hended]
  exact List.append_ne_nil_of_right_ne_nil _ (List.cons_ne_nil _ _)

/-- Nothing is stored after the end, where the end is told while no thread is in
the loop of `Add`. -/
theorem nothing_late_of_endsAlone {queueSize numProducers numThreads : Nat} {as : List Action}
    (halone : Along step EndsAlone (initial queueSize numProducers numThreads) as)
    (hrun : run step (initial queueSize numProducers numThreads) as = some s) : s.late = [] :=
  (invariant_along (fun _ _ _ hs hallowed h => final_step hs hallowed h)
    (final_initial queueSize numProducers numThreads) halone hrun).late

/-- The producer finishes with nothing of its own on the way; the consumer that
waits is told of the end. -/
def finishedRun : List Action :=
  [.call 0 (.remove none) true 0, .call 1 (addString ['a']) true 0, .resume 0 0,
    .call 0 (.remove none) true 0, .call 1 (.signal 0) false 0, .resume 0 0,
    .call 1 (addString ['b']) true 0]

theorem finishedRun_stores_nothing_late :
    ∃ s, run step (initial 1 1 2) finishedRun = some s ∧ s.ended = true ∧ s.late = [] := by
  have hended : (run step (initial 1 1 2) finishedRun).map State.ended = some true := by
    decide +kernel
  obtain ⟨s, hrun, hs⟩ := Option.map_eq_some_iff.mp hended
  exact ⟨s, hrun, hs, nothing_late_of_endsAlone (by decide +kernel) hrun⟩

/-- The second producer waits for room while the last one says it is finished. -/
def overtakenRun : List Action :=
  [.call 0 (addString ['a']) true 0, .call 1 (addString ['b']) true 0, .call 0 (.signal 0) false 0,
    .call 2 (.remove none) false 1, .call 2 .emptyAndNoMoreAdd false 0, .resume 1 0]

theorem not_every_end_is_final :
    ¬∀ (queueSize numProducers numThreads : Nat) (as : List Action) (s : State), 0 < queueSize →
      run step (initial queueSize numProducers numThreads) as = some s → s.late = [] := by
  intro hall
  have hlate : (run step (initial 1 1 3) overtakenRun).map State.late = some [['b']] := by
    decide +kernel
  obtain ⟨s, hrun, hs⟩ := Option.map_eq_some_iff.mp hlate
  rw [hall 1 1 3 overtakenRun s Nat.one_pos hrun] at hs
  cases hs

end EndOfStream

end FastDCS.QueueThreads
