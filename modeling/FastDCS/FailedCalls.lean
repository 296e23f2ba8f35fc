import FastDCS.PartialWrites

/-!
Socket calls that fail. `Connector` stores their result in an unsigned variable
before it tests for a negative one.
-/

namespace FastDCS.FailedCalls

open FastDCS.Strings
open FastDCS.Framing
open FastDCS.PartialWrites

/-- `Receive` where `recv` has this result and this lies in memory from
`message_buf_` on. -/
def receive (fuel : Nat) (c : Receiver) (queue : SignalingQueue) (memory : Nat → Char)
    (result : Int) : Option (Int × Receiver × SignalingQueue) :=
  if c.bytesCount ≥ 4 ∧ c.messageSize = 0 then some (0, c, queue)
  else
    let thisReceive := toUint32 result
    if thisReceive < 0 then some (-1, c, queue)
    else Receiver.receiveLoop fuel c queue ((List.range thisReceive).map memory)

/-- The socket calls of `Connector` with what they find. -/
inductive SocketCall where
  | send (c : Receiver)
  | sendFinal (c : Receiver)
  | receive (c : Receiver) (queue : SignalingQueue) (memory : Nat → Char)

/-- Where the socket call fails, the method returns -1 and leaves all as it was. -/
def ReportsError : SocketCall → Prop
  | .send c => socketReturned c .sendMessage (-1) = (c, .returned (-1))
  | .sendFinal c => socketReturned c .sendFinal (-1) = (c, .returned (-1))
  | .receive c queue memory => ∃ fuel, receive fuel c queue memory (-1) = some (-1, c, queue)

/-- An earlier `Receive` has left a whole message that the queue turns away. -/
def RejectsAgain : SocketCall → Prop
  | .send _ => False
  | .sendFinal _ => False
  | .receive c queue _ =>
      4 ≤ c.bytesCount ∧ c.bytesCount = (4 + c.messageSize) % 2 ^ 32 ∧ c.messageSize ≠ 0 ∧
        c.message.length = c.messageSize ∧ queue.rejects c.message.length = true

variable {c c' : Receiver} {queue queue' : SignalingQueue} {rest : Str}

/-- `Add` turns the message away or has one more message in the queue. -/
theorem add_cases {src : Str} {retval : Int} (h : queue.add src = some (retval, queue')) :
    queue.rejects src.length = true ∧ retval < 0 ∧ queue' = queue ∨
      0 ≤ retval ∧ queue'.messagePositions.length = queue.messagePositions.length + 1 := by
  rw [SignalingQueue.add] at h
  simp only [SignalingQueue.rejects, SignalingQueue.noMoreAdd, Bool.or_eq_true,
    decide_eq_true_iff]
  split_ifs at h with hlarge hempty hended hfull hfits
  · cases h
    exact Or.inl ⟨Or.inl (Or.inl (by omega)), by decide, rfl⟩
  · cases h
    exact Or.inl ⟨Or.inl (Or.inr (by omega)), by decide, rfl⟩
  · cases h
    exact Or.inl ⟨Or.inr hended, by decide, rfl⟩
  · cases h
    exact Or.inr ⟨Int.natCast_nonneg _, List.length_append⟩
  · cases h
    exact Or.inr ⟨Int.natCast_nonneg _, List.length_append⟩
  · cases h
    exact Or.inr ⟨Int.natCast_nonneg _, List.length_append⟩

theorem add_of_rejects {src : Str} (h : queue.rejects src.length = true) :
    queue.add src = some (-1, queue) := by
  simp only [SignalingQueue.rejects, SignalingQueue.noMoreAdd, Bool.or_eq_true,
    decide_eq_true_iff] at h
  rw [SignalingQueue.add]
  split_ifs <;> first | rfl | omega

/-- The number of messages never falls. -/
theorem length_receiveLoop {fuel : Nat} {retval : Int}
    (h : Receiver.receiveLoop fuel c queue rest = some (retval, c', queue')) :
    queue.messagePositions.length ≤ queue'.messagePositions.length := by
  induction fuel generalizing c queue rest with
  | zero =>
      cases rest with
      | nil =>
          cases h
          exact le_rfl
      | cons b bs => cases h
  | succ fuel ih =>
      cases rest with
      | nil =>
          cases h
          exact le_rfl
      | cons b bs =>
          rw [Receiver.receiveLoop] at h
          dsimp only at h
          split_ifs at h with hcomplete hzero
          · cases h
            exact le_rfl
          · split at h
            · cases h
            · rename_i size left hadd
              split_ifs at h with hneg
              · cases h
                rcases add_cases hadd with ⟨_, _, rfl⟩ | ⟨hnonneg, _⟩
                · exact le_rfl
                · exact absurd hneg (not_lt.mpr hnonneg)
              · have hle := ih h
                rcases add_cases hadd with ⟨_, hneg', _⟩ | ⟨_, hmore⟩
                · exact absurd hneg' hneg
                · omega
          · exact ih h

/-- A round that copies nothing leaves everything as it is. -/
theorem copy_zero {b : Char} {bs : Str} {copied : Receiver}
    (h : c.copy (b :: bs) = (0, copied)) :
    4 ≤ c.bytesCount ∧ (4 + c.messageSize + 2 ^ 32 - c.bytesCount) % 2 ^ 32 = 0 ∧ copied = c := by
  rw [Receiver.copy] at h
  split_ifs at h with hheader
  · have hlen := (Prod.mk.inj h).1
    rw [List.length_cons] at hlen
    omega
  · obtain ⟨hlen, hcopied⟩ := Prod.mk.inj h
    rw [hlen, List.take_zero, List.append_nil] at hcopied
    rw [List.length_cons] at hlen
    exact ⟨by omega, by omega, hcopied.symm⟩

/-- Where `Receive` fails without a new message in the queue, `bytes_count_` says
how much has been copied, and where that is nothing, the message was complete
before. -/
theorem receiveLoop_failed {fuel : Nat}
    (h : Receiver.receiveLoop fuel c queue rest = some (-1, c', queue)) :
    ∃ total, total ≤ rest.length ∧ c'.bytesCount = (c.bytesCount + total) % 2 ^ 32 ∧
      (total = 0 → 4 ≤ c.bytesCount ∧
        (4 + c.messageSize + 2 ^ 32 - c.bytesCount) % 2 ^ 32 = 0 ∧ c.messageSize ≠ 0 ∧
        c.message.length = c.messageSize ∧ queue.rejects c.message.length = true) := by
  induction fuel generalizing c rest with
  | zero =>
      cases rest with
      | nil => cases h
      | cons b bs => cases h
  | succ fuel ih =>
      cases rest with
      | nil => cases h
      | cons b bs =>
          rw [Receiver.receiveLoop] at h
          rcases hcopy : c.copy (b :: bs) with ⟨len, copied⟩
          have hle : len ≤ (b :: bs).length := by
            rw [Receiver.copy] at hcopy
            split_ifs at hcopy
            · have := (Prod.mk.inj hcopy).1
              omega
            · have := (Prod.mk.inj hcopy).1
              omega
          have hcount : copied.bytesCount = c.bytesCount := by
            rw [Receiver.copy] at hcopy
            split_ifs at hcopy
            · rw [← (Prod.mk.inj hcopy).2]
            · rw [← (Prod.mk.inj hcopy).2]
          rw [hcopy] at h
          dsimp only [Receiver.count] at h
          split_ifs at h with hcomplete hzero
          · cases h
          · split at h
            · cases h
            · rename_i size left hadd
              split_ifs at h with hneg
              · cases h
                refine ⟨len, hle, by rw [hcount], ?_⟩
                rintro rfl
                obtain ⟨hfour, hleft, rfl⟩ := copy_zero hcopy
                rcases add_cases hadd with ⟨hrejects, _⟩ | ⟨hnonneg, _⟩
                · exact ⟨hfour, hleft, hzero, hcomplete.2, hrejects⟩
                · exact absurd hneg (not_lt.mpr hnonneg)
              · have hgrown := length_receiveLoop h
                rcases add_cases hadd with ⟨_, hneg', _⟩ | ⟨_, hmore⟩
                · exact absurd hneg' hneg
                · omega
          · obtain ⟨total, htotal, hbytes, hnone⟩ := ih h
            rw [List.length_drop] at htotal
            refine ⟨len + total, by omega, ?_, ?_⟩
            · rw [hbytes, hcount]
              dsimp only
              omega
            · intro hsum
              obtain rfl : len = 0 := by omega
              obtain ⟨_, _, rfl⟩ := copy_zero hcopy
              obtain ⟨hfour, _, _, hlength, _⟩ := hnone (by omega)
              exact absurd ⟨hfour, hlength⟩ hcomplete

theorem toUint32_neg_one : toUint32 (-1) = 2 ^ 32 - 1 := by decide

theorem reportsError_send (c : Receiver) : ¬ReportsError (.send c) := by
  rw [ReportsError, socketReturned, if_neg (Nat.not_lt_zero _)]
  dsimp only
  split_ifs
  · intro h
    cases (Prod.mk.inj h).2
  · intro h
    cases (Prod.mk.inj h).2

theorem reportsError_sendFinal (c : Receiver) : ¬ReportsError (.sendFinal c) := by
  rw [ReportsError, socketReturned, if_neg (Nat.not_lt_zero _)]
  dsimp only
  split_ifs
  · intro h
    cases (Prod.mk.inj h).2
  · intro h
    cases (Prod.mk.inj h).2

theorem reportsError_receive_iff (c : Receiver) (queue : SignalingQueue) (memory : Nat → Char) :
    ReportsError (.receive c queue memory) ↔ RejectsAgain (.receive c queue memory) := by
  have hlength : ((List.range (toUint32 (-1))).map memory).length = 2 ^ 32 - 1 := by
    rw [List.length_map, List.length_range, toUint32_neg_one]
  simp only [ReportsError, RejectsAgain, receive]
  constructor
  · rintro ⟨fuel, h⟩
    split_ifs at h with hended hneg
    · cases h
    · exact absurd hneg (Nat.not_lt_zero _)
    · obtain ⟨total, htotal, hbytes, hnone⟩ := receiveLoop_failed h
      rw [hlength] at htotal
      obtain ⟨hfour, hleft, hsize, hcomplete, hrejects⟩ := hnone (by omega)
      exact ⟨hfour, by omega, hsize, hcomplete, hrejects⟩
  · rintro ⟨hfour, hbytes, hsize, hcomplete, hrejects⟩
    obtain ⟨b, bs, hchunk⟩ : ∃ b bs, (List.range (toUint32 (-1))).map memory = b :: bs := by
      apply List.exists_cons_of_length_pos
      rw [hlength]
      decide
    have hcopy : c.copy (b :: bs) = (0, c) := by
      rw [Receiver.copy, if_neg (by omega)]
      have hleft : (4 + c.messageSize + 2 ^ 32 - c.bytesCount) % 2 ^ 32 = 0 := by omega
      simp only [hleft, Nat.zero_min, List.take_zero, List.append_nil]
    have hcount : c.count 0 = c := by
      rw [Receiver.count, Nat.add_zero, Nat.mod_eq_of_lt (by omega)]
    refine ⟨1, ?_⟩
    rw [if_neg (fun hended => hsize hended.2), if_neg (Nat.not_lt_zero _), hchunk,
      Receiver.receiveLoop, hcopy]
    dsimp only
    rw [hcount, if_pos ⟨hfour, hcomplete⟩, if_neg hsize, add_of_rejects hrejects]
    rfl

/-- A failed call goes by harmlessly only in `Receive`, and only where the
message before it is still in the way. -/
theorem reportsError_iff (call : SocketCall) : ReportsError call ↔ RejectsAgain call := by
  cases call with
  | send c => exact iff_of_false (reportsError_send c) id
  | sendFinal c => exact iff_of_false (reportsError_sendFinal c) id
  | receive c queue memory => exact reportsError_receive_iff c queue memory

/-- At the beginning of a message the count becomes 2^32 - 1, behind a byte it
falls back by one, and `SendFinal` takes the failure for its end. -/
theorem not_every_error_is_reported :
    socketReturned { message := "ab".toList, messageSize := 2 } .sendMessage (-1) =
        ({ message := "ab".toList, messageSize := 2, bytesCount := 2 ^ 32 - 1 }, .returned 1) ∧
      socketReturned { message := "ab".toList, messageSize := 2, bytesCount := 1 } .sendMessage
        (-1) = ({ message := "ab".toList, messageSize := 2 }, .returned 1) ∧
      socketReturned {} .sendFinal (-1) = ({ bytesCount := 2 ^ 32 - 1 }, .returned 0) ∧
      ¬∀ call, ReportsError call := by
  refine ⟨by decide, by decide, by decide, ?_⟩
  intro hall
  exact reportsError_send {} (hall (.send {}))

end FastDCS.FailedCalls
