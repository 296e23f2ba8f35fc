import Mathlib.Data.List.Infix
import FastDCS.PartialWrites

/-!
`Connector::Receive` on a stream of frames: a size of four bytes and so many
bytes of a message. However the stream is cut, what has been read of a frame is
all that is kept between two calls.
-/

namespace FastDCS.Deframing

open FastDCS.Strings
open FastDCS.Framing
open FastDCS.PartialWrites

/-- The loop of `Receive` where every `Add` succeeds. What is added is recorded. -/
def receiveLoop : Nat → Receiver → Str → Option (Int × Receiver × List Str)
  | _, c, [] => some (1, c, [])
  | 0, _, _ :: _ => none
  | fuel + 1, c, b :: bs =>
      let (len, copied) := c.copy (b :: bs)
      let c' := copied.count len
      if c'.bytesCount ≥ 4 ∧ c'.message.length = c'.messageSize then
        if c'.messageSize = 0 then some (0, c', [])
        else
          (receiveLoop fuel {} ((b :: bs).drop len)).map fun (retval, last, added) =>
            (retval, last, c'.message :: added)
      else receiveLoop fuel c' ((b :: bs).drop len)

def receive (c : Receiver) (chunk : Str) : Option (Int × Receiver × List Str) :=
  if c.bytesCount ≥ 4 ∧ c.messageSize = 0 then some (0, c, [])
  else receiveLoop chunk.length c chunk

/-- What calls of `Receive` return one after the other, the connector they leave
and the messages they add. -/
def receives (c : Receiver) : List Str → Option (List Int × Receiver × List Str)
  | [] => some ([], c, [])
  | chunk :: rest =>
      (receive c chunk).bind fun (retval, c', added) =>
        (receives c' rest).map fun (retvals, last, more) =>
          (retval :: retvals, last, added ++ more)

def frame (message : Str) : Str := sizeBytes message.length ++ message

/-- The FINAL frame is the frame of an empty message. -/
def stream (messages : List Str) (final : Bool) : Str :=
  (messages.map frame).flatten ++ if final then frame [] else []

/-- The messages whose frames lie within the first bytes of the stream. -/
def completed : List Str → Nat → List Str
  | [], _ => []
  | message :: rest, n =>
      if (frame message).length ≤ n then message :: completed rest (n - (frame message).length)
      else []

/-- 0 once the FINAL frame is complete. -/
def returnValue (messages : List Str) (final : Bool) (read : Str) : Int :=
  if final = true ∧ read = stream messages final then 0 else 1

/-- What calls return that read these chunks behind what has been read before. -/
def returnValues (messages : List Str) (final : Bool) (read : Str) : List Str → List Int
  | [] => []
  | chunk :: rest =>
      returnValue messages final (read ++ chunk) ::
        returnValues messages final (read ++ chunk) rest

/-- What a connector keeps of the first bytes of a frame. -/
def after (bytes : Str) : Receiver where
  message := bytes.drop 4
  messageSize := setBytes 0 0 (bytes.take 4)
  bytesCount := bytes.length

/-- The length of the frame that is read next. -/
def frameLength (messages : List Str) : Nat := 4 + (messages.headD []).length

theorem setBytes_append (n k : Nat) (s t : Str) :
    setBytes n k (s ++ t) = setBytes (setBytes n k s) (k + s.length) t := by
  induction s generalizing n k with
  | nil => rfl
  | cons c rest ih =>
      rw [List.cons_append, setBytes, setBytes, ih, List.length_cons, Nat.add_assoc k 1,
        Nat.add_comm 1]

theorem byte_ofNat (n : Nat) : byte (Char.ofNat (n % 256)) = n % 256 := by
  have hlt : n % 256 < 256 := Nat.mod_lt _ (by decide)
  have hvalid : (n % 256).isValidChar := Or.inl (by omega)
  rw [byte, Char.ofNat, dif_pos hvalid]
  change n % 256 % 256 = n % 256
  exact Nat.mod_mod _ _

/-- The k-th byte of a number, behind the lower ones. -/
theorem setByte_digit (n k : Nat) :
    setByte (n % 256 ^ k) k (Char.ofNat (n / 256 ^ k % 256)) = n % 256 ^ (k + 1) := by
  have hlt : n % 256 ^ k < 256 ^ k := Nat.mod_lt _ (Nat.pow_pos (by decide))
  rw [setByte, Nat.div_eq_of_lt hlt, Nat.zero_mod, Nat.zero_mul, Nat.sub_zero, byte_ofNat,
    Nat.pow_succ, Nat.mod_mul, Nat.mul_comm (256 ^ k)]

/-- A size is read as it was written. -/
theorem setBytes_sizeBytes {n : Nat} (h : n < 2 ^ 32) : setBytes 0 0 (sizeBytes n) = n := by
  have hbytes : sizeBytes n = [Char.ofNat (n / 256 ^ 0 % 256), Char.ofNat (n / 256 ^ 1 % 256),
      Char.ofNat (n / 256 ^ 2 % 256), Char.ofNat (n / 256 ^ 3 % 256)] := rfl
  have hzero : 0 = n % 256 ^ 0 := (Nat.mod_one n).symm
  have hread : setBytes (n % 256 ^ 0) 0 (sizeBytes n) = n % 256 ^ 4 := by
    rw [hbytes]
    simp only [setBytes, setByte_digit, Nat.reduceAdd]
  rw [← hzero] at hread
  rw [hread]
  exact Nat.mod_eq_of_lt h

theorem length_sizeBytes (n : Nat) : (sizeBytes n).length = 4 := rfl

theorem length_frame (message : Str) : (frame message).length = 4 + message.length := by
  rw [frame, List.length_append, length_sizeBytes]

section Rounds

variable {bytes rest message tail : Str}

theorem take_four_of_prefix (h : bytes <+: frame message ++ tail) (hfour : 4 ≤ bytes.length) :
    bytes.take 4 = sizeBytes message.length := by
  obtain ⟨more, hmore⟩ := h
  have htake := congrArg (List.take 4) hmore
  rw [List.take_append_of_le_length hfour, frame, List.append_assoc] at htake
  rw [htake]
  rfl

/-- From the fifth byte on the size is known. -/
theorem messageSize_after (h : bytes <+: frame message ++ tail) (hfour : 4 ≤ bytes.length)
    (hlt : message.length < 2 ^ 32) : (after bytes).messageSize = message.length := by
  rw [after, take_four_of_prefix h hfour, setBytes_sizeBytes hlt]

/-- A round reads the rest of the size or of the message, as far as it is there. -/
theorem copy_after (hsplit : bytes ++ rest <+: frame message ++ tail)
    (hpart : bytes.length < (frame message).length) (hlt : message.length < 2 ^ 31)
    (hne : rest ≠ []) :
    ∃ len copied, (after bytes).copy rest = (len, copied) ∧ 0 < len ∧ len ≤ rest.length ∧
      bytes.length + len ≤ (frame message).length ∧
        copied.count len = after (bytes ++ rest.take len) := by
  have hpos : 0 < rest.length := List.length_pos_iff.mpr hne
  rw [length_frame] at hpart ⊢
  rw [Receiver.copy]
  split_ifs with hheader
  · change bytes.length < 4 at hheader
    refine ⟨_, _, rfl, ?_, ?_, ?_, ?_⟩
    · change 0 < min (4 - bytes.length) rest.length
      omega
    · exact min_le_right _ _
    · change bytes.length + min (4 - bytes.length) rest.length ≤ _
      omega
    · have hlen : (rest.take (min (4 - bytes.length) rest.length)).length =
          min (4 - bytes.length) rest.length := by
        rw [List.length_take]
        omega
      have hfour : (bytes ++ rest.take (min (4 - bytes.length) rest.length)).length ≤ 4 := by
        rw [List.length_append, hlen]
        omega
      have hcount : (bytes.length + min (4 - bytes.length) rest.length) % 2 ^ 32 =
          (bytes ++ rest.take (min (4 - bytes.length) rest.length)).length := by
        rw [List.length_append, hlen]
        omega
      simp only [Receiver.count, after, hcount]
      rw [List.drop_of_length_le hheader.le, List.drop_of_length_le hfour,
        List.take_of_length_le hheader.le, List.take_of_length_le hfour, setBytes_append,
        Nat.zero_add]
  · change ¬bytes.length < 4 at hheader
    have hinitial : bytes <+: frame message ++ tail :=
      (List.prefix_append bytes rest).trans hsplit
    have hsize := messageSize_after hinitial (by omega) (by omega)
    have hleft : (4 + (after bytes).messageSize + 2 ^ 32 - (after bytes).bytesCount) % 2 ^ 32 =
        4 + message.length - bytes.length := by
      rw [hsize]
      change (4 + message.length + 2 ^ 32 - bytes.length) % 2 ^ 32 = _
      omega
    simp only [hleft]
    refine ⟨_, _, rfl, by omega, min_le_right _ _, by omega, ?_⟩
    have hlen : (rest.take (min (4 + message.length - bytes.length) rest.length)).length =
        min (4 + message.length - bytes.length) rest.length := by
      rw [List.length_take]
      omega
    have hcount :
        (bytes.length + min (4 + message.length - bytes.length) rest.length) % 2 ^ 32 =
          (bytes ++ rest.take (min (4 + message.length - bytes.length) rest.length)).length := by
      rw [List.length_append, hlen]
      omega
    simp only [Receiver.count, after, hcount]
    rw [List.drop_append_of_le_length (by omega), List.take_append_of_le_length (by omega)]

/-- The frame is complete where the loop takes it for complete. -/
theorem complete_iff (hinitial : bytes <+: frame message ++ tail)
    (hle : bytes.length ≤ (frame message).length) (hlt : message.length < 2 ^ 31) :
    ((after bytes).bytesCount ≥ 4 ∧
        (after bytes).message.length = (after bytes).messageSize) ↔ bytes = frame message := by
  constructor
  · rintro ⟨hfour, hlength⟩
    rw [messageSize_after hinitial hfour (by omega)] at hlength
    have hdrop : bytes.length - 4 = message.length := by
      rw [← List.length_drop]
      exact hlength
    have hfour' : 4 ≤ bytes.length := hfour
    have hwhole : bytes.length = (frame message).length := by
      rw [length_frame]
      omega
    exact (List.prefix_of_prefix_length_le hinitial (List.prefix_append _ _) hle).eq_of_length
      hwhole
  · rintro rfl
    have hfour : 4 ≤ (frame message).length := by
      rw [length_frame]
      omega
    refine ⟨hfour, ?_⟩
    rw [messageSize_after hinitial hfour (by omega)]
    change ((frame message).drop 4).length = message.length
    rw [List.length_drop, length_frame]
    omega

theorem message_after_frame (message : Str) : (after (frame message)).message = message := by
  change (frame message).drop 4 = message
  rw [frame, List.drop_left' (length_sizeBytes _)]

end Rounds

/-- What `Receive` makes of the bytes read so far: messages are added, then it
stands within the frame of the next one or behind the FINAL frame. -/
structure Deframed (messages : List Str) (final : Bool) (read : Str) (retval : Int) (c : Receiver)
    (added left : List Str) (bytes : Str) : Prop where
  messages_eq : messages = added ++ left
  read_eq : read = (added.map frame).flatten ++ bytes
  position : retval = 1 ∧ c = after bytes ∧ bytes.length < frameLength left ∨
    retval = 0 ∧ left = [] ∧ final = true ∧ bytes = frame [] ∧ 4 ≤ c.bytesCount ∧
      c.messageSize = 0

section Loop

variable {messages left : List Str} {final : Bool} {bytes rest read : Str}

theorem stream_append (added left : List Str) (final : Bool) :
    stream (added ++ left) final = (added.map frame).flatten ++ stream left final := by
  rw [stream, stream, List.map_append, List.flatten_append, List.append_assoc]

/-- A stream that goes on goes on with a message or with the FINAL frame. -/
theorem stream_cases (hne : stream messages final ≠ []) :
    ∃ message tail, stream messages final = frame message ++ tail ∧
      frameLength messages = (frame message).length ∧
      ((∃ others, messages = message :: others ∧ tail = stream others final) ∨
        messages = [] ∧ final = true ∧ message = [] ∧ tail = []) := by
  cases messages with
  | nil =>
      cases final with
      | false => exact absurd rfl hne
      | true => exact ⟨[], [], by rw [List.append_nil]; rfl, rfl, Or.inr ⟨rfl, rfl, rfl, rfl⟩⟩
  | cons message others =>
      refine ⟨message, stream others final, ?_, (length_frame message).symm,
        Or.inl ⟨others, rfl, rfl⟩⟩
      rw [← List.singleton_append, stream_append, List.map_singleton, List.flatten_singleton]

/-- The loop from within a frame. The induction is on the rounds, each of which
reads at least one byte. -/
theorem receiveLoop_spec {fuel : Nat} (hfit : ∀ message ∈ messages, message ≠ [] ∧
      message.length < 2 ^ 31) (hsplit : bytes ++ rest <+: stream messages final)
    (hpart : bytes.length < frameLength messages) (hfuel : rest.length ≤ fuel) :
    ∃ retval c added left last, receiveLoop fuel (after bytes) rest = some (retval, c, added) ∧
      Deframed messages final (bytes ++ rest) retval c added left last := by
  induction fuel generalizing bytes rest messages with
  | zero =>
      obtain rfl : rest = [] := List.length_eq_zero_iff.mp (Nat.le_zero.mp hfuel)
      rw [List.append_nil]
      exact ⟨1, after bytes, [], messages, bytes, by rw [receiveLoop],
        rfl, rfl, Or.inl ⟨rfl, rfl, hpart⟩⟩
  | succ fuel ih =>
      cases rest with
      | nil =>
          rw [List.append_nil]
          exact ⟨1, after bytes, [], messages, bytes, by rw [receiveLoop],
            rfl, rfl, Or.inl ⟨rfl, rfl, hpart⟩⟩
      | cons b bs =>
          have hne : stream messages final ≠ [] := by
            intro hnil
            rw [hnil, List.prefix_nil] at hsplit
            exact List.cons_ne_nil b bs (List.append_eq_nil_iff.mp hsplit).2
          obtain ⟨message, tail, hstream, hlength, hnext⟩ := stream_cases hne
          have hlt : message.length < 2 ^ 31 := by
            rcases hnext with ⟨others, rfl, _⟩ | ⟨_, _, rfl, _⟩
            · exact (hfit message List.mem_cons_self).2
            · decide
          rw [hlength] at hpart
          have hsplit' : bytes ++ (b :: bs) <+: frame message ++ tail := hstream ▸ hsplit
          obtain ⟨len, copied, hcopy, hpos, hle, hwithin, hcounted⟩ :=
            copy_after hsplit' hpart hlt (List.cons_ne_nil b bs)
          have htake : bytes ++ (b :: bs) =
              (bytes ++ (b :: bs).take len) ++ (b :: bs).drop len := by
            rw [List.append_assoc, List.take_append_drop]
          have hinitial : bytes ++ (b :: bs).take len <+: frame message ++ tail :=
            List.IsPrefix.trans ⟨(b :: bs).drop len, htake.symm⟩ hsplit'
          have hbytes : (bytes ++ (b :: bs).take len).length = bytes.length + len := by
            rw [List.length_append, List.length_take, min_eq_left hle]
          have hdrop : ((b :: bs).drop len).length ≤ fuel := by
            rw [List.length_drop]
            omega
          have hcomplete := complete_iff hinitial (hbytes ▸ hwithin) hlt
          rw [receiveLoop, hcopy]
          dsimp only
          rw [hcounted]
          by_cases hframe : bytes ++ (b :: bs).take len = frame message
          · rw [if_pos (hcomplete.mpr hframe)]
            have hsize : (after (bytes ++ (b :: bs).take len)).messageSize = message.length :=
              messageSize_after hinitial (by rw [hframe, length_frame]; omega) (by omega)
            rw [hframe] at htake hsize ⊢
            rw [hsize, message_after_frame]
            rcases hnext with ⟨others, rfl, rfl⟩ | ⟨rfl, rfl, rfl, rfl⟩
            · obtain ⟨hmessage, hothers⟩ := List.forall_mem_cons.mp hfit
              have hmore : [] ++ (b :: bs).drop len <+: stream others final := by
                rw [htake] at hsplit'
                exact (List.prefix_append_right_inj _).mp hsplit'
              obtain ⟨retval, c, added, left, last, hloop, hrest⟩ :=
                ih hothers hmore (by rw [frameLength, List.length_nil]; omega) hdrop
              refine ⟨retval, c, message :: added, left, last, ?_, ?_, ?_, hrest.position⟩
              · rw [if_neg (fun hzero => hmessage.1 (List.length_eq_zero_iff.mp hzero))]
                change (receiveLoop fuel (after []) _).map _ = _
                rw [hloop]
                rfl
              · rw [hrest.messages_eq]
                rfl
              · rw [htake, List.map_cons, List.flatten_cons, List.append_assoc, ← hrest.read_eq]
                rfl
            · refine ⟨0, _, [], [], frame [], if_pos rfl, rfl, ?_,
                Or.inr ⟨rfl, rfl, rfl, rfl, by decide, by decide⟩⟩
              rw [List.append_nil] at hsplit'
              refine hsplit'.eq_of_length_le ?_
              rw [htake, List.length_append]
              exact Nat.le_add_right _ _
          · rw [if_neg (fun hdone => hframe (hcomplete.mp hdone))]
            have hstill : (bytes ++ (b :: bs).take len).length < frameLength messages := by
              rw [hlength]
              refine Nat.lt_of_le_of_ne (hbytes ▸ hwithin) fun heq => hframe ?_
              exact (List.prefix_of_prefix_length_le hinitial (List.prefix_append _ _)
                heq.le).eq_of_length heq
            rw [htake]
            exact ih hfit (htake ▸ hsplit) hstill hdrop

variable {chunk : Str} {retval : Int} {c : Receiver} {added : List Str}

theorem retval_eq (h : Deframed messages final read retval c added left bytes) :
    retval = returnValue messages final read := by
  have hstream : stream messages final = (added.map frame).flatten ++ stream left final := by
    rw [h.messages_eq, stream_append]
  rw [returnValue, h.read_eq, hstream]
  rcases h.position with ⟨rfl, _, hpart⟩ | ⟨rfl, rfl, rfl, rfl, _⟩
  · rw [if_neg]
    rintro ⟨rfl, heq⟩
    rw [List.append_cancel_left heq] at hpart
    obtain ⟨message, tail, hstream', hlength, _⟩ := @stream_cases left true
      (by
        intro hnil
        have hzero := congrArg List.length hnil
        rw [stream, if_pos rfl, List.length_append, length_frame, List.length_nil] at hzero
        omega)
    rw [hstream', hlength, List.length_append] at hpart
    omega
  · rw [if_pos ⟨rfl, rfl⟩]

/-- A call reads on from where the one before has stopped. -/
theorem receive_spec (hfit : ∀ message ∈ messages, message ≠ [] ∧ message.length < 2 ^ 31)
    (h : Deframed messages final read retval c added left bytes)
    (hsplit : read ++ chunk <+: stream messages final) :
    ∃ retval' c' more left' bytes', receive c chunk = some (retval', c', more) ∧
      Deframed messages final (read ++ chunk) retval' c' (added ++ more) left' bytes' := by
  have hmessages := h.messages_eq
  rw [hmessages, stream_append, h.read_eq, List.append_assoc,
    List.prefix_append_right_inj] at hsplit
  rcases h.position with ⟨_, rfl, hpart⟩ | ⟨_, rfl, rfl, rfl, hfour, hsize⟩
  · have hleft : ∀ message ∈ left, message ≠ [] ∧ message.length < 2 ^ 31 := by
      intro message hmem
      apply hfit
      rw [hmessages]
      exact List.mem_append_right _ hmem
    have hopen : ¬((after bytes).bytesCount ≥ 4 ∧ (after bytes).messageSize = 0) := by
      rintro ⟨hfour, hzero⟩
      cases left with
      | nil =>
          have hfour' : 4 ≤ bytes.length := hfour
          exact absurd hpart (by rw [frameLength, List.headD_nil, List.length_nil]; omega)
      | cons message others =>
          obtain ⟨hne, hlt⟩ := hleft message List.mem_cons_self
          have hinitial : bytes <+: frame message ++ stream others final := by
            rw [← List.singleton_append, stream_append, List.map_singleton,
              List.flatten_singleton] at hsplit
            exact (List.prefix_append _ _).trans hsplit
          rw [messageSize_after hinitial hfour (by omega)] at hzero
          exact hne (List.length_eq_zero_iff.mp hzero)
    obtain ⟨retval', c', more, left', bytes', hloop, hmore⟩ :=
      receiveLoop_spec hleft hsplit hpart le_rfl
    refine ⟨retval', c', more, left', bytes', ?_, ?_, ?_, hmore.position⟩
    · rw [receive, if_neg hopen, hloop]
    · rw [hmessages, hmore.messages_eq, List.append_assoc]
    · rw [h.read_eq, List.append_assoc, hmore.read_eq, List.map_append, List.flatten_append,
        List.append_assoc]
  · obtain rfl : chunk = [] := by
      have hle := hsplit.length_le
      rw [stream, List.map_nil, List.flatten_nil, List.nil_append, if_pos rfl,
        List.length_append] at hle
      exact List.length_eq_zero_iff.mp (by omega)
    refine ⟨0, c, [], [], frame [], if_pos ⟨hfour, hsize⟩, ?_⟩
    rw [List.append_nil, List.append_nil]
    exact ⟨hmessages, h.read_eq, Or.inr ⟨rfl, rfl, rfl, rfl, hfour, hsize⟩⟩

theorem receives_spec (hfit : ∀ message ∈ messages, message ≠ [] ∧ message.length < 2 ^ 31)
    (h : Deframed messages final read retval c added left bytes) {chunks : List Str}
    (hsplit : read ++ chunks.flatten <+: stream messages final) :
    ∃ retval' c' more left' bytes',
      receives c chunks = some (returnValues messages final read chunks, c', more) ∧
        Deframed messages final (read ++ chunks.flatten) retval' c' (added ++ more) left'
          bytes' := by
  induction chunks generalizing read retval c added left bytes with
  | nil =>
      refine ⟨retval, c, [], left, bytes, rfl, ?_⟩
      rw [List.flatten_nil, List.append_nil, List.append_nil]
      exact h
  | cons chunk others ih =>
      rw [List.flatten_cons, ← List.append_assoc] at hsplit ⊢
      obtain ⟨retval₁, c₁, more₁, left₁, bytes₁, hreceive, h₁⟩ :=
        receive_spec hfit h ((List.prefix_append _ _).trans hsplit)
      obtain ⟨retval', c', more, left', bytes', hreceives, h'⟩ := ih h₁ hsplit
      refine ⟨retval', c', more₁ ++ more, left', bytes', ?_, List.append_assoc _ _ _ ▸ h'⟩
      rw [receives, hreceive, Option.bind_some]
      dsimp only
      rw [hreceives, Option.map_some, returnValues, retval_eq h₁]

/-- What has been added is what is complete. -/
theorem completed_eq (h : Deframed messages final read retval c added left bytes) :
    completed messages read.length = added := by
  have hpart : left = [] ∨ bytes.length < frameLength left := by
    rcases h.position with ⟨_, _, hpart⟩ | ⟨_, hleft, _⟩
    · exact Or.inr hpart
    · exact Or.inl hleft
  rw [h.messages_eq, h.read_eq]
  clear h
  induction added with
  | nil =>
      rw [List.nil_append, List.map_nil, List.flatten_nil, List.nil_append]
      cases left with
      | nil => rfl
      | cons message others =>
          have hlt : bytes.length < frameLength (message :: others) :=
            hpart.resolve_left (List.cons_ne_nil _ _)
          rw [completed, if_neg]
          rw [length_frame]
          exact not_le.mpr hlt
  | cons message others ih =>
      rw [List.cons_append, List.map_cons, List.flatten_cons, List.append_assoc, completed,
        List.length_append, if_pos (Nat.le_add_right _ _), Nat.add_sub_cancel_left, ih]

end Loop

section RealQueue

variable {c c' : Receiver} {rest : Str} {retval : Int} {added : List Str}

theorem length_copy (c : Receiver) (rest : Str) :
    (c.copy rest).2.message.length ≤ c.message.length + (c.copy rest).1 ∧
      (c.copy rest).1 ≤ rest.length := by
  rw [Receiver.copy]
  split_ifs
  · dsimp only
    omega
  · dsimp only
    rw [List.length_append, List.length_take]
    omega

/-- In a queue with room for all that is read, `Add` succeeds. -/
theorem receiveLoop_queue {fuel more : Nat} {queue : SignalingQueue}
    (h : receiveLoop fuel c rest = some (retval, c', added))
    (hq : HasRoom c queue (rest.length + more)) :
    ∃ queue', Receiver.receiveLoop fuel c queue rest = some (retval, c', queue') ∧
      HasRoom c' queue' more ∧ queue'.contents = queue.contents ++ added := by
  induction fuel generalizing c rest queue added with
  | zero =>
      cases rest with
      | nil =>
          cases h
          refine ⟨queue, by rw [Receiver.receiveLoop], ?_, (List.append_nil _).symm⟩
          simpa using hq
      | cons b bs => cases h
  | succ fuel ih =>
      cases rest with
      | nil =>
          cases h
          refine ⟨queue, by rw [Receiver.receiveLoop], ?_, (List.append_nil _).symm⟩
          simpa using hq
      | cons b bs =>
          obtain ⟨hmessage, hle⟩ := length_copy c (b :: bs)
          have hroom := hq.room
          have hdrop : ((b :: bs).drop (c.copy (b :: bs)).1).length =
            (b :: bs).length - (c.copy (b :: bs)).1 := List.length_drop
          have hcounted : HasRoom ((c.copy (b :: bs)).2.count (c.copy (b :: bs)).1) queue
              (((b :: bs).drop (c.copy (b :: bs)).1).length + more) := by
            refine ⟨hq.wellFormed, hq.size_lt, ?_⟩
            dsimp only [Receiver.count]
            omega
          rw [receiveLoop] at h
          rw [Receiver.receiveLoop]
          dsimp only at h ⊢
          split_ifs at h ⊢ with hcomplete hzero
          · cases h
            refine ⟨queue, rfl, ⟨hq.wellFormed, hq.size_lt, ?_⟩, (List.append_nil _).symm⟩
            have := hcounted.room
            omega
          · obtain ⟨⟨retval₁, last, added₁⟩, hloop, heq⟩ := Option.map_eq_some_iff.mp h
            cases heq
            have hne : ((c.copy (b :: bs)).2.count (c.copy (b :: bs)).1).message ≠ [] := by
              intro hnil
              rw [hnil, List.length_nil] at hcomplete
              exact hzero hcomplete.2.symm
            obtain ⟨queue₁, hadd, hroom₁, _⟩ := add_complete hcounted hne
            have hfree : ((c.copy (b :: bs)).2.count (c.copy (b :: bs)).1).message.length ≤ _ :=
              le_trans (Nat.le_add_right _ _) hcounted.room
            have hstored := SignalingQueue.contents_store hq.wellFormed.consistent hfree
            rw [SignalingQueue.add_eq_store hne hq.wellFormed
              (le_trans (Nat.le_add_right _ _) hcounted.room)] at hadd
            cases hadd
            obtain ⟨queue', hloop', hroom', hcontents⟩ := ih hloop hroom₁
            refine ⟨queue', ?_, hroom', ?_⟩
            · rw [SignalingQueue.add_eq_store hne hq.wellFormed
                (le_trans (Nat.le_add_right _ _) hcounted.room)]
              dsimp only
              rw [if_neg (by omega), hloop']
            · rw [hcontents, hstored, List.append_assoc]
              rfl
          · exact ih h hcounted

theorem received_queue {chunks : List Str} {retvals : List Int} {queue : SignalingQueue}
    (h : receives c chunks = some (retvals, c', added))
    (hq : HasRoom c queue chunks.flatten.length) :
    ∃ queue', received c queue chunks = some (c', queue') ∧
      queue'.contents = queue.contents ++ added := by
  induction chunks generalizing c queue retvals added with
  | nil =>
      cases h
      exact ⟨queue, rfl, (List.append_nil _).symm⟩
  | cons chunk others ih =>
      rw [receives] at h
      obtain ⟨⟨retval, c₁, added₁⟩, hreceive, hothers⟩ := Option.bind_eq_some_iff.mp h
      obtain ⟨⟨retvals₁, last, more⟩, hreceives, heq⟩ := Option.map_eq_some_iff.mp hothers
      cases heq
      rw [List.flatten_cons, List.length_append] at hq
      have hstep : ∃ queue₁, c.receive queue chunk = some (retval, c₁, queue₁) ∧
          HasRoom c₁ queue₁ others.flatten.length ∧
            queue₁.contents = queue.contents ++ added₁ := by
        rw [receive] at hreceive
        rw [Receiver.receive]
        split_ifs at hreceive ⊢
        · cases hreceive
          have hroom := hq.room
          exact ⟨queue, rfl, ⟨hq.wellFormed, hq.size_lt, by omega⟩, (List.append_nil _).symm⟩
        · exact receiveLoop_queue hreceive hq
      obtain ⟨queue₁, hreceive₁, hroom₁, hcontents₁⟩ := hstep
      obtain ⟨queue', hreceived, hcontents⟩ := ih hreceives hroom₁
      refine ⟨queue', ?_, ?_⟩
      · rw [received, hreceive₁]
        exact hreceived
      · rw [hcontents, hcontents₁, List.append_assoc]

end RealQueue

/-- However the stream is cut, the messages added are those completed, each call
returns 1 until the FINAL frame is complete and every later one 0, and a queue
with room takes the same messages. -/
theorem receives_stream {messages : List Str} {final : Bool} {chunks : List Str}
    (hfit : ∀ message ∈ messages, message ≠ [] ∧ message.length < 2 ^ 31)
    (hsplit : chunks.flatten <+: stream messages final) :
    ∃ c, receives {} chunks = some (returnValues messages final [] chunks, c,
        completed messages chunks.flatten.length) ∧
      (final = true → chunks.flatten = stream messages final →
        ∀ chunk, receive c chunk = some (0, c, [])) ∧
      ∀ queue : SignalingQueue, queue.WellFormed → queue.queueSize < 2 ^ 31 →
        chunks.flatten.length ≤ queue.freeSize → ∃ queue',
          received {} queue chunks = some (c, queue') ∧
            queue'.contents = queue.contents ++ completed messages chunks.flatten.length := by
  have hstart : Deframed messages final [] 1 {} [] messages [] :=
    ⟨rfl, rfl, Or.inl ⟨rfl, rfl, Nat.lt_of_lt_of_le (Nat.zero_lt_succ 3) (Nat.le_add_right 4 _)⟩⟩
  obtain ⟨retval, c, added, left, bytes, hreceives, h⟩ := receives_spec hfit hstart hsplit
  rw [List.nil_append, List.nil_append] at h
  rw [completed_eq h]
  refine ⟨c, hreceives, ?_, ?_⟩
  · rintro hfinal hwhole chunk
    have hzero := retval_eq h
    rw [returnValue, if_pos ⟨hfinal, hwhole⟩] at hzero
    rcases h.position with ⟨hone, _⟩ | ⟨_, _, _, _, hended⟩
    · rw [hzero] at hone
      cases hone
    · exact if_pos hended
  · intro queue hq hsize hroom
    exact received_queue hreceives ⟨hq, hsize, (Nat.zero_add _).trans_le hroom⟩

/-- Headers and messages cut anywhere, and two frames in one chunk. -/
theorem receives_cut_stream :
    ∃ c, receives {} ((stream ["abc".toList, "de".toList] true).toChunks 5) =
        some (returnValues ["abc".toList, "de".toList] true []
          ((stream ["abc".toList, "de".toList] true).toChunks 5), c,
            completed ["abc".toList, "de".toList]
              ((stream ["abc".toList, "de".toList] true).toChunks 5).flatten.length) := by
  obtain ⟨c, hreceives, _⟩ := @receives_stream ["abc".toList, "de".toList] true
    ((stream ["abc".toList, "de".toList] true).toChunks 5)
    (by decide) (by decide +kernel)
  exact ⟨c, hreceives⟩

end FastDCS.Deframing
