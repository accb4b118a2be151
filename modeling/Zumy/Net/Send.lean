/-
  Zumy.Net.Send — net.cpp: how messages are queued on a connection and given to its socket, and
  what arrives of them.

  `BeginMessage` and `EndMessage` put a message behind `vSendMsg`; `SocketSendData` gives the
  socket what is left of the first, until the socket takes less than all of it. What a call of
  `send` answers is an event; it takes no more than it is given. The checksum is a parameter,
  and the options that drop or spoil messages in tests are left out. A failed assertion ends the
  program: `none`.

  - `sender_inv`: the assertions hold, `nSendSize` and `nSendOffset` agree with `vSendMsg`, and
    the socket took the messages' bytes in order.
-/
import Zumy.Net.Receive

namespace Zumy.Net

open Zumy.Lib Zumy.Lib.Framing

/-- `MessageStartChars`. -/
abbrev MessageStartChars := { v : List UInt8 // v.length = 4 }

/-- A message as its sender has it: the string of the command, and the payload. -/
structure Message where
  pszCommand : List UInt8
  payload : List UInt8

/-- What a call of `send` answers: the bytes that were taken, or an error that may be fatal. -/
structure SendResult where
  nBytes : Int
  fatal : Bool

structure Sender where
  /-- The message that is written now. -/
  ssSend : List UInt8
  vSendMsg : List (List UInt8)
  /-- Total size of all `vSendMsg` entries. -/
  nSendSize : Nat
  /-- Offset inside the first `vSendMsg` already sent. -/
  nSendOffset : Nat
  fDisconnect : Bool
  /-- All that the socket took. -/
  wire : List UInt8
  /-- The messages that were queued. -/
  queued : List Message

inductive SendEvent where
  /-- A message is begun, written and ended; the answers are those of the optimistic write. -/
  | push (m : Message) (results : List SendResult)
  /-- A message is begun, written and aborted. -/
  | abort (m : Message)
  | socketSend (results : List SendResult)

/-- The header as `BeginMessage` writes it, and its command. -/
def pchCommand (pszCommand : List UInt8) : List UInt8 := (pszCommand.take 12).rightpad 12 0

namespace Sender

def start : Sender := ⟨[], [], 0, 0, false, [], []⟩

def beginMessage (pchMessageStart : MessageStartChars) (pszCommand : List UInt8) (s : Sender) : Option Sender :=
  if s.ssSend.length = 0 then
    some { s with ssSend := s.ssSend ++ (CMessageHeader.mk pchMessageStart.1 (pchCommand pszCommand) 0 0).serialize }
  else none

def write (bytes : List UInt8) (s : Sender) : Sender := { s with ssSend := s.ssSend ++ bytes }

def abortMessage (s : Sender) : Sender := { s with ssSend := [] }

/-- The loop of `SocketSendData` from an entry on. Where there is no answer, the socket would block. -/
def sendLoop : List SendResult → List (List UInt8) → Sender → Option (List (List UInt8) × Sender)
  | _, [], s => some ([], s)
  | results, data :: it, s =>
    if data.length ≤ s.nSendOffset then none
    else
      match results with
      | [] => some (data :: it, s)
      | r :: results =>
        if 0 < r.nBytes then
          let nBytes := min r.nBytes.toNat (data.length - s.nSendOffset)
          let s := { s with nSendOffset := s.nSendOffset + nBytes, wire := s.wire ++ (data.drop s.nSendOffset).take nBytes }
          if s.nSendOffset = data.length then sendLoop results it { s with nSendOffset := 0, nSendSize := s.nSendSize - data.length }
          -- could not send full message; stop sending more
          else some (data :: it, s)
        else some (data :: it, if r.nBytes < 0 && r.fatal then { s with fDisconnect := true } else s)

def socketSendData (results : List SendResult) (s : Sender) : Option Sender :=
  (sendLoop results s.vSendMsg s).bind fun (it, s) =>
    if it = [] ∧ ¬ (s.nSendOffset = 0 ∧ s.nSendSize = 0) then none else some { s with vSendMsg := it }

def finishMessage (checksum : List UInt8 → UInt32) (ssSend : List UInt8) : List UInt8 :=
  let nSize := UInt32.ofNat (ssSend.length - CMessageHeader.headerSize)
  let ssSend := copyAt ssSend 16 (writeLE32 nSize)
  let nChecksum := checksum (ssSend.drop CMessageHeader.headerSize)
  copyAt ssSend 20 (writeLE32 nChecksum)

def endMessage (checksum : List UInt8 → UInt32) (results : List SendResult) (s : Sender) : Option Sender :=
  if s.ssSend.length = 0 then some s
  else if s.ssSend.length < CMessageHeader.headerSize then none
  else
    let data := finishMessage checksum s.ssSend
    let s' := { s with ssSend := [], vSendMsg := s.vSendMsg ++ [data], nSendSize := s.nSendSize + data.length }
    -- If write queue empty, attempt "optimistic write"
    if s.vSendMsg = [] then s'.socketSendData results else some s'

def step (pchMessageStart : MessageStartChars) (checksum : List UInt8 → UInt32) (s : Sender) : SendEvent → Option Sender
  | .push m results =>
    (s.beginMessage pchMessageStart m.pszCommand).bind fun s =>
      ({ s.write m.payload with queued := s.queued ++ [m] } : Sender).endMessage checksum results
  | .abort m => (s.beginMessage pchMessageStart m.pszCommand).map fun s => (s.write m.payload).abortMessage
  | .socketSend results => s.socketSendData results

end Sender

/-! ## What a message is on the wire -/

def Message.header (pchMessageStart : MessageStartChars) (checksum : List UInt8 → UInt32) (m : Message) : CMessageHeader :=
  ⟨pchMessageStart.1, pchCommand m.pszCommand, UInt32.ofNat m.payload.length, checksum m.payload⟩

def Message.frame (pchMessageStart : MessageStartChars) (checksum : List UInt8 → UInt32) (m : Message) : Frame UInt8 :=
  ⟨(m.header pchMessageStart checksum).serialize, m.payload⟩

theorem length_writeLE32 (n : UInt32) : (writeLE32 n).length = 4 := rfl

theorem length_pchCommand (pszCommand : List UInt8) : (pchCommand pszCommand).length = 12 := by
  rw [pchCommand, List.rightpad, List.length_append, List.length_replicate, List.length_take]
  omega

theorem length_serialize {hdr : CMessageHeader} (hstart : hdr.pchMessageStart.length = 4)
    (hcommand : hdr.pchCommand.length = 12) :
    hdr.serialize.length = 24 := by
  rw [CMessageHeader.serialize, List.length_append, List.length_append, List.length_append, length_writeLE32,
    length_writeLE32, hstart,
    hcommand]

/-- The size and the checksum are set in place: the rest of the message stays. -/
theorem finishMessage_eq (checksum : List UInt8 → UInt32) (pchMessageStart : MessageStartChars) (m : Message) :
    Sender.finishMessage checksum ((CMessageHeader.mk pchMessageStart.1 (pchCommand m.pszCommand) 0 0).serialize ++ m.payload) =
      (m.frame pchMessageStart checksum).bytes := by
  have hstart : pchMessageStart.1.length = 4 := pchMessageStart.2
  have hcommand := length_pchCommand m.pszCommand
  have hsize : ((CMessageHeader.mk pchMessageStart.1 (pchCommand m.pszCommand) 0 0).serialize ++ m.payload).length -
      CMessageHeader.headerSize = m.payload.length := by
    rw [List.length_append, length_serialize hstart hcommand, CMessageHeader.headerSize, Nat.add_sub_cancel_left]
  generalize hfront : pchMessageStart.1 ++ pchCommand m.pszCommand = front
  have hlength : front.length = 16 := by rw [← hfront, List.length_append, hstart, hcommand]
  have hbegun : (CMessageHeader.mk pchMessageStart.1 (pchCommand m.pszCommand) 0 0).serialize ++ m.payload =
      front ++ (writeLE32 0 ++ (writeLE32 0 ++ m.payload)) := by
    simp only [CMessageHeader.serialize, ← hfront, List.append_assoc]
  -- overwriting a part of known length between two others
  have hcopy : ∀ a b b' c : List UInt8, b.length = b'.length → copyAt (a ++ (b ++ c)) a.length b' = a ++ (b' ++ c) := by
    intro a b b' c hb
    have hdrop : (a ++ (b ++ c)).drop (a.length + b'.length) = c := by
      rw [← List.append_assoc, List.drop_left' (by rw [List.length_append, hb])]
    rw [copyAt, List.take_left' rfl, hdrop]
  have h16 : ∀ n, copyAt (front ++ (writeLE32 0 ++ (writeLE32 0 ++ m.payload))) 16 (writeLE32 n) =
      front ++ (writeLE32 n ++ (writeLE32 0 ++ m.payload)) := by
    intro n
    have h := hcopy front (writeLE32 0) (writeLE32 n) (writeLE32 0 ++ m.payload) rfl
    rwa [hlength] at h
  have h20 : ∀ n k, copyAt (front ++ (writeLE32 n ++ (writeLE32 0 ++ m.payload))) 20 (writeLE32 k) =
      front ++ (writeLE32 n ++ (writeLE32 k ++ m.payload)) := by
    intro n k
    have h := hcopy (front ++ writeLE32 n) (writeLE32 0) (writeLE32 k) m.payload rfl
    rwa [List.length_append, hlength, length_writeLE32, List.append_assoc, List.append_assoc] at h
  have hdrop : ∀ n, (front ++ (writeLE32 n ++ (writeLE32 0 ++ m.payload))).drop CMessageHeader.headerSize = m.payload := by
    intro n
    rw [← List.append_assoc, ← List.append_assoc, List.drop_left']
    rw [List.length_append, List.length_append, hlength, length_writeLE32, length_writeLE32, CMessageHeader.headerSize]
  rw [Sender.finishMessage, hsize, hbegun, h16, hdrop, h20]
  simp only [Frame.bytes, Message.frame, Message.header, CMessageHeader.serialize, ← hfront, List.append_assoc]

theorem frame_fits (pchMessageStart : MessageStartChars) (checksum : List UInt8 → UInt32) {m : Message}
    (h : m.payload.length ≤ maxProtocolMessageLength) : (m.frame pchMessageStart checksum).Fits messageFormat := by
  have hstart : (m.header pchMessageStart checksum).pchMessageStart.length = 4 := pchMessageStart.2
  have hcommand : (m.header pchMessageStart checksum).pchCommand.length = 12 := length_pchCommand m.pszCommand
  have hsize : (UInt32.ofNat m.payload.length).toNat = m.payload.length := by
    rw [UInt32.toNat_ofNat']
    unfold maxProtocolMessageLength at h
    omega
  refine ⟨length_serialize hstart hcommand, ?_⟩
  show (if maxProtocolMessageLength < (CMessageHeader.unserialize (m.header pchMessageStart checksum).serialize).nMessageSize.toNat then none
    else some (CMessageHeader.unserialize (m.header pchMessageStart checksum).serialize).nMessageSize.toNat) =
      some m.payload.length
  rw [CMessageHeader.unserialize_serialize hstart hcommand]
  show (if maxProtocolMessageLength < (UInt32.ofNat m.payload.length).toNat then none else some (UInt32.ofNat m.payload.length).toNat) = _
  rw [hsize, if_neg (by omega)]

theorem received_frame (pchMessageStart : MessageStartChars) (checksum : List UInt8 → UInt32) (m : Message) :
    received (m.frame pchMessageStart checksum) = (m.header pchMessageStart checksum, m.payload) := by
  have hback : CMessageHeader.unserialize (m.header pchMessageStart checksum).serialize = m.header pchMessageStart checksum :=
    CMessageHeader.unserialize_serialize pchMessageStart.2 (length_pchCommand m.pszCommand)
  rw [received, Message.frame, hback]

/-! ## The sender -/

/-- The entries from one on and the counters agree, and with what the socket took they are all bytes. -/
structure Queued (all : List UInt8) (it : List (List UInt8)) (s : Sender) : Prop where
  nSendSize : s.nSendSize = (it.map List.length).sum
  nSendOffset : ∀ data ∈ it.head?, s.nSendOffset < data.length
  empty : it = [] → s.nSendOffset = 0
  data : ∀ data ∈ it, data ≠ []
  wire : s.wire ++ it.flatten.drop s.nSendOffset = all

variable {s : Sender} {all : List UInt8} {it : List (List UInt8)}

/-- The induction is on the entries: one that is sent as a whole leaves the next at its start. -/
theorem sendLoop_spec (results : List SendResult) (h : Queued all it s) :
    ∃ it' s', Sender.sendLoop results it s = some (it', s') ∧ Queued all it' s' ∧ s'.ssSend = s.ssSend ∧
      s'.queued = s.queued := by
  induction it generalizing results s with
  | nil =>
    refine ⟨[], s, ?_, h, rfl, rfl⟩
    cases results <;> rfl
  | cons data it ih =>
    have hoffset : s.nSendOffset < data.length := h.nSendOffset data rfl
    rw [Sender.sendLoop.eq_def]
    dsimp only
    rw [if_neg (by omega)]
    cases results with
    | nil => exact ⟨_, _, rfl, h, rfl, rfl⟩
    | cons r results =>
      dsimp only
      split
      · next hsent =>
        generalize hn : min r.nBytes.toNat (data.length - s.nSendOffset) = nBytes
        have hwire : s.wire ++ (data.drop s.nSendOffset ++ it.flatten) = all := by
          rw [← h.wire, List.flatten_cons, List.drop_append_of_le_length (Nat.le_of_lt hoffset)]
        split
        · next hwhole =>
          refine ih results ⟨?_, fun next hnext => ?_, fun _ => rfl, fun d hd => h.data d (List.mem_cons_of_mem _ hd), ?_⟩
          · show s.nSendSize - data.length = (it.map List.length).sum
            rw [h.nSendSize, List.map_cons, List.sum_cons, Nat.add_sub_cancel_left]
          · exact List.length_pos_iff.2 (h.data next (List.mem_cons_of_mem _ (List.mem_of_mem_head? hnext)))
          · show s.wire ++ (data.drop s.nSendOffset).take nBytes ++ it.flatten.drop 0 = all
            rw [List.take_of_length_le (by rw [List.length_drop]; omega), List.drop_zero, List.append_assoc, hwire]
        · next hpart =>
          refine ⟨_, _, rfl, ⟨h.nSendSize, fun d hd => ?_, nofun, h.data, ?_⟩, rfl, rfl⟩
          · cases hd
            show s.nSendOffset + nBytes < data.length
            omega
          · show s.wire ++ (data.drop s.nSendOffset).take nBytes ++ (data :: it).flatten.drop (s.nSendOffset + nBytes) = all
            rw [List.flatten_cons, List.drop_append_of_le_length (by omega), ← List.drop_drop, ← hwire, List.append_assoc,
              ← List.append_assoc (List.take _ _), List.take_append_drop]
      · refine ⟨_, _, rfl, ?_⟩
        split
        · exact ⟨⟨h.nSendSize, h.nSendOffset, h.empty, h.data, h.wire⟩, rfl, rfl⟩
        · exact ⟨h, rfl, rfl⟩

def Sender.bytes (pchMessageStart : MessageStartChars) (checksum : List UInt8 → UInt32) (s : Sender) : List UInt8 :=
  (s.queued.map (Message.frame pchMessageStart checksum)).flatMap Frame.bytes

/-- Between the calls no message is begun, and the queue agrees with the counters. -/
structure Sender.Inv (pchMessageStart : MessageStartChars) (checksum : List UInt8 → UInt32) (s : Sender) : Prop where
  ssSend : s.ssSend = []
  queue : Queued (s.bytes pchMessageStart checksum) s.vSendMsg s

variable {pchMessageStart : MessageStartChars} {checksum : List UInt8 → UInt32}

theorem socketSendData_spec (results : List SendResult) (h : s.Inv pchMessageStart checksum) :
    ∃ s', s.socketSendData results = some s' ∧ s'.Inv pchMessageStart checksum ∧ s'.queued = s.queued := by
  obtain ⟨it, s', hloop, hqueue, hssSend, hqueued⟩ := sendLoop_spec results h.queue
  have hassert : ¬ (it = [] ∧ ¬ (s'.nSendOffset = 0 ∧ s'.nSendSize = 0)) := by
    rintro ⟨rfl, hfail⟩
    exact hfail ⟨hqueue.empty rfl, hqueue.nSendSize⟩
  refine ⟨{ s' with vSendMsg := it }, ?_, ⟨hssSend.trans h.ssSend, ?_⟩, hqueued⟩
  · rw [Sender.socketSendData, hloop, Option.bind_some]
    exact if_neg hassert
  · have hbytes : ({ s' with vSendMsg := it } : Sender).bytes pchMessageStart checksum = s.bytes pchMessageStart checksum := by
      show (s'.queued.map _).flatMap _ = _
      rw [hqueued]
      rfl
    rw [hbytes]
    exact ⟨hqueue.nSendSize, hqueue.nSendOffset, hqueue.empty, hqueue.data, hqueue.wire⟩

theorem Queued.append (h : Queued all it s) {data : List UInt8} (hdata : data ≠ []) :
    Queued (all ++ data) (it ++ [data]) { s with nSendSize := s.nSendSize + data.length } where
  nSendSize := by
    rw [List.map_append, List.sum_append, List.map_singleton, List.sum_singleton, ← h.nSendSize]
  nSendOffset := by
    intro d hd
    cases it with
    | nil =>
      cases hd
      show s.nSendOffset < data.length
      rw [h.empty rfl]
      exact List.length_pos_iff.2 hdata
    | cons first it => exact h.nSendOffset d hd
  empty := by
    intro hnil
    exact absurd hnil (List.append_ne_nil_of_right_ne_nil it (List.cons_ne_nil data []))
  data := by
    intro d hd
    rcases List.mem_append.1 hd with hd | hd
    · exact h.data d hd
    · rw [List.mem_singleton.1 hd]
      exact hdata
  wire := by
    have hle : s.nSendOffset ≤ it.flatten.length := by
      cases it with
      | nil => rw [h.empty rfl]; exact Nat.zero_le _
      | cons first it =>
        have hoffset := h.nSendOffset first rfl
        rw [List.flatten_cons, List.length_append]
        omega
    show s.wire ++ (it ++ [data]).flatten.drop s.nSendOffset = all ++ data
    rw [List.flatten_append, List.flatten_singleton, List.drop_append_of_le_length hle, ← List.append_assoc, h.wire]

/-- What `EndMessage` queues. -/
def Sender.enqueue (s : Sender) (data : List UInt8) : Sender :=
  { s with ssSend := [], vSendMsg := s.vSendMsg ++ [data], nSendSize := s.nSendSize + data.length }

theorem endMessage_eq (results : List SendResult) (h : 24 ≤ s.ssSend.length) :
    s.endMessage checksum results =
      if s.vSendMsg = [] then (s.enqueue (Sender.finishMessage checksum s.ssSend)).socketSendData results
      else some (s.enqueue (Sender.finishMessage checksum s.ssSend)) := by
  have hheader : ¬ s.ssSend.length < CMessageHeader.headerSize := Nat.not_lt.2 h
  rw [Sender.endMessage, if_neg (by omega), if_neg hheader]
  rfl

def SendEvent.message : SendEvent → Option Message
  | .push m _ => some m
  | .abort _ => none
  | .socketSend _ => none

theorem sender_inv (h : s.Inv pchMessageStart checksum) (e : SendEvent) :
    ∃ s', Sender.step pchMessageStart checksum s e = some s' ∧ s'.Inv pchMessageStart checksum ∧
      s'.queued = s.queued ++ e.message.toList := by
  cases e with
  | socketSend results =>
    obtain ⟨s', hsend, hinv, hqueued⟩ := socketSendData_spec results h
    exact ⟨s', hsend, hinv, by rw [hqueued, SendEvent.message, Option.toList_none, List.append_nil]⟩
  | abort m =>
    refine ⟨{ s with ssSend := [] }, ?_, ⟨rfl, ?_⟩, (List.append_nil _).symm⟩
    · rw [Sender.step, Sender.beginMessage, if_pos (by rw [h.ssSend]; rfl)]
      rfl
    · exact ⟨h.queue.nSendSize, h.queue.nSendOffset, h.queue.empty, h.queue.data, h.queue.wire⟩
  | push m results =>
    have hheader : (CMessageHeader.mk pchMessageStart.1 (pchCommand m.pszCommand) 0 0).serialize.length = 24 :=
      length_serialize pchMessageStart.2 (length_pchCommand m.pszCommand)
    have hdata : (m.frame pchMessageStart checksum).bytes ≠ [] := by
      have hframe : (m.header pchMessageStart checksum).serialize.length = 24 :=
        length_serialize pchMessageStart.2 (length_pchCommand m.pszCommand)
      intro hnil
      have hlength := congrArg List.length hnil
      rw [Frame.bytes, Message.frame, List.length_append, hframe, List.length_nil] at hlength
      omega
    generalize hs' : ({ s with queued := s.queued ++ [m] } : Sender).enqueue (m.frame pchMessageStart checksum).bytes = s'
    have hinv : s'.Inv pchMessageStart checksum := by
      have happend := h.queue.append hdata
      have hbytes : s'.bytes pchMessageStart checksum =
        s.bytes pchMessageStart checksum ++ (m.frame pchMessageStart checksum).bytes := by
        rw [← hs', Sender.bytes, Sender.bytes, Sender.enqueue, List.map_append, List.flatMap_append, List.map_singleton,
          List.flatMap_singleton]
      rw [← hs'] at hbytes ⊢
      refine ⟨rfl, ?_⟩
      rw [hbytes]
      exact ⟨happend.nSendSize, happend.nSendOffset, happend.empty, happend.data, happend.wire⟩
    have hpush : Sender.step pchMessageStart checksum s (.push m results) =
        if s.vSendMsg = [] then s'.socketSendData results else some s' := by
      have hbegin : s.beginMessage pchMessageStart m.pszCommand =
          some { s with ssSend := (CMessageHeader.mk pchMessageStart.1 (pchCommand m.pszCommand) 0 0).serialize } := by
        rw [Sender.beginMessage, if_pos (by rw [h.ssSend]; rfl), h.ssSend, List.nil_append]
      have hlong : 24 ≤ ((CMessageHeader.mk pchMessageStart.1 (pchCommand m.pszCommand) 0 0).serialize ++ m.payload).length := by
        rw [List.length_append]
        omega
      rw [Sender.step, hbegin, Option.bind_some]
      refine (endMessage_eq results hlong).trans ?_
      dsimp only [Sender.write]
      rw [finishMessage_eq, ← hs']
      rfl
    have hqueued : s'.queued = s.queued ++ [m] := by rw [← hs', Sender.enqueue]
    rw [hpush]
    split
    · obtain ⟨s'', hsend, hinv', hqueued'⟩ := socketSendData_spec results hinv
      exact ⟨s'', hsend, hinv', hqueued'.trans hqueued⟩
    · exact ⟨s', rfl, hinv, hqueued⟩

theorem run_sender_inv (h : s.Inv pchMessageStart checksum) (es : List SendEvent) :
    ∃ s', run (Sender.step pchMessageStart checksum) s es = some s' ∧ s'.Inv pchMessageStart checksum ∧
      s'.queued = s.queued ++ es.filterMap SendEvent.message := by
  induction es generalizing s with
  | nil => exact ⟨s, rfl, h, (List.append_nil _).symm⟩
  | cons e es ih =>
    obtain ⟨s', hstep, hs', hqueued⟩ := sender_inv h e
    obtain ⟨s'', hrun, hs'', hqueued'⟩ := ih hs'
    refine ⟨s'', by rw [run_cons, hstep, Option.bind_some, hrun], hs'', ?_⟩
    rw [hqueued', hqueued, List.append_assoc]
    cases hmessage : e.message with
    | none => rw [List.filterMap_cons_none hmessage, Option.toList_none, List.nil_append]
    | some m => rw [List.filterMap_cons_some hmessage, Option.toList_some, List.singleton_append]

theorem inv_start : Sender.start.Inv pchMessageStart checksum := ⟨rfl, ⟨rfl, nofun, fun _ => rfl, nofun, rfl⟩⟩

/-! ## From end to end -/

def Message.sent (pchMessageStart : MessageStartChars) (checksum : List UInt8 → UInt32) (m : Message) :
    CMessageHeader × List UInt8 :=
  (m.header pchMessageStart checksum, m.payload)

/-- The messages that are there as a whole in the first `n` bytes. -/
def arrived (pchMessageStart : MessageStartChars) (checksum : List UInt8 → UInt32) (n : Nat) (ms : List Message) :
    List (CMessageHeader × List UInt8) :=
  (fitting n (ms.map (Message.frame pchMessageStart checksum))).map received

theorem arrived_all {ms : List Message} {n : Nat}
    (h : ((ms.map (Message.frame pchMessageStart checksum)).flatMap Frame.bytes).length ≤ n) :
    arrived pchMessageStart checksum n ms = ms.map (Message.sent pchMessageStart checksum) := by
  rw [arrived, fitting_all _ h, List.map_map]
  refine List.map_congr_left fun m _ => ?_
  exact received_frame pchMessageStart checksum m

/-- What the socket took of messages within the limit is read as those that are there as a whole. -/
theorem parse_wire (h : s.Inv pchMessageStart checksum) (hsize : ∀ m ∈ s.queued, m.payload.length ≤ maxProtocolMessageLength)
    {stream : List UInt8} (hstream : stream <+: s.wire) :
    (parse messageFormat stream).frames.map received = arrived pchMessageStart checksum stream.length s.queued ∧
      (parse messageFormat stream).current ≠ .rejected := by
  have hpart : stream <+: (s.queued.map (Message.frame pchMessageStart checksum)).flatMap Frame.bytes := by
    refine hstream.trans ?_
    have hwire := h.queue.wire
    rw [Sender.bytes] at hwire
    rw [← hwire]
    exact List.prefix_append _ _
  have hfits : ∀ f ∈ s.queued.map (Message.frame pchMessageStart checksum), f.Fits messageFormat := by
    intro f hf
    obtain ⟨m, hm, rfl⟩ := List.mem_map.1 hf
    exact frame_fits pchMessageStart checksum (hsize m hm)
  obtain ⟨current, hfeed, hcurrent⟩ : ∃ current, stream.foldl (feed messageFormat) ⟨[], .header []⟩ =
      ⟨[] ++ fitting stream.length (s.queued.map (Message.frame pchMessageStart checksum)), current⟩ ∧ current ≠ .rejected :=
    feed_fitting _ hfits hpart
  have hparse : parse messageFormat stream =
    ⟨[] ++ fitting stream.length (s.queued.map (Message.frame pchMessageStart checksum)), current⟩ := hfeed
  rw [hparse]
  exact ⟨by rw [List.nil_append, arrived], hcurrent⟩

/-- However the messages are sent and what the socket took is cut, the receiver completes those that are there as a
    whole, and all of them once all is there; the assertions of the sender hold, and its counters agree with its queue. What is
    received of any bytes does not depend on how they are cut. -/
theorem messages_arrive (pchMessageStart : MessageStartChars) (checksum : List UInt8 → UInt32) :
    (∀ es : List SendEvent, (∀ m ∈ es.filterMap SendEvent.message, m.payload.length ≤ maxProtocolMessageLength) →
      ∃ s, run (Sender.step pchMessageStart checksum) .start es = some s ∧
        s.nSendSize = (s.vSendMsg.map List.length).sum ∧ (∀ data ∈ s.vSendMsg.head?, s.nSendOffset < data.length) ∧
        ∀ arrivals : List Arrival, arrivals.flatMap Arrival.bytes <+: s.wire →
          ∃ r, run (Receiver.step pchMessageStart.1) .start arrivals = some r ∧ r.fDisconnect = false ∧
            r.completed.map content =
              arrived pchMessageStart checksum (arrivals.flatMap Arrival.bytes).length (es.filterMap SendEvent.message) ∧
            (s.vSendMsg = [] → arrivals.flatMap Arrival.bytes = s.wire →
              r.completed.map content = (es.filterMap SendEvent.message).map (Message.sent pchMessageStart checksum))) ∧
    ∀ arrivals : List Arrival, ∃ r, run (Receiver.step pchMessageStart.1) .start arrivals = some r ∧
      r.completed.map content = (parse messageFormat (arrivals.flatMap Arrival.bytes)).frames.map received ∧
      (r.fDisconnect = true ↔ (parse messageFormat (arrivals.flatMap Arrival.bytes)).current = .rejected) := by
  refine ⟨fun es hsize => ?_, run_received pchMessageStart.1⟩
  have hstart : Sender.start.Inv pchMessageStart checksum := inv_start
  obtain ⟨s, hrun, hinv, hqueued⟩ := run_sender_inv hstart es
  have hmessages : s.queued = es.filterMap SendEvent.message := hqueued
  refine ⟨s, hrun, hinv.queue.nSendSize, hinv.queue.nSendOffset, fun arrivals hpart => ?_⟩
  obtain ⟨r, hreceive, hcompleted, hdisconnect⟩ := run_received pchMessageStart.1 arrivals
  obtain ⟨hframes, hnot⟩ := parse_wire hinv (by rw [hmessages]; exact hsize) hpart
  rw [hmessages] at hframes
  refine ⟨r, hreceive, Bool.eq_false_iff.2 fun hgone => hnot (hdisconnect.1 hgone), hcompleted.trans hframes,
    fun hempty hall => ?_⟩
  have hwire := hinv.queue.wire
  rw [hempty, List.flatten_nil, List.drop_nil, List.append_nil, Sender.bytes, hmessages] at hwire
  rw [hcompleted, hframes, hall, hwire, arrived_all (Nat.le_refl _)]

/-- Two messages, the second without a payload; the socket takes 10 bytes, then all, and the chunks cut both headers. -/
def sampleMessages : List SendEvent :=
  [.push ⟨[112, 111, 110, 103], [1, 2, 3, 4, 5, 6, 7, 8]⟩ [⟨10, false⟩, ⟨-1, false⟩], .push ⟨[118, 101, 114, 97, 99, 107], []⟩ [],
    .socketSend [⟨100, false⟩, ⟨100, false⟩]]

def sampleStart : MessageStartChars := ⟨[0xbf, 0x0c, 0x6b, 0xbd], rfl⟩

theorem messages_arrive_sample : ∃ s, run (Sender.step sampleStart fun _ => 0) .start sampleMessages = some s ∧
    s.nSendSize = (s.vSendMsg.map List.length).sum ∧ (∀ data ∈ s.vSendMsg.head?, s.nSendOffset < data.length) ∧
    ∀ arrivals : List Arrival, arrivals.flatMap Arrival.bytes <+: s.wire →
      ∃ r, run (Receiver.step sampleStart.1) .start arrivals = some r ∧ r.fDisconnect = false ∧
        r.completed.map content =
          arrived sampleStart (fun _ => 0) (arrivals.flatMap Arrival.bytes).length (sampleMessages.filterMap SendEvent.message) ∧
        (s.vSendMsg = [] → arrivals.flatMap Arrival.bytes = s.wire →
          r.completed.map content = (sampleMessages.filterMap SendEvent.message).map (Message.sent sampleStart fun _ => 0)) :=
  (messages_arrive sampleStart fun _ => 0).1 sampleMessages (by decide)

/-- A header that names more than the limit ends the connection at its last byte. -/
example : (run (Receiver.step sampleStart.1) .start [.chunk (List.replicate 16 0 ++ [1, 0, 0x20]), .chunk [0, 9, 9, 9], .chunk [9, 9]]).map
    Receiver.fDisconnect = some true := by decide

end Zumy.Net
