/-
  Zumy.Net.Receive — net.h, net.cpp, protocol.h: how the messages of a peer are put together
  from what its socket gives.

  A message is first a header of 24 bytes, then as many bytes as the header says. A chunk goes
  into the last message of `vRecvMsg`, or a new one behind it; messages that are complete are
  taken from the front between the chunks. A header that names too much ends the connection.
  The times and versions of messages are left out, and so is waking the thread that handles
  them. A loop that takes no byte would not end: `none`.

  Proved: what is received is what the stream is as frames (`Rel`, `step_follows`), so the
  messages and where a header is rejected do not depend on the chunks (`run_received`).
-/
import Zumy.Lib.Framing
import Zumy.Lib.Run
import Mathlib.Data.List.TakeDrop
import Mathlib.Algebra.Order.Ring.Nat

namespace Zumy.Net

open Zumy.Lib Zumy.Lib.Framing

/-- `MAX_SIZE`. -/
def maxSize : Nat := 0x02000000

def maxProtocolMessageLength : Nat := 2 * 1024 * 1024

/-! ## Headers -/

/-- `ser_writedata32`: four bytes, the lowest first. -/
def writeLE32 (n : UInt32) : List UInt8 :=
  [UInt8.ofNat n.toNat, UInt8.ofNat (n.toNat / 256), UInt8.ofNat (n.toNat / 256 ^ 2), UInt8.ofNat (n.toNat / 256 ^ 3)]

def readLE32 : List UInt8 → UInt32
  | a :: b :: c :: d :: _ => UInt32.ofNat (a.toNat + 256 * b.toNat + 256 ^ 2 * c.toNat + 256 ^ 3 * d.toNat)
  | _ => 0

theorem readLE32_writeLE32 (n : UInt32) (rest : List UInt8) : readLE32 (writeLE32 n ++ rest) = n := by
  have hlt : n.toNat < 2 ^ 32 := n.toNat_lt
  apply UInt32.toNat_inj.1
  simp only [writeLE32, List.cons_append, readLE32, UInt8.toNat_ofNat', UInt32.toNat_ofNat']
  omega

structure CMessageHeader where
  pchMessageStart : List UInt8
  pchCommand : List UInt8
  nMessageSize : UInt32
  nChecksum : UInt32
  deriving DecidableEq

namespace CMessageHeader

/-- `HEADER_SIZE`: the start, the command, the size and the checksum. -/
def headerSize : Nat := 24

def new (pchMessageStart : List UInt8) : CMessageHeader := ⟨pchMessageStart, List.replicate 12 0, 0xFFFFFFFF, 0⟩

def serialize (hdr : CMessageHeader) : List UInt8 :=
  hdr.pchMessageStart ++ (hdr.pchCommand ++ (writeLE32 hdr.nMessageSize ++ writeLE32 hdr.nChecksum))

def unserialize (bytes : List UInt8) : CMessageHeader :=
  ⟨bytes.take 4, (bytes.drop 4).take 12, readLE32 (bytes.drop 16), readLE32 (bytes.drop 20)⟩

theorem unserialize_serialize {hdr : CMessageHeader} (hstart : hdr.pchMessageStart.length = 4)
    (hcommand : hdr.pchCommand.length = 12) :
    unserialize hdr.serialize = hdr := by
  have h16 : hdr.serialize.drop 16 = writeLE32 hdr.nMessageSize ++ writeLE32 hdr.nChecksum := by
    rw [serialize, ← List.append_assoc, List.drop_left' (by rw [List.length_append]; omega)]
  have h20 : hdr.serialize.drop 20 = writeLE32 hdr.nChecksum ++ [] := by
    have hdrop : hdr.serialize.drop 20 = (hdr.serialize.drop 16).drop 4 := by rw [List.drop_drop]
    rw [hdrop, h16, List.append_nil]
    rfl
  have h4 : hdr.serialize.drop 4 = hdr.pchCommand ++ (writeLE32 hdr.nMessageSize ++ writeLE32 hdr.nChecksum) := by
    rw [serialize, List.drop_left' hstart]
  rw [unserialize, h16, h20, h4, readLE32_writeLE32, readLE32_writeLE32, List.take_left' hcommand, serialize,
    List.take_left' hstart]

end CMessageHeader

/-! ## Messages -/

/-- `memcpy(&buf[pos], pch, n)`. -/
def copyAt (buf : List UInt8) (pos : Nat) (bytes : List UInt8) : List UInt8 :=
  buf.take pos ++ (bytes ++ buf.drop (pos + bytes.length))

/-- `CDataStream::resize`: new bytes are 0. -/
def resize (buf : List UInt8) (n : Nat) : List UInt8 := (buf.take n).rightpad n 0

structure CNetMessage where
  /-- Parsing the header (false) or the data (true). -/
  in_data : Bool
  /-- The header, as far as it is received. -/
  hdrbuf : List UInt8
  hdr : CMessageHeader
  nHdrPos : Nat
  vRecv : List UInt8
  nDataPos : Nat
  deriving DecidableEq

namespace CNetMessage

def new (pchMessageStart : List UInt8) : CNetMessage := ⟨false, List.replicate 24 0, .new pchMessageStart, 0, [], 0⟩

def complete (m : CNetMessage) : Bool := m.in_data && m.hdr.nMessageSize.toNat == m.nDataPos

/-- How many bytes are taken from the front of `pch`, or `none` for an error. -/
def readHeader (m : CNetMessage) (pch : List UInt8) : CNetMessage × Option Nat :=
  let nRemaining := 24 - m.nHdrPos
  let nCopy := min nRemaining pch.length
  let m := { m with hdrbuf := copyAt m.hdrbuf m.nHdrPos (pch.take nCopy), nHdrPos := m.nHdrPos + nCopy }
  if m.nHdrPos < 24 then (m, some nCopy)
  else
    let m := { m with hdr := .unserialize m.hdrbuf, hdrbuf := [] }
    if maxSize < m.hdr.nMessageSize.toNat then (m, none) else ({ m with in_data := true }, some nCopy)

def readData (m : CNetMessage) (pch : List UInt8) : CNetMessage × Nat :=
  let nRemaining := m.hdr.nMessageSize.toNat - m.nDataPos
  let nCopy := min nRemaining pch.length
  -- Allocate up to 256 KiB ahead, but never more than the total message size.
  let vRecv := if m.vRecv.length < m.nDataPos + nCopy then
      resize m.vRecv (min m.hdr.nMessageSize.toNat (m.nDataPos + nCopy + 256 * 1024))
    else m.vRecv
  ({ m with vRecv := copyAt vRecv m.nDataPos (pch.take nCopy), nDataPos := m.nDataPos + nCopy }, nCopy)

end CNetMessage

/-- One turn of the loop over the last message: the message, and what is taken of `pch`, or `none` where the
    connection ends. -/
def absorb (m : CNetMessage) (pch : List UInt8) : CNetMessage × Option Nat :=
  let (msg, handled) := if m.in_data then (m.readData pch).map id some else m.readHeader pch
  match handled with
  | none => (msg, none)
  | some handled =>
    if msg.in_data && decide (maxProtocolMessageLength < msg.hdr.nMessageSize.toNat) then (msg, none) else (msg, some handled)

/-- The messages before the last that is not complete, and that one, or a new one. -/
def openMessage (pchMessageStart : List UInt8) (vRecvMsg : List CNetMessage) : List CNetMessage × CNetMessage :=
  match vRecvMsg.getLast? with
  | none => ([], .new pchMessageStart)
  | some msg => if msg.complete then (vRecvMsg, .new pchMessageStart) else (vRecvMsg.dropLast, msg)

/-- The loop of `ReceiveMsgBytes`; each turn takes a byte at least. -/
def receiveLoop (pchMessageStart : List UInt8) : Nat → List CNetMessage → List UInt8 → Option (Bool × List CNetMessage)
  | _, vRecvMsg, [] => some (true, vRecvMsg)
  | 0, _, _ :: _ => none
  | turns + 1, vRecvMsg, b :: bs =>
    let (before, m) := openMessage pchMessageStart vRecvMsg
    match absorb m (b :: bs) with
    | (msg, none) => some (false, before ++ [msg])
    | (msg, some handled) => receiveLoop pchMessageStart turns (before ++ [msg]) ((b :: bs).drop handled)

def receiveMsgBytes (pchMessageStart : List UInt8) (vRecvMsg : List CNetMessage) (pch : List UInt8) :
    Option (Bool × List CNetMessage) :=
  receiveLoop pchMessageStart pch.length vRecvMsg pch

structure Receiver where
  vRecvMsg : List CNetMessage
  /-- The messages that were taken from the front. -/
  taken : List CNetMessage
  fDisconnect : Bool

inductive Arrival where
  | chunk (pch : List UInt8)
  /-- At most `n` messages are handled. -/
  | take (n : Nat)

namespace Receiver

def start : Receiver := ⟨[], [], false⟩

def step (pchMessageStart : List UInt8) (s : Receiver) : Arrival → Option Receiver
  | .chunk pch =>
    if s.fDisconnect then some s
    else (receiveMsgBytes pchMessageStart s.vRecvMsg pch).map fun (ok, vRecvMsg) =>
      { s with vRecvMsg := vRecvMsg, fDisconnect := !ok }
  | .take n =>
    let ready := (s.vRecvMsg.takeWhile CNetMessage.complete).take n
    some { s with vRecvMsg := s.vRecvMsg.drop ready.length, taken := s.taken ++ ready }

/-- The messages that are complete: those that were taken, and those that wait. -/
def completed (s : Receiver) : List CNetMessage := s.taken ++ s.vRecvMsg.takeWhile CNetMessage.complete

end Receiver

/-! ## Buffers -/

theorem take_copyAt (buf bytes : List UInt8) (pos : Nat) (h : pos ≤ buf.length) :
    (copyAt buf pos bytes).take (pos + bytes.length) = buf.take pos ++ bytes := by
  have hlength : (buf.take pos ++ bytes).length = pos + bytes.length := by
    rw [List.length_append, List.length_take, Nat.min_eq_left h]
  rw [copyAt, ← List.append_assoc, List.take_left' hlength]

theorem length_copyAt {buf bytes : List UInt8} {pos : Nat} (h : pos + bytes.length ≤ buf.length) :
    (copyAt buf pos bytes).length = buf.length := by
  rw [copyAt, List.length_append, List.length_append, List.length_take, List.length_drop]
  omega

theorem length_resize (buf : List UInt8) (n : Nat) : (resize buf n).length = n := by
  rw [resize, List.rightpad, List.length_append, List.length_replicate, List.length_take]
  omega

theorem take_resize {buf : List UInt8} {pos n : Nat} (hpos : pos ≤ buf.length) (hn : pos ≤ n) :
    (resize buf n).take pos = buf.take pos := by
  rw [resize, List.rightpad, List.take_append_of_le_length (by rw [List.length_take]; omega), List.take_take, Nat.min_eq_left hn]

/-! ## Messages as frames -/

/-- A header may not name more than `MAX_PROTOCOL_MESSAGE_LENGTH`. -/
def messageFormat : Format UInt8 where
  headerSize := CMessageHeader.headerSize
  size header :=
    let nMessageSize := (CMessageHeader.unserialize header).nMessageSize.toNat
    if maxProtocolMessageLength < nMessageSize then none else some nMessageSize
  headerSize_pos := by decide

def content (m : CNetMessage) : CMessageHeader × List UInt8 := (m.hdr, m.vRecv)

def received (f : Frame UInt8) : CMessageHeader × List UInt8 := (.unserialize f.header, f.data)

structure Complete (m : CNetMessage) : Prop where
  in_data : m.in_data = true
  nDataPos : m.nDataPos = m.hdr.nMessageSize.toNat
  vRecv : m.vRecv.length = m.hdr.nMessageSize.toNat

theorem Complete.complete {m : CNetMessage} (h : Complete m) : m.complete = true := by
  rw [CNetMessage.complete, h.in_data, h.nDataPos, beq_self_eq_true, Bool.and_true]

inductive Open : CNetMessage → Current UInt8 → Prop
  | header (m : CNetMessage) (hdata : m.in_data = false) (hbuf : m.hdrbuf.length = 24) (hpos : m.nHdrPos < 24)
      (hzero : m.nDataPos = 0)
      (hnone : m.vRecv = []) : Open m (.header (m.hdrbuf.take m.nHdrPos))
  | data (m : CNetMessage) (header : List UInt8) (hdata : m.in_data = true) (hhdr : m.hdr = .unserialize header)
      (hsize : messageFormat.size header = some m.hdr.nMessageSize.toNat) (hpos : m.nDataPos < m.hdr.nMessageSize.toNat)
      (hlow : m.nDataPos ≤ m.vRecv.length) (hhigh : m.vRecv.length ≤ m.hdr.nMessageSize.toNat) :
      Open m (.data header (m.vRecv.take m.nDataPos))
  | rejected (m : CNetMessage) (h : m.complete = false) : Open m .rejected

theorem Open.not_complete {m : CNetMessage} {c : Current UInt8} (h : Open m c) : m.complete = false := by
  cases h with
  | header hdata => rw [CNetMessage.complete, hdata, Bool.false_and]
  | data header hdata hhdr hsize hpos =>
    rw [CNetMessage.complete, beq_eq_false_iff_ne.2 (by omega), Bool.and_false]
  | rejected h => exact h

theorem open_new (pchMessageStart : List UInt8) : Open (.new pchMessageStart) (.header []) :=
  .header (.new pchMessageStart) rfl rfl (Nat.succ_pos 23) rfl rfl

variable {m msg : CNetMessage} {c : Current UInt8} {pch : List UInt8} {frames : List (Frame UInt8)} {handled : Nat}

def Absorbed (frames : List (Frame UInt8)) (msg : CNetMessage) (p : Parser UInt8) : Prop :=
  (Complete msg ∧ ∃ f, p = ⟨frames ++ [f], .header []⟩ ∧ received f = content msg) ∨
    (p.frames = frames ∧ p.current ≠ .rejected ∧ Open msg p.current)

/-- A turn takes a byte at least, and does what the frames say, or a header among the bytes is rejected. -/
def AbsorbSpec (frames : List (Frame UInt8)) (c : Current UInt8) (pch : List UInt8) : CNetMessage × Option Nat → Prop
  | (msg, some handled) => 0 < handled ∧ handled ≤ pch.length ∧
      Absorbed frames msg ((pch.take handled).foldl (feed messageFormat) ⟨frames, c⟩)
  | (msg, none) => msg.complete = false ∧
      ∃ n, (pch.take n).foldl (feed messageFormat) ⟨frames, c⟩ = ⟨frames, .rejected⟩

theorem absorb_header (hne : pch ≠ []) (hdata : m.in_data = false) (hbuf : m.hdrbuf.length = 24) (hpos : m.nHdrPos < 24)
    (hzero : m.nDataPos = 0) (hnone : m.vRecv = []) :
    AbsorbSpec frames (.header (m.hdrbuf.take m.nHdrPos)) pch (absorb m pch) := by
  have hlength : 0 < pch.length := List.length_pos_iff.2 hne
  generalize hcopy : min (24 - m.nHdrPos) pch.length = nCopy
  have hcopylen : (pch.take nCopy).length = nCopy := by rw [List.length_take]; omega
  have htakelen : (m.hdrbuf.take m.nHdrPos).length = m.nHdrPos := by rw [List.length_take]; omega
  have htake : (copyAt m.hdrbuf m.nHdrPos (pch.take nCopy)).take (m.nHdrPos + nCopy) =
    m.hdrbuf.take m.nHdrPos ++ pch.take nCopy := by
    have h := take_copyAt m.hdrbuf (pch.take nCopy) m.nHdrPos (by omega)
    rwa [hcopylen] at h
  have hbuflen : (copyAt m.hdrbuf m.nHdrPos (pch.take nCopy)).length = 24 := by
    rw [length_copyAt (by omega), hbuf]
  simp only [absorb, hdata, Bool.false_eq_true, if_false, CNetMessage.readHeader, hcopy]
  by_cases hshort : m.nHdrPos + nCopy < 24
  · simp only [hshort, if_true, Bool.false_and, Bool.false_eq_true, if_false]
    refine ⟨by omega, by omega, .inr ?_⟩
    rw [feed_header_short (by rw [htakelen, hcopylen]; exact hshort), ← htake]
    exact ⟨rfl, fun h => (by cases h), .header _ rfl hbuflen hshort hzero hnone⟩
  · have hfull : m.nHdrPos + nCopy = 24 := by omega
    have hall : copyAt m.hdrbuf m.nHdrPos (pch.take nCopy) = m.hdrbuf.take m.nHdrPos ++ pch.take nCopy :=
      (List.take_of_length_le (Nat.le_of_eq (hbuflen.trans hfull.symm))).symm.trans htake
    have hfeed : (pch.take nCopy).foldl (feed messageFormat) ⟨frames, .header (m.hdrbuf.take m.nHdrPos)⟩ =
        finishHeader messageFormat frames (m.hdrbuf.take m.nHdrPos ++ pch.take nCopy) := by
      refine feed_header_full (fun hnil => ?_) (by rw [htakelen, hcopylen]; exact hfull)
      rw [hnil, List.length_nil] at hcopylen
      omega
    rw [hall]
    generalize m.hdrbuf.take m.nHdrPos ++ pch.take nCopy = header at hfeed ⊢
    have hsize : messageFormat.size header =
      if maxProtocolMessageLength < (CMessageHeader.unserialize header).nMessageSize.toNat then none
        else some (CMessageHeader.unserialize header).nMessageSize.toNat := rfl
    simp only [hshort, if_false]
    by_cases hmax : maxSize < (CMessageHeader.unserialize header).nMessageSize.toNat
    · have hlarge : maxProtocolMessageLength < (CMessageHeader.unserialize header).nMessageSize.toNat :=
        Nat.lt_trans (by decide) hmax
      rw [if_pos hlarge] at hsize
      simp only [hmax, if_true]
      refine ⟨rfl, nCopy, ?_⟩
      rw [hfeed, finishHeader, hsize]
    · simp only [hmax, if_false, Bool.true_and, decide_eq_true_eq]
      by_cases hlarge : maxProtocolMessageLength < (CMessageHeader.unserialize header).nMessageSize.toNat
      · rw [if_pos hlarge] at hsize
        simp only [hlarge, if_true]
        refine ⟨?_, nCopy, by rw [hfeed, finishHeader, hsize]⟩
        show (true && (CMessageHeader.unserialize header).nMessageSize.toNat == m.nDataPos) = false
        rw [hzero, beq_eq_false_iff_ne.2 (by omega), Bool.and_false]
      · rw [if_neg hlarge] at hsize
        simp only [hlarge, if_false]
        refine ⟨by omega, by omega, ?_⟩
        rw [hfeed, finishHeader, hsize]
        cases hn : (CMessageHeader.unserialize header).nMessageSize.toNat with
        | zero =>
          refine .inl ⟨⟨rfl, hzero.trans hn.symm, ?_⟩, ⟨header, []⟩, rfl, ?_⟩
          · show m.vRecv.length = _
            rw [hnone, hn, List.length_nil]
          · show (CMessageHeader.unserialize header, []) = (CMessageHeader.unserialize header, m.vRecv)
            rw [hnone]
        | succ n =>
          have hopen : Open { m with in_data := true, hdrbuf := [], hdr := .unserialize header, nHdrPos := m.nHdrPos + nCopy }
              (.data header (m.vRecv.take m.nDataPos)) := by
            refine .data _ header rfl rfl hsize ?_ ?_ ?_
            · show m.nDataPos < (CMessageHeader.unserialize header).nMessageSize.toNat
              omega
            · show m.nDataPos ≤ m.vRecv.length
              omega
            · show m.vRecv.length ≤ _
              rw [hnone]
              exact Nat.zero_le _
          rw [hnone, List.take_nil] at hopen
          rw [hnone]
          exact .inr ⟨rfl, fun h => (by cases h), hopen⟩

theorem absorb_data {header : List UInt8} (hne : pch ≠ []) (hdata : m.in_data = true) (hhdr : m.hdr = .unserialize header)
    (hsize : messageFormat.size header = some m.hdr.nMessageSize.toNat) (hpos : m.nDataPos < m.hdr.nMessageSize.toNat)
    (hlow : m.nDataPos ≤ m.vRecv.length) (hhigh : m.vRecv.length ≤ m.hdr.nMessageSize.toNat) :
    AbsorbSpec frames (.data header (m.vRecv.take m.nDataPos)) pch (absorb m pch) := by
  have hlength : 0 < pch.length := List.length_pos_iff.2 hne
  generalize hcopy : min (m.hdr.nMessageSize.toNat - m.nDataPos) pch.length = nCopy
  have hcopylen : (pch.take nCopy).length = nCopy := by rw [List.length_take]; omega
  have htakelen : (m.vRecv.take m.nDataPos).length = m.nDataPos := by rw [List.length_take]; omega
  have hsmall : ¬ maxProtocolMessageLength < m.hdr.nMessageSize.toNat := by
    intro hlarge
    rw [hhdr] at hlarge
    simp [messageFormat, hlarge] at hsize
  -- the buffer is grown to what is needed, and not beyond the message
  obtain ⟨vRecv, hvRecv, hroom, hvhigh, hvtake⟩ : ∃ vRecv, (if m.vRecv.length < m.nDataPos + nCopy then
      resize m.vRecv (min m.hdr.nMessageSize.toNat (m.nDataPos + nCopy + 256 * 1024)) else m.vRecv) = vRecv ∧
      m.nDataPos + nCopy ≤ vRecv.length ∧ vRecv.length ≤ m.hdr.nMessageSize.toNat ∧
        vRecv.take m.nDataPos = m.vRecv.take m.nDataPos := by
    split
    · refine ⟨_, rfl, ?_, ?_, take_resize hlow (by omega)⟩
      · rw [length_resize]
        omega
      · rw [length_resize]
        exact Nat.min_le_left _ _
    · exact ⟨_, rfl, by omega, hhigh, rfl⟩
  have htake : (copyAt vRecv m.nDataPos (pch.take nCopy)).take (m.nDataPos + nCopy) =
    m.vRecv.take m.nDataPos ++ pch.take nCopy := by
    have h := take_copyAt vRecv (pch.take nCopy) m.nDataPos (by omega)
    rwa [hcopylen, hvtake] at h
  have hbuflen : (copyAt vRecv m.nDataPos (pch.take nCopy)).length = vRecv.length := length_copyAt (by omega)
  simp only [absorb, hdata, if_true, CNetMessage.readData, hcopy, hvRecv, Prod.map_apply, id_eq, Bool.true_and,
    hsmall, decide_false,
    Bool.false_eq_true, if_false]
  refine ⟨by omega, by omega, ?_⟩
  rcases Nat.lt_or_ge (m.nDataPos + nCopy) m.hdr.nMessageSize.toNat with hshort | hge
  · rw [feed_data_short hsize (by rw [htakelen, hcopylen]; exact hshort), ← htake]
    exact .inr ⟨rfl, fun h => (by cases h), .data _ header rfl hhdr hsize hshort (by rw [hbuflen]; exact hroom) (by rw [hbuflen]; exact hvhigh)⟩
  · have hfull : m.nDataPos + nCopy = m.hdr.nMessageSize.toNat := by omega
    have hsome : pch.take nCopy ≠ [] := by
      intro hnil
      rw [hnil, List.length_nil] at hcopylen
      omega
    have hfeed : (pch.take nCopy).foldl (feed messageFormat) ⟨frames, .data header (m.vRecv.take m.nDataPos)⟩ =
        ⟨frames ++ [⟨header, m.vRecv.take m.nDataPos ++ pch.take nCopy⟩], .header []⟩ :=
      feed_data_full hsize hsome (by rw [htakelen, hcopylen]; exact hfull)
    have hle : (copyAt vRecv m.nDataPos (pch.take nCopy)).length ≤ m.nDataPos + nCopy := by omega
    rw [← htake, List.take_of_length_le hle] at hfeed
    refine .inl ⟨⟨rfl, hfull, ?_⟩, _, hfeed, ?_⟩
    · show (copyAt vRecv m.nDataPos (pch.take nCopy)).length = m.hdr.nMessageSize.toNat
      omega
    · show (CMessageHeader.unserialize header, _) = (m.hdr, _)
      rw [← hhdr]

theorem absorb_spec (h : Open m c) (hc : c ≠ .rejected) (hne : pch ≠ []) : AbsorbSpec frames c pch (absorb m pch) := by
  cases h with
  | header hdata hbuf hpos hzero hnone => exact absorb_header hne hdata hbuf hpos hzero hnone
  | data header hdata hhdr hsize hpos hlow hhigh => exact absorb_data hne hdata hhdr hsize hpos hlow hhigh
  | rejected h => exact absurd rfl hc

/-! ## The connection -/

/-- What the receiver has is what the stream is: its complete messages are the frames, and the last one that is
    not complete is the rest. -/
def Rel (taken vRecvMsg : List CNetMessage) (p : Parser UInt8) : Prop :=
  ∃ done last, vRecvMsg = done ++ last ∧ (∀ m ∈ done, Complete m) ∧
    ((last = [] ∧ p.current = .header []) ∨ ∃ m, last = [m] ∧ Open m p.current) ∧
    p.frames.map received = (taken ++ done).map content

variable {taken vRecvMsg : List CNetMessage} {p : Parser UInt8}

theorem openMessage_spec (pchMessageStart : List UInt8) (h : Rel taken vRecvMsg p) :
    ∃ done m, openMessage pchMessageStart vRecvMsg = (done, m) ∧ (∀ m ∈ done, Complete m) ∧ Open m p.current ∧
      p.frames.map received = (taken ++ done).map content := by
  obtain ⟨done, last, rfl, hdone, hlast, hframes⟩ := h
  unfold openMessage
  rcases hlast with ⟨rfl, hcurrent⟩ | ⟨m, rfl, hopen⟩
  · rw [List.append_nil, hcurrent]
    cases hback : done.getLast? with
    | none =>
      rw [List.getLast?_eq_none_iff] at hback
      exact ⟨[], _, rfl, nofun, open_new pchMessageStart, by rw [hframes, hback]⟩
    | some m =>
      have hm := (hdone m (List.mem_of_getLast? hback)).complete
      exact ⟨done, _, if_pos hm, hdone, open_new pchMessageStart, hframes⟩
  · rw [List.getLast?_append, List.getLast?_singleton, Option.some_or]
    refine ⟨done, m, ?_, hdone, hopen, hframes⟩
    dsimp only
    rw [if_neg (by rw [hopen.not_complete]; exact Bool.false_ne_true), List.dropLast_concat]

/-- The induction is on the turns: each leaves a shorter chunk. -/
theorem receiveLoop_spec (pchMessageStart : List UInt8) {turns : Nat} (hturns : pch.length ≤ turns) (h : Rel taken vRecvMsg p)
    (hp : p.current ≠ .rejected) :
    ∃ ok vRecvMsg', receiveLoop pchMessageStart turns vRecvMsg pch = some (ok, vRecvMsg') ∧
      Rel taken vRecvMsg' (pch.foldl (feed messageFormat) p) ∧
      (ok = true ↔ (pch.foldl (feed messageFormat) p).current ≠ .rejected) := by
  induction turns generalizing vRecvMsg p pch with
  | zero =>
    obtain rfl := List.length_eq_zero_iff.1 (Nat.le_zero.1 hturns)
    exact ⟨true, vRecvMsg, rfl, h, iff_of_true rfl hp⟩
  | succ turns ih =>
    cases pch with
    | nil => exact ⟨true, vRecvMsg, rfl, h, iff_of_true rfl hp⟩
    | cons b bs =>
      obtain ⟨done, m, hopen, hdone, hm, hframes⟩ := openMessage_spec pchMessageStart h
      have hspec : AbsorbSpec p.frames p.current (b :: bs) (absorb m (b :: bs)) := absorb_spec hm hp (List.cons_ne_nil b bs)
      have hsplit : ∀ n, (b :: bs).foldl (feed messageFormat) p =
          ((b :: bs).drop n).foldl (feed messageFormat) (((b :: bs).take n).foldl (feed messageFormat) p) := by
        intro n
        rw [← List.foldl_append, List.take_append_drop]
      rw [receiveLoop, hopen]
      obtain ⟨msg, handled, habsorb⟩ : ∃ msg handled, absorb m (b :: bs) = (msg, handled) := ⟨_, _, rfl⟩
      rw [habsorb] at hspec
      dsimp only
      rw [habsorb]
      cases handled with
      | none =>
        obtain ⟨hnot, n, hfeed⟩ := hspec
        have hrejected : (b :: bs).foldl (feed messageFormat) p = ⟨p.frames, .rejected⟩ := by
          rw [hsplit n, hfeed, feed_rejected]
        rw [hrejected]
        refine ⟨false, _, rfl, ⟨done, [msg], rfl, hdone, .inr ⟨msg, rfl, .rejected msg hnot⟩, hframes⟩, ?_⟩
        exact iff_of_false Bool.false_ne_true (not_not.2 rfl)
      | some handled =>
        obtain ⟨hpos, hle, habsorbed⟩ := hspec
        rw [hsplit handled]
        have hshort : ((b :: bs).drop handled).length ≤ turns := by
          rw [List.length_drop]
          omega
        generalize ((b :: bs).take handled).foldl (feed messageFormat) ⟨p.frames, p.current⟩ = q at habsorbed ⊢
        rcases habsorbed with ⟨hcomplete, f, rfl, hf⟩ | ⟨hsame, hq, hopen⟩
        · refine ih hshort ⟨done ++ [msg], [], by rw [List.append_nil], ?_, .inl ⟨rfl, rfl⟩, ?_⟩ nofun
          · intro m' hm'
            rcases List.mem_append.1 hm' with hm' | hm'
            · exact hdone m' hm'
            · rw [List.mem_singleton.1 hm']
              exact hcomplete
          · rw [List.map_append, hframes, ← List.append_assoc, List.map_singleton, hf, ← List.map_singleton, ← List.map_append]
        · exact ih hshort ⟨done, [msg], rfl, hdone, .inr ⟨msg, rfl, hopen⟩, by rw [hsame, hframes]⟩ hq

/-! ## Runs -/

def Arrival.bytes : Arrival → List UInt8
  | .chunk pch => pch
  | .take _ => []

theorem takeWhile_complete {done last : List CNetMessage} (hdone : ∀ m ∈ done, Complete m)
    (hlast : (last = [] ∧ p.current = .header []) ∨ ∃ m, last = [m] ∧ Open m p.current) :
    (done ++ last).takeWhile CNetMessage.complete = done := by
  have hstop : last.takeWhile CNetMessage.complete = [] := by
    rcases hlast with ⟨rfl, -⟩ | ⟨m, rfl, hopen⟩
    · rfl
    · rw [List.takeWhile_cons, hopen.not_complete, if_neg Bool.false_ne_true]
  rw [List.takeWhile_append_of_pos fun m hm => (hdone m hm).complete, hstop, List.append_nil]

theorem Rel.completed {s : Receiver} (h : Rel s.taken s.vRecvMsg p) : s.completed.map content = p.frames.map received := by
  obtain ⟨done, last, hsplit, hdone, hlast, hframes⟩ := h
  rw [Receiver.completed, hsplit, takeWhile_complete hdone hlast, hframes]

def Follows (s : Receiver) (p : Parser UInt8) : Prop := Rel s.taken s.vRecvMsg p ∧ (s.fDisconnect = true ↔ p.current = .rejected)

theorem step_follows (pchMessageStart : List UInt8) {s : Receiver} (h : Follows s p) (e : Arrival) :
    ∃ s', Receiver.step pchMessageStart s e = some s' ∧ Follows s' (e.bytes.foldl (feed messageFormat) p) := by
  obtain ⟨hrel, hdisconnect⟩ := h
  cases e with
  | chunk pch =>
    rw [Receiver.step]
    by_cases hgone : s.fDisconnect = true
    · rw [if_pos hgone]
      refine ⟨s, rfl, ?_⟩
      have hp : p = ⟨p.frames, .rejected⟩ := by rw [← hdisconnect.1 hgone]
      rw [hp] at hrel ⊢
      rw [Arrival.bytes, feed_rejected]
      exact ⟨hrel, iff_of_true hgone rfl⟩
    · rw [if_neg hgone]
      obtain ⟨ok, vRecvMsg, hloop, hrel', hok⟩ :=
        receiveLoop_spec pchMessageStart (Nat.le_refl pch.length) hrel fun hp => hgone (hdisconnect.2 hp)
      rw [receiveMsgBytes, hloop, Option.map_some]
      refine ⟨_, rfl, hrel', ?_⟩
      show (!ok) = true ↔ _
      rw [Bool.not_eq_true', ← Bool.not_eq_true, hok, not_not]
      rfl
  | take n =>
    obtain ⟨done, last, hsplit, hdone, hlast, hframes⟩ := hrel
    refine ⟨_, rfl, ⟨done.drop n, last, ?_, fun m hm => hdone m (List.mem_of_mem_drop hm), hlast, ?_⟩, hdisconnect⟩
    · show s.vRecvMsg.drop ((s.vRecvMsg.takeWhile CNetMessage.complete).take n).length = done.drop n ++ last
      rw [hsplit, takeWhile_complete hdone hlast, List.length_take, List.drop_append_of_le_length (Nat.min_le_right _ _)]
      rcases Nat.le_total n done.length with hle | hge
      · rw [Nat.min_eq_left hle]
      · rw [Nat.min_eq_right hge, List.drop_length, List.drop_of_length_le hge]
    · show p.frames.map received = (s.taken ++ (s.vRecvMsg.takeWhile CNetMessage.complete).take n ++ done.drop n).map content
      rw [hsplit, takeWhile_complete hdone hlast, List.append_assoc, List.take_append_drop, hframes]

theorem run_follows (pchMessageStart : List UInt8) {s : Receiver} (h : Follows s p) (es : List Arrival) :
    ∃ s', run (Receiver.step pchMessageStart) s es = some s' ∧
      Follows s' ((es.flatMap Arrival.bytes).foldl (feed messageFormat) p) := by
  induction es generalizing s p with
  | nil => exact ⟨s, rfl, h⟩
  | cons e es ih =>
    obtain ⟨s', hstep, hs'⟩ := step_follows pchMessageStart h e
    obtain ⟨s'', hrun, hs''⟩ := ih hs'
    refine ⟨s'', by rw [run_cons, hstep, Option.bind_some, hrun], ?_⟩
    rw [List.flatMap_cons, List.foldl_append]
    exact hs''

/-- However a stream is cut, its messages are its frames, and the connection ends where a header is rejected. -/
theorem run_received (pchMessageStart : List UInt8) (es : List Arrival) :
    ∃ s, run (Receiver.step pchMessageStart) .start es = some s ∧
      s.completed.map content = (parse messageFormat (es.flatMap Arrival.bytes)).frames.map received ∧
      (s.fDisconnect = true ↔ (parse messageFormat (es.flatMap Arrival.bytes)).current = .rejected) := by
  have hstart : Follows .start (.start : Parser UInt8) :=
    ⟨⟨[], [], rfl, nofun, .inl ⟨rfl, rfl⟩, rfl⟩, iff_of_false Bool.false_ne_true nofun⟩
  obtain ⟨s, hrun, hrel, hdisconnect⟩ := run_follows pchMessageStart hstart es
  exact ⟨s, hrun, hrel.completed, hdisconnect⟩

end Zumy.Net
