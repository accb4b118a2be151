/-
  Zumy.Spork.SignedText — the text a spork's signature is over, and who can be behind an
  active spork.

  - `fields_of_strMessage_iff`: the messages that are known from their text.
  - `active_signed_iff`: the sets of signed messages with which no other message becomes
    active, the signatures being unforgeable.
-/
import Zumy.Spork.Model

namespace Zumy.Spork

open Lib

/-! ## The text -/

def CSporkMessage.fields (m : CSporkMessage) : Int × Int × Int := (m.nSporkID.toInt, m.nValue.toInt, m.nTimeSigned.toInt)

/-- The numbers are of the types `int`, `int64_t` and `int64_t`. -/
def InRange (x : Int × Int × Int) : Prop :=
  (-2 ^ 31 ≤ x.1 ∧ x.1 < 2 ^ 31) ∧ (-2 ^ 63 ≤ x.2.1 ∧ x.2.1 < 2 ^ 63) ∧ (-2 ^ 63 ≤ x.2.2 ∧ x.2.2 < 2 ^ 63)

instance (x : Int × Int × Int) : Decidable (InRange x) := inferInstanceAs (Decidable (_ ∧ _))

def otherReadings (x : Int × Int × Int) : List (Int × Int × Int) :=
  (cuts (decimal x.1 ++ decimal x.2.1 ++ decimal x.2.2)).filter fun y => InRange y

def Unambiguous (m : CSporkMessage) : Prop := ∀ y ∈ otherReadings m.fields, y = m.fields

instance (m : CSporkMessage) : Decidable (Unambiguous m) := inferInstanceAs (Decidable (∀ y ∈ _, _))

theorem fields_inRange (m : CSporkMessage) : InRange m.fields :=
  ⟨⟨m.nSporkID.le_toInt, m.nSporkID.toInt_lt⟩, ⟨m.nValue.le_toInt, m.nValue.toInt_lt⟩,
    ⟨m.nTimeSigned.le_toInt, m.nTimeSigned.toInt_lt⟩⟩

theorem exists_message {x : Int × Int × Int} (h : InRange x) (vchSig : List UInt8) :
    ∃ m : CSporkMessage, m.fields = x ∧ m.vchSig = vchSig := by
  obtain ⟨⟨hlo, hhi⟩, ⟨hlo', hhi'⟩, ⟨hlo'', hhi''⟩⟩ := h
  refine ⟨⟨Int32.ofInt x.1, Int64.ofInt x.2.1, Int64.ofInt x.2.2, vchSig⟩, ?_, rfl⟩
  unfold CSporkMessage.fields
  rw [Int32.toInt_ofInt_of_le hlo hhi, Int64.toInt_ofInt_of_le hlo' hhi', Int64.toInt_ofInt_of_le hlo'' hhi'']

/-- The messages of a text are the readings of the numbers of any one of them. -/
theorem mem_otherReadings {m m' : CSporkMessage} : m'.fields ∈ otherReadings m.fields ↔ m'.strMessage = m.strMessage := by
  unfold otherReadings
  rw [List.mem_filter]
  constructor
  · intro h
    exact mem_cuts.1 h.1
  · intro h
    exact ⟨mem_cuts.2 h, decide_eq_true (fields_inRange m')⟩

theorem inRange_of_mem {x y : Int × Int × Int} (h : y ∈ otherReadings x) : InRange y :=
  of_decide_eq_true (List.mem_filter.1 h).2

theorem fields_of_strMessage_iff (m : CSporkMessage) :
    (∀ m' : CSporkMessage, m'.strMessage = m.strMessage → m'.fields = m.fields) ↔ Unambiguous m := by
  constructor
  · intro h y hy
    obtain ⟨m', rfl, -⟩ := exists_message (inRange_of_mem hy) []
    exact h m' (mem_otherReadings.1 hy)
  · intro h m' htext
    exact h m'.fields (mem_otherReadings.2 htext)

/-! ## Signed and active sporks -/

inductive Event where
  /-- A SPORK message of a peer. -/
  | message (env : Env) (spork : CSporkMessage)
  /-- The node of the key's holder signs a spork. -/
  | update (env : Env) (nSporkID : Int32) (nValue now : Int64) (vchSig : List UInt8)

def next (s : CSporkManager) : Event → CSporkManager
  | .message env spork => processSpork env s spork
  | .update env nSporkID nValue now vchSig => (updateSpork env s nSporkID nValue now (some vchSig)).2

def Authentic (signed : List CSporkMessage) : Event → Prop
  | .message env spork => spork.checkSignature env = true → ∃ m ∈ signed, m.strMessage = spork.strMessage
  | .update _ nSporkID nValue now vchSig => ⟨nSporkID, nValue, now, vchSig⟩ ∈ signed

def ActiveSigned (signed : List CSporkMessage) (s : CSporkManager) : Prop :=
  ∀ (nSporkID : Int32) spork, s.mapSporksActive[nSporkID]? = some spork →
    spork.nSporkID = nSporkID ∧ ∃ m ∈ signed, m.fields = spork.fields

def ReadingsSigned (signed : List CSporkMessage) : Prop :=
  ∀ m ∈ signed, ∀ y ∈ otherReadings m.fields, ∃ m' ∈ signed, m'.fields = y

variable {signed : List CSporkMessage} {s : CSporkManager}

theorem readingsSigned_of_unambiguous (h : ∀ m ∈ signed, Unambiguous m) : ReadingsSigned signed :=
  fun m hm y hy => ⟨m, hm, (h m hm y hy).symm⟩

theorem putSpork_activeSigned {env : Env} {spork : CSporkMessage} (h : ActiveSigned signed s)
    (hsigned : ∃ m ∈ signed, m.fields = spork.fields) : ActiveSigned signed (putSpork env s spork) := by
  intro nSporkID active hactive
  rw [lookup_putSpork] at hactive
  split at hactive
  · rename_i hid
    cases hactive
    exact ⟨hid.symm, hsigned⟩
  · exact h nSporkID active hactive

theorem next_activeSigned (hreadings : ReadingsSigned signed) (h : ActiveSigned signed s) {ev : Event}
    (hev : Authentic signed ev) :
    ActiveSigned signed (next s ev) := by
  cases ev with
  | message env spork =>
    show ActiveSigned signed (processSpork env s spork)
    rcases processSpork_cases env s spork with hsame | ⟨-, hsig, hput⟩
    · rw [hsame]
      exact h
    · rw [hput]
      obtain ⟨m, hm, htext⟩ := hev hsig
      exact putSpork_activeSigned h (hreadings m hm spork.fields (mem_otherReadings.2 htext.symm))
  | update env nSporkID nValue now vchSig => exact putSpork_activeSigned h ⟨_, hev, rfl⟩

theorem replay_is_active {m : CSporkMessage} (hm : m ∈ signed) {y : Int × Int × Int} (hy : y ∈ otherReadings m.fields) :
    ∃ (ev : Event) (spork : CSporkMessage), Authentic signed ev ∧
      (next .init ev).mapSporksActive[spork.nSporkID]? = some spork ∧ spork.fields = y := by
  obtain ⟨spork, rfl, -⟩ := exists_message (inRange_of_mem hy) m.vchSig
  have htext : spork.strMessage = m.strMessage := mem_otherReadings.1 hy
  refine ⟨.message ⟨false, true, fun _ text => text == m.strMessage, fun _ _ _ => 0⟩ spork, spork, ?_, ?_, rfl⟩
  · intro _
    exact ⟨m, hm, htext.symm⟩
  · have hsig : (spork.strMessage == m.strMessage) = true := beq_iff_eq.2 htext
    simp [next, processSpork, seen, CSporkManager.init, CSporkMessage.checkSignature, hsig, lookup_putSpork]

theorem active_signed_iff (signed : List CSporkMessage) :
    (∀ evs : List Event, (∀ ev ∈ evs, Authentic signed ev) → ActiveSigned signed (evs.foldl next .init)) ↔
      ReadingsSigned signed := by
  constructor
  · intro h m hm y hy
    obtain ⟨ev, spork, hev, hactive, rfl⟩ := replay_is_active hm hy
    exact (h [ev] (by simpa using hev) spork.nSporkID spork hactive).2
  · intro hreadings evs hevs
    apply List.foldlRecOn (motive := ActiveSigned signed) evs next
    · intro nSporkID spork h
      simp [CSporkManager.init] at h
    · intro s h ev hev
      exact next_activeSigned hreadings h (hevs ev hev)

/-- A message is known from its text just when its numbers have no other reading; and no unsigned
    spork is ever active just when every reading of a signed one is signed too. -/
theorem text_and_signers (m : CSporkMessage) (signed : List CSporkMessage) :
    ((∀ m' : CSporkMessage, m'.strMessage = m.strMessage → m'.fields = m.fields) ↔ Unambiguous m) ∧
    ((∀ evs : List Event, (∀ ev ∈ evs, Authentic signed ev) → ActiveSigned signed (evs.foldl next .init)) ↔
      ReadingsSigned signed) ∧
    ((∀ m ∈ signed, Unambiguous m) → ReadingsSigned signed) :=
  ⟨fields_of_strMessage_iff m, active_signed_iff signed, readingsSigned_of_unambiguous⟩

/-- Spork 10001 with the value 1, signed at time 23, is spork 10001 with the value 12, signed at time 3. -/
theorem one_text_for_two_sporks :
    ¬ ((∀ m m' : CSporkMessage, m'.strMessage = m.strMessage → m'.fields = m.fields) ∧
      ∀ (signed : List CSporkMessage) (evs : List Event), (∀ ev ∈ evs, Authentic signed ev) →
        ActiveSigned signed (evs.foldl next .init)) := by
  intro h
  have hfields := h.1 ⟨10001, 1, 23, []⟩ ⟨10001, 12, 3, []⟩ (by decide)
  revert hfields
  decide

end Zumy.Spork
