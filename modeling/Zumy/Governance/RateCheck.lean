/-
  Zumy.Governance.RateCheck — governance.cpp: the rate of the objects of a masternode, and
  what a message with an object leaves of it.

  A masternode has a record from its first trigger or watchdog on. A record whose status is
  good lets an object pass until its signature is verified, and the check is made after
  that. A first record and a check under a bad status come before any verification; the
  sibling path, an object of the RPC server, is verified first and checked without an update.

  `MasternodeRateCheck` is `none` where its subtraction of times overflows. The threshold of
  a trigger depends on `nSuperblockCycleSeconds`, the length of a superblock cycle.
-/
import Zumy.Governance.Manager
import Zumy.Governance.RateBuffer

namespace Zumy.Governance

open Lib

/-- `last_object_rec` -/
structure LastObjectRec where
  triggerBuffer : CRateCheckBuffer
  watchdogBuffer : CRateCheckBuffer
  fStatusOK : Bool

/-- `mapLastMasternodeObject` -/
abbrev LastObjects := Map COutPoint LastObjectRec

structure RateContext where
  now : Int
  synced : Bool
  fRateChecksEnabled : Bool
  nSuperblockCycleSeconds : Int

namespace LastObjectRec

/-- `last_object_rec(true)` -/
def new : LastObjectRec := ⟨.init, .init, true⟩

def buffer (it : LastObjectRec) (nObjectType : Int) : CRateCheckBuffer :=
  if nObjectType = governanceObjectTrigger then it.triggerBuffer else it.watchdogBuffer

def addTimestamp (it : LastObjectRec) (nObjectType : Int) (nTimestamp : Int64) : LastObjectRec :=
  if nObjectType = governanceObjectTrigger then { it with triggerBuffer := it.triggerBuffer.addTimestamp nTimestamp }
  else { it with watchdogBuffer := it.watchdogBuffer.addTimestamp nTimestamp }

end LastObjectRec

namespace RateContext

def checks (cx : RateContext) (govobj : CGovernanceObject) : Bool :=
  cx.synced && cx.fRateChecksEnabled &&
    (govobj.nObjectType == governanceObjectTrigger || govobj.nObjectType == governanceObjectWatchdog)

def inWindow (cx : RateContext) (nTimestamp : Int) : Bool :=
  !(nTimestamp < cx.now - 2 * cx.nSuperblockCycleSeconds) && !(nTimestamp > cx.now + 60 * 60)

def maxRate (cx : RateContext) (nObjectType : Int) : Float :=
  -- Allow 1 trigger per mn per cycle, with a small fudge factor
  if nObjectType = governanceObjectTrigger then 1.1 / Float.ofInt cx.nSuperblockCycleSeconds else 2 * 1.1 / 3600.0

/-- `MasternodeRateCheck`: its answer, `fRateCheckBypassed`, and the records. -/
def masternodeRateCheck (cx : RateContext) (m : LastObjects) (govobj : CGovernanceObject) (fUpdateLast fForce : Bool) :
    Option ((Bool × Bool) × LastObjects) :=
  if !cx.checks govobj then some ((true, false), m)
  else
    let nTimestamp := govobj.nTime
    let vin := govobj.vinMasternode
    match m[vin.prevout]? with
    | none =>
      some ((true, false),
        if fUpdateLast then m.insert vin.prevout (LastObjectRec.new.addTimestamp govobj.nObjectType (.ofInt nTimestamp)) else m)
    | some it =>
      if it.fStatusOK && !fForce then some ((true, true), m)
      else if !cx.inWindow nTimestamp then some ((false, false), m)
      else
        let buffer := (it.buffer govobj.nObjectType).addTimestamp (.ofInt nTimestamp)
        buffer.getRate.map fun dRate =>
          let fOK : Bool := dRate < cx.maxRate govobj.nObjectType
          ((fOK, false),
            if fUpdateLast then
              m.insert vin.prevout { it.addTimestamp govobj.nObjectType (.ofInt nTimestamp) with fStatusOK := fOK }
            else m)

end RateContext

/-! ## A message with an object -/

inductive ObjectAnswer where
  /-- It is not looked at, was not asked for or was seen before. -/
  | dropped
  | rateCheckFailed
  /-- `IsValidLocally` fails: its data, its signature or its collateral. -/
  | invalid
  | rateCheckFailedAfterSignature
  /-- `AddGovernanceObject` answered. -/
  | processed (fAdded : Bool)
  deriving DecidableEq

def ObjectAnswer.isRefused : ObjectAnswer → Bool
  | .rateCheckFailed | .invalid | .rateCheckFailedAfterSignature => true
  | _ => false

def rateContext (env : Env) (nSuperblockCycleSeconds : Int) (s : Node) : RateContext :=
  ⟨env.now, env.synced, s.governance.fRateChecksEnabled, nSuperblockCycleSeconds⟩

section

-- `CGovernanceVote::GetHash`
variable (voteHash : CGovernanceVote → Uint256)

def takeObject (env : Env) (s : Node) (govobj : CGovernanceObject) : Bool × Node :=
  let nHash := govobj.hash
  let govobj := govobj.updateSentinelVariables env.nGovernanceMinQuorum env.countEnabled env.adjustedTime
  let (fAdded, fAddToSeen, s) := addGovernanceObject env s govobj
  let s := if fAddToSeen then markSeen s nHash seenObjectIsValid else s
  (fAdded, checkOrphanVotes voteHash env s govobj)

def processRatedObject (env : Env) (nSuperblockCycleSeconds : Int) (s : Node) (m : LastObjects) (govobj : CGovernanceObject) :
    Option (ObjectAnswer × Node × LastObjects) :=
  let cx := rateContext env nSuperblockCycleSeconds s
  (cx.masternodeRateCheck m govobj true false).bind fun ((fAllowed, fRateCheckBypassed), m) =>
    if !fAllowed then some (.rateCheckFailed, s, m)
    else
      let (fIsValid, fMasternodeMissing) := govobj.isValidLocally (validityContext env s) true
      let s := if fMasternodeMissing then keepOrphanObject env s govobj else s
      if !fIsValid then some (.invalid, markSeen s govobj.hash seenObjectErrorInvalid, m)
      else if fRateCheckBypassed then
        (cx.masternodeRateCheck m govobj true true).map fun ((fAllowed, _), m) =>
          if !fAllowed then (.rateCheckFailedAfterSignature, s, m)
          else
            let (fAdded, s) := takeObject voteHash env s govobj
            (.processed fAdded, s, m)
      else
        let (fAdded, s) := takeObject voteHash env s govobj
        some (.processed fAdded, s, m)

def processRatedMessage (env : Env) (nSuperblockCycleSeconds : Int) (s : Node) (m : LastObjects) (nVersion : Int)
    (govobj : CGovernanceObject) : Option (ObjectAnswer × Node × LastObjects) :=
  if env.ignoresMessages nVersion || s.governance.pCurrentBlockIndex.isNone then some (.dropped, s, m)
  else if !s.governance.setRequestedObjects.contains govobj.hash then some (.dropped, s, m)
  else if s.governance.mapSeenGovernanceObjects.contains govobj.hash then some (.dropped, takeObjectRequest s govobj.hash, m)
  else processRatedObject voteHash env nSuperblockCycleSeconds (takeObjectRequest s govobj.hash) m govobj

end

/-! ## One check -/

namespace RateContext

variable {cx : RateContext} {m m' : LastObjects} {govobj : CGovernanceObject} {fForce : Bool} {answer : Bool × Bool}

theorem addTimestamp_ne (b : CRateCheckBuffer) (t : Int64) : b.addTimestamp t ≠ b := by
  have hnext : ∀ i : Fin rateBufferSize, i + 1 ≠ i := by decide
  intro h
  exact hnext b.nDataEnd (congrArg CRateCheckBuffer.nDataEnd h)

theorem addTimestamp_rec_ne (it : LastObjectRec) (nObjectType : Int) (t : Int64) (ok : Bool) :
    { it.addTimestamp nObjectType t with fStatusOK := ok } ≠ it := by
  unfold LastObjectRec.addTimestamp
  intro h
  split at h
  · exact addTimestamp_ne _ t (congrArg LastObjectRec.triggerBuffer h)
  · exact addTimestamp_ne _ t (congrArg LastObjectRec.watchdogBuffer h)

theorem insert_ne {k : COutPoint} {it : LastObjectRec} (h : m[k]? ≠ some it) : m.insert k it ≠ m := by
  intro heq
  apply h
  have hget := congrArg (fun m : LastObjects => m[k]?) heq
  rw [← hget]
  simp only [lookup_insert, if_true]

def Counts (cx : RateContext) (m : LastObjects) (govobj : CGovernanceObject) (fForce : Bool) : Prop :=
  cx.checks govobj = true ∧ ∀ it, m[govobj.vinMasternode.prevout]? = some it →
    (it.fStatusOK = false ∨ fForce = true) ∧ cx.inWindow govobj.nTime = true

/-- What one check can do: it counts the object and the records differ, or they are as they were
    and it does not apply, is bypassed or refuses a time out of the window. -/
theorem masternodeRateCheck_cases (h : cx.masternodeRateCheck m govobj true fForce = some (answer, m')) :
    (cx.Counts m govobj fForce ∧ m' ≠ m ∧ answer.2 = false) ∨
    (¬ cx.Counts m govobj fForce ∧ m' = m ∧
      (answer = (true, false) ∨ (answer = (true, true) ∧ fForce = false) ∨
        (answer = (false, false) ∧ ∀ f, ¬ cx.Counts m govobj f))) := by
  unfold masternodeRateCheck at h
  cases hchecks : cx.checks govobj with
  | false =>
    rw [hchecks] at h
    cases h
    exact .inr ⟨fun hc => Bool.false_ne_true (hchecks.symm.trans hc.1), rfl, .inl rfl⟩
  | true =>
    rw [hchecks] at h
    cases hrec : m[govobj.vinMasternode.prevout]? with
    | none =>
      simp only [hrec] at h
      cases h
      refine .inl ⟨⟨hchecks, fun it hit => ?_⟩, insert_ne (by rw [hrec]; exact fun hn => (by cases hn)), rfl⟩
      rw [hrec] at hit
      cases hit
    | some it =>
      simp only [hrec] at h
      by_cases hbypass : (it.fStatusOK && !fForce) = true
      · rw [if_neg (by simp), if_pos hbypass] at h
        cases h
        rw [Bool.and_eq_true, Bool.not_eq_true'] at hbypass
        refine .inr ⟨fun hc => ?_, rfl, .inr (.inl ⟨rfl, hbypass.2⟩)⟩
        rcases (hc.2 it hrec).1 with hstatus | hforce
        · exact Bool.false_ne_true (hstatus.symm.trans hbypass.1)
        · exact Bool.false_ne_true (hbypass.2.symm.trans hforce)
      · rw [if_neg (by simp), if_neg hbypass] at h
        cases hwindow : cx.inWindow govobj.nTime with
        | false =>
          rw [hwindow] at h
          cases h
          have hnot : ∀ f, ¬ cx.Counts m govobj f := fun f hc => Bool.false_ne_true (hwindow.symm.trans (hc.2 it hrec).2)
          exact .inr ⟨hnot fForce, rfl, .inr (.inr ⟨rfl, hnot⟩)⟩
        | true =>
          rw [hwindow, if_neg (by simp)] at h
          obtain ⟨dRate, -, heq⟩ := Option.map_eq_some_iff.1 h
          cases heq
          refine .inl ⟨⟨hchecks, fun it' hit' => ?_⟩, insert_ne ?_, rfl⟩
          · rw [hrec] at hit'
            cases hit'
            rw [Bool.and_eq_true, Bool.not_eq_true', not_and_or, Bool.not_eq_true, Bool.not_eq_false] at hbypass
            exact ⟨hbypass, hwindow⟩
          · rw [hrec]
            intro heq
            exact addTimestamp_rec_ne it _ _ _ (Option.some.inj heq).symm

/-- An object that counts while a record with a good status lets it pass counts in any case. -/
theorem Counts.of_unforced (h : cx.Counts m govobj false) (f : Bool) : cx.Counts m govobj f :=
  ⟨h.1, fun it hit => ⟨.inl ((h.2 it hit).1.resolve_right Bool.false_ne_true), (h.2 it hit).2⟩⟩

end RateContext

/-! ## The rest of the node -/

/-- What the checks answer while the records are `m`. -/
def RateContext.answers (cx : RateContext) (m : LastObjects) (govobj : CGovernanceObject) (fForce : Bool) : Bool × Bool :=
  (cx.masternodeRateCheck m govobj true fForce).elim (false, false) (·.1)

def ratedEnv (env : Env) (nSuperblockCycleSeconds : Int) (s : Node) (m : LastObjects) : Env :=
  { env with masternodeRateCheck := (rateContext env nSuperblockCycleSeconds s).answers m }

section

variable {voteHash : CGovernanceVote → Uint256} {env : Env} {nSuperblockCycleSeconds : Int} {s s' : Node} {m m' : LastObjects}
variable {nVersion : Int} {govobj : CGovernanceObject} {answer : ObjectAnswer}

theorem processRatedObject_node
    (h : processRatedObject voteHash env nSuperblockCycleSeconds s m govobj = some (answer, s', m')) :
    processNewObject voteHash (ratedEnv env nSuperblockCycleSeconds s m) s govobj = (answer == .processed true, s') := by
  unfold processRatedObject at h
  obtain ⟨⟨⟨fAllowed, fBypassed⟩, m₁⟩, hfirst, hrest⟩ := Option.bind_eq_some_iff.1 h
  have hanswer : (ratedEnv env nSuperblockCycleSeconds s m).masternodeRateCheck govobj false = (fAllowed, fBypassed) := by
    simp only [ratedEnv, RateContext.answers, hfirst, Option.elim_some]
  unfold processNewObject
  rw [hanswer]
  have hcontext : validityContext (ratedEnv env nSuperblockCycleSeconds s m) s = validityContext env s := rfl
  have hkeep (s : Node) : keepOrphanObject (ratedEnv env nSuperblockCycleSeconds s m) s govobj =
    keepOrphanObject env s govobj := rfl
  cases fAllowed with
  | false =>
    cases hrest
    rfl
  | true =>
    simp only [hcontext]
    cases hvalid : (govobj.isValidLocally (validityContext env s) true).1 with
    | false =>
      simp only [hvalid] at hrest ⊢
      cases hrest
      rfl
    | true =>
      simp only [hvalid] at hrest ⊢
      cases fBypassed with
      | false =>
        cases hrest
        generalize hadd : takeObject voteHash env _ govobj = r
        obtain ⟨fAdded, t⟩ := r
        simp only [Bool.not_true, Bool.false_eq_true, if_false, Bool.false_and]
        refine Eq.trans hadd ?_
        cases fAdded <;> rfl
      | true =>
        -- a check that is bypassed leaves the records to the second one
        have hsame : m₁ = m := by
          rcases RateContext.masternodeRateCheck_cases hfirst with ⟨-, -, hbypass⟩ | ⟨-, heq, -⟩
          · cases hbypass
          · exact heq
        subst hsame
        obtain ⟨⟨⟨fAllowed, fBypassed⟩, m₂⟩, hsecond, hend⟩ := Option.map_eq_some_iff.1 hrest
        have hanswer₂ : (ratedEnv env nSuperblockCycleSeconds s m₁).masternodeRateCheck govobj true = (fAllowed, fBypassed) := by
          simp only [ratedEnv, RateContext.answers, hsecond, Option.elim_some]
        simp only [hanswer₂, Bool.true_and]
        cases fAllowed with
        | false =>
          cases hend
          rfl
        | true =>
          generalize hadd : takeObject voteHash env _ govobj = r at hend
          obtain ⟨fAdded, t⟩ := r
          cases hend
          simp only [Bool.not_true, Bool.false_eq_true, if_false]
          refine Eq.trans hadd ?_
          cases fAdded <;> rfl

/-- The rest of the node does as in Zumy.Governance.Manager, where the checks answer by the records. -/
theorem processRatedMessage_node
    (h : processRatedMessage voteHash env nSuperblockCycleSeconds s m nVersion govobj = some (answer, s', m')) :
    processObjectMessage voteHash (ratedEnv env nSuperblockCycleSeconds s m) s nVersion govobj =
      (answer == .processed true, s') := by
  unfold processRatedMessage at h
  unfold processObjectMessage
  have hignores : (ratedEnv env nSuperblockCycleSeconds s m).ignoresMessages nVersion = env.ignoresMessages nVersion := rfl
  rw [hignores]
  split at h
  · next hignored =>
    cases h
    rw [if_pos hignored]
    rfl
  · next hread =>
    rw [if_neg hread]
    split at h
    · next hunasked =>
      cases h
      rw [if_pos hunasked]
      rfl
    · next hasked =>
      rw [if_neg hasked]
      split at h
      · next hseen =>
        cases h
        rw [if_pos hseen]
        rfl
      · next hnew =>
        rw [if_neg hnew]
        exact processRatedObject_node h

end

/-! ## A refused message -/

section

variable {voteHash : CGovernanceVote → Uint256} {env : Env} {nSuperblockCycleSeconds : Int} {s s' : Node} {m m' : LastObjects}
variable {nVersion : Int} {govobj : CGovernanceObject} {answer : ObjectAnswer}

theorem processRatedObject_kept_iff
    (h : processRatedObject voteHash env nSuperblockCycleSeconds s m govobj = some (answer, s', m'))
    (hrefused : answer.isRefused = true) :
    m' = m ↔ ¬ (rateContext env nSuperblockCycleSeconds s).Counts m govobj (govobj.isValidLocally (validityContext env s) true).1 := by
  unfold processRatedObject at h
  obtain ⟨⟨⟨fAllowed, fBypassed⟩, m₁⟩, hfirst, hrest⟩ := Option.bind_eq_some_iff.1 h
  cases hvalid : (govobj.isValidLocally (validityContext env s) true).1 with
  | false =>
    have hsame : m' = m₁ := by
      cases fAllowed with
      | false => cases hrest; rfl
      | true =>
        simp only [hvalid] at hrest
        cases hrest
        rfl
    subst hsame
    rcases RateContext.masternodeRateCheck_cases hfirst with ⟨hcounts, hne, -⟩ | ⟨hnot, heq, -⟩
    · simp [hne, hcounts]
    · simp [heq, hnot]
  | true =>
    rcases RateContext.masternodeRateCheck_cases hfirst with ⟨hcounts, hne, hbypass⟩ | ⟨hnot, rfl, hanswer⟩
    · -- it is not bypassed, so a valid object is refused here or not at all
      cases hbypass
      cases fAllowed with
      | false =>
        cases hrest
        simp [hne, hcounts.of_unforced true]
      | true =>
        simp only [hvalid] at hrest
        cases hrest
        cases hrefused
    · rcases hanswer with heq | ⟨heq, -⟩ | ⟨heq, hnever⟩
      · cases heq
        simp only [hvalid] at hrest
        cases hrest
        cases hrefused
      · cases heq
        simp only [hvalid] at hrest
        obtain ⟨⟨⟨fAllowed, fBypassed⟩, m₂⟩, hsecond, hend⟩ := Option.map_eq_some_iff.1 hrest
        have hsame : m' = m₂ := by
          cases fAllowed with
          | false => cases hend; rfl
          | true => cases hend; rfl
        subst hsame
        rcases RateContext.masternodeRateCheck_cases hsecond with ⟨hcounts, hne, -⟩ | ⟨hnot, heq, -⟩
        · simp [hne, hcounts]
        · simp [heq, hnot]
      · cases heq
        cases hrest
        simp [hnever true]

end

/-- A refused object leaves the records as they are exactly if it does not come to be counted: objects of its
    type are not checked, or its masternode has a record and its time is out of the window or the status of the record
    is good and the object is not valid. -/
theorem rates_kept_iff (voteHash : CGovernanceVote → Uint256) (env : Env) (nSuperblockCycleSeconds : Int) (s s' : Node)
    (m m' : LastObjects)
    (nVersion : Int) (govobj : CGovernanceObject) (answer : ObjectAnswer)
    (h : processRatedMessage voteHash env nSuperblockCycleSeconds s m nVersion govobj = some (answer, s', m'))
    (hrefused : answer.isRefused = true) :
    m' = m ↔ ¬ (rateContext env nSuperblockCycleSeconds s).Counts m govobj (govobj.isValidLocally (validityContext env s) true).1 := by
  unfold processRatedMessage at h
  split at h
  · cases h
    cases hrefused
  · split at h
    · cases h
      cases hrefused
    · split at h
      · cases h
        cases hrefused
      · exact processRatedObject_kept_iff (s := takeObjectRequest s govobj.hash) h hrefused

def askedFor5 : Node :=
  let s := confirmInventoryRequest .init false 5
  s.withGovernance { s.governance with pCurrentBlockIndex := some 1 }

def unsigned5 : CGovernanceObject := .received 5 governanceObjectTrigger 100000 (masternodeVin 1) [] false

def refused5 : Option (ObjectAnswer × Node × LastObjects) :=
  processRatedMessage smallHash network (24 * 10) askedFor5 ∅ 70000 unsigned5

theorem refused5_eq : ∃ s' m', refused5 = some (.invalid, s', m') ∧ m'[(masternodeVin 1).prevout]? ≠ none :=
  ⟨_, _, rfl, by decide⟩

theorem unsigned5_kept_iff : ∃ s' m', refused5 = some (.invalid, s', m') ∧
    (m' = ∅ ↔ ¬ (rateContext network (24 * 10) askedFor5).Counts ∅ unsigned5
      (unsigned5.isValidLocally (validityContext network askedFor5) true).1) := by
  obtain ⟨s', m', h, -⟩ := refused5_eq
  exact ⟨s', m', h, rates_kept_iff smallHash network (24 * 10) askedFor5 s' ∅ m' 70000 unsigned5 .invalid h rfl⟩

/-- An object that no masternode of the list signed makes a record for the masternode it names. -/
theorem unsigned_object_counts :
    (∃ s' m', refused5 = some (.invalid, s', m') ∧ m'[(masternodeVin 1).prevout]? ≠ none) ∧
    ¬ ∀ (voteHash : CGovernanceVote → Uint256) (env : Env) (nSuperblockCycleSeconds : Int) (s s' : Node) (m m' : LastObjects)
      (nVersion : Int)
      (govobj : CGovernanceObject) (answer : ObjectAnswer),
      processRatedMessage voteHash env nSuperblockCycleSeconds s m nVersion govobj = some (answer, s', m') →
        answer.isRefused = true → m' = m := by
  refine ⟨refused5_eq, fun h => ?_⟩
  obtain ⟨s', m', hrun, hrec⟩ := refused5_eq
  have hkept := h smallHash network (24 * 10) askedFor5 s' ∅ m' 70000 unsigned5 .invalid hrun rfl
  rw [hkept] at hrec
  exact hrec rfl

end Zumy.Governance
