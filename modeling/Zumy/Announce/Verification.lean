/-
  Zumy.Announce.Verification — the broadcast of a masternode that verified another one.

  Two guards of `ProcessVerifyBroadcast` are the wrong way round: a message goes on when its
  signatures do not verify, and when the verifying masternode is at rank `MAX_POSE_RANK` or
  behind it.

  - `forged_verification_moves`: ten masternodes and a message with made-up signatures.
-/
import Mathlib.Data.List.Sort
import Zumy.Announce.Model

namespace Zumy.Announce

open Lib

def minPoseProtoVersion : Int := 70000
def maxPoseRank : Int := 10
def maxPoseBlocks : Int := 10

/-! ## Ranks -/

def bits (n : Nat) : Nat := if n = 0 then 0 else n.log2 + 1

/-- `GetCompact(false)` -/
def getCompact (n : Nat) : Nat :=
  let nSize := (bits n + 7) / 8
  let nCompact := if nSize ≤ 3 then n * 256 ^ (3 - nSize) else n / 256 ^ (nSize - 3)
  if nCompact &&& 0x00800000 ≠ 0 then nCompact / 256 + (nSize + 1) * 2 ^ 24 else nCompact + nSize * 2 ^ 24

/-- `ArithToUint256`: the bytes of a number, lowest first, are those a hash is ordered by. -/
def arithToUint256 (n : Nat) : Uint256 := uintToArith256 n

def CMasternode.calculateScore (hs : Hashes) (mn : CMasternode) (blockHash : Uint256) : Nat :=
  let aux := arithToUint256 ((uintToArith256 mn.vin.prevout.hash + mn.vin.prevout.n) % 2 ^ 256)
  let hash2 := uintToArith256 (hs.block blockHash)
  let hash3 := uintToArith256 (hs.blockAnd blockHash aux)
  if hash3 > hash2 then hash3 - hash2 else hash2 - hash3

/-- `CompareScoreMN` -/
def lessScore (t1 t2 : Nat × CMasternode) : Bool :=
  if t1.1 ≠ t2.1 then t1.1 < t2.1 else t1.2.vin.less t2.2.vin

def sortScores (vecMasternodeScores : List (Nat × CMasternode)) : List (Nat × CMasternode) :=
  vecMasternodeScores.insertionSort fun t1 t2 => lessScore t1 t2 = false

/-- `GetMasternodeRank`, from 1; -1 without one. `fSentinel` is only read when any masternode
    to be paid counts. -/
def getMasternodeRank (env : Env) (hs : Hashes) (m : CMasternodeMan) (vin : CTxIn) (nBlockHeight nMinProtocol : Int)
    (fOnlyActive fSentinel : Bool) : Int :=
  match env.getBlockHash nBlockHeight with
  | none => -1
  | some blockHash =>
    let scored := m.vMasternodes.filter fun mn =>
      !(mn.nProtocolVersion < nMinProtocol) && (if fOnlyActive then mn.isEnabled else mn.isValidForPayment fSentinel)
    let vecMasternodeScores := scored.map fun mn => (getCompact (mn.calculateScore hs blockHash), mn)
    match (sortScores vecMasternodeScores).findIdx? fun scorePair => isAt vin scorePair.2 with
    | some i => i + 1
    | none => -1

/-! ## The handler -/

def CMasternodeVerification.getHash (hs : Hashes) (mnv : CMasternodeVerification) : Uint256 :=
  hs.verification mnv.vin1 mnv.vin2 mnv.addr mnv.nonce mnv.nBlockHeight

def CMasternodeVerification.strMessage1 (env : Env) (mnv : CMasternodeVerification) (blockHash : Uint256) : List Char :=
  env.addrToString mnv.addr ++ decimal mnv.nonce ++ hashToString blockHash

def CMasternodeVerification.strMessage2 (env : Env) (mnv : CMasternodeVerification) (blockHash : Uint256) : List Char :=
  mnv.strMessage1 env blockHash ++ toStringShort mnv.vin1.prevout ++ toStringShort mnv.vin2.prevout

/-- The manager, the misbehaviour of the peer and whether the message was relayed. -/
structure Outcome where
  mnodeman : CMasternodeMan
  misbehaving : Nat
  fRelayed : Bool

def increaseOthers (mnv : CMasternodeVerification) (mn : CMasternode) : CMasternode :=
  if mn.addr != mnv.addr || mn.vin.prevout == mnv.vin1.prevout then mn else mn.increasePoSeBanScore

def moveScores (m : CMasternodeMan) (mnv : CMasternodeVerification) (pmn1 : CMasternode) : CMasternodeMan :=
  let m := if !pmn1.isPoSeVerified then m.store pmn1.decreasePoSeBanScore else m
  { m with vMasternodes := m.vMasternodes.map (increaseOthers mnv) }

def seeVerification (hs : Hashes) (m : CMasternodeMan) (mnv : CMasternodeVerification) : CMasternodeMan :=
  { m with mapSeenMasternodeVerification := m.mapSeenMasternodeVerification.insert (mnv.getHash hs) mnv }

def processVerifyBroadcast (env : Env) (hs : Hashes) (m : CMasternodeMan) (mnv : CMasternodeVerification) : Outcome :=
  if m.mapSeenMasternodeVerification.contains (mnv.getHash hs) then ⟨m, 0, false⟩
  else
    let m := seeVerification hs m mnv
    if mnv.nBlockHeight < env.currentHeight - maxPoseBlocks then ⟨m, 0, false⟩
    else if mnv.vin1.prevout == mnv.vin2.prevout then ⟨m, 100, false⟩
    else match env.getBlockHash mnv.nBlockHeight with
      | none => ⟨m, 0, false⟩
      | some blockHash =>
        let nRank := getMasternodeRank env hs m mnv.vin2 mnv.nBlockHeight minPoseProtoVersion true false
        if nRank < maxPoseRank then ⟨m, 0, false⟩
        else match m.find mnv.vin1 with
          | none => ⟨m, 0, false⟩
          | some pmn1 => match m.find mnv.vin2 with
            | none => ⟨m, 0, false⟩
            | some pmn2 =>
              if pmn1.addr != mnv.addr then ⟨m, 0, false⟩
              else if env.verifyMessage pmn1.pubKeyMasternode mnv.vchSig1 (mnv.strMessage1 env blockHash) then ⟨m, 0, false⟩
              else if env.verifyMessage pmn2.pubKeyMasternode mnv.vchSig2 (mnv.strMessage2 env blockHash) then ⟨m, 0, false⟩
              else ⟨moveScores m mnv pmn1, 0, true⟩

def scores (m : CMasternodeMan) : List Int := m.vMasternodes.map (·.nPoSeBanScore)

/-- Both signatures verify and the verifying masternode is within the top ranks. -/
def Authorised (env : Env) (hs : Hashes) (m : CMasternodeMan) (mnv : CMasternodeVerification) : Prop :=
  ∃ blockHash pmn1 pmn2, env.getBlockHash mnv.nBlockHeight = some blockHash ∧
    m.find mnv.vin1 = some pmn1 ∧ env.verifyMessage pmn1.pubKeyMasternode mnv.vchSig1 (mnv.strMessage1 env blockHash) = true ∧
    m.find mnv.vin2 = some pmn2 ∧ env.verifyMessage pmn2.pubKeyMasternode mnv.vchSig2 (mnv.strMessage2 env blockHash) = true ∧
    1 ≤ getMasternodeRank env hs m mnv.vin2 mnv.nBlockHeight minPoseProtoVersion true false ∧
    getMasternodeRank env hs m mnv.vin2 mnv.nBlockHeight minPoseProtoVersion true false ≤ maxPoseRank

structure Passes (env : Env) (hs : Hashes) (m : CMasternodeMan) (mnv : CMasternodeVerification) (blockHash : Uint256)
    (pmn1 pmn2 : CMasternode) : Prop where
  unseen : m.mapSeenMasternodeVerification.contains (mnv.getHash hs) = false
  recent : env.currentHeight - maxPoseBlocks ≤ mnv.nBlockHeight
  another : mnv.vin1.prevout ≠ mnv.vin2.prevout
  block : env.getBlockHash mnv.nBlockHeight = some blockHash
  rank : maxPoseRank ≤ getMasternodeRank env hs m mnv.vin2 mnv.nBlockHeight minPoseProtoVersion true false
  verified : m.find mnv.vin1 = some pmn1
  verifier : m.find mnv.vin2 = some pmn2
  addr : pmn1.addr = mnv.addr
  sig1 : env.verifyMessage pmn1.pubKeyMasternode mnv.vchSig1 (mnv.strMessage1 env blockHash) = false
  sig2 : env.verifyMessage pmn2.pubKeyMasternode mnv.vchSig2 (mnv.strMessage2 env blockHash) = false

def Movable (m : CMasternodeMan) (mnv : CMasternodeVerification) (pmn1 : CMasternode) : Prop :=
  -masternodePoseBanMaxScore < pmn1.nPoSeBanScore ∨
  ∃ mn ∈ m.vMasternodes, mn.addr = mnv.addr ∧ mn.vin.prevout ≠ mnv.vin1.prevout ∧ mn.nPoSeBanScore < masternodePoseBanMaxScore

variable {env : Env} {hs : Hashes} {m : CMasternodeMan} {mnv : CMasternodeVerification} {blockHash : Uint256}
  {pmn1 pmn2 mn : CMasternode}

/-! ## What passes -/

theorem process_of_passes (h : Passes env hs m mnv blockHash pmn1 pmn2) :
    (processVerifyBroadcast env hs m mnv).mnodeman = moveScores (seeVerification hs m mnv) mnv pmn1 := by
  have hverified : (seeVerification hs m mnv).find mnv.vin1 = some pmn1 := h.verified
  have hverifier : (seeVerification hs m mnv).find mnv.vin2 = some pmn2 := h.verifier
  have hrank : ¬ getMasternodeRank env hs (seeVerification hs m mnv) mnv.vin2 mnv.nBlockHeight minPoseProtoVersion true false
      < maxPoseRank := not_lt.2 h.rank
  unfold processVerifyBroadcast
  simp [h.unseen, not_lt.2 h.recent, h.another, h.block, hrank, hverified, hverifier, h.addr, h.sig1, h.sig2]

theorem process_of_not_passes (h : ¬ ∃ blockHash pmn1 pmn2, Passes env hs m mnv blockHash pmn1 pmn2) :
    (processVerifyBroadcast env hs m mnv).mnodeman.vMasternodes = m.vMasternodes := by
  unfold processVerifyBroadcast
  split
  · rfl
  rename_i hunseen
  dsimp only
  split
  · rfl
  rename_i hrecent
  split
  · rfl
  rename_i hanother
  split
  · rfl
  rename_i blockHash hblock
  split
  · rfl
  rename_i hrank
  split
  · rfl
  rename_i pmn1 hverified
  split
  · rfl
  rename_i pmn2 hverifier
  split
  · rfl
  rename_i haddr
  split
  · rfl
  rename_i hsig1
  split
  · rfl
  rename_i hsig2
  refine absurd ⟨blockHash, pmn1, pmn2, ?_⟩ h
  exact
    { unseen := Bool.eq_false_iff.2 hunseen
      recent := not_lt.1 hrecent
      another := fun heq => hanother (beq_iff_eq.2 heq)
      block := hblock
      rank := not_lt.1 hrank
      verified := hverified
      verifier := hverifier
      addr := by simpa using haddr
      sig1 := Bool.eq_false_iff.2 hsig1
      sig2 := Bool.eq_false_iff.2 hsig2 }

theorem not_authorised_of_passes (h : Passes env hs m mnv blockHash pmn1 pmn2) : ¬ Authorised env hs m mnv := by
  intro hauth
  obtain ⟨blockHash', pmn1', -, hblock, hfind, hsig, -⟩ := hauth
  rw [h.block, Option.some.injEq] at hblock
  rw [h.verified, Option.some.injEq] at hfind
  subst hblock
  subst hfind
  rw [h.sig1] at hsig
  cases hsig

/-! ## What moves -/

theorem decrease_vin : mn.decreasePoSeBanScore.vin = mn.vin := by
  unfold CMasternode.decreasePoSeBanScore
  split <;> rfl

theorem decrease_score_eq_iff :
    mn.decreasePoSeBanScore.nPoSeBanScore = mn.nPoSeBanScore ↔ mn.nPoSeBanScore ≤ -masternodePoseBanMaxScore := by
  unfold CMasternode.decreasePoSeBanScore
  split
  · show mn.nPoSeBanScore - 1 = mn.nPoSeBanScore ↔ _
    omega
  · simp only [true_iff]
    omega

theorem increaseOthers_score_eq_iff : (increaseOthers mnv mn).nPoSeBanScore = mn.nPoSeBanScore ↔
    (mn.addr = mnv.addr → mn.vin.prevout ≠ mnv.vin1.prevout → masternodePoseBanMaxScore ≤ mn.nPoSeBanScore) := by
  unfold increaseOthers CMasternode.increasePoSeBanScore
  by_cases hother : mn.addr = mnv.addr ∧ mn.vin.prevout ≠ mnv.vin1.prevout
  · obtain ⟨haddr, hvin⟩ := hother
    simp only [haddr, hvin, bne_self_eq_false, beq_eq_false_iff_ne.2 hvin, Bool.or_false, Bool.false_eq_true, if_false,
      ne_eq, not_false_eq_true, forall_const]
    split
    · show mn.nPoSeBanScore + 1 = mn.nPoSeBanScore ↔ _
      omega
    · simp only [true_iff]
      omega
  · have hsame : (mn.addr != mnv.addr || mn.vin.prevout == mnv.vin1.prevout) = true := by
      by_contra hno
      simp at hno
      exact hother hno
    rw [if_pos hsame]
    simp only [true_iff]
    exact fun haddr hvin => absurd ⟨haddr, hvin⟩ hother

theorem moveScores_list (hfind : m.find mnv.vin1 = some pmn1) :
    ∃ i : Nat, m.vMasternodes[i]? = some pmn1 ∧ pmn1.vin.prevout = mnv.vin1.prevout ∧
      (moveScores m mnv pmn1).vMasternodes = (m.vMasternodes.set i pmn1.decreasePoSeBanScore).map (increaseOthers mnv) := by
  have hvin : pmn1.vin.prevout = mnv.vin1.prevout := by simpa [isAt] using List.find?_some hfind
  have hisAt : isAt pmn1.decreasePoSeBanScore.vin = isAt mnv.vin1 := by
    funext mn
    rw [isAt, isAt, decrease_vin, hvin]
  have hget : m.vMasternodes[m.vMasternodes.findIdx (isAt mnv.vin1)]? = some pmn1 := by
    rw [← List.find?_eq_getElem?_findIdx]
    exact hfind
  refine ⟨_, hget, hvin, ?_⟩
  unfold moveScores CMasternodeMan.store
  rw [hisAt]
  cases hverified : pmn1.isPoSeVerified with
  | false => rfl
  | true =>
    have hkept : pmn1.decreasePoSeBanScore = pmn1 := by
      unfold CMasternode.decreasePoSeBanScore
      rw [if_neg]
      simpa [CMasternode.isPoSeVerified] using hverified
    obtain ⟨hlt, hat⟩ := List.getElem?_eq_some_iff.1 hget
    have hset : m.vMasternodes.set (m.vMasternodes.findIdx (isAt mnv.vin1)) pmn1 = m.vMasternodes := by
      rw [← hat]
      exact List.set_getElem_self hlt
    rw [hkept, hset]
    rfl

/-- The first masternode at the outpoint is the verified one, any other is one of the others. -/
theorem scores_moveScores (hfind : m.find mnv.vin1 = some pmn1) :
    ∃ i : Nat, m.vMasternodes[i]? = some pmn1 ∧ ∀ j, (scores (moveScores m mnv pmn1))[j]? =
      if j = i then some pmn1.decreasePoSeBanScore.nPoSeBanScore
      else m.vMasternodes[j]?.map fun mn => (increaseOthers mnv mn).nPoSeBanScore := by
  obtain ⟨i, hget, hvin, hlist⟩ := moveScores_list hfind
  refine ⟨i, hget, fun j => ?_⟩
  have hlt : i < m.vMasternodes.length := (List.getElem?_eq_some_iff.1 hget).1
  have hfirst : increaseOthers mnv pmn1.decreasePoSeBanScore = pmn1.decreasePoSeBanScore := by
    unfold increaseOthers
    rw [decrease_vin, hvin]
    simp
  unfold scores
  rw [hlist, List.getElem?_map, List.getElem?_map, List.getElem?_set]
  by_cases hj : j = i
  · subst hj
    simp [hlt, hfirst]
  · rw [if_neg (Ne.symm hj), if_neg hj, Option.map_map]
    rfl

theorem scores_moved_iff (hfind : m.find mnv.vin1 = some pmn1) :
    scores (moveScores m mnv pmn1) ≠ scores m ↔ Movable m mnv pmn1 := by
  obtain ⟨i, hget, hmoved⟩ := scores_moveScores hfind
  have hvin : pmn1.vin.prevout = mnv.vin1.prevout := by simpa [isAt] using List.find?_some hfind
  have hbefore (j : Nat) : (scores m)[j]? = m.vMasternodes[j]?.map (·.nPoSeBanScore) := List.getElem?_map
  rw [not_iff_comm]
  constructor
  · intro hends
    apply List.ext_getElem?
    intro j
    rw [hmoved, hbefore]
    by_cases hj : j = i
    · rw [if_pos hj, hj, hget, Option.map_some, Option.some.injEq]
      exact decrease_score_eq_iff.2 (not_lt.1 fun h => hends (.inl h))
    · rw [if_neg hj]
      cases hmn : m.vMasternodes[j]? with
      | none => rfl
      | some mn =>
        rw [Option.map_some, Option.map_some, Option.some.injEq]
        apply increaseOthers_score_eq_iff.2
        intro haddr hother
        exact not_lt.1 fun h => hends (.inr ⟨mn, List.mem_of_getElem? hmn, haddr, hother, h⟩)
  · intro hsame hmovable
    rcases hmovable with hlow | ⟨mn, hmn, haddr, hother, hhigh⟩
    · have hi := hmoved i
      rw [hsame, hbefore, hget, if_pos rfl, Option.map_some, Option.some.injEq] at hi
      have hend := decrease_score_eq_iff.1 hi.symm
      omega
    · obtain ⟨j, hj⟩ := List.mem_iff_getElem?.1 hmn
      have hne : j ≠ i := by
        rintro rfl
        rw [hget, Option.some.injEq] at hj
        exact hother (hj ▸ hvin)
      have hat := hmoved j
      rw [hsame, hbefore, hj, if_neg hne, Option.map_some, Option.map_some, Option.some.injEq] at hat
      have hend := increaseOthers_score_eq_iff.1 hat.symm haddr hother
      omega

/-- The scores change only for an authorised message, just when they do not change: no message
    gets through the guards, or every score it would move is at its end. -/
theorem authorised_iff_unmoved (env : Env) (hs : Hashes) (m : CMasternodeMan) (mnv : CMasternodeVerification) :
    (scores (processVerifyBroadcast env hs m mnv).mnodeman ≠ scores m → Authorised env hs m mnv) ↔
      ¬ ∃ blockHash pmn1 pmn2, Passes env hs m mnv blockHash pmn1 pmn2 ∧ Movable m mnv pmn1 := by
  constructor
  · intro hsafe hex
    obtain ⟨blockHash, pmn1, pmn2, hpasses, hmovable⟩ := hex
    apply not_authorised_of_passes hpasses
    apply hsafe
    rw [process_of_passes hpasses]
    exact (scores_moved_iff (m := seeVerification hs m mnv) hpasses.verified).2 hmovable
  · intro hno hchanged
    by_cases hpasses : ∃ blockHash pmn1 pmn2, Passes env hs m mnv blockHash pmn1 pmn2
    · obtain ⟨blockHash, pmn1, pmn2, hpasses⟩ := hpasses
      rw [process_of_passes hpasses] at hchanged
      have hmovable := (scores_moved_iff (m := seeVerification hs m mnv) hpasses.verified).1 hchanged
      exact absurd ⟨blockHash, pmn1, pmn2, hpasses, hmovable⟩ hno
    · apply absurd _ hchanged
      unfold scores
      rw [process_of_not_passes hpasses]

/-! ## A forged verification -/

def tenMasternodes : CMasternodeMan where
  vMasternodes := (List.range 10).map fun k =>
    (Announcement.read ⟨inputOf (k + 1), ⟨[10, 0, 0, UInt8.ofNat k], 32000⟩, [1], [UInt8.ofNat k], [1], 1000, 80005, nullPing⟩).toMasternode
  mapSeenMasternodeBroadcast := ∅
  mapSeenMasternodePing := ∅
  mapSeenMasternodeVerification := ∅
  mMnbRecoveryRequests := ∅
  mMnbRecoveryGoodReplies := ∅

/-- The masternode at rank 10 verifies another one, says a message that neither of them signed. -/
def forgedVerification : CMasternodeVerification := ⟨inputOf 2, inputOf 1, ⟨[10, 0, 0, 1], 32000⟩, 7, 15, [99], [99]⟩

theorem forged_verification_moves :
    ¬ ∀ (env : Env) (hs : Hashes) (m : CMasternodeMan) (mnv : CMasternodeVerification),
      scores (processVerifyBroadcast env hs m mnv).mnodeman ≠ scores m → Authorised env hs m mnv := by
  intro h
  have hauth := h (sampleEnv 1000) sampleHashes tenMasternodes forgedVerification (by decide +kernel)
  obtain ⟨blockHash, pmn1, pmn2, -, hfind, hsig, -⟩ := hauth
  have hkey : (tenMasternodes.find forgedVerification.vin1).map (·.pubKeyMasternode) = some [1] := by decide +kernel
  rw [hfind, Option.map_some, Option.some.injEq] at hkey
  rw [hkey] at hsig
  cases hsig

end Zumy.Announce
