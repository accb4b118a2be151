/-
  Zumy.InstantSend.Process — the operations of `CInstantSend` and its events.

  `ProcessTxLockVote` and `ProcessTxLockRequest` call each other: a fresh orphan vote
  may complete an accepted or rejected request, which is then processed again and
  replays the orphan votes. A replayed vote is already an orphan, so the replay never
  processes a request again; `processTxLockRequestN` is the mutual recursion with its
  depth as fuel, and one level is enough (`processTxLockVote_depth` in
  `Zumy.InstantSend.Replay`).
-/
import Mathlib.Data.Nat.Pairing
import Zumy.InstantSend.Model

namespace Zumy.InstantSend

section

-- `CTxLockVote::GetHash`'s hash of (txHash, outpoint, outpointMasternode).
variable (voteHash : Uint256 → COutPoint → COutPoint → Uint256)

def CTxLockVote.getHash (v : CTxLockVote) : Uint256 := voteHash v.txHash v.outpoint v.outpointMasternode

/-! ## Confirmations -/

def setConfirmedHeight (nHeightNew : Int) (v : CTxLockVote) : CTxLockVote := { v with nConfirmedHeight := nHeightNew }

/-- `CTxLockVote()`, the value `operator[]` makes of an absent key. -/
def CTxLockVote.blank (now : Int) : CTxLockVote := ⟨0, .null, .null, [], -1, now⟩

/-- `mapTxLockVotes[nVoteHash].SetConfirmedHeight(nHeightNew)` -/
def confirmVote (now nHeightNew : Int) (m : Map Uint256 CTxLockVote) (nVoteHash : Uint256) : Map Uint256 CTxLockVote :=
  m.insert nVoteHash (setConfirmedHeight nHeightNew (m[nVoteHash]?.getD (CTxLockVote.blank now)))

def CTxLockCandidate.votes (c : CTxLockCandidate) : List CTxLockVote :=
  c.mapOutPointLocks.toList.flatMap fun kv => kv.2.mapMasternodeVotes.toList.map (·.2)

def syncTransaction (now : Int) (s : CInstantSend) (tx : CTransaction) (pblock : Option (Option Int)) : CInstantSend :=
  if tx.isCoinBase then s
  else if pblock = some none then s
  else
    let nHeightNew := (pblock.bind id).getD (-1)
    let seen := match s.mapTxLockCandidates[tx.hash]? with
      | none => s.mapTxLockVotes
      | some c => c.votes.foldl (fun m v => m.modify (v.getHash voteHash) (setConfirmedHeight nHeightNew)) s.mapTxLockVotes
    let orphans := s.mapTxLockVotesOrphan.toList.filter fun kv => kv.2.txHash == tx.hash
    { s with
      mapTxLockCandidates := s.mapTxLockCandidates.modify tx.hash fun c => { c with nConfirmedHeight := nHeightNew }
      mapTxLockVotes := orphans.foldl (fun m kv => confirmVote now nHeightNew m kv.1) seen }

def notify (now : Int) (s : CInstantSend) : Notification → CInstantSend
  | .syncTransaction tx pblock => syncTransaction voteHash now s tx pblock
  | .updatedBlockTip pindex => { s with pCurrentBlockIndex := pindex }

/-! ## Locking -/

def CInstantSend.getLockedOutPointTxHash (s : CInstantSend) (o : COutPoint) : Option Uint256 := s.mapLockedOutpoints[o]?

def resolveConflicts (env : Env) (s : CInstantSend) (c : CTxLockCandidate) : Bool × CInstantSend :=
  if !c.isAllOutPointsReady then (true, s)
  else if c.txLockRequest.vin.any fun txin =>
      (s.getLockedOutPointTxHash txin.prevout).any (· != c.txLockRequest.hash) then (false, s)
  else
    let answer := env.resolveChain s c.txLockRequest
    (answer.1, answer.2.foldl (notify voteHash env.now) s)

def lockTransactionInputs (s : CInstantSend) (c : CTxLockCandidate) : CInstantSend :=
  if !c.isAllOutPointsReady then s
  else { s with mapLockedOutpoints :=
           c.mapOutPointLocks.keys.foldl (fun m o => m.insertIfNew o c.txLockRequest.hash) s.mapLockedOutpoints }

/-- The guard `IsInstantSendReadyToLock` and `IsLockedInstantSendTransaction` share. -/
def Env.instantSendOff (env : Env) : Bool := !env.fEnableInstantSend || env.fLargeWork || !env.spork2Active

def isInstantSendReadyToLock (env : Env) (s : CInstantSend) (txHash : Uint256) : Bool :=
  if env.instantSendOff then false
  else match s.mapTxLockCandidates[txHash]? with
    | none => false
    | some c => c.isAllOutPointsReady

def isLockedInstantSendTransaction (env : Env) (s : CInstantSend) (txHash : Uint256) : Bool :=
  if env.instantSendOff then false
  else match s.mapTxLockCandidates[txHash]? with
    | none => false
    | some c =>
      if c.mapOutPointLocks.isEmpty then false
      else c.mapOutPointLocks.keys.all fun o => s.getLockedOutPointTxHash o == some txHash

/-! ## Votes on candidates -/

/-- The loop over the hashes voted on an outpoint: has the masternode voted on it in
    one of their candidates? A hash that is not a candidate dereferences `end()`. -/
def hasVotedAny (s : CInstantSend) (o mn : COutPoint) : List Uint256 → Option Bool
  | [] => some false
  | hash :: hashes =>
    match s.mapTxLockCandidates[hash]? with
    | none => none
    | some c => if c.hasMasternodeVoted o mn then some true else hasVotedAny s o mn hashes

def votedHashes (s : CInstantSend) (o : COutPoint) : List Uint256 :=
  match s.mapVotedOutpoints[o]? with
  | none => []
  | some hashes => hashes.toList

/-- `Vote` records its own vote's hash: a new set, or one more element. -/
def addVotedOutpoint (m : Map COutPoint HashSet) (o : COutPoint) (txHash : Uint256) : Map COutPoint HashSet :=
  match m[o]? with
  | none => m.insertIfNew o ((∅ : HashSet).insert txHash)
  | some _ => m.modify o (·.insert txHash)

/-- `mapTxLockVotes.insert(make_pair(vote.GetHash(), vote))` -/
def storeSeen (s : CInstantSend) (v : CTxLockVote) : CInstantSend :=
  { s with mapTxLockVotes := s.mapTxLockVotes.insertIfNew (v.getHash voteHash) v }

/-- One turn of `Vote`'s loop; `false` is a `return` out of it. -/
def voteOutpoint (env : Env) (s : CInstantSend) (txHash : Uint256) (o : COutPoint) : Option (Bool × CInstantSend) :=
  let nPrevoutHeight := env.getUTXOHeight o
  if nPrevoutHeight = -1 then some (false, s)
  else
    let nLockInputHeight := nPrevoutHeight + 4
    let n := env.getMasternodeRank env.activeMasternode nLockInputHeight
    if n = -1 then some (true, s)
    else if n > signaturesTotal then some (true, s)
    else (hasVotedAny s o env.activeMasternode (votedHashes s o)).bind fun fAlreadyVoted =>
      if fAlreadyVoted then some (true, s)
      else match CTxLockVote.sign env ⟨txHash, o, env.activeMasternode, [], -1, env.now⟩ with
        | none => some (false, s)
        | some vote =>
          if !vote.checkSignature env then some (false, s)
          else
            let s' := storeSeen voteHash s vote
            match s'.mapTxLockCandidates[txHash]?.bind fun c => c.addVote vote with
            | none => some (true, s')
            | some c' =>
              some (true, { s' with
                mapTxLockCandidates := s'.mapTxLockCandidates.insert txHash c'
                mapVotedOutpoints := addVotedOutpoint s'.mapVotedOutpoints o txHash })

def voteLoop (env : Env) (s : CInstantSend) (txHash : Uint256) : List COutPoint → Option CInstantSend
  | [] => some s
  | o :: os => (voteOutpoint voteHash env s txHash o).bind fun r => if r.1 then voteLoop env r.2 txHash os else some r.2

def vote (env : Env) (s : CInstantSend) (txHash : Uint256) : Option CInstantSend :=
  if !env.fMasterNode then some s
  else match s.mapTxLockCandidates[txHash]? with
    | none => none
    | some c => voteLoop voteHash env s txHash c.mapOutPointLocks.keys

/-- The end of `ProcessTxLockVote`: the vote is added to its candidate, which may now
    be complete. -/
def addVoteToCandidate (env : Env) (s : CInstantSend) (c : CTxLockCandidate) (v : CTxLockVote) : Bool × CInstantSend :=
  match c.addVote v with
  | none => (false, s)
  | some c' =>
    let s' := { s with mapTxLockCandidates := s.mapTxLockCandidates.insert v.txHash c' }
    if !c'.isAllOutPointsReady then (true, s')
    else
      let (resolved, s'') := resolveConflicts voteHash env s' c'
      if resolved && !isLockedInstantSendTransaction env s'' v.txHash then (true, lockTransactionInputs s'' c')
      else (true, s'')

/-- `ProcessTxLockVote` for a vote whose transaction is a candidate. An outpoint that
    has an entry in `mapVotedOutpoints` keeps it as it is. -/
def processCandidateVote (env : Env) (s : CInstantSend) (c : CTxLockCandidate) (v : CTxLockVote) :
    Option (Bool × CInstantSend) :=
  match s.mapVotedOutpoints[v.outpoint]? with
  | some hashes =>
    (hasVotedAny s v.outpoint v.outpointMasternode (hashes.toList.filter (· != v.txHash))).map fun fConflict =>
      if fConflict then (false, s) else addVoteToCandidate voteHash env s c v
  | none =>
    let setHashes := (∅ : HashSet).insert v.txHash
    some (addVoteToCandidate voteHash env { s with mapVotedOutpoints := s.mapVotedOutpoints.insertIfNew v.outpoint setHashes } c v)

/-! ## Orphan votes -/

def isEnoughOrphanVotesForTxAndOutPoint (s : CInstantSend) (txHash : Uint256) (o : COutPoint) : Bool :=
  signaturesRequired ≤ s.mapTxLockVotesOrphan.toList.countP fun kv => kv.2.txHash == txHash && kv.2.outpoint == o

def isEnoughOrphanVotesForTx (s : CInstantSend) (T : CTxLockRequest) : Bool :=
  T.vin.all fun txin => isEnoughOrphanVotesForTxAndOutPoint s T.hash txin.prevout

def CInstantSend.getAverageMasternodeOrphanVoteTime (s : CInstantSend) : Int :=
  if s.mapMasternodeOrphanVotes.isEmpty then 0
  else (s.mapMasternodeOrphanVotes.toList.map (·.2)).sum / s.mapMasternodeOrphanVotes.size

/-- The masternode sent an orphan vote less than ten minutes ago and later than the average. -/
def isSpammingOrphanVotes (env : Env) (s : CInstantSend) (mn : COutPoint) : Bool :=
  match s.mapMasternodeOrphanVotes[mn]? with
  | none => false
  | some nPrevOrphanVote => nPrevOrphanVote > env.now && nPrevOrphanVote > s.getAverageMasternodeOrphanVoteTime

/-- The rate tracking at the end of the orphan branch. It answers true for every vote
    that is not spam, counted or not. -/
def trackOrphanVote (env : Env) (s : CInstantSend) (mn : COutPoint) : Bool × CInstantSend :=
  let nMasternodeOrphanExpireTime := env.now + 60 * 10
  if isSpammingOrphanVotes env s mn then (false, s)
  else (true, { s with mapMasternodeOrphanVotes := s.mapMasternodeOrphanVotes.insert mn nMasternodeOrphanExpireTime })

def CInstantSend.lockRequestSeen (s : CInstantSend) (txHash : Uint256) : Option CTxLockRequest :=
  match s.mapLockRequestAccepted[txHash]? with
  | some T => some T
  | none => s.mapLockRequestRejected[txHash]?

def storeOrphan (s : CInstantSend) (v : CTxLockVote) : CInstantSend :=
  { s with mapTxLockVotesOrphan := s.mapTxLockVotesOrphan.insert (v.getHash voteHash) v }

section
-- `ProcessTxLockRequest`, as `ProcessTxLockVote` calls it.
variable (reprocess : CInstantSend → CTxLockRequest → Option (Bool × CInstantSend))

/-- `ProcessTxLockVote` for a vote whose transaction is not a candidate. -/
def processOrphanVote (env : Env) (s : CInstantSend) (v : CTxLockVote) : Option (Bool × CInstantSend) :=
  if !s.mapTxLockVotesOrphan.contains (v.getHash voteHash) then
    let s' := storeOrphan voteHash s v
    match (s'.lockRequestSeen v.txHash).filter (isEnoughOrphanVotesForTx s') with
    | some T => (reprocess s' T).map fun r => (true, r.2)
    | none => some (trackOrphanVote env s' v.outpointMasternode)
  else some (trackOrphanVote env s v.outpointMasternode)

def processTxLockVoteWith (env : Env) (s : CInstantSend) (v : CTxLockVote) : Option (Bool × CInstantSend) :=
  if !v.isValid env then some (false, s)
  else match s.mapTxLockCandidates[v.txHash]? with
    | none => processOrphanVote voteHash reprocess env s v
    | some c => processCandidateVote voteHash env s c v

/-- One turn of `ProcessOrphanTxLockVotes`: an orphan vote whose processing answers
    true is erased. -/
def replayOrphanVote (env : Env) (s : CInstantSend) (kv : Uint256 × CTxLockVote) : Option CInstantSend :=
  (processTxLockVoteWith voteHash reprocess env s kv.2).map fun r =>
    if r.1 then { r.2 with mapTxLockVotesOrphan := r.2.mapTxLockVotesOrphan.erase kv.1 } else r.2

def processOrphanTxLockVotes (env : Env) (s : CInstantSend) : Option CInstantSend :=
  Lib.run (replayOrphanVote voteHash reprocess env) s s.mapTxLockVotesOrphan.toList

def createTxLockCandidate (env : Env) (s : CInstantSend) (T : CTxLockRequest) : Bool × CInstantSend :=
  if !T.isValid env (isEnoughOrphanVotesForTx s T) then (false, s)
  else match s.mapTxLockCandidates[T.hash]? with
    | none => (true, { s with mapTxLockCandidates := s.mapTxLockCandidates.insertIfNew T.hash (.ofRequest T) })
    | some _ => (true, s)

def CInstantSend.hasLockedInput (s : CInstantSend) (T : CTxLockRequest) : Bool :=
  T.vin.any fun txin => s.mapLockedOutpoints.contains txin.prevout

/-- The end of `ProcessTxLockRequest`: the replayed votes may have completed the candidate. -/
def lockIfReady (env : Env) (s : CInstantSend) (txHash : Uint256) : Option CInstantSend :=
  if !isInstantSendReadyToLock env s txHash then some s
  else s.mapTxLockCandidates[txHash]?.map fun c =>
    let (resolved, s') := resolveConflicts voteHash env s c
    if resolved then lockTransactionInputs s' c else s'

def processTxLockRequestWith (env : Env) (s : CInstantSend) (T : CTxLockRequest) : Option (Bool × CInstantSend) :=
  if s.hasLockedInput T then some (false, s)
  else
    let (created, s₁) := createTxLockCandidate env s T
    if !created then some (false, s₁)
    else (vote voteHash env s₁ T.hash).bind fun s₂ =>
      (processOrphanTxLockVotes voteHash reprocess env s₂).bind fun s₃ =>
        (lockIfReady voteHash env s₃ T.hash).map fun s₄ => (true, s₄)

end

/-- The mutual recursion of `ProcessTxLockRequest` and `ProcessTxLockVote`, `n` calls deep. -/
def processTxLockRequestN (env : Env) : Nat → CInstantSend → CTxLockRequest → Option (Bool × CInstantSend)
  | 0, _, _ => none
  | n + 1, s, T => processTxLockRequestWith voteHash (processTxLockRequestN env n) env s T

def processTxLockRequest (env : Env) (s : CInstantSend) (T : CTxLockRequest) : Option (Bool × CInstantSend) :=
  processTxLockRequestN voteHash env 1 s T

def processTxLockVote (env : Env) (s : CInstantSend) (v : CTxLockVote) : Option (Bool × CInstantSend) :=
  processTxLockVoteWith voteHash (processTxLockRequest voteHash env) env s v

/-! ## Expiry -/

/-- `CheckAndRemove` drops a candidate with every entry of its outpoints, whoever's they are. -/
def removeCandidate (s : CInstantSend) (kv : Uint256 × CTxLockCandidate) : CInstantSend :=
  { s with
    mapLockedOutpoints := kv.2.mapOutPointLocks.keys.foldl (fun m o => m.erase o) s.mapLockedOutpoints
    mapVotedOutpoints := kv.2.mapOutPointLocks.keys.foldl (fun m o => m.erase o) s.mapVotedOutpoints
    mapLockRequestAccepted := s.mapLockRequestAccepted.erase kv.2.txLockRequest.hash
    mapLockRequestRejected := s.mapLockRequestRejected.erase kv.2.txLockRequest.hash
    mapTxLockCandidates := s.mapTxLockCandidates.erase kv.1 }

def expiredCandidates (env : Env) (s : CInstantSend) (nHeight : Int) : List (Uint256 × CTxLockCandidate) :=
  s.mapTxLockCandidates.toList.filter fun kv => isExpired env kv.2.nConfirmedHeight nHeight

def checkAndRemove (env : Env) (s : CInstantSend) : CInstantSend :=
  match s.pCurrentBlockIndex with
  | none => s
  | some nHeight =>
    let s₁ := (expiredCandidates env s nHeight).foldl removeCandidate s
    let expiredOrphans := s₁.mapTxLockVotesOrphan.filter fun _ v => env.now - v.nTimeCreated > orphanVoteSeconds
    { s₁ with
      mapTxLockVotes := expiredOrphans.keys.foldl (fun m h => m.erase h)
        (s₁.mapTxLockVotes.filter fun _ v => !isExpired env v.nConfirmedHeight nHeight)
      mapTxLockVotesOrphan := s₁.mapTxLockVotesOrphan.filter fun _ v => !(env.now - v.nTimeCreated > orphanVoteSeconds)
      mapMasternodeOrphanVotes := s₁.mapMasternodeOrphanVotes.filter fun _ t => !(t < env.now) }

/-! ## Messages and events -/

def CInstantSend.alreadyHave (s : CInstantSend) (hash : Uint256) : Bool :=
  s.mapLockRequestAccepted.contains hash || s.mapLockRequestRejected.contains hash || s.mapTxLockVotes.contains hash

/-- `CInstantSend::ProcessMessage` reads no message before these hold. -/
def Env.ignoresVotes (env : Env) (nVersion : Int) : Bool :=
  env.fLiteMode || !env.spork2Active || !env.masternodeListSynced || nVersion < minInstantsendProtoVersion

/-- A vote as it is read from the wire: its local fields are those of a new vote. -/
def CTxLockVote.received (env : Env) (v : CTxLockVote) : CTxLockVote :=
  { v with nConfirmedHeight := -1, nTimeCreated := env.now }

def processMessage (env : Env) (s : CInstantSend) (nVersion : Int) (v : CTxLockVote) : Option CInstantSend :=
  if env.ignoresVotes nVersion then some s
  else if s.mapTxLockVotes.contains (v.getHash voteHash) then some s
  else
    let v' := v.received env
    (processTxLockVote voteHash env (storeSeen voteHash s v') v').map (·.2)

/-- TXLOCKREQUEST, in main.cpp: the request, then the mempool's answer for it. -/
def processLockRequestMessage (env : Env) (s : CInstantSend) (tx : CTransaction) : Option CInstantSend :=
  let T : CTxLockRequest := ⟨tx, env.now⟩
  if env.fBlocksOnly then some s
  else (processTxLockRequest voteHash env s T).map fun r =>
    let s' := r.2
    if !r.1 then s'
    else if s'.alreadyHave T.hash then s'
    else match env.acceptToMemoryPool tx with
      | .accepted => { s' with mapLockRequestAccepted := s'.mapLockRequestAccepted.insertIfNew T.hash T }
      | .missingInputs => s'
      | .rejected => { s' with mapLockRequestRejected := s'.mapLockRequestRejected.insertIfNew T.hash T }

inductive Event where
  /-- TXLOCKVOTE from a peer of protocol version `nVersion`. -/
  | txLockVote (nVersion : Int) (v : CTxLockVote)
  /-- TXLOCKREQUEST from a peer. -/
  | txLockRequest (tx : CTransaction)
  /-- The wallet or the RPC server processes its own request. -/
  | ownLockRequest (tx : CTransaction)
  | checkAndRemove
  | notification (n : Notification)

def step (s : CInstantSend) (ev : Env × Event) : Option CInstantSend :=
  match ev.2 with
  | .txLockVote nVersion v => processMessage voteHash ev.1 s nVersion v
  | .txLockRequest tx => processLockRequestMessage voteHash ev.1 s tx
  | .ownLockRequest tx => (processTxLockRequest voteHash ev.1 s ⟨tx, ev.1.now⟩).map (·.2)
  | .checkAndRemove => some (checkAndRemove ev.1 s)
  | .notification n => some (notify voteHash ev.1.now s n)

end

/-! ## A small network

  The traces of the later modules run in it: masternode `k` has outpoint `(7, k)`, rank
  `k`, key `[k]`, and signs with its key; every output is unspent; nothing conflicts in
  the mempool. -/

def masternode (k : Nat) : COutPoint := ⟨7, k⟩

def network : Env where
  now := 0
  fLiteMode := false
  fBlocksOnly := false
  fMasterNode := false
  fEnableInstantSend := true
  fLargeWork := false
  spork2Active := true
  spork5Value := 1000
  masternodeListSynced := true
  nInstantSendKeepLock := 24
  chainHeight := 100
  activeMasternode := .null
  activePubKey := []
  masternodeInfo := fun mn => if mn.hash = 7 ∧ 0 < mn.n then some [UInt8.ofNat mn.n] else none
  getMasternodeRank := fun mn _ => if mn.hash = 7 ∧ 0 < mn.n then mn.n else -1
  verifyMessage := fun pubKey sig _ => sig == pubKey
  signMessage := fun _ => none
  getCoin := fun _ => some (1, 2 * coin)
  outpointCreated := fun _ => none
  checkFinalTx := fun _ => true
  isNormalPaymentScript := fun _ => true
  isUnspendable := fun _ => false
  acceptToMemoryPool := fun _ => .accepted
  resolveChain := fun _ _ => (true, [])

def payment (hash : Uint256) (o : COutPoint) : CTransaction := ⟨[⟨o, [], 0⟩], [⟨coin, []⟩], hash⟩

def signedVote (k : Nat) (txHash : Uint256) (o : COutPoint) : CTxLockVote :=
  ⟨txHash, o, masternode k, [UInt8.ofNat k], -1, 0⟩

def onePayment : List (Env × Event) :=
  [(network, .txLockRequest (payment 1 ⟨5, 0⟩)), (network, .txLockVote 70000 (signedVote 1 1 ⟨5, 0⟩))]

def pairHash (txHash : Uint256) (o mn : COutPoint) : Uint256 :=
  Nat.pair txHash (Nat.pair (Nat.pair o.hash o.n) (Nat.pair mn.hash mn.n))

end Zumy.InstantSend
