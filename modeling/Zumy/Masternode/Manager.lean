/-
  Zumy.Masternode.Manager — masternodeman.cpp: the masternode list, its index and the
  governance objects that a removal makes dirty.

  Copying a `CMasternode` leaves its `mapGovernanceObjectsVotedOn` behind: the elements a
  vector moves when it grows or when an earlier one is erased lose theirs. Whether a
  `push_back` moves the elements is up to the vector; `add` takes it as an argument.
  Liveness, pings and broadcasts are left out; which outpoints are spent is an argument.
-/
import Zumy.Masternode.Index

namespace Zumy.Masternode

def maxExpectedIndexSize : Int := 30000
def minIndexRebuildTime : Int := 3600

structure CMasternode where
  vin : CTxIn
  pubKeyMasternode : CPubKey
  mapGovernanceObjectsVotedOn : Map Uint256 Int

namespace CMasternode

def copy (mn : CMasternode) : CMasternode := { mn with mapGovernanceObjectsVotedOn := ∅ }

def addGovernanceVote (mn : CMasternode) (nGovernanceObjectHash : Uint256) : CMasternode :=
  match mn.mapGovernanceObjectsVotedOn[nGovernanceObjectHash]? with
  | some n => { mn with mapGovernanceObjectsVotedOn := mn.mapGovernanceObjectsVotedOn.insert nGovernanceObjectHash (n + 1) }
  | none => { mn with mapGovernanceObjectsVotedOn := mn.mapGovernanceObjectsVotedOn.insertIfNew nGovernanceObjectHash 1 }

def removeGovernanceObject (mn : CMasternode) (nGovernanceObjectHash : Uint256) : CMasternode :=
  { mn with mapGovernanceObjectsVotedOn := mn.mapGovernanceObjectsVotedOn.erase nGovernanceObjectHash }

end CMasternode

structure CMasternodeMan where
  vMasternodes : List CMasternode
  nLastIndexRebuildTime : Int
  indexMasternodes : CMasternodeIndex
  indexMasternodesOld : CMasternodeIndex
  /-- The index was rebuilt and the governance objects still use the old one. -/
  fIndexRebuilt : Bool
  fMasternodesAdded : Bool
  fMasternodesRemoved : Bool
  vecDirtyGovernanceObjectHashes : List Uint256

namespace CMasternodeMan

def init : CMasternodeMan := ⟨[], 0, .empty, .empty, false, false, false, []⟩

def isAt (vin : CTxIn) (mn : CMasternode) : Bool := mn.vin.prevout == vin.prevout

def find (m : CMasternodeMan) (vin : CTxIn) : Option CMasternode := m.vMasternodes.find? (isAt vin)
def has (m : CMasternodeMan) (vin : CTxIn) : Bool := (m.find vin).isSome

def outpoints (m : CMasternodeMan) : List COutPoint := m.vMasternodes.map (·.vin.prevout)

/-- The key of `GetMasternodeInfo`, when the list has the masternode. -/
def masternodeInfo (m : CMasternodeMan) (vin : CTxIn) : Option CPubKey := (m.find vin).map (·.pubKeyMasternode)

/-- `Find`, and an update of what it points at. -/
def modifyFound (m : CMasternodeMan) (vin : CTxIn) (f : CMasternode → CMasternode) : CMasternodeMan :=
  match m.vMasternodes.findIdx? (isAt vin) with
  | none => m
  | some i => { m with vMasternodes := m.vMasternodes.modify i f }

def add (m : CMasternodeMan) (mn : CMasternode) (fReallocates : Bool) : CMasternodeMan :=
  match m.find mn.vin with
  | some _ => m
  | none =>
    { m with
      vMasternodes := (if fReallocates then m.vMasternodes.map CMasternode.copy else m.vMasternodes) ++ [mn.copy]
      indexMasternodes := m.indexMasternodes.addMasternodeVIN mn.vin
      fMasternodesAdded := true }

def updateFromNewBroadcast (m : CMasternodeMan) (vin : CTxIn) (pubKeyMasternode : CPubKey) : CMasternodeMan :=
  m.modifyFound vin fun mn => { mn with pubKeyMasternode := pubKeyMasternode }

/-- The loop of `CheckAndRemove`: what is left of the list, and the objects flagged dirty.
    Behind an erased element every element is a copy of itself. -/
def eraseSpent (isOutpointSpent : COutPoint → Bool) : Bool → List CMasternode → List CMasternode × List Uint256
  | _, [] => ([], [])
  | fMoved, it :: vMasternodes =>
    let mn := if fMoved then it.copy else it
    if isOutpointSpent mn.vin.prevout then
      let (left, dirty) := eraseSpent isOutpointSpent true vMasternodes
      (left, mn.mapGovernanceObjectsVotedOn.keys ++ dirty)
    else
      let (left, dirty) := eraseSpent isOutpointSpent fMoved vMasternodes
      (mn :: left, dirty)

def removeSpent (m : CMasternodeMan) (isOutpointSpent : COutPoint → Bool) : CMasternodeMan :=
  let (left, dirty) := eraseSpent isOutpointSpent false m.vMasternodes
  { m with
    vMasternodes := left
    vecDirtyGovernanceObjectHashes := m.vecDirtyGovernanceObjectHashes ++ dirty
    fMasternodesRemoved := m.fMasternodesRemoved || m.vMasternodes.any fun mn => isOutpointSpent mn.vin.prevout }

def indexOf (vMasternodes : List CMasternode) : CMasternodeIndex :=
  vMasternodes.foldl (fun x mn => x.addMasternodeVIN mn.vin) .empty

/-- The three early returns of `CheckAndRebuildMasternodeIndex`. -/
def needsRebuild (m : CMasternodeMan) (now : Int) : Bool :=
  if now - m.nLastIndexRebuildTime < minIndexRebuildTime then false
  else if m.indexMasternodes.getSize ≤ maxExpectedIndexSize then false
  else if m.indexMasternodes.getSize ≤ m.vMasternodes.length then false
  else true

def checkAndRebuildMasternodeIndex (m : CMasternodeMan) (now : Int) : CMasternodeMan :=
  if !m.needsRebuild now then m
  else
    { m with
      indexMasternodesOld := m.indexMasternodes
      indexMasternodes := indexOf m.vMasternodes
      fIndexRebuilt := true
      nLastIndexRebuildTime := now }

def clearOldMasternodeIndex (m : CMasternodeMan) : CMasternodeMan :=
  { m with indexMasternodesOld := .empty, fIndexRebuilt := false }

def addGovernanceVote (m : CMasternodeMan) (vin : CTxIn) (nGovernanceObjectHash : Uint256) : CMasternodeMan :=
  m.modifyFound vin (·.addGovernanceVote nGovernanceObjectHash)

def removeGovernanceObject (m : CMasternodeMan) (nGovernanceObjectHash : Uint256) : CMasternodeMan :=
  { m with vMasternodes := m.vMasternodes.map (·.removeGovernanceObject nGovernanceObjectHash) }

/-! ## What is listed -/

variable {m : CMasternodeMan} {vin : CTxIn} {mn : CMasternode}

theorem has_iff : m.has vin = true ↔ vin.prevout ∈ m.outpoints := by
  simp [has, find, outpoints, isAt, List.find?_isSome]

theorem has_congr {m' : CMasternodeMan} (h : m'.outpoints = m.outpoints) (vin : CTxIn) : m'.has vin = m.has vin := by
  rw [Bool.eq_iff_iff, has_iff, has_iff, h]

theorem outpoints_modifyFound {f : CMasternode → CMasternode} (hf : ∀ mn, (f mn).vin = mn.vin) :
    (m.modifyFound vin f).outpoints = m.outpoints := by
  unfold modifyFound outpoints
  split
  · rfl
  · apply List.ext_getElem?
    intro i
    simp only [List.getElem?_map, List.getElem?_modify]
    cases m.vMasternodes[i]? with
    | none => rfl
    | some mn => simp only [Option.map_some]; split <;> simp [hf]

theorem modifyFound_cons {l : List CMasternode} (hm : m.vMasternodes = mn :: l) (hat : isAt vin mn = false)
    (f : CMasternode → CMasternode) : ∃ rest, m.modifyFound vin f = { m with vMasternodes := mn :: rest } ∧
      ((∀ mn, (f mn).vin = mn.vin) → rest.map (·.vin.prevout) = l.map (·.vin.prevout)) := by
  obtain ⟨rest, hrest⟩ : ∃ rest, m.modifyFound vin f = { m with vMasternodes := mn :: rest } := by
    unfold modifyFound
    rw [hm, List.findIdx?_cons, hat]
    cases l.findIdx? (isAt vin) with
    | none => exact ⟨l, by simp [← hm]⟩
    | some i => exact ⟨l.modify i f, by simp⟩
  refine ⟨rest, hrest, fun hf => ?_⟩
  have hout : (m.modifyFound vin f).outpoints = m.outpoints := outpoints_modifyFound hf
  rw [hrest] at hout
  simpa [outpoints, hm] using hout

theorem find_modifyFound {f : CMasternode → CMasternode} (hf : ∀ mn, (f mn).vin = mn.vin) (vin' : CTxIn) :
    (m.modifyFound vin f).find vin' = if vin'.prevout = vin.prevout then (m.find vin').map f else m.find vin' := by
  have hat (w : CTxIn) (mn : CMasternode) : isAt w (f mn) = isAt w mn := by simp [isAt, hf]
  have hlist (l : List CMasternode) : (match l.findIdx? (isAt vin) with | none => l | some i => l.modify i f).find? (isAt vin') =
      if vin'.prevout = vin.prevout then (l.find? (isAt vin')).map f else l.find? (isAt vin') := by
    induction l with
    | nil => simp
    | cons mn l ih =>
      rw [List.findIdx?_cons]
      by_cases hmn : isAt vin mn = true
      · -- the first element found is the one modified
        have heq : isAt vin' mn = true ↔ vin'.prevout = vin.prevout := by
          have hp : mn.vin.prevout = vin.prevout := by simpa [isAt] using hmn
          rw [isAt, hp, beq_iff_eq]
          exact eq_comm
        rw [if_pos hmn]
        by_cases hp : vin'.prevout = vin.prevout
        · simp [hat, heq.2 hp, hp]
        · have hno : isAt vin' mn = false := by simpa using fun h => hp (heq.1 h)
          simp [hat, hno, hp]
      · rw [if_neg hmn]
        have htail : (match (l.findIdx? (isAt vin)).map (· + 1) with | none => mn :: l | some i => (mn :: l).modify i f) =
            mn :: (match l.findIdx? (isAt vin) with | none => l | some i => l.modify i f) := by
          cases l.findIdx? (isAt vin) <;> simp
        rw [htail, List.find?_cons, List.find?_cons, ih]
        by_cases hp : vin'.prevout = vin.prevout
        · have hno : isAt vin' mn = false := by
            have hne : ¬ mn.vin.prevout = vin.prevout := by simpa [isAt] using hmn
            simp [isAt, hp, hne]
          simp [hno]
        · simp [hp]
  have hm : (m.modifyFound vin f).vMasternodes =
      match m.vMasternodes.findIdx? (isAt vin) with | none => m.vMasternodes | some i => m.vMasternodes.modify i f := by
    unfold modifyFound
    split <;> simp_all
  unfold find
  rw [hm, hlist]

theorem outpoints_addGovernanceVote (nHash : Uint256) : (m.addGovernanceVote vin nHash).outpoints = m.outpoints :=
  outpoints_modifyFound fun mn => by unfold CMasternode.addGovernanceVote; split <;> rfl

theorem outpoints_removeGovernanceObject (nHash : Uint256) : (m.removeGovernanceObject nHash).outpoints = m.outpoints := by
  simp [removeGovernanceObject, outpoints, CMasternode.removeGovernanceObject]

theorem eraseSpent_outpoints (isOutpointSpent : COutPoint → Bool) (fMoved : Bool) (vMasternodes : List CMasternode) :
    (eraseSpent isOutpointSpent fMoved vMasternodes).1.map (·.vin.prevout) =
      (vMasternodes.map (·.vin.prevout)).filter fun outpoint => !isOutpointSpent outpoint := by
  induction vMasternodes generalizing fMoved with
  | nil => rfl
  | cons it vMasternodes ih =>
    have hcopy : (if fMoved then it.copy else it).vin = it.vin := by split <;> rfl
    rw [eraseSpent, List.map_cons, List.filter_cons, hcopy]
    cases hspent : isOutpointSpent it.vin.prevout <;> simp [ih, hcopy]

theorem eraseSpent_unspent {isOutpointSpent : COutPoint → Bool} {vMasternodes : List CMasternode}
    (h : ∀ outpoint ∈ vMasternodes.map (·.vin.prevout), isOutpointSpent outpoint = false) (fMoved : Bool) :
    (eraseSpent isOutpointSpent fMoved vMasternodes).2 = [] := by
  induction vMasternodes with
  | nil => rfl
  | cons it vMasternodes ih =>
    have hcopy : (if fMoved then it.copy else it).vin = it.vin := by split <;> rfl
    have hit : isOutpointSpent it.vin.prevout = false := h _ (by simp)
    rw [eraseSpent, hcopy, hit]
    exact ih fun outpoint hin => h outpoint (List.mem_cons_of_mem _ hin)

theorem eraseSpent_append {isOutpointSpent : COutPoint → Bool} {a : List CMasternode}
    (ha : ∀ mn ∈ a, isOutpointSpent mn.vin.prevout = false) (b : List CMasternode) :
    eraseSpent isOutpointSpent false (a ++ b) =
      (a ++ (eraseSpent isOutpointSpent false b).1, (eraseSpent isOutpointSpent false b).2) := by
  induction a with
  | nil => rfl
  | cons mn a ih =>
    have hmn : isOutpointSpent mn.vin.prevout = false := ha mn (by simp)
    simp [eraseSpent, hmn, ih fun x hx => ha x (List.mem_cons_of_mem _ hx)]

theorem outpoints_removeSpent (isOutpointSpent : COutPoint → Bool) :
    (m.removeSpent isOutpointSpent).outpoints = m.outpoints.filter fun outpoint => !isOutpointSpent outpoint :=
  eraseSpent_outpoints isOutpointSpent false m.vMasternodes

/-! ## What is numbered -/

theorem indexOf_eq_foldl (vMasternodes : List CMasternode) :
    indexOf vMasternodes = (vMasternodes.map (·.vin)).foldl CMasternodeIndex.addMasternodeVIN .empty := by
  rw [indexOf, List.foldl_map]

theorem indexOf_valid (vMasternodes : List CMasternode) : (indexOf vMasternodes).Valid := by
  rw [indexOf_eq_foldl]
  exact CMasternodeIndex.foldl_add_valid CMasternodeIndex.empty_valid _

theorem nSize_indexOf_le (vMasternodes : List CMasternode) : (indexOf vMasternodes).nSize ≤ vMasternodes.length := by
  rw [indexOf_eq_foldl]
  simpa [CMasternodeIndex.empty] using CMasternodeIndex.nSize_foldl_add_le (x := .empty) (vMasternodes.map (·.vin))

theorem indexOf_isSome {vMasternodes : List CMasternode} (h : mn ∈ vMasternodes) :
    (indexOf vMasternodes).mapIndex[mn.vin]?.isSome := by
  rw [indexOf_eq_foldl]
  exact CMasternodeIndex.mapIndex_foldl_add (List.mem_map.2 ⟨mn, h, rfl⟩)

end CMasternodeMan

end Zumy.Masternode
