/-
  Zumy.Governance.Restart — a node that stops and starts, and runs of such a node.

  The masternode list and the governance objects are written to mncache.dat and
  governance.dat. What the node reads back is without the fields that are not serialized;
  `mapVoteToObject` is one of them, and `RebuildIndexes` makes it anew.

  An `IndexedNode` also has the keys that the full `mapVoteToObject` evicted: a ghost.
-/
import Zumy.Governance.Manager

namespace Zumy.Governance

open Lib Container Masternode

/-! ## The files -/

/-- `CMasternodeIndex::RebuildIndex`, after its map was read. -/
def rebuildIndex (x : CMasternodeIndex) : CMasternodeIndex :=
  ⟨x.mapIndex.size, x.mapIndex, x.mapIndex.toList.foldl (fun m it => m.insert it.2 it.1) ∅⟩

def readMasternodes (m : CMasternodeMan) : CMasternodeMan :=
  { CMasternodeMan.init with
    vMasternodes := m.vMasternodes
    indexMasternodes := rebuildIndex m.indexMasternodes }

section

variable (voteHash : CGovernanceVote → Uint256)

/-- `CGovernanceObjectVoteFile::RebuildIndex` -/
def rebuildFile (f : CGovernanceObjectVoteFile) : CGovernanceObjectVoteFile :=
  ⟨f.listVotes, f.listVotes.foldl (fun m vote => m.insert (voteHash vote) vote) ∅⟩

/-- An object as governance.dat keeps it: its flags are those of a new object, and it waits
    for no masternode. -/
def readObject (o : CGovernanceObject) : CGovernanceObject :=
  { CGovernanceObject.received o.hash o.nObjectType o.nTime o.vinMasternode o.vchSig o.fUnparsable with
    nDeletionTime := o.nDeletionTime
    fExpired := o.fExpired
    mapCurrentMNVotes := o.mapCurrentMNVotes
    fileVotes := rebuildFile voteHash o.fileVotes }

def readGovernance (g : CGovernanceManager) : CGovernanceManager :=
  { CGovernanceManager.init with
    mapSeenGovernanceObjects := g.mapSeenGovernanceObjects
    mapInvalidVotes := g.mapInvalidVotes
    mapOrphanVotes := g.mapOrphanVotes
    mapObjects := g.mapObjects.map fun _ o => readObject voteHash o
    mapWatchdogObjects := g.mapWatchdogObjects
    nHashWatchdogCurrent := g.nHashWatchdogCurrent
    nTimeWatchdogCurrent := g.nTimeWatchdogCurrent }

/-- The votes of the stored objects with their objects, in the order `RebuildIndexes` has them. -/
def voteRefs (g : CGovernanceManager) : List (Uint256 × Uint256) :=
  g.mapObjects.toList.flatMap fun it => it.2.fileVotes.listVotes.map fun vote => (voteHash vote, it.1)

/-- `RebuildIndexes`, with the keys it evicts. -/
def rebuildIndexes (g : CGovernanceManager) : CGovernanceManager × List Uint256 :=
  let r := g.mapVoteToObject.clear.insertAll [] (voteRefs voteHash g)
  ({ g with mapVoteToObject := r.1 }, r.2)

/-- What the node reads when it starts: without masternodes it reads no governance.dat. What
    is read of it is cleaned, and `InitOnLoad` ends with the index. -/
def load (env : Env) (s : Node) (fMncacheRead fGovernanceRead : Bool) : Node :=
  let mnodeman := if fMncacheRead then readMasternodes s.mnodeman else .init
  if mnodeman.vMasternodes.isEmpty || !fGovernanceRead then ⟨.init, mnodeman, s.log⟩
  else updateCachesAndClean voteHash env ⟨readGovernance voteHash s.governance, mnodeman, s.log⟩

/-! ## Runs with restarts -/

/-- A node and the keys of `mapVoteToObject` that an insertion into the full map evicted. -/
structure IndexedNode where
  node : Node
  evicted : List Uint256

def IndexedNode.init : IndexedNode := ⟨.init, []⟩

inductive NodeEvent where
  | event (e : Event)
  /-- The node stops, and starts with the files it wrote, or without one it cannot read. -/
  | restart (fMncacheRead fGovernanceRead : Bool)

/-- The evicted keys after `CGovernanceManager::ProcessVote`. -/
def evictedByVote (env : Env) (s : Node) (vote : CGovernanceVote) (evicted : List Uint256) : List Uint256 :=
  match (processVote voteHash env s vote).1 with
  | .ok () => s.governance.mapVoteToObject.evictedBy (voteHash vote) evicted
  | .error _ => evicted

def evictedByEvent (env : Env) (s : Node) (evicted : List Uint256) : Event → List Uint256
  | .governanceObjectVote nVersion vote =>
    if env.ignoresMessages nVersion || !s.governance.setRequestedVotes.contains (voteHash vote) then evicted
    else evictedByVote voteHash env (takeVoteRequest s (voteHash vote)) vote evicted
  | .ownVote vote => evictedByVote voteHash env s vote evicted
  | _ => evicted

def nextIndexed (s : IndexedNode) (ev : Env × NodeEvent) : IndexedNode :=
  match ev.2 with
  | .event e => ⟨next voteHash s.node (ev.1, e), evictedByEvent voteHash ev.1 s.node s.evicted e⟩
  | .restart fMncacheRead fGovernanceRead =>
    let s := load voteHash ev.1 s.node fMncacheRead fGovernanceRead
    let r := rebuildIndexes voteHash s.governance
    ⟨s.withGovernance r.1, r.2⟩

def stepIndexed (s : IndexedNode) (ev : Env × NodeEvent) : Option IndexedNode := some (nextIndexed voteHash s ev)

end

end Zumy.Governance
