/-
  Zumy.Main.InFlight — main.cpp: the blocks that are being downloaded, and from which peer.

  An iterator into a node's `vBlocksInFlight` is the address of its list node. A step is
  undefined where the source dereferences a null `State` or an iterator that is not in the
  list, and where an assertion fails.

  (1) `markBlockAsReceived_tracked`, `markBlockAsInFlight_tracked`, ..: one lemma per operation.
  (2) `blocks_tracked`: over any sequence of operations the containers and the counters
      agree, and nothing but a call for an unknown node is undefined.
-/
import Zumy.Lib.MapSum
import Zumy.Main.Orphans

namespace Zumy.Main

open Zumy.Lib

namespace InFlight

/-- `pindex` names the block's entry in the block index. -/
structure QueuedBlock where
  hash : Uint256
  pindex : Option Uint256
  fValidatedHeaders : Bool
  deriving DecidableEq

/-- A node of `vBlocksInFlight`; its number stands for its address. -/
structure ListNode where
  addr : Nat
  block : QueuedBlock
  deriving DecidableEq

structure CNodeState where
  fSyncStarted : Bool
  nStallingSince : Int
  vBlocksInFlight : List ListNode
  nDownloadingSince : Int
  nBlocksInFlight : Int
  nBlocksInFlightValidHeaders : Int
  fPreferredDownload : Bool

def CNodeState.new : CNodeState := ⟨false, 0, [], 0, 0, 0, false⟩

/-- What `UpdatePreferredDownload` reads of a `CNode`. -/
structure CNode where
  fInbound : Bool
  fWhitelisted : Bool
  fOneShot : Bool
  fClient : Bool

structure Nodes where
  mapNodeState : Map NodeId CNodeState
  mapBlocksInFlight : Map Uint256 (NodeId × Nat)
  nSyncStarted : Int
  nPreferredDownload : Int
  nPeersWithValidatedDownloads : Int
  orphans : Orphans.OrphanPool
  nextAddr : Nat

def Nodes.init : Nodes := ⟨∅, ∅, 0, 0, 0, .empty, 0⟩

def initializeNode (s : Nodes) (nodeid : NodeId) : Nodes := { s with mapNodeState := s.mapNodeState.insertIfNew nodeid .new }

def updatePreferredDownload (s : Nodes) (nodeid : NodeId) (node : CNode) : Option Nodes :=
  s.mapNodeState[nodeid]?.map fun state =>
    let fPreferredDownload := (!node.fInbound || node.fWhitelisted) && !node.fOneShot && !node.fClient
    { s with
      nPreferredDownload := s.nPreferredDownload - state.fPreferredDownload.toInt + fPreferredDownload.toInt
      mapNodeState := s.mapNodeState.insert nodeid { state with fPreferredDownload } }

/-- The part of `MarkBlockAsReceived` behind its two lookups: the node of `itInFlight` and the
    list entry that its iterator points to. -/
def dropBlock (s : Nodes) (nodeid : NodeId) (state : CNodeState) (it : ListNode) (hash : Uint256) (nNow : Int) : Nodes :=
  let nBlocksInFlightValidHeaders := state.nBlocksInFlightValidHeaders - it.block.fValidatedHeaders.toInt
  let first := state.vBlocksInFlight.head?.any (·.addr == it.addr)
  { s with
    nPeersWithValidatedDownloads :=
      if nBlocksInFlightValidHeaders == 0 && it.block.fValidatedHeaders then s.nPeersWithValidatedDownloads - 1
      else s.nPeersWithValidatedDownloads
    mapNodeState := s.mapNodeState.insert nodeid
      { state with
        nBlocksInFlightValidHeaders
        nDownloadingSince := if first then max state.nDownloadingSince nNow else state.nDownloadingSince
        vBlocksInFlight := state.vBlocksInFlight.filter (·.addr != it.addr)
        nBlocksInFlight := state.nBlocksInFlight - 1
        nStallingSince := 0 }
    mapBlocksInFlight := s.mapBlocksInFlight.erase hash }

/-- `nNow` is what `GetTimeMicros` answers. -/
def markBlockAsReceived (s : Nodes) (hash : Uint256) (nNow : Int) : Option (Bool × Nodes) :=
  match s.mapBlocksInFlight[hash]? with
  | none => some (false, s)
  | some itInFlight =>
    s.mapNodeState[itInFlight.1]?.bind fun state =>
    (state.vBlocksInFlight.find? (·.addr == itInFlight.2)).map fun it => (true, dropBlock s itInFlight.1 state it hash nNow)

/-- The part of `MarkBlockAsInFlight` behind `MarkBlockAsReceived`. -/
def queueBlock (s : Nodes) (nodeid : NodeId) (hash : Uint256) (pindex : Option Uint256) (nNow : Int)
    (state : CNodeState) : Nodes :=
  let newentry : QueuedBlock := ⟨hash, pindex, pindex.isSome⟩
  let nBlocksInFlight := state.nBlocksInFlight + 1
  let nBlocksInFlightValidHeaders := state.nBlocksInFlightValidHeaders + newentry.fValidatedHeaders.toInt
  { s with
    mapNodeState := s.mapNodeState.insert nodeid
      { state with
        vBlocksInFlight := state.vBlocksInFlight ++ [⟨s.nextAddr, newentry⟩]
        nBlocksInFlight
        nBlocksInFlightValidHeaders
        nDownloadingSince := if nBlocksInFlight = 1 then nNow else state.nDownloadingSince }
    nPeersWithValidatedDownloads :=
      if nBlocksInFlightValidHeaders == 1 && pindex.isSome then s.nPeersWithValidatedDownloads + 1 else s.nPeersWithValidatedDownloads
    mapBlocksInFlight := s.mapBlocksInFlight.insert hash (nodeid, s.nextAddr)
    nextAddr := s.nextAddr + 1 }

/-- `nReceived` and `nNow` are the two answers of `GetTimeMicros`. -/
def markBlockAsInFlight (s : Nodes) (nodeid : NodeId) (hash : Uint256) (pindex : Option Uint256) (nReceived nNow : Int) :
    Option Nodes :=
  if s.mapNodeState.contains nodeid then
    (markBlockAsReceived s hash nReceived).bind fun received =>
    received.2.mapNodeState[nodeid]?.map fun state => queueBlock received.2 nodeid hash pindex nNow state
  else none

def CNodeState.downloads (state : CNodeState) : Int := (state.nBlocksInFlightValidHeaders != 0).toInt

/-- The part of `FinalizeNode` behind its lookup, up to the erased entry of `mapNodeState`. -/
def forgetNode (s : Nodes) (nodeid : NodeId) (state : CNodeState) : Nodes :=
  { s with
    nSyncStarted := s.nSyncStarted - state.fSyncStarted.toInt
    mapBlocksInFlight := state.vBlocksInFlight.foldl (fun m entry => m.erase entry.block.hash) s.mapBlocksInFlight
    orphans := Orphans.eraseOrphansFor s.orphans nodeid
    nPreferredDownload := s.nPreferredDownload - state.fPreferredDownload.toInt
    nPeersWithValidatedDownloads := s.nPeersWithValidatedDownloads - state.downloads
    mapNodeState := s.mapNodeState.erase nodeid }

/-- The assertions of `FinalizeNode`. -/
def finalizeAsserts (s : Nodes) : Bool :=
  0 ≤ s.nPeersWithValidatedDownloads &&
    (!s.mapNodeState.isEmpty || (s.mapBlocksInFlight.isEmpty && s.nPreferredDownload == 0 && s.nPeersWithValidatedDownloads == 0))

def finalizeNode (s : Nodes) (nodeid : NodeId) : Option Nodes :=
  s.mapNodeState[nodeid]?.bind fun state =>
    if finalizeAsserts (forgetNode s nodeid state) then some (forgetNode s nodeid state) else none

/-! ## The containers and the counters -/

def CNodeState.validated (state : CNodeState) : Nat := state.vBlocksInFlight.countP (·.block.fValidatedHeaders)

structure CNodeState.Counted (state : CNodeState) (nextAddr : Nat) : Prop where
  fresh : ∀ entry ∈ state.vBlocksInFlight, entry.addr < nextAddr
  distinct : (state.vBlocksInFlight.map ListNode.addr).Nodup
  count : state.nBlocksInFlight = state.vBlocksInFlight.length
  valid : state.nBlocksInFlightValidHeaders = state.validated

structure Tracked (s : Nodes) : Prop where
  counted : ∀ (nodeid : NodeId) (state : CNodeState), s.mapNodeState[nodeid]? = some state → state.Counted s.nextAddr
  /-- Every entry of the map is an iterator to an entry of its node's list, with its hash. -/
  listed : ∀ (hash : Uint256) (nodeid : NodeId) (it : Nat), s.mapBlocksInFlight[hash]? = some (nodeid, it) →
    ∃ state, s.mapNodeState[nodeid]? = some state ∧ ∃ entry ∈ state.vBlocksInFlight, entry.addr = it ∧ entry.block.hash = hash
  /-- Every entry of every list is in the map. -/
  mapped : ∀ (nodeid : NodeId) (state : CNodeState), s.mapNodeState[nodeid]? = some state →
    ∀ entry ∈ state.vBlocksInFlight, s.mapBlocksInFlight[entry.block.hash]? = some (nodeid, entry.addr)
  preferred : s.nPreferredDownload = mapSum (fun _ state => state.fPreferredDownload.toInt) s.mapNodeState
  peers : s.nPeersWithValidatedDownloads = mapSum (fun _ state => state.downloads) s.mapNodeState

variable {s s' : Nodes} {nodeid : NodeId} {state : CNodeState} {it : ListNode} {hash : Uint256}

theorem tracked_init : Tracked .init where
  counted nodeid state h := by simp [Nodes.init] at h
  listed hash nodeid it h := by simp [Nodes.init] at h
  mapped nodeid state h := by simp [Nodes.init] at h
  preferred := rfl
  peers := rfl

theorem Tracked.find (hs : Tracked s) {it : Nat} (h : s.mapBlocksInFlight[hash]? = some (nodeid, it)) :
    ∃ state entry, s.mapNodeState[nodeid]? = some state ∧ entry ∈ state.vBlocksInFlight ∧ entry.block.hash = hash ∧
      entry.addr = it ∧
      state.vBlocksInFlight.find? (·.addr == it) = some entry := by
  obtain ⟨state, hstate, entry, hentry, rfl, hhash⟩ := hs.listed hash nodeid it h
  refine ⟨state, entry, hstate, hentry, hhash, rfl, ?_⟩
  cases hfind : state.vBlocksInFlight.find? (·.addr == entry.addr) with
  | none => exact absurd (beq_self_eq_true entry.addr) (List.find?_eq_none.1 hfind entry hentry)
  | some other =>
    have haddr : (other.addr == entry.addr) = true := by simpa using List.find?_some hfind
    have hsame := List.inj_on_of_nodup_map (hs.counted nodeid state hstate).distinct (List.mem_of_find?_eq_some hfind) hentry
      (beq_iff_eq.1 haddr)
    rw [hsame]

theorem CNodeState.Counted.drop {nextAddr : Nat} (h : state.Counted nextAddr) (hit : it ∈ state.vBlocksInFlight) :
    state.vBlocksInFlight.Perm (it :: state.vBlocksInFlight.filter (·.addr != it.addr)) := by
  have hnodup : state.vBlocksInFlight.Nodup := .of_map _ h.distinct
  rw [List.perm_ext_iff_of_nodup hnodup]
  · intro entry
    simp only [List.mem_cons, List.mem_filter, bne_iff_ne]
    constructor
    · intro hentry
      by_cases haddr : entry.addr = it.addr
      · exact .inl (List.inj_on_of_nodup_map h.distinct hentry hit haddr)
      · exact .inr ⟨hentry, haddr⟩
    · intro h
      rcases h with heq | ⟨hentry, -⟩
      · exact heq ▸ hit
      · exact hentry
  · refine List.nodup_cons.2 ⟨?_, hnodup.filter _⟩
    simp

theorem toInt_eq (b : Bool) : b.toInt = if b then 1 else 0 := by
  cases b <;> rfl

theorem dropBlock_tracked (hs : Tracked s) (hstate : s.mapNodeState[nodeid]? = some state) (hit : it ∈ state.vBlocksInFlight)
    (nNow : Int) :
    Tracked (dropBlock s nodeid state it it.block.hash nNow) := by
  have hcounted := hs.counted nodeid state hstate
  have hperm := hcounted.drop hit
  have hother {id : NodeId} {st : CNodeState} (hst : s.mapNodeState[id]? = some st) {entry : ListNode}
      (hentry : entry ∈ st.vBlocksInFlight) (hhash : entry.block.hash = it.block.hash) : id = nodeid ∧ entry.addr = it.addr := by
    have h := hs.mapped id st hst entry hentry
    rw [hhash, hs.mapped nodeid state hstate it hit, Option.some.injEq, Prod.mk.injEq] at h
    exact ⟨h.1.symm, h.2.symm⟩
  constructor
  · intro id st hst
    simp only [dropBlock, lookup_insert] at hst
    split at hst
    · cases hst
      refine ⟨?_, hcounted.distinct.sublist (List.filter_sublist.map _), ?_, ?_⟩
      · exact fun entry hentry => hcounted.fresh entry (List.mem_of_mem_filter hentry)
      · have hlength := hperm.length_eq
        rw [List.length_cons] at hlength
        simp only [hcounted.count]
        omega
      · have hvalid := hperm.countP_eq (·.block.fValidatedHeaders)
        rw [List.countP_cons] at hvalid
        simp only [hcounted.valid, CNodeState.validated, toInt_eq, hvalid]
        split <;> omega
    · exact hs.counted id st hst
  · intro h id addr hmap
    simp only [dropBlock, lookup_erase] at hmap
    split at hmap
    · cases hmap
    · next hne =>
      obtain ⟨st, hst, entry, hentry, haddr, hhash⟩ := hs.listed h id addr hmap
      simp only [dropBlock, lookup_insert]
      split
      · next hid =>
        rw [hid, hstate] at hst
        cases hst
        refine ⟨_, rfl, entry, List.mem_filter.2 ⟨hentry, ?_⟩, haddr, hhash⟩
        rw [bne_iff_ne]
        intro haddr'
        rw [List.inj_on_of_nodup_map hcounted.distinct hentry hit haddr'] at hhash
        exact hne hhash.symm
      · exact ⟨st, hst, entry, hentry, haddr, hhash⟩
  · intro id st hst entry hentry
    simp only [dropBlock, lookup_insert] at hst
    simp only [dropBlock, lookup_erase]
    split at hst
    · next hid =>
      cases hst
      obtain ⟨hentry, haddr⟩ := List.mem_filter.1 hentry
      rw [if_neg, hid]
      · exact hs.mapped nodeid state hstate entry hentry
      · intro hhash
        exact bne_iff_ne.1 haddr (hother hstate hentry hhash).2
    · next hid =>
      rw [if_neg]
      · exact hs.mapped id st hst entry hentry
      · intro hhash
        exact hid (hother hst hentry hhash).1
  · simp only [dropBlock]
    rw [hs.preferred, mapSum_insert, mapSum_erase _ hstate]
  · simp only [dropBlock]
    rw [mapSum_insert, hs.peers, mapSum_erase _ hstate]
    simp only [CNodeState.downloads, toInt_eq]
    have hvalid := hperm.countP_eq (·.block.fValidatedHeaders)
    rw [List.countP_cons] at hvalid
    have hcount := hcounted.valid
    simp only [CNodeState.validated, hvalid] at hcount
    cases hheaders : it.block.fValidatedHeaders with
    | false => simp
    | true =>
      simp only [hheaders, if_true, Bool.and_true, beq_iff_eq, bne_iff_ne, ne_eq, ite_not] at hcount ⊢
      split <;> split <;> omega

/-- `MarkBlockAsReceived` is defined, and the block is not in flight behind it. -/
theorem markBlockAsReceived_tracked (hs : Tracked s) (hash : Uint256) (nNow : Int) :
    ∃ done s', markBlockAsReceived s hash nNow = some (done, s') ∧ Tracked s' ∧ s'.mapBlocksInFlight[hash]? = none ∧
      ∀ nodeid, s'.mapNodeState.contains nodeid = s.mapNodeState.contains nodeid := by
  unfold markBlockAsReceived
  cases hmap : s.mapBlocksInFlight[hash]? with
  | none => exact ⟨false, s, rfl, hs, hmap, fun _ => rfl⟩
  | some itInFlight =>
    obtain ⟨nodeid, addr⟩ := itInFlight
    obtain ⟨state, it, hstate, hit, rfl, rfl, hfind⟩ := hs.find hmap
    simp only [hstate, Option.bind_some, hfind, Option.map_some]
    refine ⟨true, _, rfl, dropBlock_tracked hs hstate hit nNow, ?_, ?_⟩
    · simp [dropBlock]
    · intro id
      have hin : s.mapNodeState.contains nodeid = true := contains_iff.2 ⟨state, hstate⟩
      by_cases hid : nodeid = id
      · subst hid
        simp [dropBlock, hin]
      · simp [dropBlock, hid]

theorem queueBlock_tracked (hs : Tracked s) (hstate : s.mapNodeState[nodeid]? = some state)
    (hnew : s.mapBlocksInFlight[hash]? = none)
    (pindex : Option Uint256) (nNow : Int) : Tracked (queueBlock s nodeid hash pindex nNow state) := by
  have hcounted := hs.counted nodeid state hstate
  have hother {id : NodeId} {st : CNodeState} (hst : s.mapNodeState[id]? = some st) {entry : ListNode}
      (hentry : entry ∈ st.vBlocksInFlight) : entry.block.hash ≠ hash := by
    intro heq
    have h := hs.mapped id st hst entry hentry
    rw [heq, hnew] at h
    cases h
  constructor
  · intro id st hst
    simp only [queueBlock, lookup_insert] at hst
    split at hst
    · cases hst
      refine ⟨?_, ?_, ?_, ?_⟩
      · intro entry hentry
        rcases List.mem_append.1 hentry with hentry | hentry
        · exact Nat.lt_succ_of_lt (hcounted.fresh entry hentry)
        · rw [List.mem_singleton.1 hentry]
          exact Nat.lt_succ_self _
      · rw [List.map_append, List.map_singleton, ← List.concat_eq_append, List.nodup_concat]
        refine ⟨?_, hcounted.distinct⟩
        intro hin
        obtain ⟨entry, hentry, haddr⟩ := List.mem_map.1 hin
        exact absurd (hcounted.fresh entry hentry) (by rw [haddr]; exact Nat.lt_irrefl _)
      · simp [hcounted.count]
      · simp only [hcounted.valid, CNodeState.validated, List.countP_append, List.countP_singleton, toInt_eq]
        split <;> omega
    · have h := hs.counted id st hst
      exact ⟨fun entry hentry => Nat.lt_succ_of_lt (h.fresh entry hentry), h.distinct, h.count, h.valid⟩
  · intro h id addr hmap
    simp only [queueBlock, lookup_insert] at hmap ⊢
    split at hmap
    · next heq =>
      cases hmap
      rw [if_pos rfl]
      exact ⟨_, rfl, _, List.mem_append_right _ (List.mem_singleton_self _), rfl, heq.symm⟩
    · obtain ⟨st, hst, entry, hentry, haddr, hhash⟩ := hs.listed h id addr hmap
      split
      · next hid =>
        rw [hid, hstate] at hst
        cases hst
        exact ⟨_, rfl, entry, List.mem_append_left _ hentry, haddr, hhash⟩
      · exact ⟨st, hst, entry, hentry, haddr, hhash⟩
  · intro id st hst entry hentry
    simp only [queueBlock, lookup_insert] at hst ⊢
    split at hst
    · next hid =>
      cases hst
      rcases List.mem_append.1 hentry with hentry | hentry
      · rw [if_neg (hother hstate hentry), hid]
        exact hs.mapped nodeid state hstate entry hentry
      · rw [List.mem_singleton.1 hentry, if_pos rfl, hid]
    · rw [if_neg (hother hst hentry)]
      exact hs.mapped id st hst entry hentry
  · simp only [queueBlock]
    rw [hs.preferred, mapSum_insert, mapSum_erase _ hstate]
  · simp only [queueBlock]
    rw [mapSum_insert, hs.peers, mapSum_erase _ hstate]
    have hcount := hcounted.valid
    simp only [CNodeState.downloads, toInt_eq]
    cases pindex with
    | none => simp
    | some pindex =>
      simp only [Option.isSome_some, Bool.and_true, if_true, beq_iff_eq, bne_iff_ne, ne_eq, ite_not]
      split <;> split <;> split <;> omega

theorem markBlockAsInFlight_tracked (hs : Tracked s) (hash : Uint256) (pindex : Option Uint256) (nReceived nNow : Int)
    (hknown : s.mapNodeState.contains nodeid = true) :
    ∃ s', markBlockAsInFlight s nodeid hash pindex nReceived nNow = some s' ∧ Tracked s' := by
  obtain ⟨done, t, ht, htracked, hnew, hnodes⟩ := markBlockAsReceived_tracked hs hash nReceived
  rw [← hnodes] at hknown
  obtain ⟨state, hstate⟩ := contains_iff.1 hknown
  rw [hnodes] at hknown
  refine ⟨_, ?_, queueBlock_tracked htracked hstate hnew pindex nNow⟩
  rw [markBlockAsInFlight, if_pos hknown, ht, Option.bind_some, hstate, Option.map_some]

theorem forgetNode_tracked (hs : Tracked s) (hstate : s.mapNodeState[nodeid]? = some state) :
    Tracked (forgetNode s nodeid state) := by
  have hmap (hash : Uint256) (id : NodeId) (it : Nat) :
      (forgetNode s nodeid state).mapBlocksInFlight[hash]? = some (id, it) ↔ id ≠ nodeid ∧
        s.mapBlocksInFlight[hash]? = some (id, it) := by
    simp only [forgetNode]
    rw [← List.foldl_map (f := fun entry : ListNode => entry.block.hash) (g := fun (m : Map Uint256 (NodeId × Nat)) h => m.erase h),
      lookup_foldl_erase]
    constructor
    · intro h
      split at h
      · cases h
      · next hnot =>
        refine ⟨?_, h⟩
        intro hid
        obtain ⟨st, hst, entry, hentry, -, hhash⟩ := hs.listed hash id it h
        rw [hid, hstate] at hst
        cases hst
        exact hnot (List.mem_map.2 ⟨entry, hentry, hhash⟩)
    · intro h
      rw [if_neg, h.2]
      intro hin
      obtain ⟨entry, hentry, heq⟩ := List.mem_map.1 hin
      have hother := hs.mapped nodeid state hstate entry hentry
      rw [heq, h.2] at hother
      exact h.1 (Prod.mk.inj (Option.some.inj hother)).1
  have hnode {id : NodeId} {st : CNodeState} (h : (forgetNode s nodeid state).mapNodeState[id]? = some st) :
      id ≠ nodeid ∧ s.mapNodeState[id]? = some st := by
    simp only [forgetNode, lookup_erase] at h
    split at h
    · cases h
    · next hid => exact ⟨hid, h⟩
  constructor
  · exact fun id st hst => hs.counted id st (hnode hst).2
  · intro hash id it h
    obtain ⟨hid, h⟩ := (hmap hash id it).1 h
    obtain ⟨st, hst, hentry⟩ := hs.listed hash id it h
    refine ⟨st, ?_, hentry⟩
    simp only [forgetNode, lookup_erase, if_neg hid]
    exact hst
  · intro id st hst entry hentry
    exact (hmap _ _ _).2 ⟨(hnode hst).1, hs.mapped id st (hnode hst).2 entry hentry⟩
  · simp only [forgetNode]
    rw [hs.preferred, mapSum_erase _ hstate, add_sub_cancel_left]
  · simp only [forgetNode]
    rw [hs.peers, mapSum_erase _ hstate, add_sub_cancel_left]

theorem Tracked.peers_nonneg (hs : Tracked s) : 0 ≤ s.nPeersWithValidatedDownloads := by
  rw [hs.peers]
  apply List.sum_nonneg
  intro n hn
  obtain ⟨kv, -, rfl⟩ := List.mem_map.1 hn
  simp only [CNodeState.downloads, toInt_eq]
  split <;> decide

theorem Tracked.asserts (hs : Tracked s) : finalizeAsserts s = true := by
  have hpeers := hs.peers
  have hpreferred := hs.preferred
  simp only [finalizeAsserts, Bool.and_eq_true, Bool.or_eq_true, Bool.not_eq_true', beq_iff_eq, decide_eq_true_eq]
  refine ⟨hs.peers_nonneg, ?_⟩
  cases hempty : s.mapNodeState.isEmpty with
  | false => exact .inl rfl
  | true =>
    have hlist : s.mapNodeState.toList = [] := by
      rw [← List.isEmpty_iff, Std.TreeMap.isEmpty_toList, hempty]
    simp only [mapSum, hlist, List.map_nil, List.sum_nil] at hpeers hpreferred
    refine .inr ⟨⟨?_, hpreferred⟩, hpeers⟩
    rw [Std.TreeMap.isEmpty_iff_forall_not_mem]
    intro hash hmem
    obtain ⟨itInFlight, h⟩ := contains_iff.1 (Std.TreeMap.contains_iff_mem.2 hmem)
    obtain ⟨state, hstate, -⟩ := hs.listed hash itInFlight.1 itInFlight.2 h
    exact Std.TreeMap.isEmpty_iff_forall_not_mem.1 hempty _ (Std.TreeMap.contains_iff_mem.1 (contains_iff.2 ⟨state, hstate⟩))

theorem finalizeNode_tracked (hs : Tracked s) (hstate : s.mapNodeState[nodeid]? = some state) :
    finalizeNode s nodeid = some (forgetNode s nodeid state) ∧ Tracked (forgetNode s nodeid state) := by
  have htracked := forgetNode_tracked hs hstate
  refine ⟨?_, htracked⟩
  rw [finalizeNode, hstate, Option.bind_some, if_pos htracked.asserts]

theorem initializeNode_tracked (hs : Tracked s) (nodeid : NodeId) : Tracked (initializeNode s nodeid) := by
  cases hstate : s.mapNodeState[nodeid]? with
  | some state =>
    have heq : initializeNode s nodeid = s := by
      rw [initializeNode, insertIfNew_eq_self _ (contains_iff.2 ⟨state, hstate⟩)]
    rw [heq]
    exact hs
  | none =>
    have hnode {id : NodeId} {st : CNodeState} (h : (initializeNode s nodeid).mapNodeState[id]? = some st) :
        st = .new ∨ s.mapNodeState[id]? = some st := by
      simp only [initializeNode, lookup_insertIfNew] at h
      split at h
      · exact .inl (Option.some.inj h).symm
      · exact .inr h
    have hsum (f : CNodeState → Int) (hf : f .new = 0) :
        mapSum (fun _ st => f st) (initializeNode s nodeid).mapNodeState = mapSum (fun _ st => f st) s.mapNodeState := by
      rw [initializeNode, mapSum_insertIfNew _ hstate, hf, Int.zero_add]
    constructor
    · intro id st hst
      rcases hnode hst with rfl | hst
      · exact ⟨nofun, .nil, rfl, rfl⟩
      · exact hs.counted id st hst
    · intro hash id it h
      obtain ⟨st, hst, hentry⟩ := hs.listed hash id it h
      refine ⟨st, ?_, hentry⟩
      simp only [initializeNode, lookup_insertIfNew]
      rw [if_neg]
      · exact hst
      · intro hboth
        rw [hboth.1, hstate] at hst
        cases hst
    · intro id st hst entry hentry
      rcases hnode hst with rfl | hst
      · cases hentry
      · exact hs.mapped id st hst entry hentry
    · rw [hsum (fun st => st.fPreferredDownload.toInt) rfl]
      exact hs.preferred
    · rw [hsum (fun st => st.downloads) rfl]
      exact hs.peers

theorem updatePreferredDownload_tracked (hs : Tracked s) (hstate : s.mapNodeState[nodeid]? = some state) (node : CNode) :
    ∃ s', updatePreferredDownload s nodeid node = some s' ∧ Tracked s' := by
  rw [updatePreferredDownload, hstate, Option.map_some]
  refine ⟨_, rfl, ?_⟩
  constructor
  · intro id st hst
    simp only [lookup_insert] at hst
    split at hst
    · cases hst
      have h := hs.counted nodeid state hstate
      exact ⟨h.fresh, h.distinct, h.count, h.valid⟩
    · exact hs.counted id st hst
  · intro hash id it h
    obtain ⟨st, hst, hentry⟩ := hs.listed hash id it h
    simp only [lookup_insert]
    split
    · next hid =>
      rw [hid, hstate] at hst
      cases hst
      exact ⟨_, rfl, hentry⟩
    · exact ⟨st, hst, hentry⟩
  · intro id st hst entry hentry
    simp only [lookup_insert] at hst
    split at hst
    · next hid =>
      cases hst
      rw [hid]
      exact hs.mapped nodeid state hstate entry hentry
    · exact hs.mapped id st hst entry hentry
  · dsimp only
    rw [mapSum_insert, hs.preferred, mapSum_erase _ hstate, add_sub_cancel_left, Int.add_comm]
  · simp only
    rw [mapSum_insert, hs.peers, mapSum_erase _ hstate]
    rfl

/-! ## Sequences of operations -/

inductive Op
  | initNode (nodeid : NodeId)
  | updatePreferred (nodeid : NodeId) (node : CNode)
  | inFlight (nodeid : NodeId) (hash : Uint256) (pindex : Option Uint256) (nReceived nNow : Int)
  | received (hash : Uint256) (nNow : Int)
  | finalize (nodeid : NodeId)

/-- Undefined where a null pointer or a stale iterator is dereferenced or an assertion fails. -/
def step (s : Nodes) : Op → Option Nodes
  | .initNode nodeid => some (initializeNode s nodeid)
  | .updatePreferred nodeid node => updatePreferredDownload s nodeid node
  | .inFlight nodeid hash pindex nReceived nNow => markBlockAsInFlight s nodeid hash pindex nReceived nNow
  | .received hash nNow => (markBlockAsReceived s hash nNow).map (·.2)
  | .finalize nodeid => finalizeNode s nodeid

def Known (s : Nodes) : Op → Prop
  | .updatePreferred nodeid _ | .inFlight nodeid _ _ _ _ | .finalize nodeid => s.mapNodeState.contains nodeid = true
  | .initNode _ | .received _ _ => True

theorem step_isSome_iff (hs : Tracked s) (op : Op) : (step s op).isSome ↔ Known s op := by
  have hunknown {nodeid : NodeId} (h : ¬ s.mapNodeState.contains nodeid = true) : s.mapNodeState[nodeid]? = none :=
    contains_eq_false_iff.1 (Bool.eq_false_iff.2 h)
  cases op with
  | initNode nodeid => simp [step, Known]
  | received hash nNow =>
    obtain ⟨done, s', h, -⟩ := markBlockAsReceived_tracked hs hash nNow
    simp [step, Known, h]
  | updatePreferred nodeid node =>
    by_cases h : s.mapNodeState.contains nodeid = true
    · obtain ⟨state, hstate⟩ := contains_iff.1 h
      simp [step, Known, h, updatePreferredDownload, hstate]
    · simp [step, Known, h, updatePreferredDownload, hunknown h]
  | inFlight nodeid hash pindex nReceived nNow =>
    by_cases h : s.mapNodeState.contains nodeid = true
    · obtain ⟨s', hstep, -⟩ := markBlockAsInFlight_tracked hs hash pindex nReceived nNow h
      simp [step, Known, h, hstep]
    · simp [step, Known, h, markBlockAsInFlight]
  | finalize nodeid =>
    by_cases h : s.mapNodeState.contains nodeid = true
    · obtain ⟨state, hstate⟩ := contains_iff.1 h
      simp [step, Known, h, (finalizeNode_tracked hs hstate).1]
    · simp [step, Known, h, finalizeNode, hunknown h]

theorem step_tracked (hs : Tracked s) {op : Op} (hknown : Known s op) (hstep : step s op = some s') : Tracked s' := by
  cases op with
  | initNode nodeid =>
    cases hstep
    exact initializeNode_tracked hs nodeid
  | received hash nNow =>
    obtain ⟨done, t, h, ht, -⟩ := markBlockAsReceived_tracked hs hash nNow
    simp only [step, h, Option.map_some] at hstep
    cases hstep
    exact ht
  | updatePreferred nodeid node =>
    obtain ⟨state, hstate⟩ := contains_iff.1 hknown
    obtain ⟨t, h, ht⟩ := updatePreferredDownload_tracked hs hstate node
    cases h.symm.trans hstep
    exact ht
  | inFlight nodeid hash pindex nReceived nNow =>
    obtain ⟨t, h, ht⟩ := markBlockAsInFlight_tracked hs hash pindex nReceived nNow hknown
    cases h.symm.trans hstep
    exact ht
  | finalize nodeid =>
    obtain ⟨state, hstate⟩ := contains_iff.1 hknown
    obtain ⟨h, ht⟩ := finalizeNode_tracked hs hstate
    cases h.symm.trans hstep
    exact ht

def nQueuedValidatedHeaders (s : Nodes) : Int := mapSum (fun _ state => state.nBlocksInFlightValidHeaders) s.mapNodeState

/-- That sum is the number of entries with validated headers in all the lists. -/
theorem Tracked.queued (hs : Tracked s) :
    nQueuedValidatedHeaders s = mapSum (fun _ state => (state.validated : Int)) s.mapNodeState :=
  mapSum_congr _ fun nodeid state hstate => (hs.counted nodeid state hstate).valid

/-- Over any sequence of operations the map of blocks in flight, the lists and the counters
    agree, and a step is undefined (a failed assertion included) only where its operation
    names an unknown node. -/
theorem blocks_tracked (ops : List Op) :
    Along step (fun _ _ s' => Tracked s' ∧ nQueuedValidatedHeaders s' = mapSum (fun _ state => (state.validated : Int)) s'.mapNodeState)
      .init ops ∧ ((run step .init ops).isSome ↔ Meets step Known .init ops) := by
  apply along_and_isSome_iff_meets Tracked (fun s op hs => step_isSome_iff hs op) ?_ tracked_init
  intro s op s' hs hknown hstep
  have htracked := step_tracked hs hknown hstep
  exact ⟨htracked, htracked, htracked.queued⟩

end InFlight

end Zumy.Main
