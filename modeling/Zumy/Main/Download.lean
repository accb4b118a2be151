/-
  Zumy.Main.Download — main.cpp: the blocks a peer is asked for (`LastCommonAncestor`,
  `ProcessBlockAvailability`, `UpdateBlockAvailability`, `FindNextBlocksToDownload`).

  An entry of the block index is known by the hash of its block. `none` as a result: a null
  pointer is followed, or an assertion fails. `vBlocks` is empty where `SendMessages` hands
  it over.

  (1) `lastCommonAncestor_eq`: two walks abreast end at the highest common ancestor.
  (2) `visitAll_spec`: a walk over a branch takes the first blocks that are wanted, up to an
      invalid one.
  (3) `loop_batchTurn`: the batches are one such walk, whatever their sizes.
  (4) `nextBlocks`, `SyncInv.find`: what is found, in terms of the tree and the window.
  (5) `Reached.inv`: the state of a node is always one on which all of this holds.

  A block that is stored moves the last common block on, also past one that is missing: the
  blocks that are found lie behind the one the walk starts at.
-/
import Zumy.BlockIndex.Chain
import Zumy.Main.InFlight

namespace Zumy.Main

namespace Download

open Zumy.Lib Zumy.BlockIndex Zumy.BlockIndex.Skip

def blockDownloadWindow : Int := 1536

structure BlockData where
  nChainWork : Nat
  nStatus : BlockStatus
  nChainTx : Nat

def BlockData.isValid (nUpTo : Nat) (d : BlockData) : Bool := !d.nStatus.failed && decide (nUpTo ≤ d.nStatus.valid)

structure CNodeState where
  pindexBestKnownBlock : Option BlockPtr
  hashLastUnknownBlock : Uint256
  pindexLastCommonBlock : Option BlockPtr

def CNodeState.new : CNodeState := ⟨none, 0, none⟩

structure SyncState where
  mapBlockIndex : BlockMap
  data : BlockPtr → BlockData
  chainActive : CChain
  mapBlocksInFlight : Map Uint256 (NodeId × Nat)
  mapNodeState : Map NodeId CNodeState

/-! ## What a peer has -/

def SyncState.hasWork (s : SyncState) (hash : Uint256) : Bool :=
  (s.mapBlockIndex hash).isSome && decide ((s.data hash).nChainWork > 0)

def SyncState.betterBlock (s : SyncState) (pindexBestKnownBlock : Option BlockPtr) (it : BlockPtr) : Option BlockPtr :=
  match pindexBestKnownBlock with
  | none => some it
  | some best => if (s.data it).nChainWork ≥ (s.data best).nChainWork then some it else some best

def processBlockAvailability (s : SyncState) (state : CNodeState) : CNodeState :=
  if state.hashLastUnknownBlock ≠ 0 ∧ s.hasWork state.hashLastUnknownBlock then
    { state with
      pindexBestKnownBlock := s.betterBlock state.pindexBestKnownBlock state.hashLastUnknownBlock
      hashLastUnknownBlock := 0 }
  else state

def updateBlockAvailability (s : SyncState) (state : CNodeState) (hash : Uint256) : CNodeState :=
  let state := processBlockAvailability s state
  if s.hasWork hash then { state with pindexBestKnownBlock := s.betterBlock state.pindexBestKnownBlock hash }
  -- An unknown block was announced; just assume that the latest one is the best one.
  else { state with hashLastUnknownBlock := hash }

/-! ## `LastCommonAncestor` -/

def ancestorTurn (blocks : BlockMap) (w : Option BlockPtr × Option BlockPtr) :
    Turn (Option BlockPtr × Option BlockPtr) (Option (Option BlockPtr)) :=
  match w with
  | (some pa, some pb) =>
    if pa = pb then .done (some (some pa))
    else
      match blocks pa, blocks pb with
      | some a, some b => .again (a.pprev, b.pprev)
      | _, _ => .done none
  -- Eventually all chain branches meet at the genesis block.
  | (pa, pb) => .done (if pa = pb then some pa else none)

def lastCommonAncestor (blocks : BlockMap) (pa pb : BlockPtr) : Option (Option BlockPtr) :=
  match blocks pa, blocks pb with
  | some a, some b =>
    (if a.nHeight > b.nHeight then getAncestor blocks pa b.nHeight else some (some pa)).bind fun pa' =>
    (if b.nHeight > a.nHeight then getAncestor blocks pb a.nHeight else some (some pb)).bind fun pb' =>
    (loop (ancestorTurn blocks) ((min a.nHeight b.nHeight).toNat + 2) (pa', pb')).join
  | _, _ => none

/-! ## `FindNextBlocksToDownload` -/

structure Fetching where
  pindexLastCommonBlock : BlockPtr
  vBlocks : List BlockPtr
  waitingfor : NodeId
  nodeStaller : NodeId

/-- What is done with one block of `vToFetch`; `done` where the function returns. -/
def visit (s : SyncState) (nodeid : NodeId) (count : Nat) (nWindowEnd : Int) (w : Fetching) (pindex : BlockPtr) :
    Turn Fetching (Option Fetching) :=
  match s.mapBlockIndex pindex with
  | none => .done none
  | some b =>
    -- We consider the chain that this peer is on invalid.
    if !(s.data pindex).isValid blockValidTree then .done (some w)
    else if (s.data pindex).nStatus.haveData || s.chainActive.contains s.mapBlockIndex pindex then
      .again (if (s.data pindex).nChainTx ≠ 0 then { w with pindexLastCommonBlock := pindex } else w)
    else
      match s.mapBlocksInFlight[pindex]? with
      | none =>
        if b.nHeight > nWindowEnd then
          -- We aren't able to fetch anything, but we would be if the download window was one larger.
          .done (some (if w.vBlocks.length = 0 ∧ w.waitingfor ≠ nodeid then { w with nodeStaller := w.waitingfor } else w))
        else
          let vBlocks := w.vBlocks ++ [pindex]
          if vBlocks.length = count then .done (some { w with vBlocks }) else .again { w with vBlocks }
      -- This is the first already-in-flight block.
      | some queued => .again (if w.waitingfor = -1 then { w with waitingfor := queued.1 } else w)

def visitAll (s : SyncState) (nodeid : NodeId) (count : Nat) (nWindowEnd : Int) :
    List BlockPtr → Fetching → Turn Fetching (Option Fetching)
  | [], w => .again w
  | pindex :: vToFetch, w =>
    match visit s nodeid count nWindowEnd w pindex with
    | .again w' => visitAll s nodeid count nWindowEnd vToFetch w'
    | .done r => .done r

/-- `vToFetch`, filled backwards from its last entry along `pprev`. -/
def fillToFetch (blocks : BlockMap) : Nat → BlockPtr → Option (List BlockPtr)
  | 0, pindexWalk => some [pindexWalk]
  | n + 1, pindexWalk => (blocks.pprev pindexWalk).bind fun pprev => (fillToFetch blocks n pprev).map (· ++ [pindexWalk])

/-- One turn of the `while` loop. -/
def batchTurn (s : SyncState) (nodeid : NodeId) (count : Nat) (best : BlockPtr) (nWindowEnd nMaxHeight : Int)
    (w : BlockPtr × Fetching) : Turn (BlockPtr × Fetching) (Option Fetching) :=
  match s.mapBlockIndex w.1 with
  | none => .done none
  | some walk =>
    if walk.nHeight < nMaxHeight then
      let nToFetch := min (nMaxHeight - walk.nHeight) (max (((count : Int) - w.2.vBlocks.length).bmod (2 ^ 32)) 128)
      match getAncestor s.mapBlockIndex best (walk.nHeight + nToFetch) with
      | some (some pindexWalk) =>
        match fillToFetch s.mapBlockIndex (nToFetch.toNat - 1) pindexWalk with
        | none => .done none
        | some vToFetch =>
          match visitAll s nodeid count nWindowEnd vToFetch w.2 with
          | .again w' => .again (pindexWalk, w')
          | .done r => .done r
      | _ => .done none
    else .done (some w.2)

/-- The sums are unsigned ones, converted to `int`. -/
def windowEnd (nHeight : Int) : Int := (nHeight + blockDownloadWindow).bmod (2 ^ 32)

def maxHeight (best last : SkipEntry) : Int := min best.nHeight ((windowEnd last.nHeight + 1).bmod (2 ^ 32))

def fetchBlocks (s : SyncState) (nodeid : NodeId) (count : Nat) (best last : BlockPtr) (vBlocks : List BlockPtr)
    (nodeStaller : NodeId) : Option Fetching :=
  match s.mapBlockIndex best, s.mapBlockIndex last with
  | some b, some l =>
    (loop (batchTurn s nodeid count best (windowEnd l.nHeight) (maxHeight b l)) (b.nHeight.toNat + 1)
      (last, ⟨last, vBlocks, -1, nodeStaller⟩)).join
  | _, _ => none

/-- The peer has something interesting: its best block has no less work than the tip. -/
def interesting (s : SyncState) (state : CNodeState) : Option (Option BlockPtr) :=
  match state.pindexBestKnownBlock with
  | none => some none
  | some best => s.chainActive.tip.map fun tip => if (s.data best).nChainWork < (s.data tip).nChainWork then none else some best

/-- Bootstrap quickly by guessing a parent of our best tip is the forking point. -/
def guessCommon (s : SyncState) (state : CNodeState) (best : BlockPtr) : Option BlockPtr :=
  state.pindexLastCommonBlock.or
    ((s.mapBlockIndex best).bind fun b => s.chainActive.entry (min b.nHeight s.chainActive.height))

/-- The state, `vBlocks` and `nodeStaller` as they are left. -/
def findNextBlocksToDownload (s : SyncState) (nodeid : NodeId) (count : Nat) (vBlocks : List BlockPtr) (nodeStaller : NodeId) :
    Option (SyncState × List BlockPtr × NodeId) :=
  if count = 0 then some (s, vBlocks, nodeStaller)
  else
    s.mapNodeState[nodeid]?.bind fun old =>
    -- Make sure pindexBestKnownBlock is up to date, we'll need it.
    let state := processBlockAvailability s old
    let put (state : CNodeState) := { s with mapNodeState := s.mapNodeState.insert nodeid state }
    (interesting s state).bind fun best =>
    match best with
    | none => some (put state, vBlocks, nodeStaller)
    | some best =>
      (guessCommon s state best).bind fun guess =>
      -- If the peer reorganized, our previous pindexLastCommonBlock may not be an ancestor of its current tip anymore.
      (lastCommonAncestor s.mapBlockIndex guess best).bind fun last =>
      if last = some best then some (put { state with pindexLastCommonBlock := last }, vBlocks, nodeStaller)
      else
        last.bind fun last =>
        (fetchBlocks s nodeid count best last vBlocks nodeStaller).map fun w =>
          (put { state with pindexLastCommonBlock := some w.pindexLastCommonBlock }, w.vBlocks, w.nodeStaller)

variable {s : SyncState} {blocks : BlockMap} {nodeid nodeStaller : NodeId} {state : CNodeState} {count : Nat} {nWindowEnd : Int}
  {p q best last : BlockPtr} {b d e : SkipEntry} {w w' : Fetching} {l vBlocks : List BlockPtr} {o : Option BlockPtr} {n : Nat}

/-! ## The last common ancestor -/

def Lower (blocks : BlockMap) (p q : BlockPtr) : Prop := ∀ b d, blocks p = some b → blocks q = some d → b.nHeight < d.nHeight

def HighestCommon (blocks : BlockMap) (pa pb : BlockPtr) : Option BlockPtr → Prop
  | none => ∀ g, Up blocks.pprev pa g → ¬ Up blocks.pprev pb g
  | some f => Up blocks.pprev pa f ∧ Up blocks.pprev pb f ∧
      ∀ g, Up blocks.pprev pa g → Up blocks.pprev pb g → Up blocks.pprev f g ∧ (g = f ∨ Lower blocks g f)

/-- Two walks at one height, above which the two blocks have no ancestor in common. -/
structure Abreast (blocks : BlockMap) (pa pb : BlockPtr) (w : Option BlockPtr × Option BlockPtr) : Prop where
  ends : w.1 = none ↔ w.2 = none
  entries : ∀ a b, w = (some a, some b) → ∃ ea eb, blocks a = some ea ∧ blocks b = some eb ∧ ea.nHeight = eb.nHeight ∧
    Up blocks.pprev pa a ∧ Up blocks.pprev pb b
  below : ∀ g, Up blocks.pprev pa g → Up blocks.pprev pb g →
    ∃ a b, w = (some a, some b) ∧ Up blocks.pprev a g ∧ Up blocks.pprev b g

theorem pprev_eq_none_iff (h : TreeInv blocks) (hp : blocks p = some b) : b.pprev = none ↔ b.nHeight = 0 := by
  refine ⟨h.root hp, fun hzero => ?_⟩
  cases hprev : b.pprev with
  | none => rfl
  | some q =>
    obtain ⟨d, hd, hheight⟩ := h.parent hp hprev
    have hnonneg := h.nonneg hd
    omega

theorem eq_of_up (h : TreeInv blocks) (hp : blocks p = some b) (hq : blocks q = some d) (hup : Up blocks.pprev p q)
    (hheight : b.nHeight ≤ d.nHeight) : p = q := by
  obtain ⟨n, hn⟩ := exists_ascend hup
  have hsum := h.height_ascend hp hn hq
  obtain rfl : n = 0 := by omega
  cases hn
  rfl

theorem eq_or_lower (h : TreeInv blocks) (hp : blocks p = some b) (hup : Up blocks.pprev p q) : q = p ∨ Lower blocks q p := by
  by_cases heq : q = p
  · exact .inl heq
  · refine .inr fun d b' hd hb' => ?_
    rw [hp, Option.some.injEq] at hb'
    subst hb'
    by_contra hnot
    exact heq (eq_of_up h hp hd hup (not_lt.1 hnot)).symm

theorem Abreast.turn (h : TreeInv blocks) {pa pb : BlockPtr} {v v' : Option BlockPtr × Option BlockPtr}
    (hv : Abreast blocks pa pb v) (hturn : ancestorTurn blocks v = .again v') :
    Abreast blocks pa pb v' ∧ v'.1.elim 0 (fun p => ((blocks p).elim 0 fun b => b.nHeight.toNat) + 1) <
      v.1.elim 0 fun p => ((blocks p).elim 0 fun b => b.nHeight.toNat) + 1 := by
  unfold ancestorTurn at hturn
  split at hturn
  · next a c =>
    obtain ⟨ea, ec, ha, hc, heq, hupa, hupc⟩ := hv.entries a c rfl
    split at hturn
    · cases hturn
    · next hne =>
      rw [ha, hc] at hturn
      cases hturn
      have hpa : blocks.pprev a = ea.pprev := pprev_eq ha
      have hpc : blocks.pprev c = ec.pprev := pprev_eq hc
      refine ⟨⟨?_, ?_, ?_⟩, ?_⟩
      · rw [pprev_eq_none_iff h ha, pprev_eq_none_iff h hc, heq]
      · intro a' c' hboth
        obtain ⟨hprev, hprev'⟩ := Prod.mk.inj hboth
        obtain ⟨fa, hfa, hheight⟩ := h.parent ha hprev
        obtain ⟨fc, hfc, hheight'⟩ := h.parent hc hprev'
        exact ⟨fa, fc, hfa, hfc, by omega, hupa.trans (.single (hpa.trans hprev)), hupc.trans (.single (hpc.trans hprev'))⟩
      · intro g hga hgc
        obtain ⟨a', c', hboth, hag, hcg⟩ := hv.below g hga hgc
        cases hboth
        -- neither walk has come to `g`, at which both would be
        rcases hag.cases with rfl | ⟨a', hprev, hag'⟩
        · exact absurd (eq_of_up h hc ha hcg heq.ge).symm hne
        · rcases hcg.cases with rfl | ⟨c', hprev', hcg'⟩
          · exact absurd (eq_of_up h ha hc hag heq.le) hne
          · exact ⟨a', c', by rw [← hpa, ← hpc, hprev, hprev'], hag', hcg'⟩
      · cases hprev : ea.pprev with
        | none => simp
        | some a' =>
          obtain ⟨fa, hfa, hheight⟩ := h.parent ha hprev
          have hnonneg := h.nonneg hfa
          simp only [Option.elim_some, hfa, ha]
          omega
  · cases hturn

theorem Abreast.done (h : TreeInv blocks) {pa pb : BlockPtr} {v : Option BlockPtr × Option BlockPtr} (hv : Abreast blocks pa pb v)
    {r : Option (Option BlockPtr)} (hturn : ancestorTurn blocks v = .done r) :
    ∃ o, r = some o ∧ HighestCommon blocks pa pb o := by
  unfold ancestorTurn at hturn
  split at hturn
  · next a c =>
    obtain ⟨ea, ec, ha, hc, -, hupa, hupc⟩ := hv.entries a c rfl
    split at hturn
    · next heq =>
      cases hturn
      subst heq
      refine ⟨some a, rfl, hupa, hupc, fun g hga hgc => ?_⟩
      obtain ⟨a', c', hboth, hag, -⟩ := hv.below g hga hgc
      cases hboth
      exact ⟨hag, eq_or_lower h ha hag⟩
    · rw [ha, hc] at hturn
      cases hturn
  · next a c hnot =>
    cases hturn
    have ha : a = none := by
      cases a with
      | none => rfl
      | some a =>
        cases c with
        | none => exact hv.ends.2 rfl
        | some c => exact (hnot a c rfl rfl).elim
    have hc : c = none := hv.ends.1 ha
    subst ha hc
    refine ⟨none, if_pos rfl, fun g hga hgc => ?_⟩
    obtain ⟨a', c', hboth, -⟩ := hv.below g hga hgc
    cases hboth

theorem level_eq (h : TreeInv blocks) (hp : blocks p = some b) {height : Int} (hheight : 0 ≤ height) :
    ∃ q d, (if b.nHeight > height then getAncestor blocks p height else some (some p)) = some (some q) ∧ blocks q = some d ∧
      d.nHeight = min b.nHeight height ∧ Up blocks.pprev p q := by
  by_cases hgt : b.nHeight > height
  · obtain ⟨q, hq, hget⟩ := getAncestor_eq h hp hheight hgt.le
    obtain ⟨d, hd, hdheight⟩ := h.exists_of_ascend hp hq
    exact ⟨q, d, by rw [if_pos hgt, hget], hd, by omega, up_of_ascend hq⟩
  · exact ⟨p, b, if_neg hgt, hp, by omega, .refl⟩

theorem exists_of_up (h : TreeInv blocks) (hp : blocks p = some b) (hup : Up blocks.pprev p q) :
    ∃ d, blocks q = some d ∧ d.nHeight ≤ b.nHeight := by
  obtain ⟨n, hn⟩ := exists_ascend hup
  obtain ⟨d, hd, hheight⟩ := h.exists_of_ascend hp hn
  exact ⟨d, hd, by omega⟩

theorem lastCommonAncestor_eq (h : TreeInv blocks) (hp : blocks p = some b) (hq : blocks q = some d) :
    ∃ o, lastCommonAncestor blocks p q = some o ∧ HighestCommon blocks p q o := by
  obtain ⟨p', b', hlevel, hb', hheight, hup⟩ := level_eq h hp (h.nonneg hq)
  obtain ⟨q', d', hlevel', hd', hheight', hup'⟩ := level_eq h hq (h.nonneg hp)
  have hstart : Abreast blocks p q (some p', some q') := by
    refine ⟨by simp, ?_, fun g hpg hqg => ?_⟩
    · intro a c hboth
      cases hboth
      exact ⟨b', d', hb', hd', by omega, hup, hup'⟩
    · obtain ⟨e, he, hle⟩ := exists_of_up h hp hpg
      obtain ⟨e', he', hle'⟩ := exists_of_up h hq hqg
      rw [he, Option.some.injEq] at he'
      subst he'
      exact ⟨p', q', rfl, up_of_height_le h hp hb' he hup hpg (by omega), up_of_height_le h hq hd' he hup' hqg (by omega)⟩
  have hloop : (loop (ancestorTurn blocks) ((min b.nHeight d.nHeight).toNat + 2) (some p', some q')).isSome := by
    apply loop_isSome_of_measure (I := Abreast blocks p q) _ (fun v v' hv hturn => hv.turn h hturn) hstart
    simp only [Option.elim_some, hb']
    omega
  obtain ⟨r, hr⟩ := Option.isSome_iff_exists.1 hloop
  obtain ⟨o, rfl, ho⟩ := loop_spec (fun v v' hv hturn => (hv.turn h hturn).1) (fun v r hv hturn => hv.done h hturn) hstart hr
  refine ⟨o, ?_, ho⟩
  unfold lastCommonAncestor
  rw [hp, hq]
  dsimp only
  rw [hlevel, hlevel', Option.bind_some, Option.bind_some, hr]
  rfl

/-! ## A walk over the blocks of a branch -/

/-- A block to ask for: not stored, not in the active chain, not in flight, in the window. -/
def wanted (s : SyncState) (nWindowEnd : Int) (p : BlockPtr) : Bool :=
  !(s.data p).nStatus.haveData && !s.chainActive.contains s.mapBlockIndex p && s.mapBlocksInFlight[p]?.isNone &&
    (s.mapBlockIndex p).any fun b => decide (b.nHeight ≤ nWindowEnd)

def isTreeValid (s : SyncState) (p : BlockPtr) : Bool := (s.data p).isValid blockValidTree

/-- The states that a visit of `p` can leave, if it does not ask for `p`. -/
structure Passes (w w' : Fetching) (p : BlockPtr) : Prop where
  vBlocks : w'.vBlocks = w.vBlocks
  last : w'.pindexLastCommonBlock = w.pindexLastCommonBlock ∨ w'.pindexLastCommonBlock = p

theorem Passes.last_or_mem (h : Passes w w' p) :
    w'.pindexLastCommonBlock = w.pindexLastCommonBlock ∨ w'.pindexLastCommonBlock ∈ p :: l := by
  refine h.last.imp_right fun heq => ?_
  rw [heq]
  exact List.mem_cons_self

theorem visit_spec (hp : s.mapBlockIndex p = some b) :
    (isTreeValid s p = false ∧ visit s nodeid count nWindowEnd w p = .done (some w)) ∨
    (isTreeValid s p = true ∧ wanted s nWindowEnd p = false ∧ ∃ w', Passes w w' p ∧
      (visit s nodeid count nWindowEnd w p = .again w' ∨
        nWindowEnd < b.nHeight ∧ visit s nodeid count nWindowEnd w p = .done (some w'))) ∨
    (isTreeValid s p = true ∧ wanted s nWindowEnd p = true ∧ visit s nodeid count nWindowEnd w p =
      if (w.vBlocks ++ [p]).length = count then .done (some { w with vBlocks := w.vBlocks ++ [p] })
      else .again { w with vBlocks := w.vBlocks ++ [p] }) := by
  unfold visit
  rw [hp]
  dsimp only
  cases hvalid : isTreeValid s p with
  | false =>
    unfold isTreeValid at hvalid
    exact .inl ⟨rfl, by simp [hvalid]⟩
  | true =>
    unfold isTreeValid at hvalid
    right
    rw [if_neg (by simp [hvalid])]
    by_cases hhas : ((s.data p).nStatus.haveData || s.chainActive.contains s.mapBlockIndex p) = true
    · rw [if_pos hhas]
      refine .inl ⟨rfl, ?_, _, ?_, .inl rfl⟩
      · rcases Bool.or_eq_true_iff.1 hhas with hdata | hcontains
        · simp [wanted, hdata]
        · simp [wanted, hcontains]
      · split
        · exact ⟨rfl, .inr rfl⟩
        · exact ⟨rfl, .inl rfl⟩
    · rw [if_neg hhas]
      rw [Bool.or_eq_true_iff, not_or, Bool.not_eq_true, Bool.not_eq_true] at hhas
      cases hflight : s.mapBlocksInFlight[p]? with
      | some queued =>
        refine .inl ⟨rfl, by simp [wanted, hflight], _, ?_, .inl rfl⟩
        split <;> exact ⟨rfl, .inl rfl⟩
      | none =>
        dsimp only
        by_cases hend : b.nHeight > nWindowEnd
        · rw [if_pos hend]
          refine .inl ⟨rfl, by simp [wanted, hp]; omega, _, ?_, .inr ⟨hend, rfl⟩⟩
          split <;> exact ⟨rfl, .inl rfl⟩
        · rw [if_neg hend]
          refine .inr ⟨rfl, ?_, rfl⟩
          simp [wanted, hhas, hflight, hp]
          omega

def found (s : SyncState) (nWindowEnd : Int) (l : List BlockPtr) : List BlockPtr :=
  (l.takeWhile (isTreeValid s)).filter (wanted s nWindowEnd)

theorem found_nil : found s nWindowEnd [] = [] := rfl

theorem found_cons (hvalid : isTreeValid s p = true) :
    found s nWindowEnd (p :: l) = if wanted s nWindowEnd p then p :: found s nWindowEnd l else found s nWindowEnd l := by
  unfold found
  rw [List.takeWhile_cons_of_pos hvalid, List.filter_cons]

theorem found_cons_invalid (hvalid : isTreeValid s p = false) : found s nWindowEnd (p :: l) = [] := by
  unfold found
  rw [List.takeWhile_cons_of_neg (by simp [hvalid])]
  rfl

theorem mem_of_mem_found (hp : p ∈ found s nWindowEnd l) : p ∈ l :=
  (List.takeWhile_sublist _).subset (List.mem_of_mem_filter hp)

theorem wanted_iff : wanted s nWindowEnd p = true ↔ (s.data p).nStatus.haveData = false ∧
    s.chainActive.contains s.mapBlockIndex p = false ∧ s.mapBlocksInFlight[p]? = none ∧
    ∃ b, s.mapBlockIndex p = some b ∧ b.nHeight ≤ nWindowEnd := by
  simp [wanted, and_assoc, Option.any_eq_true]

theorem found_eq_nil (hp : s.mapBlockIndex p = some b) (hend : nWindowEnd < b.nHeight)
    (hlower : ∀ q ∈ l, Lower s.mapBlockIndex p q) : found s nWindowEnd l = [] := by
  rw [List.eq_nil_iff_forall_not_mem]
  intro q hq
  obtain ⟨-, -, -, d, hd, hle⟩ := wanted_iff.1 (List.of_mem_filter hq)
  have hlt := hlower q (mem_of_mem_found hq) b d hp hd
  omega

def leave : Turn Fetching (Option Fetching) → Option Fetching
  | .again w => some w
  | .done r => r

theorem visitAll_append (l l' : List BlockPtr) : visitAll s nodeid count nWindowEnd (l ++ l') w =
    match visitAll s nodeid count nWindowEnd l w with
    | .again w' => visitAll s nodeid count nWindowEnd l' w'
    | .done r => .done r := by
  induction l generalizing w with
  | nil => rfl
  | cons p l ih =>
    rw [List.cons_append, visitAll, visitAll]
    cases visit s nodeid count nWindowEnd w p with
    | again w' => exact ih
    | done r => rfl

theorem visitAll_spec (nodeid : NodeId) (nWindowEnd : Int) (hl : ∀ p ∈ l, (s.mapBlockIndex p).isSome)
    (hsorted : l.Pairwise (Lower s.mapBlockIndex)) (hroom : w.vBlocks.length < count) :
    ∃ w', leave (visitAll s nodeid count nWindowEnd l w) = some w' ∧
      w'.vBlocks = w.vBlocks ++ (found s nWindowEnd l).take (count - w.vBlocks.length) ∧
      (w'.pindexLastCommonBlock = w.pindexLastCommonBlock ∨ w'.pindexLastCommonBlock ∈ l) := by
  induction l generalizing w with
  | nil => exact ⟨w, rfl, by simp [found_nil], .inl rfl⟩
  | cons p l ih =>
    obtain ⟨b, hb⟩ := Option.isSome_iff_exists.1 (hl p List.mem_cons_self)
    obtain ⟨hlower, hsorted⟩ := List.pairwise_cons.1 hsorted
    have hrest : ∀ q ∈ l, (s.mapBlockIndex q).isSome := fun q hq => hl q (List.mem_cons_of_mem p hq)
    rw [visitAll]
    rcases visit_spec hb with ⟨hvalid, hvisit⟩ | ⟨hvalid, hwanted, w₁, hpass, hvisit | ⟨hend, hvisit⟩⟩ | ⟨hvalid, hwanted, hvisit⟩
    · rw [hvisit, found_cons_invalid hvalid]
      exact ⟨w, rfl, by simp, .inl rfl⟩
    · rw [hvisit, found_cons hvalid, hwanted, if_neg Bool.false_ne_true]
      obtain ⟨w', hleave, hblocks, hlast⟩ := ih hrest hsorted (by rw [hpass.vBlocks]; exact hroom)
      refine ⟨w', hleave, by rw [hblocks, hpass.vBlocks], ?_⟩
      rcases hlast with hlast | hlast
      · rw [hlast]
        exact hpass.last_or_mem
      · exact .inr (List.mem_cons_of_mem p hlast)
    · rw [hvisit, found_cons hvalid, hwanted, if_neg Bool.false_ne_true, found_eq_nil hb hend hlower]
      exact ⟨w₁, rfl, by simp [hpass.vBlocks], hpass.last_or_mem⟩
    · rw [hvisit, found_cons hvalid, hwanted, if_pos rfl]
      by_cases hfull : (w.vBlocks ++ [p]).length = count
      · rw [if_pos hfull]
        have hone : count - w.vBlocks.length = 1 := by
          rw [List.length_append, List.length_singleton] at hfull
          omega
        exact ⟨_, rfl, by rw [hone, List.take_succ_cons, List.take_zero], .inl rfl⟩
      · rw [if_neg hfull]
        rw [List.length_append, List.length_singleton] at hfull
        obtain ⟨w', hleave, hblocks, hlast⟩ := ih (w := { w with vBlocks := w.vBlocks ++ [p] }) hrest hsorted (by simp; omega)
        have hsucc : count - w.vBlocks.length = count - (w.vBlocks ++ [p]).length + 1 := by
          rw [List.length_append, List.length_singleton]
          omega
        refine ⟨w', hleave, ?_, hlast.imp id (List.mem_cons_of_mem p)⟩
        rw [hblocks, hsucc, List.take_succ_cons, List.append_assoc, List.singleton_append]

/-! ## The batches -/

theorem fillToFetch_eq (hup : ascend blocks.pprev n p = some q) :
    fillToFetch blocks n p = some (branch blocks.pprev (n + 1) p) := by
  induction n generalizing p with
  | zero =>
    rw [fillToFetch, branch]
    cases blocks.pprev p <;> rfl
  | succ n ih =>
    cases hprev : blocks.pprev p with
    | none =>
      rw [ascend, hprev] at hup
      cases hup
    | some r =>
      rw [ascend_succ hprev] at hup
      rw [fillToFetch, hprev, Option.bind_some, ih hup, Option.map_some, branch_succ hprev]

/-- One batch: the walk goes on to a higher block of the branch, and visits what is between. -/
theorem batchTurn_eq (nodeid : NodeId) (count : Nat) (nWindowEnd : Int) (w : Fetching) (h : TreeInv s.mapBlockIndex)
    (hbest : s.mapBlockIndex best = some b) {nMaxHeight : Int} (hmax : nMaxHeight ≤ b.nHeight)
    (hp : s.mapBlockIndex p = some e) (hlt : e.nHeight < nMaxHeight) :
    ∃ (n : Nat) (q : BlockPtr) (d : SkipEntry), 0 < n ∧ e.nHeight + n ≤ nMaxHeight ∧ s.mapBlockIndex q = some d ∧
      d.nHeight = e.nHeight + n ∧ ascend s.mapBlockIndex.pprev (b.nHeight - d.nHeight).toNat best = some q ∧
      batchTurn s nodeid count best nWindowEnd nMaxHeight (p, w) =
        match visitAll s nodeid count nWindowEnd (branch s.mapBlockIndex.pprev n q) w with
        | .again w' => .again (q, w')
        | .done r => .done r := by
  have hnonneg := h.nonneg hp
  obtain ⟨nToFetch, hdef⟩ : ∃ m, m = min (nMaxHeight - e.nHeight) (max (((count : Int) - w.vBlocks.length).bmod (2 ^ 32)) 128) :=
    ⟨_, rfl⟩
  have hpos : 0 < nToFetch := by omega
  have hle : e.nHeight + nToFetch ≤ nMaxHeight := by omega
  obtain ⟨q, hq, hget⟩ := getAncestor_eq h hbest (by omega : 0 ≤ e.nHeight + nToFetch) (by omega)
  obtain ⟨d, hd, hheight⟩ := h.exists_of_ascend hbest hq
  obtain ⟨r, -, hr, -⟩ := h.ascend_isSome (n := nToFetch.toNat - 1) hd (by omega)
  have hfill := fillToFetch_eq hr
  rw [Nat.sub_add_cancel (by omega)] at hfill
  refine ⟨nToFetch.toNat, q, d, by omega, by omega, hd, by omega, ?_, ?_⟩
  · rw [← hq]
    congr 1
    omega
  · unfold batchTurn
    dsimp only
    rw [hp]
    dsimp only
    rw [if_pos hlt, ← hdef, hget]
    dsimp only
    rw [hfill]

/-- The batches are one walk over the branch up to `top`, which is at the last height. -/
theorem loop_batchTurn (nodeid : NodeId) (count : Nat) (nWindowEnd : Int) (w : Fetching) (top : BlockPtr)
    (h : TreeInv s.mapBlockIndex) (hbest : s.mapBlockIndex best = some b) {nMaxHeight : Int} (hmax : nMaxHeight ≤ b.nHeight)
    (hp : s.mapBlockIndex p = some e)
    (htop : e.nHeight < nMaxHeight → ascend s.mapBlockIndex.pprev (b.nHeight - nMaxHeight).toNat best = some top)
    (hn : (nMaxHeight - e.nHeight).toNat < n) :
    (loop (batchTurn s nodeid count best nWindowEnd nMaxHeight) n (p, w)).join =
      leave (visitAll s nodeid count nWindowEnd (branch s.mapBlockIndex.pprev (nMaxHeight - e.nHeight).toNat top) w) := by
  induction n generalizing p e w with
  | zero => omega
  | succ n ih =>
    by_cases hlt : e.nHeight < nMaxHeight
    · obtain ⟨m, q, d, hpos, hle, hd, hheight, hqup, hturn⟩ := batchTurn_eq nodeid count nWindowEnd w h hbest hmax hp hlt
      have hnonneg := h.nonneg hp
      have hbranch : branch s.mapBlockIndex.pprev (nMaxHeight - e.nHeight).toNat top =
          branch s.mapBlockIndex.pprev m q ++ branch s.mapBlockIndex.pprev (nMaxHeight - d.nHeight).toNat top := by
        have hsum : (nMaxHeight - e.nHeight).toNat = m + (nMaxHeight - d.nHeight).toNat := by omega
        have hdown : (b.nHeight - d.nHeight).toNat = (b.nHeight - nMaxHeight).toNat + (nMaxHeight - d.nHeight).toNat := by omega
        rw [hdown, ascend_add (htop hlt)] at hqup
        rw [hsum, branch_add hqup]
      rw [hbranch, visitAll_append]
      cases hvisit : visitAll s nodeid count nWindowEnd (branch s.mapBlockIndex.pprev m q) w with
      | again w' =>
        rw [hvisit] at hturn
        rw [loop_again hturn]
        exact ih w' hd (fun _ => htop hlt) (by omega)
      | done r =>
        rw [hvisit] at hturn
        rw [loop_done hturn]
        rfl
    · have hzero : (nMaxHeight - e.nHeight).toNat = 0 := by omega
      have hturn : batchTurn s nodeid count best nWindowEnd nMaxHeight (p, w) = .done (some w) := by
        unfold batchTurn
        dsimp only
        rw [hp]
        dsimp only
        rw [if_neg hlt]
      rw [loop_done hturn, hzero]
      rfl

/-! ## What is ahead of the last common block -/

theorem branch_lower (h : TreeInv blocks) (hp : blocks p = some b) : (branch blocks.pprev n p).Pairwise (Lower blocks) := by
  induction n generalizing p b with
  | zero => exact List.Pairwise.nil
  | succ n ih =>
    cases hprev : blocks.pprev p with
    | none =>
      rw [branch, hprev]
      exact List.pairwise_singleton _ _
    | some q =>
      obtain ⟨d, hd, hheight⟩ := h.parent hp ((pprev_eq hp).symm.trans hprev)
      rw [branch_succ hprev, List.pairwise_append]
      refine ⟨ih hd, List.pairwise_singleton _ _, fun x hx y hy => ?_⟩
      rw [List.mem_singleton] at hy
      subst hy
      obtain ⟨i, -, hi⟩ := mem_branch.1 hx
      intro e b' he hb'
      rw [hp, Option.some.injEq] at hb'
      subst hb'
      have hsum := h.height_ascend hd hi he
      omega

/-- The blocks that are looked at: from the last common one up to the last height. -/
def ahead (blocks : BlockMap) (best : BlockPtr) (b last : SkipEntry) : List BlockPtr :=
  branch blocks.pprev (maxHeight b last - last.nHeight).toNat
    ((ascend blocks.pprev (b.nHeight - maxHeight b last).toNat best).getD best)

theorem exists_top (h : TreeInv blocks) (hbest : blocks best = some b) (hlt : 0 ≤ d.nHeight ∧ d.nHeight < maxHeight b d) :
    ∃ top e, ascend blocks.pprev (b.nHeight - maxHeight b d).toNat best = some top ∧ blocks top = some e ∧
      e.nHeight = maxHeight b d := by
  have hle : maxHeight b d ≤ b.nHeight := min_le_left ..
  obtain ⟨top, e, htop, he, hheight⟩ := h.ascend_isSome (n := (b.nHeight - maxHeight b d).toNat) hbest (by omega)
  exact ⟨top, e, htop, he, by omega⟩

theorem mem_ahead (h : TreeInv blocks) (hbest : blocks best = some b) (hd : 0 ≤ d.nHeight) :
    p ∈ ahead blocks best b d ↔
      Up blocks.pprev best p ∧ ∃ e, blocks p = some e ∧ d.nHeight < e.nHeight ∧ e.nHeight ≤ maxHeight b d := by
  unfold ahead
  by_cases hlt : d.nHeight < maxHeight b d
  · obtain ⟨top, f, htop, hf, hheight⟩ := exists_top h hbest ⟨hd, hlt⟩
    rw [htop, Option.getD_some, mem_branch]
    constructor
    · rintro ⟨i, hi, hup⟩
      obtain ⟨e, he, heheight⟩ := h.exists_of_ascend hf hup
      exact ⟨(up_of_ascend htop).trans (up_of_ascend hup), e, he, by omega, by omega⟩
    · rintro ⟨hup, e, he, hlow, hhigh⟩
      obtain ⟨i, hi⟩ := exists_ascend (up_of_height_le h hbest hf he (up_of_ascend htop) hup (by omega))
      have hsum := h.height_ascend hf hi he
      exact ⟨i, by omega, hi⟩
  · have hzero : (maxHeight b d - d.nHeight).toNat = 0 := by omega
    rw [hzero, branch]
    constructor
    · intro hp
      cases hp
    · rintro ⟨-, e, -, hlow, hhigh⟩
      omega

theorem ahead_lower (h : TreeInv blocks) (hbest : blocks best = some b) (hd : 0 ≤ d.nHeight) :
    (ahead blocks best b d).Pairwise (Lower blocks) := by
  unfold ahead
  by_cases hlt : d.nHeight < maxHeight b d
  · obtain ⟨top, f, htop, hf, -⟩ := exists_top h hbest ⟨hd, hlt⟩
    rw [htop, Option.getD_some]
    exact branch_lower h hf
  · have hzero : (maxHeight b d - d.nHeight).toNat = 0 := by omega
    rw [hzero, branch]
    exact List.Pairwise.nil

theorem fetchBlocks_eq (nodeid nodeStaller : NodeId) (vBlocks : List BlockPtr) (h : TreeInv s.mapBlockIndex)
    (hbest : s.mapBlockIndex best = some b) (hlast : s.mapBlockIndex last = some d) (hroom : vBlocks.length < count) :
    ∃ w, fetchBlocks s nodeid count best last vBlocks nodeStaller = some w ∧
      w.vBlocks = vBlocks ++
        (found s (windowEnd d.nHeight) (ahead s.mapBlockIndex best b d)).take (count - vBlocks.length) ∧
      (w.pindexLastCommonBlock = last ∨ w.pindexLastCommonBlock ∈ ahead s.mapBlockIndex best b d) := by
  have hnonneg := h.nonneg hlast
  have hle : maxHeight b d ≤ b.nHeight := min_le_left ..
  have htop : d.nHeight < maxHeight b d → ascend s.mapBlockIndex.pprev (b.nHeight - maxHeight b d).toNat best =
      some ((ascend s.mapBlockIndex.pprev (b.nHeight - maxHeight b d).toNat best).getD best) := by
    intro hlt
    obtain ⟨top, f, htop, -⟩ := exists_top h hbest ⟨hnonneg, hlt⟩
    rw [htop, Option.getD_some]
  have hloop := loop_batchTurn (n := b.nHeight.toNat + 1) nodeid count (windowEnd d.nHeight) ⟨last, vBlocks, -1, nodeStaller⟩ _
    h hbest hle hlast htop (by omega)
  have hknown : ∀ p ∈ ahead s.mapBlockIndex best b d, (s.mapBlockIndex p).isSome := by
    intro p hp
    obtain ⟨-, e, he, -⟩ := (mem_ahead h hbest hnonneg).1 hp
    rw [he]
    rfl
  obtain ⟨w, hw, hblocks, hcommon⟩ := visitAll_spec (w := ⟨last, vBlocks, -1, nodeStaller⟩) nodeid (windowEnd d.nHeight) hknown
    (ahead_lower h hbest hnonneg) hroom
  refine ⟨w, ?_, hblocks, hcommon⟩
  unfold fetchBlocks
  rw [hbest, hlast]
  dsimp only
  rw [hloop]
  exact hw

/-! ## The blocks that are asked for -/

/-- A block that the peer has behind the last common one, in the window, to be asked for. -/
structure Eligible (s : SyncState) (best last p : BlockPtr) : Prop where
  onChain : Up s.mapBlockIndex.pprev best p
  after : Up s.mapBlockIndex.pprev p last ∧ p ≠ last
  noData : (s.data p).nStatus.haveData = false
  notActive : s.chainActive.contains s.mapBlockIndex p = false
  notInFlight : s.mapBlocksInFlight[p]? = none
  inWindow : ∃ b d, s.mapBlockIndex p = some b ∧ s.mapBlockIndex last = some d ∧ b.nHeight ≤ d.nHeight + blockDownloadWindow

structure NextBlocks (s : SyncState) (best last : BlockPtr) (count : Nat) (vBlocks : List BlockPtr) : Prop where
  atMost : vBlocks.length ≤ count
  eligible : ∀ p ∈ vBlocks, Eligible s best last p
  increasing : vBlocks.Pairwise (Lower s.mapBlockIndex)
  missesNone : ∀ q ∈ vBlocks, ∀ p, Eligible s best last p → Lower s.mapBlockIndex p q → p ∈ vBlocks
  /-- Fewer than `count`: there are no more before an invalid block. -/
  complete : vBlocks.length < count → (∀ d, s.mapBlockIndex last = some d → d.nHeight + blockDownloadWindow + 1 < 2 ^ 31) →
    ∀ p, Eligible s best last p →
      (∀ q, Up s.mapBlockIndex.pprev p q → Up s.mapBlockIndex.pprev q last → q ≠ last → isTreeValid s q = true) → p ∈ vBlocks

theorem windowEnd_le {nHeight : Int} (h : 0 ≤ nHeight) : windowEnd nHeight ≤ nHeight + blockDownloadWindow := by
  unfold windowEnd blockDownloadWindow
  rw [Int.bmod_def]
  split <;> omega

theorem windowEnd_eq {nHeight : Int} (h : 0 ≤ nHeight) (hlt : nHeight < windowEnd nHeight) :
    windowEnd nHeight = nHeight + blockDownloadWindow := by
  unfold windowEnd blockDownloadWindow at hlt ⊢
  rw [Int.bmod_def] at hlt ⊢
  split at hlt <;> split <;> omega

theorem mem_of_lower {l l' : List BlockPtr} (hsorted : (l ++ l').Pairwise (Lower blocks)) (hp : blocks p = some b)
    (hq : blocks q = some d) (hmem : p ∈ l ++ l') (hkept : q ∈ l) (hlower : b.nHeight < d.nHeight) : p ∈ l := by
  refine (List.mem_append.1 hmem).resolve_right fun hdropped => ?_
  have hlt := (List.pairwise_append.1 hsorted).2.2 q hkept p hdropped d b hq hp
  omega

theorem mem_found (h : TreeInv s.mapBlockIndex) (hbest : s.mapBlockIndex best = some b) (hlast : s.mapBlockIndex last = some d)
    (hup : Up s.mapBlockIndex.pprev best last) (hp : p ∈ found s (windowEnd d.nHeight) (ahead s.mapBlockIndex best b d)) :
    Eligible s best last p ∧ d.nHeight < windowEnd d.nHeight := by
  have hnonneg := h.nonneg hlast
  obtain ⟨hdata, hactive, hflight, e, he, hend⟩ := wanted_iff.1 (List.of_mem_filter hp)
  obtain ⟨hbestp, e', he', hlow, -⟩ := (mem_ahead h hbest hnonneg).1 (mem_of_mem_found hp)
  rw [he, Option.some.injEq] at he'
  subst he'
  have hplast := up_of_height_le h hbest he hlast hbestp hup hlow.le
  have hne : p ≠ last := by
    intro heq
    rw [heq, hlast, Option.some.injEq] at he
    subst he
    exact lt_irrefl _ hlow
  have hwindow := windowEnd_le hnonneg
  exact ⟨⟨hbestp, ⟨hplast, hne⟩, hdata, hactive, hflight, e, d, he, hlast, by omega⟩, by omega⟩

theorem Eligible.mem_ahead (h : TreeInv s.mapBlockIndex) (hbest : s.mapBlockIndex best = some b)
    (hlast : s.mapBlockIndex last = some d) (hp : Eligible s best last p) (he : s.mapBlockIndex p = some e)
    (hle : e.nHeight ≤ maxHeight b d) :
    p ∈ ahead s.mapBlockIndex best b d := by
  have hlow := (eq_or_lower h he hp.after.1).resolve_left (Ne.symm hp.after.2) d e hlast he
  exact (Download.mem_ahead h hbest (h.nonneg hlast)).2 ⟨hp.onChain, e, he, hlow, hle⟩

theorem Eligible.wanted (hp : Eligible s best last p) (hlast : s.mapBlockIndex last = some d)
    (hend : windowEnd d.nHeight = d.nHeight + blockDownloadWindow) : Download.wanted s (windowEnd d.nHeight) p = true := by
  obtain ⟨e, d', he, hd', hle⟩ := hp.inWindow
  rw [hlast, Option.some.injEq] at hd'
  subst hd'
  exact wanted_iff.2 ⟨hp.noData, hp.notActive, hp.notInFlight, e, he, by omega⟩

theorem mem_takeWhile (hsorted : l.Pairwise (Lower blocks)) (hp : blocks p = some b) (hmem : p ∈ l) {f : BlockPtr → Bool}
    (hl : ∀ q ∈ l, (blocks q).isSome) (hall : ∀ q ∈ l, ∀ d, blocks q = some d → d.nHeight ≤ b.nHeight → f q = true) :
    p ∈ l.takeWhile f := by
  rw [← List.takeWhile_append_dropWhile (p := f) (l := l), List.mem_append] at hmem
  refine hmem.resolve_right fun hdrop => ?_
  have hne : l.dropWhile f ≠ [] := List.ne_nil_of_mem hdrop
  have hfirst := List.head_dropWhile_not f hne
  have hin : (l.dropWhile f).head hne ∈ l := (List.dropWhile_sublist f).subset (List.head_mem hne)
  obtain ⟨d, hd⟩ := Option.isSome_iff_exists.1 (hl _ hin)
  have hle : d.nHeight ≤ b.nHeight := by
    cases hcases : l.dropWhile f with
    | nil => exact absurd hcases hne
    | cons q rest =>
      have hdropped : (q :: rest).Pairwise (Lower blocks) := hcases ▸ hsorted.sublist (List.dropWhile_sublist f)
      simp only [hcases, List.head_cons] at hd
      rw [hcases] at hdrop
      rcases List.mem_cons.1 hdrop with rfl | hrest
      · rw [hp, Option.some.injEq] at hd
        rw [hd]
      · exact ((List.pairwise_cons.1 hdropped).1 p hrest d b hd hp).le
  rw [hall _ hin d hd hle] at hfirst
  cases hfirst

theorem nextBlocks (h : TreeInv s.mapBlockIndex) (hbest : s.mapBlockIndex best = some b) (hlast : s.mapBlockIndex last = some d)
    (hup : Up s.mapBlockIndex.pprev best last) (count : Nat) :
    NextBlocks s best last count ((found s (windowEnd d.nHeight) (ahead s.mapBlockIndex best b d)).take count) := by
  have hnonneg := h.nonneg hlast
  have hsorted := ahead_lower h hbest hnonneg
  have hfound : (found s (windowEnd d.nHeight) (ahead s.mapBlockIndex best b d)).Pairwise (Lower s.mapBlockIndex) :=
    hsorted.sublist (List.filter_sublist.trans (List.takeWhile_sublist _))
  refine ⟨List.length_take_le .., ?_, hfound.sublist (List.take_sublist ..), ?_, ?_⟩
  · exact fun p hp => (mem_found h hbest hlast hup (List.mem_of_mem_take hp)).1
  · intro q hq p hp hlower
    have hqfound := List.mem_of_mem_take hq
    have hend := windowEnd_eq hnonneg (mem_found h hbest hlast hup hqfound).2
    obtain ⟨-, f, hf, -, hqmax⟩ := (mem_ahead h hbest hnonneg).1 (mem_of_mem_found hqfound)
    obtain ⟨e, -, he, -⟩ := hp.inWindow
    have hlt := hlower e f he hf
    have hpahead := hp.mem_ahead h hbest hlast he (by omega)
    -- first the valid part of the branch, then what is taken of the list that is found
    have hpvalid : p ∈ (ahead s.mapBlockIndex best b d).takeWhile (isTreeValid s) := by
      rw [← List.takeWhile_append_dropWhile (p := isTreeValid s) (l := ahead s.mapBlockIndex best b d)] at hsorted hpahead
      exact mem_of_lower hsorted he hf hpahead (List.mem_of_mem_filter hqfound) hlt
    have hpfound : p ∈ found s (windowEnd d.nHeight) (ahead s.mapBlockIndex best b d) :=
      List.mem_filter.2 ⟨hpvalid, hp.wanted hlast hend⟩
    rw [← List.take_append_drop count (found s (windowEnd d.nHeight) (ahead s.mapBlockIndex best b d))] at hfound hpfound
    exact mem_of_lower hfound he hf hpfound hq hlt
  · intro hshort hint p hp hvalid
    have hbound := hint d hlast
    have hend : windowEnd d.nHeight = d.nHeight + blockDownloadWindow := by
      unfold windowEnd blockDownloadWindow at *
      exact Int.bmod_eq_of_le_mul_two (by omega) (by omega)
    have hmax : (windowEnd d.nHeight + 1).bmod (2 ^ 32) = windowEnd d.nHeight + 1 := by
      unfold blockDownloadWindow at *
      exact Int.bmod_eq_of_le_mul_two (by omega) (by omega)
    obtain ⟨e, d', he, hd', hwindow⟩ := hp.inWindow
    rw [hlast, Option.some.injEq] at hd'
    subst hd'
    obtain ⟨e', he', hlebest⟩ := exists_of_up h hbest hp.onChain
    rw [he, Option.some.injEq] at he'
    subst he'
    have hpahead := hp.mem_ahead h hbest hlast he (by unfold maxHeight; rw [hmax]; omega)
    have hpvalid : p ∈ (ahead s.mapBlockIndex best b d).takeWhile (isTreeValid s) := by
      apply mem_takeWhile hsorted he hpahead
      · intro q hq
        obtain ⟨-, f, hf, -⟩ := (mem_ahead h hbest hnonneg).1 hq
        rw [hf]
        rfl
      · intro q hq f hf hle
        obtain ⟨hbestq, f', hf', hlow, -⟩ := (mem_ahead h hbest hnonneg).1 hq
        rw [hf, Option.some.injEq] at hf'
        subst hf'
        refine hvalid q (up_of_height_le h hbest he hf hp.onChain hbestq hle)
          (up_of_height_le h hbest hf hlast hbestq hup hlow.le) ?_
        intro heq
        rw [heq, hlast, Option.some.injEq] at hf
        subst hf
        exact lt_irrefl _ hlow
    rw [List.length_take] at hshort
    rw [List.take_of_length_le (by omega)]
    exact List.mem_filter.2 ⟨hpvalid, hp.wanted hlast hend⟩

/-! ## The node -/

structure Known (blocks : BlockMap) (state : CNodeState) : Prop where
  best : ∀ p, state.pindexBestKnownBlock = some p → (blocks p).isSome
  common : ∀ p, state.pindexLastCommonBlock = some p → (blocks p).isSome

/-- All chain branches meet at the genesis block, and the active chain has a tip. -/
structure SyncInv (s : SyncState) : Prop where
  tree : TreeInv s.mapBlockIndex
  rooted : ∃ genesis, ∀ p, (s.mapBlockIndex p).isSome → Up s.mapBlockIndex.pprev p genesis
  active : ∃ tip, ChainOf s.mapBlockIndex tip s.chainActive
  known : ∀ (nodeid : NodeId) (state : CNodeState), s.mapNodeState[nodeid]? = some state → Known s.mapBlockIndex state

theorem SyncInv.put (hs : SyncInv s) (hstate : Known s.mapBlockIndex state) :
    SyncInv { s with mapNodeState := s.mapNodeState.insert nodeid state } := by
  refine ⟨hs.tree, hs.rooted, hs.active, fun id st hst => ?_⟩
  rw [lookup_insert] at hst
  split at hst
  · cases hst
    exact hstate
  · exact hs.known id st hst

theorem betterBlock_known (hold : ∀ p, o = some p → (s.mapBlockIndex p).isSome) (hq : (s.mapBlockIndex q).isSome)
    (hp : s.betterBlock o q = some p) : (s.mapBlockIndex p).isSome := by
  unfold SyncState.betterBlock at hp
  split at hp
  · cases hp
    exact hq
  · split at hp
    · cases hp
      exact hq
    · cases hp
      exact hold _ rfl

theorem isSome_of_hasWork (h : s.hasWork p = true) : (s.mapBlockIndex p).isSome := (Bool.and_eq_true_iff.1 h).1

theorem Known.process (h : Known s.mapBlockIndex state) : Known s.mapBlockIndex (processBlockAvailability s state) := by
  unfold processBlockAvailability
  split
  · next hwork => exact ⟨fun p hp => betterBlock_known h.best (isSome_of_hasWork hwork.2) hp, h.common⟩
  · exact h

theorem Known.update (h : Known s.mapBlockIndex state) (hash : Uint256) :
    Known s.mapBlockIndex (updateBlockAvailability s state hash) := by
  unfold updateBlockAvailability
  dsimp only
  split
  · next hwork => exact ⟨fun p hp => betterBlock_known h.process.best (isSome_of_hasWork hwork) hp, h.process.common⟩
  · exact ⟨h.process.best, h.process.common⟩

theorem SyncInv.lastCommonAncestor (hs : SyncInv s) (hp : (s.mapBlockIndex p).isSome) (hq : (s.mapBlockIndex q).isSome) :
    ∃ f, Download.lastCommonAncestor s.mapBlockIndex p q = some (some f) ∧ HighestCommon s.mapBlockIndex p q (some f) := by
  obtain ⟨b, hb⟩ := Option.isSome_iff_exists.1 hp
  obtain ⟨d, hd⟩ := Option.isSome_iff_exists.1 hq
  obtain ⟨o, ho, hcommon⟩ := lastCommonAncestor_eq hs.tree hb hd
  obtain ⟨genesis, hroot⟩ := hs.rooted
  cases o with
  | none => exact absurd (hroot q hq) (hcommon genesis (hroot p hp))
  | some f => exact ⟨f, ho, hcommon⟩

theorem SyncInv.interesting (hs : SyncInv s) (state : CNodeState) :
    Download.interesting s state = some none ∨
      ∃ best, Download.interesting s state = some (some best) ∧ state.pindexBestKnownBlock = some best := by
  unfold Download.interesting
  cases hbest : state.pindexBestKnownBlock with
  | none => exact .inl rfl
  | some best =>
    obtain ⟨tip, hof⟩ := hs.active
    dsimp only
    rw [hof.tip_eq, Option.map_some]
    split
    · exact .inl rfl
    · exact .inr ⟨best, rfl, rfl⟩

theorem SyncInv.guessCommon (hs : SyncInv s) (hstate : Known s.mapBlockIndex state) (hbest : s.mapBlockIndex best = some b) :
    ∃ guess, Download.guessCommon s state best = some guess ∧ (s.mapBlockIndex guess).isSome := by
  unfold Download.guessCommon
  cases hcommon : state.pindexLastCommonBlock with
  | some p => exact ⟨p, rfl, hstate.common p hcommon⟩
  | none =>
    obtain ⟨tip, e, he, hlength, hpath⟩ := hs.active
    have hnonneg := hs.tree.nonneg hbest
    have hheight : s.chainActive.height = e.nHeight.toNat := by
      unfold CChain.height
      omega
    obtain ⟨m, hm⟩ : ∃ m : Nat, min b.nHeight s.chainActive.height = m := ⟨(min b.nHeight s.chainActive.height).toNat, by omega⟩
    obtain ⟨q, d, hq, hd, -⟩ := hs.tree.ascend_isSome (n := e.nHeight.toNat - m) he (by have := hs.tree.nonneg he; omega)
    refine ⟨q, ?_, by rw [hd]; rfl⟩
    rw [hbest, Option.bind_some, Option.none_or, hm, entry_eq (Int.natCast_nonneg m), Int.toNat_natCast, hpath m (by omega), hq]
    rfl

/-- What `FindNextBlocksToDownload` finds for a peer: nothing, or the next blocks of its best
    chain behind the last common block. -/
def Finds (s : SyncState) (state : CNodeState) (count : Nat) (vBlocks : List BlockPtr) : Prop :=
  (vBlocks = [] ∧ (count = 0 ∨ interesting s state = some none)) ∨
    ∃ best guess last, interesting s state = some (some best) ∧ state.pindexBestKnownBlock = some best ∧
      guessCommon s state best = some guess ∧
      lastCommonAncestor s.mapBlockIndex guess best = some (some last) ∧ NextBlocks s best last count vBlocks

theorem SyncInv.find (hs : SyncInv s) (hstate : s.mapNodeState[nodeid]? = some state) (count : Nat) (nodeStaller : NodeId) :
    ∃ s' vBlocks nodeStaller', findNextBlocksToDownload s nodeid count [] nodeStaller = some (s', vBlocks, nodeStaller') ∧
      SyncInv s' ∧ vBlocks.length ≤ count ∧ Finds s (processBlockAvailability s state) count vBlocks := by
  have hknown := (hs.known nodeid state hstate).process
  unfold findNextBlocksToDownload
  by_cases hcount : count = 0
  · exact ⟨s, [], nodeStaller, if_pos hcount, hs, by simp, .inl ⟨rfl, .inl hcount⟩⟩
  · rw [if_neg hcount, hstate, Option.bind_some]
    dsimp only
    rcases hs.interesting (processBlockAvailability s state) with hnone | ⟨best, hsome, hbest⟩
    · rw [hnone]
      exact ⟨_, [], nodeStaller, rfl, hs.put hknown, by simp, .inl ⟨rfl, .inr hnone⟩⟩
    · have hin := hknown.best best hbest
      obtain ⟨b, hb⟩ := Option.isSome_iff_exists.1 hin
      obtain ⟨guess, hguess, hgin⟩ := hs.guessCommon hknown hb
      obtain ⟨last, hlast, -, hup, -⟩ := hs.lastCommonAncestor hgin hin
      obtain ⟨d, hd, -⟩ := exists_of_up hs.tree hb hup
      have hnext := nextBlocks hs.tree hb hd hup count
      rw [hsome, Option.bind_some]
      dsimp only
      rw [hguess, Option.bind_some, hlast, Option.bind_some]
      by_cases heq : last = best
      · subst heq
        rw [hb, Option.some.injEq] at hd
        subst hd
        have hnothing : ahead s.mapBlockIndex last b b = [] := by
          have hle : maxHeight b b ≤ b.nHeight := min_le_left ..
          unfold ahead
          rw [Int.toNat_of_nonpos (by omega)]
          rfl
        rw [hnothing, found_nil, List.take_nil] at hnext
        rw [if_pos rfl]
        exact ⟨_, [], nodeStaller, rfl, hs.put ⟨hknown.best, fun p hp => (by cases hp; exact hin)⟩, by simp,
          .inr ⟨last, guess, last, hsome, hbest, hguess, hlast, hnext⟩⟩
      · obtain ⟨w, hfetch, hblocks, hcommon⟩ := fetchBlocks_eq nodeid nodeStaller [] hs.tree hb hd
          (Nat.pos_of_ne_zero hcount)
        rw [List.nil_append, List.length_nil, Nat.sub_zero] at hblocks
        rw [← hblocks] at hnext
        rw [if_neg (by simpa using heq), Option.bind_some, hfetch, Option.map_some]
        refine ⟨_, w.vBlocks, w.nodeStaller, rfl, hs.put ⟨hknown.best, fun p hp => ?_⟩, hnext.atMost,
          .inr ⟨best, guess, last, hsome, hbest, hguess, hlast, hnext⟩⟩
        cases hp
        rcases hcommon with hcommon | hcommon
        · rw [hcommon, hd]
          rfl
        · obtain ⟨-, e, he, -⟩ := (mem_ahead hs.tree hb (hs.tree.nonneg hd)).1 hcommon
          rw [he]
          rfl

/-- A node from its genesis block on. A header is added to a known block; what becomes of the
    blocks' data and which are in flight is left open. -/
inductive Reached : SyncState → Prop where
  | start (genesis : BlockPtr) (data : BlockPtr → BlockData) :
      Reached ⟨Function.update (fun _ => none) genesis (some ⟨none, none, 0⟩), data, [some genesis], ∅, ∅⟩
  | header {s : SyncState} {blocks : BlockMap} (hash hashPrevBlock : BlockPtr) (hs : Reached s)
      (hprev : (s.mapBlockIndex hashPrevBlock).isSome) (hadd : addToBlockIndex s.mapBlockIndex hash hashPrevBlock = some blocks) :
      Reached { s with mapBlockIndex := blocks }
  | tip {s : SyncState} {vChain : CChain} (p : BlockPtr) (hs : Reached s) (hp : (s.mapBlockIndex p).isSome)
      (hset : setTip s.mapBlockIndex s.chainActive (some p) = some vChain) : Reached { s with chainActive := vChain }
  | blocks {s : SyncState} (data : BlockPtr → BlockData) (mapBlocksInFlight : Map Uint256 (NodeId × Nat)) (hs : Reached s) :
      Reached { s with data, mapBlocksInFlight }
  | connect {s : SyncState} (nodeid : NodeId) (hs : Reached s) :
      Reached { s with mapNodeState := s.mapNodeState.insertIfNew nodeid .new }
  | disconnect {s : SyncState} (nodeid : NodeId) (hs : Reached s) : Reached { s with mapNodeState := s.mapNodeState.erase nodeid }
  | process {s : SyncState} {state : CNodeState} (nodeid : NodeId) (hs : Reached s)
      (hstate : s.mapNodeState[nodeid]? = some state) :
      Reached { s with mapNodeState := s.mapNodeState.insert nodeid (processBlockAvailability s state) }
  | announce {s : SyncState} {state : CNodeState} (nodeid : NodeId) (hash : Uint256) (hs : Reached s)
      (hstate : s.mapNodeState[nodeid]? = some state) :
      Reached { s with mapNodeState := s.mapNodeState.insert nodeid (updateBlockAvailability s state hash) }
  | request {s s' : SyncState} {vBlocks : List BlockPtr} {nodeStaller' : NodeId} (nodeid : NodeId) (count : Nat)
      (nodeStaller : NodeId) (hs : Reached s)
      (hfind : findNextBlocksToDownload s nodeid count [] nodeStaller = some (s', vBlocks, nodeStaller')) : Reached s'

theorem addToBlockIndex_rooted {blocks' : BlockMap} {hash hashPrevBlock genesis : BlockPtr} (h : TreeInv blocks)
    (hprev : (blocks hashPrevBlock).isSome) (hadd : addToBlockIndex blocks hash hashPrevBlock = some blocks')
    (hroot : ∀ p, (blocks p).isSome → Up blocks.pprev p genesis) :
    TreeInv blocks' ∧ Keeps blocks blocks' ∧ ∀ p, (blocks' p).isSome → Up blocks'.pprev p genesis := by
  obtain ⟨prev, hprev'⟩ := Option.isSome_iff_exists.1 hprev
  cases hnew : blocks hash with
  | some e =>
    have hsame : addToBlockIndex blocks hash hashPrevBlock = some blocks := by
      unfold addToBlockIndex
      rw [hnew]
      rfl
    rw [hsame, Option.some.injEq] at hadd
    subst hadd
    exact ⟨h, fun p b hp => ⟨b, hp, rfl, rfl⟩, hroot⟩
  | none =>
    have hne : hashPrevBlock ≠ hash := by
      intro heq
      rw [heq, hnew] at hprev'
      cases hprev'
    have hnonneg := h.nonneg hprev'
    have hinserted : TreeInv (Function.update blocks hash (some ⟨some hashPrevBlock, none, prev.nHeight + 1⟩)) := by
      refine h.insert hnew rfl (by show 0 ≤ prev.nHeight + 1; omega) (fun hroot => (by cases hroot)) ?_
      intro q hq
      cases hq
      exact ⟨prev, hprev', rfl⟩
    have hkeep : Keeps blocks (Function.update blocks hash (some ⟨some hashPrevBlock, none, prev.nHeight + 1⟩)) :=
      keeps_insert hnew
    obtain ⟨built, hbuilt, htree, hsame⟩ := hinserted.buildSkip (Function.update_self ..)
    have hbuilt' : addToBlockIndex blocks hash hashPrevBlock = some built := by
      unfold addToBlockIndex
      rw [hnew, Option.isSome_none, if_neg Bool.false_ne_true]
      dsimp only
      rw [Function.update_of_ne hne, hprev']
      exact hbuilt
    rw [hbuilt', Option.some.injEq] at hadd
    subst hadd
    refine ⟨htree, fun p b hp => ?_, fun p hp => ?_⟩
    · obtain ⟨b₁, hb₁, hprev₁, hheight₁⟩ := hkeep p b hp
      obtain ⟨b₂, hb₂, hprev₂, hheight₂⟩ := hsame.some hb₁
      exact ⟨b₂, hb₂, hprev₂.trans hprev₁, hheight₂.trans hheight₁⟩
    · have hold {q : BlockPtr} {b : SkipEntry} (hq : blocks q = some b) : Up built.pprev q genesis := by
        obtain ⟨n, hn⟩ := exists_ascend (hroot q (by rw [hq]; rfl))
        rw [hsame.pprev]
        exact up_of_ascend ((hkeep.ascend_eq h hq).trans hn)
      by_cases heq : p = hash
      · subst heq
        refine (hold hprev').head ?_
        rw [hsame.pprev, pprev_eq (Function.update_self ..)]
      · obtain ⟨b', hb'⟩ := Option.isSome_iff_exists.1 hp
        obtain ⟨b₁, hb₁, -⟩ := hsame.symm.some hb'
        rw [Function.update_of_ne heq] at hb₁
        exact hold hb₁

theorem Known.mono {blocks' : BlockMap} (h : Known blocks state) (hkeep : Keeps blocks blocks') : Known blocks' state := by
  have hin {p : BlockPtr} (hp : (blocks p).isSome) : (blocks' p).isSome := by
    obtain ⟨b, hb⟩ := Option.isSome_iff_exists.1 hp
    obtain ⟨b', hb', -⟩ := hkeep p b hb
    rw [hb']
    rfl
  exact ⟨fun p hp => hin (h.best p hp), fun p hp => hin (h.common p hp)⟩

theorem syncInv_start (genesis : BlockPtr) (data : BlockPtr → BlockData) :
    SyncInv ⟨Function.update (fun _ => none) genesis (some ⟨none, none, 0⟩), data, [some genesis], ∅, ∅⟩ := by
  have hgenesis : (Function.update (fun _ => none) genesis (some ⟨none, none, 0⟩) : BlockMap) genesis = some ⟨none, none, 0⟩ :=
    Function.update_self ..
  have hempty : TreeInv fun _ => none := by
    constructor <;> intros <;> contradiction
  have htree : TreeInv (Function.update (fun _ => none) genesis (some ⟨none, none, 0⟩)) :=
    hempty.insert rfl rfl (le_refl 0) (fun _ => rfl) fun q hq => (by cases hq)
  refine ⟨htree, ⟨genesis, fun p hp => ?_⟩, ⟨genesis, _, hgenesis, rfl, fun i hi => ?_⟩, fun nodeid state h => (by simp at h)⟩
  · by_cases heq : p = genesis
    · rw [heq]
      exact .refl
    · simp [Function.update_of_ne heq] at hp
  · obtain rfl : i = 0 := by simpa using hi
    rfl

theorem Reached.inv (hs : Reached s) : SyncInv s := by
  induction hs with
  | start genesis data => exact syncInv_start genesis data
  | header hash hashPrevBlock _ hprev hadd ih =>
    obtain ⟨genesis, hroot⟩ := ih.rooted
    obtain ⟨htree, hkeep, hroot'⟩ := addToBlockIndex_rooted ih.tree hprev hadd hroot
    obtain ⟨tip, hof⟩ := ih.active
    refine ⟨htree, ⟨genesis, hroot'⟩, ?_, fun nodeid state hstate => (ih.known nodeid state hstate).mono hkeep⟩
    rcases ChainInv.mono ih.tree (.inr ⟨tip, hof⟩) hkeep with hempty | hof'
    · obtain ⟨b, -, hlength, -⟩ := hof
      rw [hempty] at hlength
      cases hlength
    · exact hof'
  | tip p _ hp hset ih =>
    obtain ⟨b, hb⟩ := Option.isSome_iff_exists.1 hp
    obtain ⟨vChain, hset', hof⟩ := setTip_spec ih.tree (.inr ih.active) hb
    rw [hset, Option.some.injEq] at hset'
    subst hset'
    exact ⟨ih.tree, ih.rooted, ⟨p, hof⟩, ih.known⟩
  | blocks data mapBlocksInFlight _ ih => exact ⟨ih.tree, ih.rooted, ih.active, ih.known⟩
  | connect nodeid _ ih =>
    refine ⟨ih.tree, ih.rooted, ih.active, fun id state hstate => ?_⟩
    rw [lookup_insertIfNew] at hstate
    split at hstate
    · cases hstate
      exact ⟨fun p hp => (by cases hp), fun p hp => (by cases hp)⟩
    · exact ih.known id state hstate
  | disconnect nodeid _ ih =>
    refine ⟨ih.tree, ih.rooted, ih.active, fun id state hstate => ?_⟩
    rw [lookup_erase] at hstate
    split at hstate
    · cases hstate
    · exact ih.known id state hstate
  | process nodeid _ hstate ih => exact ih.put (ih.known nodeid _ hstate).process
  | announce nodeid hash _ hstate ih => exact ih.put ((ih.known nodeid _ hstate).update hash)
  | @request s s' vBlocks nodeStaller' nodeid count nodeStaller _ hfind ih =>
    cases hstate : s.mapNodeState[nodeid]? with
    | none =>
      unfold findNextBlocksToDownload at hfind
      rw [hstate] at hfind
      split at hfind
      · cases hfind
        exact ih
      · cases hfind
    | some state =>
      obtain ⟨s₁, vBlocks₁, nodeStaller₁, hfind', hinv, -⟩ := ih.find hstate count nodeStaller
      rw [hfind] at hfind'
      cases hfind'
      exact hinv

/-- At most `count` blocks for a peer, the first ones of those that its best chain has behind
    the last common block; which is the highest common ancestor. -/
theorem findNextBlocksToDownload_spec (hs : SyncInv s) :
    (∀ (nodeid : NodeId) (state : CNodeState) (count : Nat) (nodeStaller : NodeId), s.mapNodeState[nodeid]? = some state →
      ∃ s' vBlocks nodeStaller', findNextBlocksToDownload s nodeid count [] nodeStaller = some (s', vBlocks, nodeStaller') ∧
        vBlocks.length ≤ count ∧ Finds s (processBlockAvailability s state) count vBlocks) ∧
    ∀ pa pb, (s.mapBlockIndex pa).isSome → (s.mapBlockIndex pb).isSome →
      ∃ f, lastCommonAncestor s.mapBlockIndex pa pb = some (some f) ∧ HighestCommon s.mapBlockIndex pa pb (some f) := by
  refine ⟨fun nodeid state count nodeStaller hstate => ?_, fun pa pb hpa hpb => hs.lastCommonAncestor hpa hpb⟩
  obtain ⟨s', vBlocks, nodeStaller', hfind, -, hcount, hfinds⟩ := hs.find hstate count nodeStaller
  exact ⟨s', vBlocks, nodeStaller', hfind, hcount, hfinds⟩

def genesisIndex : BlockMap := Function.update (fun _ => none) 1 (some ⟨none, none, 0⟩)

def forkIndex : BlockMap :=
  [(2, 1), (3, 1), (4, 3)].foldl (fun blocks p => (addToBlockIndex blocks p.1 p.2).getD blocks) genesisIndex

/-- The first block of the branch is being downloaded from peer 9; peer 7 has announced the second. -/
def forkState : SyncState :=
  ⟨forkIndex, fun p => ⟨p, ⟨5, decide (p ≤ 2), false, false, false⟩, p⟩, [some 1, some 2], Std.TreeMap.insert ∅ 3 (9, 0),
    Std.TreeMap.insert ∅ 7 ⟨some 4, 0, none⟩⟩

theorem reached_forkState : Reached forkState := by
  have hgenesis := Reached.start 1 forkState.data
  have hchild := Reached.header 2 1 hgenesis rfl (Option.some_get (show Option.isSome _ = true from rfl)).symm
  have hfork := Reached.header 3 1 hchild rfl (Option.some_get (show Option.isSome _ = true from rfl)).symm
  have hbest := Reached.header 4 3 hfork rfl (Option.some_get (show Option.isSome _ = true from rfl)).symm
  have htip := Reached.tip 2 hbest rfl (show _ = some [some 1, some 2] from rfl)
  have hflight := Reached.blocks forkState.data forkState.mapBlocksInFlight htip
  have hpeer := Reached.connect 7 hflight
  exact Reached.announce 7 4 hpeer rfl

theorem findNextBlocksToDownload_fork : ∃ s' vBlocks nodeStaller,
    findNextBlocksToDownload forkState 7 16 [] (-1) = some (s', vBlocks, nodeStaller) ∧ vBlocks = [4] ∧
      vBlocks.length ≤ 16 ∧ Finds forkState (processBlockAvailability forkState ⟨some 4, 0, none⟩) 16 vBlocks := by
  obtain ⟨s', vBlocks, nodeStaller, hfind, hcount, hfinds⟩ :=
    (findNextBlocksToDownload_spec reached_forkState.inv).1 7 ⟨some 4, 0, none⟩ 16 (-1) rfl
  have hrun : (findNextBlocksToDownload forkState 7 16 [] (-1)).map (·.2) = some ([4], -1) := rfl
  rw [hfind, Option.map_some, Option.some.injEq] at hrun
  exact ⟨s', vBlocks, nodeStaller, hfind, (Prod.mk.inj hrun).1, hcount, hfinds⟩

end Download

end Zumy.Main
