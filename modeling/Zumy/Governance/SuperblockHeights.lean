/-
  Zumy.Governance.SuperblockHeights — the height a trigger names and the heights at which it
  is taken.

  Both scans compare the height with `nSuperblockCycle`, where the trigger's own
  `event_block_height` (`nEpochStart`) is meant: the log line beside one of them has it as
  `blockStart`. So a trigger is taken at one height of a network only, and there any trigger.

  - `reports_iff`, `getBestSuperblock_eq_some_iff`: the trigger that each scan ends with.
  - `own_height_iff`: the heights and triggers for which that is the trigger's own height
    and no trigger of the height is missed.
-/
import Zumy.Governance.SuperblockTriggers

namespace Zumy.Governance

open Lib CSuperblock CSuperblockManager

variable {cs : ConsensusParams} {cx : SentinelContext} {mapTrigger : Triggers} {mapObjects : Objects} {nBlockHeight : Int}
variable {sb : CSuperblock}

/-- `IsSuperblockTriggered` returns true when it comes to this trigger. -/
def Reports (cs : ConsensusParams) (cx : SentinelContext) (mapTrigger : Triggers) (mapObjects : Objects) (nBlockHeight : Int)
    (sb : CSuperblock) : Prop :=
  isValidBlockHeight cs nBlockHeight = true ∧ ∃ before behind, getActiveTriggers mapTrigger mapObjects = before ++ sb :: behind ∧
    (anyTriggered cs cx nBlockHeight mapObjects before).1 = false ∧
      (anyTriggered cs cx nBlockHeight mapObjects (before ++ [sb])).1 = true

def FirstFunded (cx : SentinelContext) (mapTrigger : Triggers) (mapObjects : Objects) (sb : CSuperblock) : Prop :=
  ∃ before behind, getActiveTriggers mapTrigger mapObjects = before ++ sb :: behind ∧ funded cx mapObjects sb = true ∧
    ∀ x ∈ before, funded cx mapObjects x = false

def FirstBest (mapTrigger : Triggers) (mapObjects : Objects) (sb : CSuperblock) : Prop :=
  ∃ n, Leads (yesCount mapObjects) 0 (getActiveTriggers mapTrigger mapObjects) sb n

/-- A trigger is reported, the best one and paid at its own height only, and a funded one of the height is executed. -/
structure TriggeredAtOwnHeight (cs : ConsensusParams) (cx : SentinelContext) (mapTrigger : Triggers) (mapObjects : Objects)
    (nBlockHeight : Int) : Prop where
  reported : ∀ sb, Reports cs cx mapTrigger mapObjects nBlockHeight sb → sb.nEpochStart = nBlockHeight
  best : ∀ sb, getBestSuperblock cs mapTrigger mapObjects nBlockHeight = some sb → sb.nEpochStart = nBlockHeight
  paid : ∀ txNew voutSuperblock,
    createSuperblock cs mapTrigger mapObjects txNew nBlockHeight voutSuperblock = (txNew, voutSuperblock) ∨
    ∃ sb ∈ getActiveTriggers mapTrigger mapObjects, sb.nEpochStart = nBlockHeight ∧
      createSuperblock cs mapTrigger mapObjects txNew nBlockHeight voutSuperblock =
        ({ txNew with vout := txNew.vout ++ sb.outputs }, sb.outputs)
  executed : isValidBlockHeight cs nBlockHeight = true → ∀ sb ∈ getActiveTriggers mapTrigger mapObjects,
    sb.nEpochStart = nBlockHeight → funded cx mapObjects sb = true →
      (isSuperblockTriggered cs cx mapTrigger mapObjects nBlockHeight).1 = true

/-- At the one height `nSuperblockCycle` the first funded and the first best trigger are of this height; at another
    superblock height no funded trigger is of that height. -/
structure HeightsMatch (cs : ConsensusParams) (cx : SentinelContext) (mapTrigger : Triggers) (mapObjects : Objects)
    (nBlockHeight : Int) : Prop where
  atCycle : isValidBlockHeight cs nBlockHeight = true → nBlockHeight = cs.nSuperblockCycle → ∀ sb,
    FirstFunded cx mapTrigger mapObjects sb ∨ FirstBest mapTrigger mapObjects sb → sb.nEpochStart = nBlockHeight
  elsewhere : isValidBlockHeight cs nBlockHeight = true → nBlockHeight ≠ cs.nSuperblockCycle →
    ∀ sb ∈ getActiveTriggers mapTrigger mapObjects, funded cx mapObjects sb = true → sb.nEpochStart ≠ nBlockHeight

/-! ## The two scans -/

theorem reports_iff : Reports cs cx mapTrigger mapObjects nBlockHeight sb ↔
    isValidBlockHeight cs nBlockHeight = true ∧ nBlockHeight = cs.nSuperblockCycle ∧ FirstFunded cx mapTrigger mapObjects sb := by
  have hspec (l : List CSuperblock) := (anyTriggered_spec cs cx nBlockHeight mapObjects l).1
  constructor
  · rintro ⟨hvalid, before, behind, hactive, hbefore, hat⟩
    obtain ⟨hheight, x, hx, hfunded⟩ := (hspec _).1 hat
    have hnone : ∀ x ∈ before, funded cx mapObjects x = false := by
      intro x hx
      by_contra hne
      rw [(hspec before).2 ⟨hheight, x, hx, by simpa using hne⟩] at hbefore
      cases hbefore
    refine ⟨hvalid, hheight, before, behind, hactive, ?_, hnone⟩
    rcases List.mem_append.1 hx with hx | hx
    · rw [hnone x hx] at hfunded
      cases hfunded
    · exact List.mem_singleton.1 hx ▸ hfunded
  · rintro ⟨hvalid, hheight, before, behind, hactive, hfunded, hnone⟩
    refine ⟨hvalid, before, behind, hactive, ?_, (hspec _).2 ⟨hheight, sb, by simp, hfunded⟩⟩
    by_contra hne
    obtain ⟨-, x, hx, hfx⟩ := (hspec before).1 (by simpa using hne)
    rw [hnone x hx] at hfx
    cases hfx

theorem getBestSuperblock_eq_some_iff : getBestSuperblock cs mapTrigger mapObjects nBlockHeight = some sb ↔
    isValidBlockHeight cs nBlockHeight = true ∧ nBlockHeight = cs.nSuperblockCycle ∧ FirstBest mapTrigger mapObjects sb := by
  unfold getBestSuperblock FirstBest
  by_cases hvalid : isValidBlockHeight cs nBlockHeight = true
  · by_cases hheight : nBlockHeight = cs.nSuperblockCycle
    · subst hheight
      simp only [hvalid, Bool.not_true, Bool.false_eq_true, if_false, true_and, better_eq_keepBetter rfl,
        ← foldl_keepBetter_eq_iff]
      generalize hbest : (getActiveTriggers mapTrigger mapObjects).foldl (keepBetter (yesCount mapObjects)) (none, 0) = best
      obtain ⟨o, n⟩ := best
      constructor
      · intro h
        split at h
        · exact ⟨n, Prod.ext h rfl⟩
        · cases h
      · rintro ⟨m, hm⟩
        obtain ⟨rfl, rfl⟩ := Prod.mk.inj hm
        obtain ⟨-, -, -, -, hpos, -⟩ := foldl_keepBetter_eq_iff.1 hbest
        exact if_pos hpos
    · have hskip : better cs mapObjects nBlockHeight = fun best _ => best := by
        funext best sb
        unfold better
        cases mapObjects[sb.nGovObjHash]? <;> simp [hheight]
      have hfold (l : List CSuperblock) (best : Option CSuperblock × Int) : l.foldl (fun best _ => best) best = best := by
        induction l with
        | nil => rfl
        | cons x l ih => exact ih
      simp [hvalid, hheight, hskip, hfold]
  · simp [hvalid]

theorem FirstBest.mem (h : FirstBest mapTrigger mapObjects sb) : sb ∈ getActiveTriggers mapTrigger mapObjects := by
  obtain ⟨n, before, behind, hactive, -⟩ := h
  simp [hactive]

theorem createSuperblock_eq (txNew : CTransaction) (voutSuperblock : List CTxOut) :
    createSuperblock cs mapTrigger mapObjects txNew nBlockHeight voutSuperblock =
      (getBestSuperblock cs mapTrigger mapObjects nBlockHeight).elim (txNew, voutSuperblock) fun sb =>
        ({ txNew with vout := txNew.vout ++ sb.outputs }, sb.outputs) := by
  unfold createSuperblock
  cases getBestSuperblock cs mapTrigger mapObjects nBlockHeight <;> rfl

/-! ## A trigger's own height -/

theorem own_height_iff (cs : ConsensusParams) (cx : SentinelContext) (mapTrigger : Triggers) (mapObjects : Objects)
    (nBlockHeight : Int) :
    TriggeredAtOwnHeight cs cx mapTrigger mapObjects nBlockHeight ↔ HeightsMatch cs cx mapTrigger mapObjects nBlockHeight := by
  constructor
  · intro h
    refine ⟨fun hvalid hheight sb hfirst => ?_, fun hvalid hheight sb hactive hfunded hstart => ?_⟩
    · rcases hfirst with hfirst | hfirst
      · exact h.reported sb (reports_iff.2 ⟨hvalid, hheight, hfirst⟩)
      · exact h.best sb (getBestSuperblock_eq_some_iff.2 ⟨hvalid, hheight, hfirst⟩)
    · exact hheight (isSuperblockTriggered_iff.1 (h.executed hvalid sb hactive hstart hfunded)).2.1
  · intro h
    have hbest (sb : CSuperblock) (hsome : getBestSuperblock cs mapTrigger mapObjects nBlockHeight = some sb) :
        sb ∈ getActiveTriggers mapTrigger mapObjects ∧ sb.nEpochStart = nBlockHeight := by
      obtain ⟨hvalid, hheight, hfirst⟩ := getBestSuperblock_eq_some_iff.1 hsome
      exact ⟨hfirst.mem, h.atCycle hvalid hheight sb (.inr hfirst)⟩
    refine ⟨fun sb hreports => ?_, fun sb hsome => (hbest sb hsome).2, fun txNew voutSuperblock => ?_,
      fun hvalid sb hactive hstart hfunded => ?_⟩
    · obtain ⟨hvalid, hheight, hfirst⟩ := reports_iff.1 hreports
      exact h.atCycle hvalid hheight sb (.inl hfirst)
    · rw [createSuperblock_eq]
      cases hsome : getBestSuperblock cs mapTrigger mapObjects nBlockHeight with
      | none => exact .inl rfl
      | some sb => exact .inr ⟨sb, (hbest sb hsome).1, (hbest sb hsome).2, rfl⟩
    · by_cases hheight : nBlockHeight = cs.nSuperblockCycle
      · exact isSuperblockTriggered_iff.2 ⟨hvalid, hheight, sb, hactive, hfunded⟩
      · exact absurd hstart (h.elsewhere hvalid hheight sb hactive hfunded)

def trigger9Of48 : Triggers := {(9, { trigger9Pays 0 rfl with nEpochStart := 48 })}

/-- At its own height it is not triggered, at the height before it is. -/
theorem trigger_of_48_missed :
    (isSuperblockTriggered testNetParams oneEnabled trigger9Of48 fundedObjects 48).1 = false ∧
    (isSuperblockTriggered testNetParams oneEnabled trigger9Of48 fundedObjects 24).1 = true ∧
    getBestSuperblock testNetParams trigger9Of48 fundedObjects 24 = some { trigger9Pays 0 rfl with nEpochStart := 48 } ∧
    ¬ ∀ (cs : ConsensusParams) (cx : SentinelContext) (mapTrigger : Triggers) (mapObjects : Objects) (nBlockHeight : Int),
      TriggeredAtOwnHeight cs cx mapTrigger mapObjects nBlockHeight := by
  have hbest : getBestSuperblock testNetParams trigger9Of48 fundedObjects 24 =
    some { trigger9Pays 0 rfl with nEpochStart := 48 } := by decide
  refine ⟨by decide, by decide, hbest, fun h => ?_⟩
  have hstart := (h testNetParams oneEnabled trigger9Of48 fundedObjects 24).best _ hbest
  exact absurd hstart (by decide)

end Zumy.Governance
