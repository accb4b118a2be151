/-
  Zumy.Announce.Ranks — masternodeman.cpp: the ranks of the masternodes at a block, as
  `GetMasternodeRank`, `GetMasternodeRanks` and `GetMasternodeByRank` each work them out.

  The three scans score and sort alike and filter differently. All ask for the protocol;
  then `GetMasternodeRank` takes the enabled masternodes, or without `fOnlyActive` those
  valid for payment; `GetMasternodeRanks`, which has no such flag, takes the enabled ones;
  `GetMasternodeByRank` takes the enabled ones, or without `fOnlyActive` all of them.

  - `ranks_differ`: a masternode that has expired takes the first rank from an enabled one.
-/
import Zumy.Announce.Verification
import Zumy.Lib.Ranking

namespace Zumy.Announce

open Lib

/-- `GetMasternodeRanks` -/
def getMasternodeRanks (env : Env) (hs : Hashes) (m : CMasternodeMan) (nBlockHeight nMinProtocol : Int) :
    List (Int × CMasternode) :=
  match env.getBlockHash nBlockHeight with
  | none => []
  | some blockHash =>
    let scored := m.vMasternodes.filter fun mn => !(mn.nProtocolVersion < nMinProtocol || !mn.isEnabled)
    let vecMasternodeScores := scored.map fun mn => (getCompact (mn.calculateScore hs blockHash), mn)
    (sortScores vecMasternodeScores).zipIdx.map fun s => ((s.2 : Int) + 1, s.1.2)

/-- `GetMasternodeByRank` -/
def getMasternodeByRank (env : Env) (hs : Hashes) (m : CMasternodeMan) (nRank nBlockHeight nMinProtocol : Int)
    (fOnlyActive : Bool) : Option CMasternode :=
  match env.getBlockHash nBlockHeight with
  | none => none
  | some blockHash =>
    let scored := m.vMasternodes.filter fun mn => !(mn.nProtocolVersion < nMinProtocol) && !(fOnlyActive && !mn.isEnabled)
    let vecMasternodeScores := scored.map fun mn => (getCompact (mn.calculateScore hs blockHash), mn)
    ((sortScores vecMasternodeScores).zipIdx.find? fun s => (s.2 : Int) + 1 == nRank).map (·.1.2)

def CMasternodeMan.Distinct (m : CMasternodeMan) : Prop := (m.vMasternodes.map (·.vin.prevout)).Nodup

def considered (env : Env) (m : CMasternodeMan) (nBlockHeight nMinProtocol : Int) (fOnlyActive fSentinel : Bool) :
    List CMasternode :=
  if (env.getBlockHash nBlockHeight).isNone then []
  else m.vMasternodes.filter fun mn =>
    !(mn.nProtocolVersion < nMinProtocol) && (if fOnlyActive then mn.isEnabled else mn.isValidForPayment fSentinel)

/-! ## One order -/

section

variable {env : Env} {hs : Hashes} {m : CMasternodeMan} {blockHash : Uint256} {l : List CMasternode} {mn : CMasternode}

def RanksBefore (hs : Hashes) (blockHash : Uint256) (mn1 mn2 : CMasternode) : Prop :=
  lessScore (getCompact (mn1.calculateScore hs blockHash), mn1) (getCompact (mn2.calculateScore hs blockHash), mn2) = false

instance (hs : Hashes) (blockHash : Uint256) : DecidableRel (RanksBefore hs blockHash) :=
  fun _ _ => inferInstanceAs (Decidable (_ = false))

theorem less_eq_false_iff {a b : CTxIn} : a.less b = false ↔ (compare b a).isLE = true := by
  have hswap : compare a b = (compare b a).swap := Std.OrientedCmp.eq_swap
  unfold CTxIn.less
  rw [hswap]
  cases compare b a <;> decide

theorem ranksBefore_iff {mn1 mn2 : CMasternode} : RanksBefore hs blockHash mn1 mn2 ↔
    getCompact (mn2.calculateScore hs blockHash) < getCompact (mn1.calculateScore hs blockHash) ∨
    (getCompact (mn2.calculateScore hs blockHash) = getCompact (mn1.calculateScore hs blockHash) ∧
      (compare mn2.vin mn1.vin).isLE = true) := by
  unfold RanksBefore lessScore
  dsimp only
  split
  · rename_i hne
    rw [decide_eq_false_iff_not]
    constructor
    · intro h
      exact .inl (by omega)
    · rintro (h | h)
      · omega
      · exact absurd h.1.symm hne
  · rename_i heq
    rw [not_not] at heq
    rw [less_eq_false_iff]
    constructor
    · intro h
      exact .inr ⟨heq.symm, h⟩
    · rintro (h | h)
      · omega
      · exact h.2

theorem vin_isLE_total (a b : CMasternode) : (compare a.vin b.vin).isLE = true ∨ (compare b.vin a.vin).isLE = true := by
  have hswap : compare b.vin a.vin = (compare a.vin b.vin).swap := Std.OrientedCmp.eq_swap
  rw [hswap]
  cases compare a.vin b.vin <;> decide

theorem vin_isLE_trans (a b c : CMasternode) : (compare a.vin b.vin).isLE = true → (compare b.vin c.vin).isLE = true →
    (compare a.vin c.vin).isLE = true :=
  Std.TransCmp.isLE_trans

theorem orders_ranksBefore (hl : (l.map (·.vin.prevout)).Nodup) : Orders (RanksBefore hs blockHash) l where
  total := by
    intro a b
    rw [ranksBefore_iff, ranksBefore_iff]
    exact lexicographic_total (fun mn : CMasternode => getCompact (mn.calculateScore hs blockHash)) vin_isLE_total b a
  trans := by
    intro a b d
    rw [ranksBefore_iff, ranksBefore_iff, ranksBefore_iff]
    exact fun hab hbd => lexicographic_trans (fun mn : CMasternode => getCompact (mn.calculateScore hs blockHash))
      vin_isLE_trans hbd hab
  antisymm := by
    intro a ha b hb hab hba
    rw [ranksBefore_iff] at hab hba
    have hsame : a.vin.prevout = b.vin.prevout := by
      rcases hab with hab | ⟨heq, hab⟩
      · rcases hba with hba | ⟨hba, -⟩
        · omega
        · omega
      · rcases hba with hba | ⟨-, hba⟩
        · omega
        · exact CTxIn.compare_eq_iff.1 (Std.OrientedCmp.isLE_antisymm hba hab)
    exact List.inj_on_of_nodup_map hl ha hb hsame
  nodup := hl.of_map _

theorem sortScores_eq (l : List CMasternode) : sortScores (l.map fun mn => (getCompact (mn.calculateScore hs blockHash), mn)) =
    (l.insertionSort (RanksBefore hs blockHash)).map fun mn => (getCompact (mn.calculateScore hs blockHash), mn) := by
  unfold sortScores
  symm
  exact List.map_insertionSort _ _ _ _ fun a _ b _ => Iff.rfl

/-! ## The three scans -/

variable {nBlockHeight nMinProtocol nRank : Int} {fOnlyActive fSentinel : Bool} {vin : CTxIn}

/-- The masternodes of the protocol that `GetMasternodeByRank` ranks. -/
def ranked (m : CMasternodeMan) (nMinProtocol : Int) (fOnlyActive : Bool) : List CMasternode :=
  m.vMasternodes.filter fun mn => !(mn.nProtocolVersion < nMinProtocol) && !(fOnlyActive && !mn.isEnabled)

theorem getMasternodeRank_iff (hblock : env.getBlockHash nBlockHeight = some blockHash) :
    getMasternodeRank env hs m vin nBlockHeight nMinProtocol fOnlyActive fSentinel = nRank ∧ 0 < nRank ↔
      ∃ i : Nat, nRank = i + 1 ∧ ((considered env m nBlockHeight nMinProtocol fOnlyActive fSentinel).insertionSort
        (RanksBefore hs blockHash)).findIdx? (isAt vin) = some i := by
  unfold getMasternodeRank considered
  rw [hblock, Option.isNone_some, if_neg Bool.false_ne_true]
  dsimp only
  have hpair : ((fun scorePair => isAt vin scorePair.2) ∘
      fun mn : CMasternode => (getCompact (mn.calculateScore hs blockHash), mn)) = isAt vin := rfl
  rw [sortScores_eq, List.findIdx?_map, hpair]
  cases List.findIdx? (isAt vin) _ with
  | none =>
    constructor
    · rintro ⟨rfl, hpos⟩
      exact absurd hpos (by decide)
    · rintro ⟨i, -, hnone⟩
      cases hnone
  | some i =>
    constructor
    · rintro ⟨rfl, -⟩
      exact ⟨i, rfl, rfl⟩
    · rintro ⟨j, rfl, hj⟩
      cases hj
      exact ⟨rfl, by omega⟩

theorem mem_getMasternodeRanks (hblock : env.getBlockHash nBlockHeight = some blockHash) (i : Nat) :
    ((i : Int) + 1, mn) ∈ getMasternodeRanks env hs m nBlockHeight nMinProtocol ↔
      ((ranked m nMinProtocol true).insertionSort (RanksBefore hs blockHash))[i]? = some mn := by
  have hsame : (fun mn : CMasternode => !(mn.nProtocolVersion < nMinProtocol || !mn.isEnabled)) =
      fun mn => !(mn.nProtocolVersion < nMinProtocol) && !(true && !mn.isEnabled) := by
    funext mn
    rw [Bool.not_or, Bool.true_and]
  unfold getMasternodeRanks ranked
  rw [hblock, hsame]
  dsimp only
  rw [sortScores_eq, List.mem_map]
  constructor
  · rintro ⟨s, hs, heq⟩
    rw [List.mem_zipIdx_iff_getElem?, List.getElem?_map, Option.map_eq_some_iff] at hs
    obtain ⟨mn', hmn', hs⟩ := hs
    rw [Prod.mk.injEq] at heq
    have hi : s.2 = i := by omega
    rw [← hi, hmn', ← heq.2, ← hs]
  · intro hmn
    refine ⟨((getCompact (mn.calculateScore hs blockHash), mn), i), ?_, rfl⟩
    rw [List.mem_zipIdx_iff_getElem?, List.getElem?_map, hmn, Option.map_some]

theorem getMasternodeByRank_eq (hblock : env.getBlockHash nBlockHeight = some blockHash) (i : Nat) :
    getMasternodeByRank env hs m (i + 1) nBlockHeight nMinProtocol fOnlyActive =
      ((ranked m nMinProtocol fOnlyActive).insertionSort (RanksBefore hs blockHash))[i]? := by
  unfold getMasternodeByRank ranked
  rw [hblock]
  dsimp only
  rw [sortScores_eq]
  generalize List.insertionSort (RanksBefore hs blockHash) _ = s
  cases hi : s[i]? with
  | none =>
    have hlen : s.length ≤ i := List.getElem?_eq_none_iff.1 hi
    rw [Option.map_eq_none_iff, List.find?_eq_none]
    intro x hx
    have hlt : x.2 < s.length := by simpa using (List.mem_zipIdx hx).2.1
    simp only [beq_iff_eq]
    omega
  | some mn =>
    rw [Option.map_eq_some_iff]
    refine ⟨((getCompact (mn.calculateScore hs blockHash), mn), i), ?_, rfl⟩
    rw [List.find?_eq_some_iff_getElem]
    have hlt : i < s.length := (List.getElem?_eq_some_iff.1 hi).1
    refine ⟨beq_self_eq_true _, i, by simpa using hlt, ?_, ?_⟩
    · simp [(List.getElem?_eq_some_iff.1 hi).2]
    · intro j hj
      simp only [List.getElem_zipIdx, Bool.not_eq_true', beq_eq_false_iff_ne, ne_eq]
      omega

/-! ## Agreement -/

/-- A rank `GetMasternodeRank` gives is the one the other two have for the masternode. -/
def RanksAgree (env : Env) (hs : Hashes) (m : CMasternodeMan) (nBlockHeight nMinProtocol : Int)
    (fOnlyActive fSentinel : Bool) : Prop :=
  ∀ (vin : CTxIn) (nRank : Int), getMasternodeRank env hs m vin nBlockHeight nMinProtocol fOnlyActive fSentinel = nRank →
    0 < nRank → ∃ mn, mn.vin.prevout = vin.prevout ∧
      getMasternodeByRank env hs m nRank nBlockHeight nMinProtocol fOnlyActive = some mn ∧
      (nRank, mn) ∈ getMasternodeRanks env hs m nBlockHeight nMinProtocol

/-- A masternode that is not enabled is not valid for payment, and ranks in front of no enabled one. -/
def EnabledLead (hs : Hashes) (m : CMasternodeMan) (blockHash : Uint256) (nMinProtocol : Int) (fSentinel : Bool) : Prop :=
  ∀ mn' ∈ m.vMasternodes, nMinProtocol ≤ mn'.nProtocolVersion → mn'.isEnabled = false →
    mn'.isValidForPayment fSentinel = false ∧
    ∀ mn ∈ m.vMasternodes, nMinProtocol ≤ mn.nProtocolVersion → mn.isEnabled = true → RanksBefore hs blockHash mn mn'

theorem mem_ranked : mn ∈ ranked m nMinProtocol fOnlyActive ↔
    mn ∈ m.vMasternodes ∧ nMinProtocol ≤ mn.nProtocolVersion ∧ (fOnlyActive = true → mn.isEnabled = true) := by
  unfold ranked
  rw [List.mem_filter]
  cases fOnlyActive <;> simp

theorem mem_considered (hblock : env.getBlockHash nBlockHeight = some blockHash) :
    mn ∈ considered env m nBlockHeight nMinProtocol fOnlyActive fSentinel ↔
      mn ∈ m.vMasternodes ∧ nMinProtocol ≤ mn.nProtocolVersion ∧
        (if fOnlyActive then mn.isEnabled else mn.isValidForPayment fSentinel) = true := by
  unfold considered
  rw [hblock, Option.isNone_some, if_neg Bool.false_ne_true, List.mem_filter]
  simp

theorem considered_sublist : (considered env m nBlockHeight nMinProtocol fOnlyActive fSentinel).Sublist m.vMasternodes := by
  unfold considered
  split
  · exact List.nil_sublist _
  · exact List.filter_sublist

theorem CMasternodeMan.Distinct.orders (hm : m.Distinct) (hl : l.Sublist m.vMasternodes) : Orders (RanksBefore hs blockHash) l :=
  orders_ranksBefore (hm.sublist (hl.map _))

theorem mem_of_sorted_getElem? {i : Nat} (hl : l.Sublist m.vMasternodes)
    (hi : (l.insertionSort (RanksBefore hs blockHash))[i]? = some mn) : mn ∈ m.vMasternodes :=
  hl.subset ((List.mem_insertionSort _).1 (List.mem_of_getElem? hi))

/-- Where no outpoint is listed twice, the scan for one stops at its masternode. -/
theorem findIdx?_sorted (hm : m.Distinct) (hl : l.Sublist m.vMasternodes) {i : Nat}
    (hi : (l.insertionSort (RanksBefore hs blockHash))[i]? = some mn) :
    (l.insertionSort (RanksBefore hs blockHash)).findIdx? (isAt mn.vin) = some i := by
  have horders : Orders (RanksBefore hs blockHash) l := hm.orders hl
  have hnodup := horders.nodup_sorted
  have hmem : ∀ x ∈ l.insertionSort (RanksBefore hs blockHash), x ∈ m.vMasternodes := fun x hx =>
    hl.subset ((List.mem_insertionSort _).1 hx)
  generalize l.insertionSort (RanksBefore hs blockHash) = s at hi hnodup hmem
  obtain ⟨hlt, hmn⟩ := List.getElem?_eq_some_iff.1 hi
  rw [List.findIdx?_eq_some_iff_getElem]
  refine ⟨hlt, by rw [hmn]; exact beq_self_eq_true _, ?_⟩
  intro j hj
  have hjlt : j < s.length := by omega
  have hne : s[j] ≠ mn := by
    intro heq
    rw [← hmn] at heq
    exact absurd (hnodup.getElem_inj_iff.1 heq) (by omega)
  intro hat
  have hsame : s[j].vin.prevout = mn.vin.prevout := by simpa [isAt] using hat
  exact hne (List.inj_on_of_nodup_map hm (hmem _ (List.getElem_mem hjlt)) (hmem mn (hmn ▸ List.getElem_mem hlt)) hsame)

/-- The ranks agree when those of `GetMasternodeRank` are the first of the other two. -/
theorem ranksAgree_iff_isPrefix (hm : m.Distinct) (hblock : env.getBlockHash nBlockHeight = some blockHash) :
    RanksAgree env hs m nBlockHeight nMinProtocol fOnlyActive fSentinel ↔
      (considered env m nBlockHeight nMinProtocol fOnlyActive fSentinel).insertionSort (RanksBefore hs blockHash) <+:
        (ranked m nMinProtocol fOnlyActive).insertionSort (RanksBefore hs blockHash) ∧
      (considered env m nBlockHeight nMinProtocol fOnlyActive fSentinel).insertionSort (RanksBefore hs blockHash) <+:
        (ranked m nMinProtocol true).insertionSort (RanksBefore hs blockHash) := by
  constructor
  · intro hagree
    have hplace : ∀ (i : Nat) mn, ((considered env m nBlockHeight nMinProtocol fOnlyActive fSentinel).insertionSort
        (RanksBefore hs blockHash))[i]? = some mn →
        ((ranked m nMinProtocol fOnlyActive).insertionSort (RanksBefore hs blockHash))[i]? = some mn ∧
        ((ranked m nMinProtocol true).insertionSort (RanksBefore hs blockHash))[i]? = some mn := by
      intro i mn hi
      obtain ⟨hrank, hpos⟩ := (getMasternodeRank_iff hblock).2 ⟨i, rfl, findIdx?_sorted hm considered_sublist hi⟩
      obtain ⟨mn', hsame, hby, hranks⟩ := hagree mn.vin (i + 1) hrank hpos
      rw [getMasternodeByRank_eq hblock] at hby
      rw [mem_getMasternodeRanks hblock] at hranks
      have heq : mn' = mn := List.inj_on_of_nodup_map hm (mem_of_sorted_getElem? List.filter_sublist hby)
        (mem_of_sorted_getElem? considered_sublist hi) hsame
      rw [heq] at hby hranks
      exact ⟨hby, hranks⟩
    rw [List.prefix_iff_getElem?, List.prefix_iff_getElem?]
    exact ⟨fun i hi => (hplace i _ (List.getElem?_eq_getElem hi)).1, fun i hi => (hplace i _ (List.getElem?_eq_getElem hi)).2⟩
  · rintro ⟨hby, hranks⟩ vin nRank hrank hpos
    obtain ⟨i, rfl, hi⟩ := (getMasternodeRank_iff hblock).1 ⟨hrank, hpos⟩
    obtain ⟨hlt, hat, -⟩ := List.findIdx?_eq_some_iff_getElem.1 hi
    rw [List.prefix_iff_getElem?] at hby hranks
    refine ⟨_, beq_iff_eq.1 hat, ?_, ?_⟩
    · rw [getMasternodeByRank_eq hblock]
      exact hby i hlt
    · rw [mem_getMasternodeRanks hblock]
      exact hranks i hlt

theorem considered_onlyActive (hblock : env.getBlockHash nBlockHeight = some blockHash) :
    considered env m nBlockHeight nMinProtocol true fSentinel = ranked m nMinProtocol true := by
  unfold considered ranked
  rw [hblock, Option.isNone_some, if_neg Bool.false_ne_true]
  apply List.filter_congr
  intro mn _
  simp

/-- Without `fOnlyActive` they take the same when only enabled masternodes are valid for payment. -/
theorem considered_eq_filter (hblock : env.getBlockHash nBlockHeight = some blockHash)
    (hvalid : ∀ mn ∈ considered env m nBlockHeight nMinProtocol false fSentinel, mn.isEnabled = true) :
    considered env m nBlockHeight nMinProtocol false fSentinel = ranked m nMinProtocol true ∧
    ranked m nMinProtocol true = (ranked m nMinProtocol false).filter (·.isEnabled) := by
  constructor
  · unfold considered ranked
    unfold considered at hvalid
    rw [hblock, Option.isNone_some, if_neg Bool.false_ne_true] at hvalid ⊢
    apply List.filter_congr
    intro mn hmn
    cases hproto : !decide (mn.nProtocolVersion < nMinProtocol) with
    | false => rfl
    | true =>
      have hthen : mn.isValidForPayment fSentinel = true → mn.isEnabled = true := by
        intro hv
        exact hvalid mn (List.mem_filter.2 ⟨hmn, by rw [hproto]; exact hv⟩)
      rw [if_neg Bool.false_ne_true, Bool.true_and, Bool.true_and, Bool.true_and, Bool.not_not, Bool.eq_iff_iff]
      refine ⟨hthen, fun hen => ?_⟩
      unfold CMasternode.isValidForPayment
      rw [hen, Bool.true_or]
  · unfold ranked
    rw [List.filter_filter]
    apply List.filter_congr
    intro mn _
    simp [Bool.and_comm]

theorem ranksAgree_iff_enabledLead (hm : m.Distinct) (hblock : env.getBlockHash nBlockHeight = some blockHash) :
    RanksAgree env hs m nBlockHeight nMinProtocol false fSentinel ↔ EnabledLead hs m blockHash nMinProtocol fSentinel := by
  have horders : Orders (RanksBefore hs blockHash) (ranked m nMinProtocol false) := hm.orders List.filter_sublist
  rw [ranksAgree_iff_isPrefix hm hblock]
  constructor
  · rintro ⟨hby, hranks⟩
    have hvalid : ∀ mn ∈ considered env m nBlockHeight nMinProtocol false fSentinel, mn.isEnabled = true := by
      intro mn hmn
      have hin := hranks.subset ((List.mem_insertionSort _).2 hmn)
      rw [List.mem_insertionSort, mem_ranked] at hin
      exact hin.2.2 rfl
    obtain ⟨hsame, hfilter⟩ := considered_eq_filter hblock hvalid
    rw [hsame, hfilter, sorted_filter_isPrefix_iff horders] at hby
    intro mn' hmn' hproto' hno
    constructor
    · rw [Bool.eq_false_iff]
      intro hv
      have hen := hvalid mn' ((mem_considered hblock).2 ⟨hmn', hproto', hv⟩)
      rw [hno] at hen
      cases hen
    · intro mn hmn hproto hen
      exact hby mn (mem_ranked.2 ⟨hmn, hproto, fun h => by cases h⟩) mn' (mem_ranked.2 ⟨hmn', hproto', fun h => by cases h⟩) hen hno
  · intro hlead
    have hvalid : ∀ mn ∈ considered env m nBlockHeight nMinProtocol false fSentinel, mn.isEnabled = true := by
      intro mn hmn
      obtain ⟨hin, hproto, hv⟩ := (mem_considered hblock).1 hmn
      by_contra hno
      have hnot := (hlead mn hin hproto (by simpa using hno)).1
      rw [if_neg Bool.false_ne_true, hnot] at hv
      cases hv
    obtain ⟨hsame, hfilter⟩ := considered_eq_filter hblock hvalid
    rw [hsame]
    refine ⟨?_, List.prefix_refl _⟩
    rw [hfilter, sorted_filter_isPrefix_iff horders]
    intro mn hmn mn' hmn' hen hno
    rw [mem_ranked] at hmn hmn'
    exact (hlead mn' hmn'.1 hmn'.2.1 hno).2 mn hmn.1 hmn.2.1 hen

theorem ranksAgree_onlyActive (hm : m.Distinct) (hblock : env.getBlockHash nBlockHeight = some blockHash) :
    RanksAgree env hs m nBlockHeight nMinProtocol true fSentinel := by
  rw [ranksAgree_iff_isPrefix hm hblock, considered_onlyActive hblock]
  exact ⟨List.prefix_refl _, List.prefix_refl _⟩

theorem ranksAgree_unknown (hblock : env.getBlockHash nBlockHeight = none) :
    RanksAgree env hs m nBlockHeight nMinProtocol fOnlyActive fSentinel := by
  intro vin nRank hrank hpos
  unfold getMasternodeRank at hrank
  rw [hblock] at hrank
  dsimp only at hrank
  omega

theorem ranks_bijOn (hm : m.Distinct) :
    Set.BijOn (fun mn : CMasternode => getMasternodeRank env hs m mn.vin nBlockHeight nMinProtocol fOnlyActive fSentinel)
      {mn | mn ∈ considered env m nBlockHeight nMinProtocol fOnlyActive fSentinel}
      (Set.Icc 1 ((considered env m nBlockHeight nMinProtocol fOnlyActive fSentinel).length : Int)) := by
  cases hblock : env.getBlockHash nBlockHeight with
  | none =>
    have hnil : considered env m nBlockHeight nMinProtocol fOnlyActive fSentinel = [] := by
      unfold considered
      rw [hblock]
      rfl
    rw [hnil]
    exact bijOn_places fun i a hi => by cases hi
  | some blockHash =>
    have hplace : ∀ (i : Nat) (mn : CMasternode), ((considered env m nBlockHeight nMinProtocol fOnlyActive fSentinel).insertionSort
        (RanksBefore hs blockHash))[i]? = some mn →
        getMasternodeRank env hs m mn.vin nBlockHeight nMinProtocol fOnlyActive fSentinel = i + 1 := by
      intro i mn hi
      exact ((getMasternodeRank_iff hblock).2 ⟨i, rfl, findIdx?_sorted hm considered_sublist hi⟩).1
    have hplaces := bijOn_places hplace
    rw [List.length_insertionSort] at hplaces
    simpa only [List.mem_insertionSort] using hplaces

end

/-- The ranks of `GetMasternodeRank` number the masternodes it considers from 1. The other two functions agree
    with `fOnlyActive`, and without it just when the enabled masternodes lead. -/
theorem ranks_agree_iff (env : Env) (hs : Hashes) (m : CMasternodeMan) (nBlockHeight nMinProtocol : Int)
    (fOnlyActive fSentinel : Bool) (hm : m.Distinct) :
    Set.BijOn (fun mn : CMasternode => getMasternodeRank env hs m mn.vin nBlockHeight nMinProtocol fOnlyActive fSentinel)
      {mn | mn ∈ considered env m nBlockHeight nMinProtocol fOnlyActive fSentinel}
      (Set.Icc 1 ((considered env m nBlockHeight nMinProtocol fOnlyActive fSentinel).length : Int)) ∧
    (RanksAgree env hs m nBlockHeight nMinProtocol fOnlyActive fSentinel ↔
      fOnlyActive = true ∨
      ∀ blockHash, env.getBlockHash nBlockHeight = some blockHash → EnabledLead hs m blockHash nMinProtocol fSentinel) := by
  refine ⟨ranks_bijOn hm, ?_⟩
  cases hblock : env.getBlockHash nBlockHeight with
  | none => exact iff_of_true (ranksAgree_unknown hblock) (.inr fun blockHash h => by cases h)
  | some blockHash =>
    cases fOnlyActive with
    | true => exact iff_of_true (ranksAgree_onlyActive hm hblock) (.inl rfl)
    | false =>
      rw [ranksAgree_iff_enabledLead hm hblock]
      constructor
      · intro hlead
        refine .inr fun blockHash' h => ?_
        cases h
        exact hlead
      · rintro (hno | hlead)
        · cases hno
        · exact hlead blockHash rfl

/-! ## Two masternodes -/

def oneExpired : CMasternodeMan :=
  let mn (k : Nat) (nActiveState : State) : CMasternode :=
    { (Announcement.read ⟨inputOf k, ⟨[10, 0, 0, 1], 32000⟩, [1], [2], [1], 1000, 80005, nullPing⟩).toMasternode with
      nActiveState := nActiveState }
  { CMasternodeMan.init with vMasternodes := [mn 1 .enabled, mn 2 .expired] }

instance (m : CMasternodeMan) : Decidable m.Distinct := inferInstanceAs (Decidable (List.Nodup _))

theorem ranks_differ : ¬ ∀ (env : Env) (hs : Hashes) (m : CMasternodeMan) (nBlockHeight nMinProtocol : Int)
    (fOnlyActive fSentinel : Bool), m.Distinct → RanksAgree env hs m nBlockHeight nMinProtocol fOnlyActive fSentinel := by
  intro h
  obtain ⟨mn, hat, hby, -⟩ := h (sampleEnv 1000) sampleHashes oneExpired 10 0 false true (by decide) (inputOf 1) 1
    (by decide +kernel) (by decide)
  have hfirst : (getMasternodeByRank (sampleEnv 1000) sampleHashes oneExpired 1 10 0 false).map (·.vin.prevout) =
      some (inputOf 2).prevout := by decide +kernel
  rw [hby, Option.map_some, Option.some.injEq, hat] at hfirst
  exact absurd hfirst (by decide)

/-- Among the enabled ones the three agree there. -/
theorem ranks_agree_of_enabled : RanksAgree (sampleEnv 1000) sampleHashes oneExpired 10 0 true true :=
  (ranks_agree_iff (sampleEnv 1000) sampleHashes oneExpired 10 0 true true (by decide)).2.2 (.inl rfl)

end Zumy.Announce
