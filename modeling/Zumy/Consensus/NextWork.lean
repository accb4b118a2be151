/-
  Zumy.Consensus.NextWork — pow.cpp: GetNextWorkRequired, the target of the next block by the
  times and the targets of the blocks before it.

  One loop takes the running mean of the targets, back from the last block, until a test on
  floating-point numbers ends it. The test is a parameter: any choice, from the turn on at which
  it is made. Two numbers are averaged then: the mean, scaled by the seconds that its blocks
  took, and the last target, scaled by the last interval, which is kept near the spacing. A
  `pprev` that is null, and a division by zero, are `none`.

  Proved, for the three networks, every chain whose targets are within the limit, any times, and
  every choice of the loop's end:
  - `getNextWorkRequired_exact`: each operation is the one on natural numbers, and so the answer
    is, exactly when the two products fit in 256 bits.

  The first product does not always fit: at the lowest difficulty of the main network blocks
  that took 65538 seconds are enough (`stalled_harder`), and the next target is a hard one.
-/
import Zumy.Arith.Compact

namespace Zumy.Consensus

open Zumy.Lib Zumy.Arith

/-! ## Parameters and blocks -/

structure PowParams where
  powLimit : ArithUint256
  nPowTargetSpacing : Nat

inductive Network where
  | main
  | test
  | regtest
  deriving DecidableEq, Repr

/-- The limits of chainparams.cpp, `0000ffff…` and `00ffffff…`. -/
def Network.params : Network → PowParams
  | .main => ⟨⟨List.replicate 7 0xffffffff ++ [0x0000ffff], rfl⟩, 2 * 64⟩
  | .test => ⟨⟨List.replicate 7 0xffffffff ++ [0x00ffffff], rfl⟩, 10⟩
  | .regtest => ⟨⟨List.replicate 7 0xffffffff ++ [0x00ffffff], rfl⟩, 2 * 64⟩

/-- What the index keeps of a block; a chain is a list of them, the last block first. -/
structure BlockHeader where
  nHeight : Nat
  nTime : Word
  nBits : Word

def BlockHeader.getBlockTime (b : BlockHeader) : Int := b.nTime.toNat

/-- Each block is one higher than the one before it, and the first is at zero. -/
def Linked : List BlockHeader → Prop
  | [] => True
  | b :: rest => b.nHeight = rest.length ∧ Linked rest

def bnTarget (b : BlockHeader) : ArithUint256 := (setCompact b.nBits).target

/-! ## The code -/

/-- The value of an `int64_t`. -/
def int64 (x : Int) : Int := x.bmod (2 ^ 64)

namespace PowParams

variable (p : PowParams)

def pastBlocksMin : Nat := 2160 / p.nPowTargetSpacing
def pastBlocksMax : Nat := 604800 / p.nPowTargetSpacing

end PowParams

/-- An `unsigned int` as a divisor. -/
def ofUnsigned (i : Nat) : ArithUint256 := BaseUint.ofUInt64 ((BitVec.ofNat 32 i).setWidth 64)

/-- The running mean at turn `i`, moved by the next target. -/
def nextAverage (i : Nat) (prev new : ArithUint256) : Option ArithUint256 :=
  if 1 < i then
    if new.ge prev then ((new.sub prev).div (ofUnsigned i)).map (·.add prev)
    else ((prev.sub new).div (ofUnsigned i)).map (prev.sub ·)
  else some new

/-- `PastDifficultyAverage`, `PastRateActualSeconds` and `PastRateTargetSeconds`. -/
structure Past where
  average : ArithUint256
  actualSeconds : Int
  targetSeconds : Int

/-- The loop from turn `i` on, which is also `PastBlocksMass`. -/
def pastLoop (p : PowParams) (stop : Nat → Bool) (last : BlockHeader) : Nat → List BlockHeader → Past → Option Past
  | _, [], past => some past
  | i, b :: rest, past =>
    if b.nHeight = 0 then some past
    else if 0 < p.pastBlocksMax ∧ p.pastBlocksMax < i then some past
    else
      match nextAverage i past.average (bnTarget b) with
      | none => none
      | some average =>
        let seconds := int64 (last.getBlockTime - b.getBlockTime)
        let past : Past :=
          { average := average
            actualSeconds := if seconds < 0 then 0 else seconds
            targetSeconds := int64 (p.nPowTargetSpacing * i) }
        if p.pastBlocksMin ≤ i ∧ stop i = true then some past else pastLoop p stop last (i + 1) rest past

/-- The product by an `int64_t`, which is narrowed to `uint32_t`. -/
def mulSeconds (a : ArithUint256) (seconds : Int) : ArithUint256 := a.mulWord (BitVec.ofInt 32 seconds)

/-- The quotient by an `int64_t`, which is converted to `uint64_t`. -/
def divSeconds (a : ArithUint256) (seconds : Int) : Option ArithUint256 := a.div (BaseUint.ofUInt64 (BitVec.ofInt 64 seconds))

def kgwDual1 (past : Past) : Option ArithUint256 :=
  if past.actualSeconds ≠ 0 ∧ past.targetSeconds ≠ 0 then
    divSeconds (mulSeconds past.average past.actualSeconds) past.targetSeconds
  else some past.average

def actualTimespanShort (last prev : BlockHeader) : Int := int64 (last.getBlockTime - prev.getBlockTime)

def actualTime1 (p : PowParams) (last prev : BlockHeader) : Int :=
  let spacing : Int := p.nPowTargetSpacing
  let t := actualTimespanShort last prev
  let t := if t < 0 then spacing else t
  let t := if t < spacing / 3 then spacing / 3 else t
  if spacing * 3 < t then spacing * 3 else t

def kgwDual2 (p : PowParams) (last prev : BlockHeader) : Option ArithUint256 :=
  divSeconds (mulSeconds (bnTarget last) (actualTime1 p last prev)) p.nPowTargetSpacing

def lessAfterShort (p : PowParams) (last prev : BlockHeader) (bnNew : ArithUint256) : Option ArithUint256 :=
  if actualTimespanShort last prev < (p.nPowTargetSpacing : Int) / 6 then
    (bnNew.mulWord 85).div (BaseUint.ofUInt64 100)
  else some bnNew

def getNextWorkRequired (p : PowParams) (stop : Nat → Bool) : List BlockHeader → Option Word
  | [] => some (getCompact p.powLimit false)
  | last :: before =>
    if last.nHeight = 0 ∨ last.nHeight < p.pastBlocksMin then some (getCompact p.powLimit false)
    else
      match before with
      | [] => none
      | prev :: _ => do
        let past ← pastLoop p stop last 1 (last :: before) ⟨BaseUint.zero, 0, 0⟩
        let dual1 ← kgwDual1 past
        let dual2 ← kgwDual2 p last prev
        let mean ← (dual2.add dual1).div (BaseUint.ofUInt64 2)
        let bnNew ← lessAfterShort p last prev mean
        let bnNew := if bnNew.gt p.powLimit then p.powLimit else bnNew
        return getCompact bnNew false

/-! ## In natural numbers -/

def meanStep (i mean t : Nat) : Nat :=
  if 1 < i then if mean ≤ t then (t - mean) / i + mean else mean - (mean - t) / i else t

def runningMean : Nat → Nat → List Nat → Nat
  | _, mean, [] => mean
  | i, mean, t :: ts => runningMean (i + 1) (meanStep i mean t) ts

/-- The blocks that the loop reads from turn `i` on. -/
def blocksRead (p : PowParams) (stop : Nat → Bool) : Nat → List BlockHeader → List BlockHeader
  | _, [] => []
  | i, b :: rest =>
    if b.nHeight = 0 then []
    else if 0 < p.pastBlocksMax ∧ p.pastBlocksMax < i then []
    else if p.pastBlocksMin ≤ i ∧ stop i = true then [b]
    else b :: blocksRead p stop (i + 1) rest

def secondsBack (last : BlockHeader) (read : List BlockHeader) : Nat :=
  read.getLast?.elim 0 fun b => last.nTime.toNat - b.nTime.toNat

/-- The last interval, between a third and three times the spacing; the spacing for a last block
that is older than the one before. -/
def interval (spacing : Nat) (last prev : BlockHeader) : Nat :=
  if last.nTime.toNat < prev.nTime.toNat then spacing
  else min (spacing * 3) (max (spacing / 3) (last.nTime.toNat - prev.nTime.toNat))

def ShortInterval (spacing : Nat) (last prev : BlockHeader) : Prop := last.nTime.toNat < prev.nTime.toNat + spacing / 6

instance {spacing : Nat} {last prev : BlockHeader} : Decidable (ShortInterval spacing last prev) :=
  inferInstanceAs (Decidable (_ < _))

section Exact

variable (p : PowParams) (stop : Nat → Bool) (last prev : BlockHeader) (chain : List BlockHeader)

def meanTarget : Nat := runningMean 1 0 ((blocksRead p stop 1 chain).map fun b => (bnTarget b).value)

def elapsed : Nat := secondsBack last (blocksRead p stop 1 chain)

def expected : Nat := p.nPowTargetSpacing * (blocksRead p stop 1 chain).length

def scaledMean : Nat :=
  if elapsed p stop last chain = 0 then meanTarget p stop chain
  else meanTarget p stop chain * elapsed p stop last chain / expected p stop chain

def scaledLast : Nat := (bnTarget last).value * interval p.nPowTargetSpacing last prev / p.nPowTargetSpacing

def twoTerm : Nat :=
  let mean := (scaledLast p last prev + scaledMean p stop last chain) / 2
  if ShortInterval p.nPowTargetSpacing last prev then mean * 85 / 100 else mean

/-- Each operation on words is the one on natural numbers, and no quotient is undefined. -/
structure ExactRun (past : Past) (dual1 dual2 mean : ArithUint256) : Prop where
  loop : pastLoop p stop last 1 chain ⟨BaseUint.zero, 0, 0⟩ = some past
  average : past.average.value = meanTarget p stop chain
  seconds : past.actualSeconds = elapsed p stop last chain
  target : past.targetSeconds = expected p stop chain
  firstProduct : elapsed p stop last chain ≠ 0 →
    (mulSeconds past.average past.actualSeconds).value = meanTarget p stop chain * elapsed p stop last chain
  secondProduct : (mulSeconds (bnTarget last) (actualTime1 p last prev)).value =
    (bnTarget last).value * interval p.nPowTargetSpacing last prev
  first : kgwDual1 past = some dual1
  second : kgwDual2 p last prev = some dual2
  sum : (dual2.add dual1).value = dual2.value + dual1.value
  half : (dual2.add dual1).div (BaseUint.ofUInt64 2) = some mean
  scaled : ShortInterval p.nPowTargetSpacing last prev → (mean.mulWord 85).value = mean.value * 85

/-- A chain all of whose blocks have the mean as their target, and which was slow, as a whole and
at its last block. -/
structure SlowAtOneTarget : Prop where
  oneTarget : ∀ b ∈ chain, (bnTarget b).value = meanTarget p stop chain
  slow : expected p stop chain ≤ elapsed p stop last chain
  slowLast : prev.nTime.toNat + p.nPowTargetSpacing ≤ last.nTime.toNat

end Exact

def LongEnough (p : PowParams) (last : BlockHeader) : Prop := last.nHeight ≠ 0 ∧ p.pastBlocksMin ≤ last.nHeight

instance {p : PowParams} {last : BlockHeader} : Decidable (LongEnough p last) := inferInstanceAs (Decidable (_ ∧ _))

/-- The run is exact, the answer is the two-term average, or the limit where that is lower, and
no harder than the mean of a slow chain. A chain that is too short is answered with the limit. -/
def ExactWork (p : PowParams) (stop : Nat → Bool) (chain : List BlockHeader) : Prop :=
  match chain with
  | last :: prev :: _ =>
    if LongEnough p last then
      ∃ past dual1 dual2 mean, ExactRun p stop last prev chain past dual1 dual2 mean ∧
        ∃ r : ArithUint256, r.value = min p.powLimit.value (twoTerm p stop last prev chain) ∧
          getNextWorkRequired p stop chain = some (getCompact r false) ∧
          (SlowAtOneTarget p stop last prev chain → getCompact past.average false ≤ getCompact r false)
    else getNextWorkRequired p stop chain = some (getCompact p.powLimit false)
  | _ => getNextWorkRequired p stop chain = some (getCompact p.powLimit false)

/-- The two products fit in 256 bits: the mean by the seconds its blocks took, and the last target
by the last interval. -/
def ProductsFit (p : PowParams) (stop : Nat → Bool) (chain : List BlockHeader) : Prop :=
  match chain with
  | last :: prev :: _ =>
    LongEnough p last → meanTarget p stop chain * elapsed p stop last chain < 2 ^ 256 ∧
      (bnTarget last).value * interval p.nPowTargetSpacing last prev < 2 ^ 256
  | _ => True

/-! ## The loop -/

variable {p : PowParams} {stop : Nat → Bool} {last prev : BlockHeader} {chain before : List BlockHeader}

structure Usual (p : PowParams) : Prop where
  spacing_ge : 10 ≤ p.nPowTargetSpacing
  spacing_le : p.nPowTargetSpacing ≤ 128
  powLimit_lt : p.powLimit.value < 2 ^ 248

theorem usual (net : Network) : Usual net.params := by
  cases net <;> exact ⟨by decide, by decide, by decide⟩

theorem int64_eq {x : Int} (hlow : -2 ^ 63 ≤ x) (hhigh : x < 2 ^ 63) : int64 x = x :=
  Int.bmod_eq_of_le (by omega) (by omega)

theorem int64_sub (a b : BlockHeader) : int64 (a.getBlockTime - b.getBlockTime) = (a.nTime.toNat : Int) - b.nTime.toNat := by
  have ha := a.nTime.isLt
  have hb := b.nTime.isLt
  exact int64_eq (by unfold BlockHeader.getBlockTime; omega) (by unfold BlockHeader.getBlockTime; omega)

theorem value_ofUnsigned {i : Nat} (hi : i < 2 ^ 32) : (ofUnsigned i).value = i := by
  rw [ofUnsigned, BaseUint.value_ofUInt64 (by decide), BitVec.toNat_setWidth, BitVec.toNat_ofNat]
  omega

theorem nextAverage_eq {i : Nat} (mean new : ArithUint256) (hi : i < 2 ^ 32) :
    ∃ a, nextAverage i mean new = some a ∧ a.value = meanStep i mean.value new.value := by
  have hdivisor := value_ofUnsigned hi
  unfold nextAverage meanStep
  split
  · rename_i hgt
    by_cases hge : mean.value ≤ new.value
    · obtain ⟨q, hdiv, hq⟩ := BaseUint.value_div (a := new.sub mean) (b := ofUnsigned i) (by omega)
      rw [if_pos (BaseUint.ge_iff.2 hge), if_pos hge, hdiv]
      rw [BaseUint.value_sub hge, hdivisor] at hq
      refine ⟨_, rfl, ?_⟩
      have hle : (new.value - mean.value) / i ≤ new.value - mean.value := Nat.div_le_self _ _
      have hlt := BaseUint.value_lt (a := new)
      rw [BaseUint.value_add, hq, Nat.mod_eq_of_lt (by omega)]
    · have hle : new.value ≤ mean.value := Nat.le_of_not_le hge
      obtain ⟨q, hdiv, hq⟩ := BaseUint.value_div (a := mean.sub new) (b := ofUnsigned i) (by omega)
      rw [if_neg fun h => hge (BaseUint.ge_iff.1 h), if_neg hge, hdiv]
      rw [BaseUint.value_sub hle, hdivisor] at hq
      have hsmall : (mean.value - new.value) / i ≤ mean.value - new.value := Nat.div_le_self _ _
      exact ⟨_, rfl, by rw [BaseUint.value_sub (by omega), hq]⟩
  · exact ⟨new, rfl, rfl⟩

theorem meanStep_le {i mean t B : Nat} (hmean : mean ≤ B) (ht : t ≤ B) : meanStep i mean t ≤ B := by
  unfold meanStep
  split
  · split
    · have hle : (t - mean) / i ≤ t - mean := Nat.div_le_self _ _
      omega
    · exact (Nat.sub_le _ _).trans hmean
  · exact ht

theorem runningMean_le {B : Nat} {ts : List Nat} {i mean : Nat} (hmean : mean ≤ B) (hts : ∀ t ∈ ts, t ≤ B) :
    runningMean i mean ts ≤ B := by
  induction ts generalizing i mean with
  | nil => exact hmean
  | cons t ts ih =>
    exact ih (meanStep_le hmean (hts t List.mem_cons_self)) fun t' ht' => hts t' (List.mem_cons_of_mem _ ht')

theorem mem_of_mem_blocksRead {i : Nat} {b : BlockHeader} (h : b ∈ blocksRead p stop i chain) : b ∈ chain := by
  induction chain generalizing i with
  | nil => exact h
  | cons c rest ih =>
    rw [blocksRead] at h
    split at h
    · cases h
    · split at h
      · cases h
      · split at h
        · rw [List.mem_singleton.1 h]
          exact List.mem_cons_self
        · rcases List.mem_cons.1 h with rfl | hrest
          · exact List.mem_cons_self
          · exact List.mem_cons_of_mem _ (ih hrest)

/-- The induction is on the chain; the turn is the number of blocks that have been read. -/
theorem pastLoop_eq (hp : Usual p) (stop : Nat → Bool) (last : BlockHeader) (chain : List BlockHeader) (past : Past) {i : Nat}
    (hi : 1 ≤ i) :
    ∃ past', pastLoop p stop last i chain past = some past' ∧
      past'.average.value = runningMean i past.average.value ((blocksRead p stop i chain).map fun b => (bnTarget b).value) ∧
      past'.actualSeconds = (blocksRead p stop i chain).getLast?.elim past.actualSeconds
        (fun b => ((last.nTime.toNat - b.nTime.toNat : Nat) : Int)) ∧
      past'.targetSeconds = (blocksRead p stop i chain).getLast?.elim past.targetSeconds
        (fun _ => ((p.nPowTargetSpacing * (i - 1 + (blocksRead p stop i chain).length) : Nat) : Int)) := by
  induction chain generalizing i past with
  | nil => exact ⟨past, rfl, rfl, rfl, rfl⟩
  | cons b rest ih =>
    rw [pastLoop, blocksRead]
    split
    · exact ⟨past, rfl, rfl, rfl, rfl⟩
    · split
      · exact ⟨past, rfl, rfl, rfl, rfl⟩
      · rename_i hmax
        have hspacing := hp.spacing_ge
        have hspacing' := hp.spacing_le
        have hbound : i ≤ 604800 / p.nPowTargetSpacing := by
          have hpos : 0 < 604800 / p.nPowTargetSpacing := Nat.div_pos (by omega) (by omega)
          by_contra hlt
          exact hmax ⟨hpos, Nat.lt_of_not_le hlt⟩
        have hsmall : i ≤ 604800 := hbound.trans (Nat.div_le_self _ _)
        obtain ⟨a, hnext, ha⟩ := nextAverage_eq past.average (bnTarget b) (show i < 2 ^ 32 by omega)
        have hactual : (if int64 (last.getBlockTime - b.getBlockTime) < 0 then 0
            else int64 (last.getBlockTime - b.getBlockTime)) = ((last.nTime.toNat - b.nTime.toNat : Nat) : Int) := by
          rw [int64_sub]
          split <;> omega
        have htarget : int64 (p.nPowTargetSpacing * i) = ((p.nPowTargetSpacing * i : Nat) : Int) := by
          have hmul : p.nPowTargetSpacing * i ≤ 128 * 604800 := Nat.mul_le_mul hspacing' hsmall
          rw [← Nat.cast_mul]
          exact int64_eq (by omega) (by omega)
        rw [hnext]
        dsimp only
        rw [hactual, htarget]
        split
        · refine ⟨_, rfl, ha, rfl, ?_⟩
          simp only [List.getLast?_singleton, Option.elim_some, List.length_singleton]
          rw [Nat.sub_add_cancel hi]
        · obtain ⟨past', hloop, havg, hsec, htgt⟩ := ih ⟨a, _, _⟩ (Nat.le_add_left 1 i)
          refine ⟨past', hloop, ?_, ?_, ?_⟩
          · rw [havg, ha]
            rfl
          · rw [hsec, List.getLast?_cons]
            cases (blocksRead p stop (i + 1) rest).getLast? <;> rfl
          · rw [htgt, List.getLast?_cons, List.length_cons]
            have hcount : i + 1 - 1 + (blocksRead p stop (i + 1) rest).length =
                i - 1 + ((blocksRead p stop (i + 1) rest).length + 1) := by omega
            rw [hcount]
            cases hlast : (blocksRead p stop (i + 1) rest).getLast? with
            | none =>
              rw [List.getLast?_eq_none_iff.1 hlast]
              simp only [Option.elim_none, Option.elim_some, List.length_nil]
              rw [Nat.zero_add, Nat.sub_add_cancel hi]
            | some c => rfl

/-- A chain that is long enough is read for as many blocks as are averaged at least. -/
theorem pastBlocksMin_le (stop : Nat → Bool) (hlinked : Linked chain) {i : Nat} (hi : 1 ≤ i)
    (hlong : ∀ b ∈ chain.head?, p.pastBlocksMin ≤ i - 1 + b.nHeight) (hne : chain ≠ []) :
    p.pastBlocksMin ≤ i - 1 + (blocksRead p stop i chain).length := by
  induction chain generalizing i with
  | nil => exact absurd rfl hne
  | cons b rest ih =>
    have hb := hlong b rfl
    rw [blocksRead]
    split
    · rename_i hzero
      rw [hzero] at hb
      exact hb
    · rename_i hheight
      split
      · rename_i hmax
        have hle : p.pastBlocksMin ≤ p.pastBlocksMax := Nat.div_le_div_right (by decide)
        rw [List.length_nil]
        omega
      · split
        · rename_i hstop
          rw [List.length_singleton, Nat.sub_add_cancel hi]
          exact hstop.1
        · have hrest : rest ≠ [] := by
            rintro rfl
            exact hheight hlinked.1
          have hnext : ∀ c ∈ rest.head?, p.pastBlocksMin ≤ i + 1 - 1 + c.nHeight := by
            intro c hc
            obtain ⟨rest', rfl⟩ := List.head?_eq_some_iff.1 hc
            have hheights := hlinked.1
            have hbelow := hlinked.2.1
            rw [List.length_cons] at hheights
            omega
          have hcount := ih hlinked.2 (Nat.le_add_left 1 i) hnext hrest
          rw [List.length_cons]
          omega

theorem length_blocksRead_le (hp : Usual p) (stop : Nat → Bool) (chain : List BlockHeader) {i : Nat} (hi : 1 ≤ i) (hle : i ≤ 604801) :
    i - 1 + (blocksRead p stop i chain).length ≤ 604800 := by
  induction chain generalizing i with
  | nil =>
    rw [blocksRead, List.length_nil]
    omega
  | cons b rest ih =>
    rw [blocksRead]
    split
    · rw [List.length_nil]
      omega
    · split
      · rw [List.length_nil]
        omega
      · rename_i hmax
        have hpos : 0 < p.pastBlocksMax := by
          have hlow := hp.spacing_ge
          have hhigh := hp.spacing_le
          exact Nat.div_pos (by omega) (by omega)
        have hbound : p.pastBlocksMax ≤ 604800 := Nat.div_le_self _ _
        have hturn : i ≤ p.pastBlocksMax := by
          by_contra hlt
          exact hmax ⟨hpos, Nat.lt_of_not_le hlt⟩
        split
        · rw [List.length_singleton]
          omega
        · have hcount := ih (Nat.le_add_left 1 i) (by omega)
          rw [List.length_cons]
          omega

theorem actualTime1_eq (hp : Usual p) : actualTime1 p last prev = (interval p.nPowTargetSpacing last prev : Int) := by
  have hlast := last.nTime.isLt
  have hprev := prev.nTime.isLt
  have hlow := hp.spacing_ge
  rw [actualTime1, actualTimespanShort, int64_sub, interval]
  split <;> split <;> split <;> split <;> omega

theorem short_iff : actualTimespanShort last prev < (p.nPowTargetSpacing : Int) / 6 ↔
    ShortInterval p.nPowTargetSpacing last prev := by
  rw [actualTimespanShort, int64_sub, ShortInterval]
  omega

theorem value_mulSeconds {a : ArithUint256} {n : Nat} (hn : n < 2 ^ 32) :
    (mulSeconds a n).value = a.value * n % 2 ^ 256 := by
  rw [mulSeconds, BaseUint.value_mulWord, BitVec.ofInt_natCast, BitVec.toNat_ofNat, Nat.mod_eq_of_lt hn]

theorem value_divSeconds {a : ArithUint256} {n : Nat} (h0 : n ≠ 0) (hn : n < 2 ^ 64) :
    ∃ q, divSeconds a n = some q ∧ q.value = a.value / n := by
  have hdivisor : (BaseUint.ofUInt64 (BitVec.ofInt 64 n) : ArithUint256).value = n := by
    rw [BaseUint.value_ofUInt64 (by decide), BitVec.ofInt_natCast, BitVec.toNat_ofNat, Nat.mod_eq_of_lt hn]
  obtain ⟨q, hdiv, hq⟩ := BaseUint.value_div (a := a) (b := BaseUint.ofUInt64 (BitVec.ofInt 64 n)) (by omega)
  exact ⟨q, hdiv, by rw [hq, hdivisor]⟩

/-! ## The two terms -/

def WithinLimit (p : PowParams) (chain : List BlockHeader) : Prop :=
  ∀ b ∈ chain, 0 < (bnTarget b).value ∧ (bnTarget b).value ≤ p.powLimit.value

theorem meanTarget_le (hbits : WithinLimit p chain) : meanTarget p stop chain ≤ p.powLimit.value := by
  apply runningMean_le (Nat.zero_le _)
  intro t ht
  obtain ⟨b, hb, rfl⟩ := List.mem_map.1 ht
  exact (hbits b (mem_of_mem_blocksRead hb)).2

theorem elapsed_lt : elapsed p stop last chain < 2 ^ 32 := by
  rw [elapsed, secondsBack]
  cases (blocksRead p stop 1 chain).getLast? with
  | none => exact Nat.two_pow_pos 32
  | some b => exact (Nat.sub_le _ _).trans_lt last.nTime.isLt

theorem interval_le (hp : Usual p) (last prev : BlockHeader) : interval p.nPowTargetSpacing last prev ≤ 384 := by
  have hhigh := hp.spacing_le
  unfold interval
  split <;> omega

theorem expected_bounds (hp : Usual p) (stop : Nat → Bool) (hlinked : Linked chain) (hlong : ∀ b ∈ chain.head?, p.pastBlocksMin ≤ b.nHeight)
    (hne : chain ≠ []) : 2033 ≤ expected p stop chain ∧ expected p stop chain < 2 ^ 64 := by
  have hlow := hp.spacing_ge
  have hhigh := hp.spacing_le
  have hmin := pastBlocksMin_le stop hlinked (Nat.le_refl 1) (by simpa using hlong) hne
  have hmax := length_blocksRead_le hp stop chain (Nat.le_refl 1) (by decide)
  rw [Nat.sub_self, Nat.zero_add] at hmin hmax
  have hmul : p.nPowTargetSpacing * p.pastBlocksMin ≤ expected p stop chain := Nat.mul_le_mul_left _ hmin
  have hup : expected p stop chain ≤ 128 * 604800 := Nat.mul_le_mul hhigh hmax
  have hdiv := Nat.div_add_mod 2160 p.nPowTargetSpacing
  have hmod := Nat.mod_lt 2160 (show 0 < p.nPowTargetSpacing by omega)
  rw [PowParams.pastBlocksMin] at hmul
  omega

theorem exists_past (hp : Usual p) (last : BlockHeader) (hpos : 0 < expected p stop chain) :
    ∃ past, pastLoop p stop last 1 chain ⟨BaseUint.zero, 0, 0⟩ = some past ∧
      past.average.value = meanTarget p stop chain ∧ past.actualSeconds = elapsed p stop last chain ∧
      past.targetSeconds = expected p stop chain := by
  obtain ⟨past, hloop, havg, hsec, htgt⟩ := pastLoop_eq hp stop last chain ⟨BaseUint.zero, 0, 0⟩ (Nat.le_refl 1)
  rw [BaseUint.value_zero] at havg
  refine ⟨past, hloop, havg, ?_, ?_⟩
  · rw [hsec, elapsed, secondsBack]
    cases (blocksRead p stop 1 chain).getLast? <;> rfl
  · rw [htgt, expected, Nat.sub_self, Nat.zero_add]
    cases hlast : (blocksRead p stop 1 chain).getLast? with
    | none =>
      rw [expected, List.getLast?_eq_none_iff.1 hlast] at hpos
      simp at hpos
    | some b => rfl

theorem kgwDual1_eq {past : Past} (havg : past.average.value = meanTarget p stop chain)
    (hsec : past.actualSeconds = elapsed p stop last chain) (htgt : past.targetSeconds = expected p stop chain)
    (hpos : 0 < expected p stop chain) (hsmall : expected p stop chain < 2 ^ 64)
    (hfit : meanTarget p stop chain * elapsed p stop last chain < 2 ^ 256) :
    ∃ dual1, kgwDual1 past = some dual1 ∧ dual1.value = scaledMean p stop last chain := by
  rw [kgwDual1, hsec, htgt, scaledMean]
  by_cases hzero : elapsed p stop last chain = 0
  · rw [if_neg (by omega), if_pos hzero]
    exact ⟨past.average, rfl, havg⟩
  · rw [if_pos (by omega), if_neg hzero]
    obtain ⟨q, hdiv, hq⟩ := value_divSeconds (a := mulSeconds past.average (elapsed p stop last chain)) hpos.ne' hsmall
    rw [value_mulSeconds elapsed_lt, havg, Nat.mod_eq_of_lt hfit] at hq
    exact ⟨q, hdiv, hq⟩

theorem kgwDual2_eq (hp : Usual p) (hfit : (bnTarget last).value * interval p.nPowTargetSpacing last prev < 2 ^ 256) :
    ∃ dual2, kgwDual2 p last prev = some dual2 ∧ dual2.value = scaledLast p last prev := by
  have hlow := hp.spacing_ge
  have hhigh := hp.spacing_le
  have hle := interval_le hp last prev
  rw [kgwDual2, actualTime1_eq hp, scaledLast]
  obtain ⟨q, hdiv, hq⟩ := value_divSeconds (a := mulSeconds (bnTarget last) (interval p.nPowTargetSpacing last prev))
    (n := p.nPowTargetSpacing) (by omega) (by omega)
  rw [value_mulSeconds (by omega), Nat.mod_eq_of_lt hfit] at hq
  exact ⟨q, hdiv, hq⟩

theorem scaledMean_lt (hp : Usual p) (hbits : WithinLimit p chain) (hexp : 2033 ≤ expected p stop chain)
    (hfit : meanTarget p stop chain * elapsed p stop last chain < 2 ^ 256) : scaledMean p stop last chain < 2 ^ 248 := by
  rw [scaledMean]
  split
  · exact (meanTarget_le hbits).trans_lt hp.powLimit_lt
  · calc meanTarget p stop chain * elapsed p stop last chain / expected p stop chain
        ≤ meanTarget p stop chain * elapsed p stop last chain / 2033 := Nat.div_le_div_left hexp (by decide)
      _ < 2 ^ 248 := by omega

theorem scaledLast_lt (hp : Usual p) (hfit : (bnTarget last).value * interval p.nPowTargetSpacing last prev < 2 ^ 256) :
    scaledLast p last prev < 2 ^ 253 := by
  calc (bnTarget last).value * interval p.nPowTargetSpacing last prev / p.nPowTargetSpacing
      ≤ (bnTarget last).value * interval p.nPowTargetSpacing last prev / 10 :=
        Nat.div_le_div_left hp.spacing_ge (by decide)
    _ < 2 ^ 253 := by omega

theorem scaledLast_le_of_short (hp : Usual p) (h : ShortInterval p.nPowTargetSpacing last prev) :
    scaledLast p last prev ≤ (bnTarget last).value := by
  have hlow := hp.spacing_ge
  have hle : interval p.nPowTargetSpacing last prev ≤ p.nPowTargetSpacing := by
    unfold ShortInterval at h
    unfold interval
    split <;> omega
  calc (bnTarget last).value * interval p.nPowTargetSpacing last prev / p.nPowTargetSpacing
      ≤ (bnTarget last).value * p.nPowTargetSpacing / p.nPowTargetSpacing :=
        Nat.div_le_div_right (Nat.mul_le_mul_left _ hle)
    _ = (bnTarget last).value := Nat.mul_div_cancel _ (by omega)

theorem lessAfterShort_eq {mean : ArithUint256} (hfit : ShortInterval p.nPowTargetSpacing last prev →
    (mean.mulWord 85).value = mean.value * 85) :
    ∃ bnNew, lessAfterShort p last prev mean = some bnNew ∧ bnNew.value =
      if ShortInterval p.nPowTargetSpacing last prev then mean.value * 85 / 100 else mean.value := by
  rw [lessAfterShort]
  by_cases hshort : ShortInterval p.nPowTargetSpacing last prev
  · have hdivisor : (BaseUint.ofUInt64 100 : ArithUint256).value = 100 := BaseUint.value_ofUInt64 (by decide)
    obtain ⟨q, hdiv, hq⟩ := BaseUint.value_div (a := mean.mulWord 85) (b := BaseUint.ofUInt64 100) (by omega)
    rw [if_pos (short_iff.2 hshort), if_pos hshort, hdiv]
    rw [hfit hshort, hdivisor] at hq
    exact ⟨q, rfl, hq⟩
  · rw [if_neg fun h => hshort (short_iff.1 h), if_neg hshort]
    exact ⟨mean, rfl, rfl⟩

theorem exists_exactRun (hp : Usual p) (hbits : WithinLimit p chain) (hlast : last ∈ chain)
    (hexp : 2033 ≤ expected p stop chain ∧ expected p stop chain < 2 ^ 64)
    (hfit : meanTarget p stop chain * elapsed p stop last chain < 2 ^ 256)
    (hfit' : (bnTarget last).value * interval p.nPowTargetSpacing last prev < 2 ^ 256) :
    ∃ past dual1 dual2 mean, ExactRun p stop last prev chain past dual1 dual2 mean ∧
      mean.value = (scaledLast p last prev + scaledMean p stop last chain) / 2 := by
  obtain ⟨past, hloop, havg, hsec, htgt⟩ := exists_past hp last (show 0 < expected p stop chain by omega)
  obtain ⟨dual1, hdual1, hvalue1⟩ := kgwDual1_eq havg hsec htgt (by omega) hexp.2 hfit
  obtain ⟨dual2, hdual2, hvalue2⟩ := kgwDual2_eq hp hfit'
  have hlt1 := scaledMean_lt hp hbits hexp.1 hfit
  have hlt2 := scaledLast_lt hp hfit'
  have hsum : (dual2.add dual1).value = dual2.value + dual1.value := by
    rw [BaseUint.value_add]
    exact Nat.mod_eq_of_lt (by omega)
  have htwo : (BaseUint.ofUInt64 2 : ArithUint256).value = 2 := BaseUint.value_ofUInt64 (by decide)
  obtain ⟨mean, hmean, hvalue⟩ := BaseUint.value_div (a := dual2.add dual1) (b := BaseUint.ofUInt64 2) (by omega)
  rw [hsum, hvalue1, hvalue2, htwo] at hvalue
  refine ⟨past, dual1, dual2, mean, ⟨hloop, havg, hsec, htgt, ?_, ?_, hdual1, hdual2, hsum, hmean, ?_⟩, hvalue⟩
  · intro _
    rw [hsec, value_mulSeconds elapsed_lt, havg, Nat.mod_eq_of_lt hfit]
  · have hle := interval_le hp last prev
    rw [actualTime1_eq hp, value_mulSeconds (by omega), Nat.mod_eq_of_lt hfit']
  · intro hshort
    have hle := scaledLast_le_of_short hp hshort
    have hlimit := (hbits last hlast).2.trans_lt hp.powLimit_lt
    rw [BaseUint.value_mulWord, hvalue]
    exact Nat.mod_eq_of_lt (by show _ * 85 < 2 ^ 256; omega)

/-! ## The answer -/

theorem mean_le_twoTerm (hp : Usual p) (hexp : 0 < expected p stop chain) (hlast : last ∈ chain)
    (hslow : SlowAtOneTarget p stop last prev chain) : meanTarget p stop chain ≤ twoTerm p stop last prev chain := by
  have hlow := hp.spacing_ge
  have hend := hslow.slowLast
  have hterm1 : meanTarget p stop chain ≤ scaledMean p stop last chain := by
    rw [scaledMean]
    split
    · exact Nat.le_refl _
    · rw [Nat.le_div_iff_mul_le hexp]
      exact Nat.mul_le_mul_left _ hslow.slow
  have hterm2 : meanTarget p stop chain ≤ scaledLast p last prev := by
    have hle : p.nPowTargetSpacing ≤ interval p.nPowTargetSpacing last prev := by
      unfold interval
      split <;> omega
    rw [scaledLast, hslow.oneTarget last hlast, Nat.le_div_iff_mul_le (by omega)]
    exact Nat.mul_le_mul_left _ hle
  have hshort : ¬ ShortInterval p.nPowTargetSpacing last prev := by
    unfold ShortInterval
    omega
  rw [twoTerm, if_neg hshort]
  omega

theorem getNextWorkRequired_run (hlong : LongEnough p last) {past : Past} {dual1 dual2 mean : ArithUint256}
    (hrun : ExactRun p stop last prev (last :: prev :: before) past dual1 dual2 mean)
    (hmean : mean.value = (scaledLast p last prev + scaledMean p stop last (last :: prev :: before)) / 2) :
    ∃ r : ArithUint256, r.value = min p.powLimit.value (twoTerm p stop last prev (last :: prev :: before)) ∧
      getNextWorkRequired p stop (last :: prev :: before) = some (getCompact r false) := by
  obtain ⟨bnNew, hless, hvalue⟩ := lessAfterShort_eq (p := p) hrun.scaled
  have hguard : ¬ (last.nHeight = 0 ∨ last.nHeight < p.pastBlocksMin) := by
    rintro (hzero | hshort)
    · exact hlong.1 hzero
    · exact absurd hlong.2 (by omega)
  refine ⟨if bnNew.gt p.powLimit then p.powLimit else bnNew, ?_, ?_⟩
  · rw [twoTerm, ← hmean, ← hvalue]
    by_cases hgt : p.powLimit.value < bnNew.value
    · rw [if_pos (BaseUint.gt_iff.2 hgt), Nat.min_eq_left hgt.le]
    · rw [if_neg fun h => hgt (BaseUint.gt_iff.1 h), Nat.min_eq_right (by omega)]
  · rw [getNextWorkRequired, if_neg hguard]
    simp only [hrun.loop, hrun.first, hrun.second, hrun.half, hless, Option.bind_eq_bind, Option.bind_some, Option.pure_def]

theorem exactWork_of_fit (hp : Usual p) (hlinked : Linked chain) (hbits : WithinLimit p chain)
    (hfit : ProductsFit p stop chain) : ExactWork p stop chain := by
  match chain, hlinked, hbits, hfit with
  | [], _, _, _ => rfl
  | [last], hlinked, _, _ =>
    have hheight : last.nHeight = 0 := hlinked.1
    change getNextWorkRequired p stop [last] = _
    rw [getNextWorkRequired, if_pos (.inl hheight)]
  | last :: prev :: before, hlinked, hbits, hfit =>
    rw [ExactWork]
    split
    · rename_i hlong
      have hexp := expected_bounds hp stop hlinked (by simpa using hlong.2) (List.cons_ne_nil _ _)
      have hlast : last ∈ last :: prev :: before := List.mem_cons_self
      obtain ⟨hfit1, hfit2⟩ := hfit hlong
      obtain ⟨past, dual1, dual2, mean, hrun, hmean⟩ := exists_exactRun hp hbits hlast hexp hfit1 hfit2
      obtain ⟨r, hr, hanswer⟩ := getNextWorkRequired_run hlong hrun hmean
      refine ⟨past, dual1, dual2, mean, hrun, r, hr, hanswer, fun hslow => getCompact_mono ?_⟩
      rw [hrun.average, hr]
      exact Nat.le_min.2 ⟨meanTarget_le hbits, mean_le_twoTerm hp (by omega) hlast hslow⟩
    · rename_i hlong
      rw [getNextWorkRequired, if_pos]
      unfold LongEnough at hlong
      omega

theorem fit_of_exactWork (h : ExactWork p stop chain) : ProductsFit p stop chain := by
  match chain, h with
  | [], _ => trivial
  | [_], _ => trivial
  | last :: prev :: before, h =>
    intro hlong
    rw [ExactWork, if_pos hlong] at h
    obtain ⟨past, dual1, dual2, mean, hrun, -⟩ := h
    constructor
    · by_cases hzero : elapsed p stop last (last :: prev :: before) = 0
      · rw [hzero, Nat.mul_zero]
        exact Nat.two_pow_pos 256
      · rw [← hrun.firstProduct hzero]
        exact BaseUint.value_lt
    · rw [← hrun.secondProduct]
      exact BaseUint.value_lt

theorem lastProduct_lt (net : Network) (hnet : net ≠ .regtest) (hbits : WithinLimit net.params (last :: before)) :
    (bnTarget last).value * interval net.params.nPowTargetSpacing last prev < 2 ^ 256 := by
  have hle := (hbits last List.mem_cons_self).2
  cases net with
  | main =>
    have hlimit : Network.main.params.powLimit.value < 2 ^ 240 := by decide
    have hinterval := interval_le (usual .main) last prev
    calc (bnTarget last).value * interval Network.main.params.nPowTargetSpacing last prev
        ≤ 2 ^ 240 * 384 := Nat.mul_le_mul (hle.trans hlimit.le) hinterval
      _ < 2 ^ 256 := by decide
  | test =>
    have hlimit := (usual .test).powLimit_lt
    have hinterval : interval Network.test.params.nPowTargetSpacing last prev ≤ 30 := by
      rw [interval]
      split
      · decide
      · exact Nat.min_le_left _ _
    calc (bnTarget last).value * interval Network.test.params.nPowTargetSpacing last prev
        ≤ 2 ^ 248 * 30 := Nat.mul_le_mul (hle.trans hlimit.le) hinterval
      _ < 2 ^ 256 := by decide
  | regtest => exact absurd rfl hnet

/-- Seventeen blocks at the lowest difficulty of the main network. The last interval is the
spacing, and the one before it the rest of the seconds. -/
def stalledChain (seconds : Word) : List BlockHeader :=
  [⟨16, seconds, 0x1f00ffff⟩, ⟨15, seconds - 128, 0x1f00ffff⟩] ++
    (List.range 15).reverse.map fun h => ⟨h, 0, 0x1f00ffff⟩

theorem linked_stalled (seconds : Word) : Linked (stalledChain seconds) := by simp [stalledChain, Linked, List.range_succ]

theorem nBits_stalled (seconds : Word) : ∀ b ∈ stalledChain seconds, b.nBits = 0x1f00ffff := by
  simp [stalledChain]

theorem withinLimit_stalled (seconds : Word) : WithinLimit Network.main.params (stalledChain seconds) := by
  intro b hb
  rw [bnTarget, nBits_stalled seconds b hb]
  exact ⟨by decide, by decide⟩

/-- The product wraps, and the next target is hardly more than half the mean. -/
theorem stalled_harder : Linked (stalledChain 65538) ∧ WithinLimit Network.main.params (stalledChain 65538) ∧
    SlowAtOneTarget Network.main.params (fun _ => true) ⟨16, 65538, 0x1f00ffff⟩ ⟨15, 65410, 0x1f00ffff⟩ (stalledChain 65538) ∧
    getNextWorkRequired Network.main.params (fun _ => true) (stalledChain 65538) = some 0x1f00800f ∧
    ¬ ExactWork Network.main.params (fun _ => true) (stalledChain 65538) := by
  refine ⟨linked_stalled _, withinLimit_stalled _, ⟨fun b hb => ?_, ?_, ?_⟩, ?_, fun h => ?_⟩
  · rw [bnTarget, nBits_stalled _ b hb]
    decide +kernel
  · decide +kernel
  · decide
  · decide +kernel
  · have hfit := fit_of_exactWork h ⟨by decide, by decide⟩
    exact absurd hfit.1 (by decide +kernel)

theorem getNextWorkRequired_exact (net : Network) (stop : Nat → Bool) (chain : List BlockHeader) (hlinked : Linked chain)
    (hbits : WithinLimit net.params chain) : ExactWork net.params stop chain ↔ ProductsFit net.params stop chain :=
  ⟨fit_of_exactWork, exactWork_of_fit (usual net) hlinked hbits⟩

/-- One second less fits. -/
theorem getNextWorkRequired_exact_sample : ExactWork Network.main.params (fun _ => true) (stalledChain 65537) :=
  (getNextWorkRequired_exact .main (fun _ => true) (stalledChain 65537) (linked_stalled _) (withinLimit_stalled _)).2
    fun _ => ⟨by decide +kernel, by decide +kernel⟩

end Zumy.Consensus
