/-
  Zumy.Consensus.PartialMerkle — the part of a block's tree that proves some of its
  transactions (merkleblock.cpp, merkleblock.h).

  The nodes are visited from the root, left before right. Of each there is a bit, whether a
  match is below it; where there is none, or at a leaf, the visit ends with the hash of the
  node. `TraverseAndBuild` writes the bits and the hashes, `TraverseAndExtract` reads them. A
  read behind the end of a vector is `none`. Numbers of transactions are of 32 bits; what has
  been used of the vectors is counted without them (`traverse_total`: it stays far below).
-/
import Mathlib.Algebra.Order.Ring.Nat
import Mathlib.Data.List.Forall2
import Zumy.Consensus.Merkle
import Zumy.Lib.Loop

namespace Zumy.Consensus.PartialMerkle

open Zumy.Lib Zumy.Lib.MerkleTree

variable {α : Type} (hash : α → α → α) (null : α)

def MAX_BLOCK_SIZE : Nat := 4194304

structure CPartialMerkleTree (α : Type) where
  nTransactions : Nat
  vBits : List Bool
  vHash : List α
  fBad : Bool

namespace CPartialMerkleTree

variable (t : CPartialMerkleTree α)

def calcTreeWidth (height : Nat) : Nat := (t.nTransactions + 2 ^ height - 1) % 2 ^ 32 / 2 ^ height

/-- One turn of the loop for the height: a level with more than one node is not the last. -/
def nextLevel (nHeight : Nat) : Turn Nat Nat := if 1 < t.calcTreeWidth nHeight then .again (nHeight + 1) else .done nHeight

def nHeight : Option Nat := loop t.nextLevel 32 0

end CPartialMerkleTree

/-! ## Building -/

section Build

variable (vTxid : List α) (vMatch : List Bool)

def parentOfMatch (t : CPartialMerkleTree α) (height pos : Nat) : Option Bool :=
  let first := pos * 2 ^ height % 2 ^ 32
  let last := min ((pos + 1) * 2 ^ height % 2 ^ 32) t.nTransactions
  (List.range' first (last - first)).foldlM (fun fParentOfMatch p => (vMatch[p]?).map (fParentOfMatch || ·)) false

def traverseAndBuild : Nat → Nat → CPartialMerkleTree α → Option (CPartialMerkleTree α)
  | 0, pos, t =>
    (parentOfMatch vMatch t 0 pos).bind fun fParentOfMatch =>
      (calcHash hash vTxid 0 pos).map fun h => { t with vBits := t.vBits ++ [fParentOfMatch], vHash := t.vHash ++ [h] }
  | height + 1, pos, t =>
    (parentOfMatch vMatch t (height + 1) pos).bind fun fParentOfMatch =>
      let t := { t with vBits := t.vBits ++ [fParentOfMatch] }
      if fParentOfMatch then
        (traverseAndBuild height (2 * pos) t).bind fun t =>
          if 2 * pos + 1 < t.calcTreeWidth height then traverseAndBuild height (2 * pos + 1) t else some t
      else (calcHash hash vTxid (height + 1) pos).map fun h => { t with vHash := t.vHash ++ [h] }

def CPartialMerkleTree.ofTxids : Option (CPartialMerkleTree α) :=
  let t : CPartialMerkleTree α := ⟨vTxid.length % 2 ^ 32, [], [], false⟩
  t.nHeight.bind fun nHeight => traverseAndBuild hash vTxid vMatch nHeight 0 t

end Build

/-! ## Extracting -/

structure Extraction (α : Type) where
  nBitsUsed : Nat
  nHashUsed : Nat
  vMatch : List α
  fBad : Bool

section Extract

variable [DecidableEq α] (t : CPartialMerkleTree α)

def takeBit (e : Extraction α) (next : Bool → Extraction α → Option (α × Extraction α)) : Option (α × Extraction α) :=
  if t.vBits.length ≤ e.nBitsUsed then some (null, { e with fBad := true })
  else (t.vBits[e.nBitsUsed]?).bind fun fParentOfMatch => next fParentOfMatch { e with nBitsUsed := e.nBitsUsed + 1 }

/-- The next hash; `fMatch` is set for a leaf that is matched. -/
def takeHash (fMatch : Bool) (e : Extraction α) : Option (α × Extraction α) :=
  if t.vHash.length ≤ e.nHashUsed then some (null, { e with fBad := true })
  else
    (t.vHash[e.nHashUsed]?).map fun h =>
      (h, { e with nHashUsed := e.nHashUsed + 1, vMatch := if fMatch then e.vMatch ++ [h] else e.vMatch })

def traverseAndExtract : Nat → Nat → Extraction α → Option (α × Extraction α)
  | 0, _, e => takeBit null t e fun fParentOfMatch e => takeHash null t fParentOfMatch e
  | height + 1, pos, e =>
    takeBit null t e fun fParentOfMatch e =>
      if fParentOfMatch then
        (traverseAndExtract height (2 * pos) e).bind fun (left, e) =>
          if 2 * pos + 1 < t.calcTreeWidth height then
            (traverseAndExtract height (2 * pos + 1) e).map fun (right, e) =>
              (hash left right, if right = left then { e with fBad := true } else e)
          else some (hash left left, e)
      else takeHash null t false e

/-- `ExtractMatches`: the root or null, what is in `vMatch` then, and the tree with its `fBad`. -/
def extractMatches : Option ((α × List α) × CPartialMerkleTree α) :=
  if t.nTransactions = 0 ∨ MAX_BLOCK_SIZE / 60 < t.nTransactions ∨ t.nTransactions < t.vHash.length ∨
    t.vBits.length < t.vHash.length then
    some ((null, []), t)
  else
    t.nHeight.bind fun nHeight =>
      (traverseAndExtract hash null t nHeight 0 ⟨0, 0, [], t.fBad⟩).map fun (hashMerkleRoot, e) =>
        let t := { t with fBad := e.fBad }
        if e.fBad = true ∨ (e.nBitsUsed + 7) / 8 ≠ (t.vBits.length + 7) / 8 ∨
          e.nHashUsed ≠ t.vHash.length then ((null, e.vMatch), t)
        else ((hashMerkleRoot, e.vMatch), t)

end Extract

/-- The positions of the leaves at which the traversal reads a match, and the bits it has used by then. -/
def matchPositions (t : CPartialMerkleTree α) : Nat → Nat → Nat → List Nat × Nat
  | 0, pos, nBitsUsed => (if t.vBits[nBitsUsed]? = some true then [pos] else [], nBitsUsed + 1)
  | height + 1, pos, nBitsUsed =>
    if t.vBits[nBitsUsed]? = some true then
      let left := matchPositions t height (2 * pos) (nBitsUsed + 1)
      if 2 * pos + 1 < t.calcTreeWidth height then
        let right := matchPositions t height (2 * pos + 1) left.2
        (left.1 ++ right.1, right.2)
      else left
    else ([], nBitsUsed + 1)

def CPartialMerkleTree.positions (t : CPartialMerkleTree α) : List Nat :=
  t.nHeight.elim [] fun nHeight => (matchPositions t nHeight 0 0).1

/-! ## Nodes -/

section Nodes

variable {hash null} {t : CPartialMerkleTree α} {leaves : List α} {vMatch : List Bool} {height pos n p : Nat} {x : α}

theorem div_two_pow_iff : p / 2 ^ height = pos ↔ pos * 2 ^ height ≤ p ∧ p < (pos + 1) * 2 ^ height := by
  have hpos := Nat.two_pow_pos height
  rw [Nat.div_eq_iff hpos, Nat.succ_mul]
  omega

theorem div_two_pow_succ : p / 2 ^ (height + 1) = pos ↔ p / 2 ^ height = 2 * pos ∨ p / 2 ^ height = 2 * pos + 1 := by
  rw [pow_succ, ← Nat.div_div_eq_div_mul]
  omega

theorem left_start (height pos : Nat) : 2 * pos * 2 ^ height = pos * 2 ^ (height + 1) := by
  rw [pow_succ, Nat.mul_comm (2 ^ height) 2, ← Nat.mul_assoc, Nat.mul_comm pos 2]

theorem lt_calcTreeWidth (hn : t.nTransactions ≤ 2 ^ 31) (hheight : height < 32) :
    pos < t.calcTreeWidth height ↔ pos * 2 ^ height < t.nTransactions := by
  have hpow : 2 ^ height ≤ 2 ^ 31 := Nat.pow_le_pow_right (by decide) (by omega)
  have hpos := Nat.two_pow_pos height
  rw [CPartialMerkleTree.calcTreeWidth, Nat.mod_eq_of_lt (by omega), Nat.lt_iff_add_one_le,
    Nat.le_div_iff_mul_le hpos, Nat.succ_mul]
  omega

variable (hash) in
theorem exists_calcHash (hle : leaves.length ≤ 2 ^ 31) (hheight : height < 32) (hpos : pos * 2 ^ height < leaves.length) :
    ∃ h, calcHash hash leaves height pos = some h := by
  have hwidth := (lt_calcTreeWidth (t := ⟨leaves.length, [], ([] : List α), false⟩) hle hheight).2 hpos
  have hlt : pos < ((parents hash)^[height] leaves).length := by
    rw [← calcTreeWidth_eq hash hle hheight]
    exact hwidth
  exact ⟨_, (calcHash_eq hle hheight pos).trans (List.getElem?_eq_getElem hlt)⟩

theorem start_lt_of_calcHash (hle : leaves.length ≤ 2 ^ 31) (hheight : height < 32)
    (h : calcHash hash leaves height pos = some x) :
    pos * 2 ^ height < leaves.length := by
  rw [calcHash_eq hle hheight] at h
  obtain ⟨hlt, -⟩ := List.getElem?_eq_some_iff.1 h
  rw [← calcTreeWidth_eq hash hle hheight] at hlt
  exact (lt_calcTreeWidth (t := ⟨leaves.length, [], ([] : List α), false⟩) hle hheight).1 hlt

/-! ## Matches -/

def matched (l : List (α × Bool)) : List α := (l.filter (·.2)).map (·.1)

theorem matched_append (l l' : List (α × Bool)) : matched (l ++ l') = matched l ++ matched l' := by
  rw [matched, List.filter_append, List.map_append]
  rfl

variable (leaves vMatch) in
def HasMatch (height pos : Nat) : Prop := ∃ p, p / 2 ^ height = pos ∧ p < leaves.length ∧ vMatch[p]? = some true

theorem matched_eq_nil (h : ¬ HasMatch leaves vMatch height pos) : matched (below height pos (leaves.zip vMatch)) = [] := by
  rw [matched, List.map_eq_nil_iff, List.filter_eq_nil_iff]
  intro (x, b) hx hb
  obtain ⟨p, hp, hget⟩ := mem_below.1 hx
  obtain ⟨hleaf, hbit⟩ := List.getElem?_zip_eq_some.1 hget
  obtain ⟨hlt, -⟩ := List.getElem?_eq_some_iff.1 hleaf
  refine h ⟨p, hp, hlt, ?_⟩
  rw [hbit]
  exact congrArg some hb

theorem foldlM_or {l : List Nat} (h : ∀ p ∈ l, p < vMatch.length) (b : Bool) :
    l.foldlM (fun fParentOfMatch p => (vMatch[p]?).map (fParentOfMatch || ·)) b =
      some (b || l.any fun p => vMatch[p]? == some true) := by
  induction l generalizing b with
  | nil => simp
  | cons p l ih =>
    have hp : p < vMatch.length := h p List.mem_cons_self
    rw [List.foldlM_cons, List.getElem?_eq_getElem hp]
    show List.foldlM _ (b || vMatch[p]) l = _
    rw [ih (fun q hq => h q (List.mem_cons_of_mem p hq)), List.any_cons, List.getElem?_eq_getElem hp, Bool.or_assoc]
    simp

theorem parentOfMatch_eq (hn : t.nTransactions = leaves.length) (hle : leaves.length ≤ 2 ^ 31)
    (hmatch : leaves.length ≤ vMatch.length)
    (hheight : height < 32) (hpos : pos * 2 ^ height < leaves.length) :
    ∃ b, parentOfMatch vMatch t height pos = some b ∧ (b = true ↔ HasMatch leaves vMatch height pos) := by
  have hpow : 2 ^ height ≤ 2 ^ 31 := Nat.pow_le_pow_right (by decide) (by omega)
  have hnext : (pos + 1) * 2 ^ height = pos * 2 ^ height + 2 ^ height := Nat.succ_mul _ _
  -- the shifts do not overflow
  have hfirst : pos * 2 ^ height % 2 ^ 32 = pos * 2 ^ height := Nat.mod_eq_of_lt (by omega)
  have hlast : (pos + 1) * 2 ^ height % 2 ^ 32 = (pos + 1) * 2 ^ height := Nat.mod_eq_of_lt (by omega)
  have hmem : ∀ p, p ∈ List.range' (pos * 2 ^ height) (min ((pos + 1) * 2 ^ height) leaves.length - pos * 2 ^ height) ↔
      p / 2 ^ height = pos ∧ p < leaves.length := by
    intro p
    rw [List.mem_range'_1, div_two_pow_iff]
    omega
  refine ⟨false || (List.range' (pos * 2 ^ height) (min ((pos + 1) * 2 ^ height) leaves.length - pos * 2 ^ height)).any
    fun p => vMatch[p]? == some true, ?_, ?_⟩
  · rw [parentOfMatch, hfirst, hlast, hn]
    exact foldlM_or (fun p hp => Nat.lt_of_lt_of_le ((hmem p).1 hp).2 hmatch) false
  · simp only [Bool.false_or, List.any_eq_true, beq_iff_eq, hmem, HasMatch, and_assoc]

/-! ## Twins -/

variable (hash leaves vMatch) in
/-- On the way from the node down to a matched leaf are two siblings with one hash. -/
def TwinsBelow (height pos : Nat) : Prop :=
  ∃ p k x, p / 2 ^ height = pos ∧ k < height ∧ p < leaves.length ∧ vMatch[p]? = some true ∧
    calcHash hash leaves k (2 * (p / 2 ^ (k + 1))) = some x ∧ calcHash hash leaves k (2 * (p / 2 ^ (k + 1)) + 1) = some x

theorem twinsBelow_succ : TwinsBelow hash leaves vMatch (height + 1) pos ↔
    TwinsBelow hash leaves vMatch height (2 * pos) ∨ TwinsBelow hash leaves vMatch height (2 * pos + 1) ∨
      HasMatch leaves vMatch (height + 1) pos ∧
        ∃ x, calcHash hash leaves height (2 * pos) = some x ∧ calcHash hash leaves height (2 * pos + 1) = some x := by
  constructor
  · intro h
    obtain ⟨p, k, x, hp, hk, hlt, hbit, hleft, hright⟩ := h
    rcases Nat.lt_succ_iff_lt_or_eq.1 hk with hk | rfl
    · rcases div_two_pow_succ.1 hp with hp | hp
      · exact .inl ⟨p, k, x, hp, hk, hlt, hbit, hleft, hright⟩
      · exact .inr (.inl ⟨p, k, x, hp, hk, hlt, hbit, hleft, hright⟩)
    · rw [hp] at hleft hright
      exact .inr (.inr ⟨⟨p, hp, hlt, hbit⟩, x, hleft, hright⟩)
  · intro h
    rcases h with ⟨p, k, x, hp, hk, hrest⟩ | ⟨p, k, x, hp, hk, hrest⟩ | ⟨⟨p, hp, hlt, hbit⟩, x, hleft, hright⟩
    · exact ⟨p, k, x, div_two_pow_succ.2 (.inl hp), by omega, hrest⟩
    · exact ⟨p, k, x, div_two_pow_succ.2 (.inr hp), by omega, hrest⟩
    · rw [← hp] at hleft hright
      exact ⟨p, height, x, hp, by omega, hlt, hbit, hleft, hright⟩

theorem not_twinsBelow_zero : ¬ TwinsBelow hash leaves vMatch 0 pos := by
  intro h
  obtain ⟨p, k, x, -, hk, -⟩ := h
  exact Nat.not_lt_zero k hk

theorem TwinsBelow.hasMatch (h : TwinsBelow hash leaves vMatch height pos) : HasMatch leaves vMatch height pos := by
  obtain ⟨p, k, x, hp, -, hlt, hbit, -⟩ := h
  exact ⟨p, hp, hlt, hbit⟩

end Nodes

/-! ## What is written is read -/

section Written

variable {hash null} {t : CPartialMerkleTree α} {e : Extraction α} {leaves hashes hashes' : List α}
    {vMatch bits bits' : List Bool}
  {height pos n : Nat} {x y : α} {b : Bool}

theorem of_drop_eq_cons {β : Type} {l rest : List β} {y : β} (h : l.drop n = y :: rest) :
    l[n]? = some y ∧ n < l.length ∧ l.drop (n + 1) = rest := by
  have hget : l[n]? = some y := by rw [← Nat.add_zero n, ← List.getElem?_drop, h, List.getElem?_cons_zero]
  obtain ⟨hlt, -⟩ := List.getElem?_eq_some_iff.1 hget
  refine ⟨hget, hlt, ?_⟩
  rw [← List.drop_drop, h]
  rfl

theorem takeBit_cons {next : Bool → Extraction α → Option (α × Extraction α)} (h : t.vBits.drop e.nBitsUsed = b :: bits) :
    takeBit null t e next = next b { e with nBitsUsed := e.nBitsUsed + 1 } := by
  obtain ⟨hget, hlt, -⟩ := of_drop_eq_cons h
  rw [takeBit, if_neg (Nat.not_le.2 hlt), hget, Option.bind_some]

theorem takeHash_cons (h : t.vHash.drop e.nHashUsed = x :: hashes) (fMatch : Bool) :
    takeHash null t fMatch e = some (x, { e with nHashUsed := e.nHashUsed + 1, vMatch := if fMatch then e.vMatch ++ [x] else e.vMatch }) := by
  obtain ⟨hget, hlt, -⟩ := of_drop_eq_cons h
  rw [takeHash, if_neg (Nat.not_le.2 hlt), hget, Option.map_some]

theorem traverseAndBuild_descend {t' : CPartialMerkleTree α} (hparent : parentOfMatch vMatch t (height + 1) pos = some true)
    (hleft : traverseAndBuild hash leaves vMatch height (2 * pos) { t with vBits := t.vBits ++ [true] } = some t') :
    traverseAndBuild hash leaves vMatch (height + 1) pos t =
      if 2 * pos + 1 < t'.calcTreeWidth height then traverseAndBuild hash leaves vMatch height (2 * pos + 1) t' else some t' := by
  rw [traverseAndBuild, hparent, Option.bind_some]
  show Option.bind (traverseAndBuild hash leaves vMatch height (2 * pos) { t with vBits := t.vBits ++ [true] }) _ = _
  rw [hleft, Option.bind_some]

variable [DecidableEq α]

theorem traverseAndExtract_descend {e' : Extraction α} (h : t.vBits.drop e.nBitsUsed = true :: bits)
    (hleft : traverseAndExtract hash null t height (2 * pos) { e with nBitsUsed := e.nBitsUsed + 1 } = some (y, e')) :
    traverseAndExtract hash null t (height + 1) pos e =
      if 2 * pos + 1 < t.calcTreeWidth height then
        (traverseAndExtract hash null t height (2 * pos + 1) e').map fun (right, e) =>
          (hash y right, if right = y then { e with fBad := true } else e)
      else some (hash y y, e') := by
  rw [traverseAndExtract, takeBit_cons h, if_pos rfl, hleft, Option.bind_some]

theorem traverseAndExtract_cut (h : t.vBits.drop e.nBitsUsed = false :: bits) (h' : t.vHash.drop e.nHashUsed = x :: hashes) :
    traverseAndExtract hash null t (height + 1) pos e =
      some (x, { e with nBitsUsed := e.nBitsUsed + 1, nHashUsed := e.nHashUsed + 1 }) := by
  rw [traverseAndExtract, takeBit_cons h, if_neg Bool.false_ne_true]
  exact takeHash_cons (e := { e with nBitsUsed := e.nBitsUsed + 1 }) h' false

theorem traverseAndExtract_leaf (h : t.vBits.drop e.nBitsUsed = b :: bits) (h' : t.vHash.drop e.nHashUsed = x :: hashes) :
    traverseAndExtract hash null t 0 pos e =
      some (x, ⟨e.nBitsUsed + 1, e.nHashUsed + 1, if b then e.vMatch ++ [x] else e.vMatch, e.fBad⟩) := by
  rw [traverseAndExtract, takeBit_cons h]
  exact takeHash_cons (e := { e with nBitsUsed := e.nBitsUsed + 1 }) h' b

variable (hash null leaves vMatch) in
/-- The bits and the hashes that are written of a node, and what is read where they come next. -/
structure Written (height pos : Nat) (bits : List Bool) (hashes : List α) (y : α) : Prop where
  node : calcHash hash leaves height pos = some y
  le_bits : hashes.length ≤ bits.length
  le_leaves : hashes.length ≤ (below height pos leaves).length
  build : ∀ t : CPartialMerkleTree α, t.nTransactions = leaves.length →
    traverseAndBuild hash leaves vMatch height pos t = some { t with vBits := t.vBits ++ bits, vHash := t.vHash ++ hashes }
  extract : ∀ (t : CPartialMerkleTree α) (e : Extraction α) (bits' : List Bool)
    (hashes' : List α), t.nTransactions = leaves.length →
    t.vBits.drop e.nBitsUsed = bits ++ bits' → t.vHash.drop e.nHashUsed = hashes ++ hashes' →
      ∃ fBad, traverseAndExtract hash null t height pos e = some (y,
          { nBitsUsed := e.nBitsUsed + bits.length
            nHashUsed := e.nHashUsed + hashes.length
            vMatch := e.vMatch ++ matched (below height pos (leaves.zip vMatch))
            fBad := fBad }) ∧
        (fBad = true ↔ e.fBad = true ∨ TwinsBelow hash leaves vMatch height pos)

variable (hle : leaves.length ≤ 2 ^ 31) (hmatch : leaves.length ≤ vMatch.length)

include hle hmatch

variable (hash null) in
theorem written_leaf (hpos : pos < leaves.length) : ∃ b x, Written hash null leaves vMatch 0 pos [b] [x] x := by
  have hpos' : pos * 2 ^ 0 < leaves.length := by rwa [pow_zero, Nat.mul_one]
  have hleaf : leaves[pos]? = some leaves[pos] := List.getElem?_eq_getElem hpos
  obtain ⟨b, hbit⟩ : ∃ b, vMatch[pos]? = some b := ⟨_, List.getElem?_eq_getElem (Nat.lt_of_lt_of_le hpos hmatch)⟩
  have hzip : (leaves.zip vMatch)[pos]? = some (leaves[pos], b) := List.getElem?_zip_eq_some.2 ⟨hleaf, hbit⟩
  refine ⟨b, leaves[pos], hleaf, Nat.le_refl 1, length_below_pos hpos', fun t hn => ?_,
    fun t e bits' hashes' hn hbits hhashes => ?_⟩
  · obtain ⟨b', hparent, hb'⟩ := parentOfMatch_eq hn hle hmatch (by decide) hpos'
    obtain rfl : b' = b := by
      rw [Bool.eq_iff_iff, hb', HasMatch]
      simp [hpos, hbit]
    rw [traverseAndBuild, hparent, Option.bind_some, calcHash, hleaf]
    rfl
  · refine ⟨e.fBad, ?_, (or_iff_left not_twinsBelow_zero).symm⟩
    rw [traverseAndExtract_leaf hbits hhashes, below_zero pos hzip]
    cases b with
    | true => rfl
    | false =>
      rw [matched]
      simp

variable (hash null) in
theorem written_cut (hheight : height + 1 < 32) (hpos : pos * 2 ^ (height + 1) < leaves.length)
    (hno : ¬ HasMatch leaves vMatch (height + 1) pos) :
    ∃ x, Written hash null leaves vMatch (height + 1) pos [false] [x] x := by
  obtain ⟨x, hx⟩ := exists_calcHash hash hle hheight hpos
  refine ⟨x, hx, Nat.le_refl 1, length_below_pos hpos, fun t hn => ?_, fun t e bits' hashes' hn hbits hhashes => ?_⟩
  · obtain ⟨b, hparent, hb⟩ := parentOfMatch_eq hn hle hmatch hheight hpos
    obtain rfl : b = false := by
      rw [Bool.eq_false_iff]
      exact fun h => hno (hb.1 h)
    rw [traverseAndBuild, hparent, Option.bind_some, hx]
    rfl
  · refine ⟨e.fBad, ?_, (or_iff_left fun h => hno h.hasMatch).symm⟩
    rw [matched_eq_nil hno, List.append_nil]
    exact traverseAndExtract_cut hbits hhashes

theorem Written.only (hleft : Written hash null leaves vMatch height (2 * pos) bits hashes y) (hheight : height + 1 < 32)
    (hpos : pos * 2 ^ (height + 1) < leaves.length) (hright : leaves.length ≤ (2 * pos + 1) * 2 ^ height)
    (hyes : HasMatch leaves vMatch (height + 1) pos) :
    Written hash null leaves vMatch (height + 1) pos (true :: bits) hashes (hash y y) := by
  have hwidth (t : CPartialMerkleTree α) (hn : t.nTransactions = leaves.length) : ¬ 2 * pos + 1 < t.calcTreeWidth height := by
    rw [lt_calcTreeWidth (by omega) (by omega), hn]
    exact Nat.not_lt.2 hright
  have hzip : (leaves.zip vMatch).length ≤ (2 * pos + 1) * 2 ^ height := by
    rw [List.length_zip]
    omega
  refine ⟨?_, Nat.le_succ_of_le hleft.le_bits, ?_, fun t hn => ?_, fun t e bits' hashes' hn hbits hhashes => ?_⟩
  · rw [calcHash, hleft.node, Option.bind_some]
    exact if_neg (hwidth ⟨leaves.length, [], [], false⟩ rfl)
  · rw [below_succ, below_eq_nil hright, List.append_nil]
    exact hleft.le_leaves
  · obtain ⟨b, hparent, hb⟩ := parentOfMatch_eq hn hle hmatch hheight hpos
    obtain rfl : b = true := hb.2 hyes
    refine (traverseAndBuild_descend hparent (hleft.build _ hn)).trans ((if_neg (hwidth t hn)).trans ?_)
    rw [List.append_assoc]
    rfl
  · obtain ⟨fBad, hextract, hbad⟩ := hleft.extract t { e with nBitsUsed := e.nBitsUsed + 1 } bits' hashes' hn (of_drop_eq_cons hbits).2.2 hhashes
    refine ⟨fBad, ?_, ?_⟩
    · rw [traverseAndExtract_descend hbits hextract, if_neg (hwidth t hn), below_succ, below_eq_nil hzip, List.append_nil,
        List.length_cons,
        Nat.add_right_comm e.nBitsUsed]
      rfl
    · have hno : ¬ HasMatch leaves vMatch height (2 * pos + 1) := by
        intro h
        obtain ⟨p, hp, hlt, -⟩ := h
        have := (div_two_pow_iff.1 hp).1
        omega
      have hnone : ¬ ∃ x, calcHash hash leaves height (2 * pos) = some x ∧
        calcHash hash leaves height (2 * pos + 1) = some x := by
        intro h
        obtain ⟨x, -, hx⟩ := h
        exact absurd (start_lt_of_calcHash hle (by omega) hx) (Nat.not_lt.2 hright)
      have htwins : TwinsBelow hash leaves vMatch (height + 1) pos ↔ TwinsBelow hash leaves vMatch height (2 * pos) := by
        rw [twinsBelow_succ]
        exact or_iff_left fun h => h.elim (fun h => hno h.hasMatch) fun h => hnone h.2
      rw [hbad, htwins]

theorem Written.both (hleft : Written hash null leaves vMatch height (2 * pos) bits hashes x)
    (hright : Written hash null leaves vMatch height (2 * pos + 1) bits' hashes' y) (hheight : height + 1 < 32)
    (hpos : (2 * pos + 1) * 2 ^ height < leaves.length) (hyes : HasMatch leaves vMatch (height + 1) pos) :
    Written hash null leaves vMatch (height + 1) pos (true :: (bits ++ bits')) (hashes ++ hashes') (hash x y) := by
  have hwidth (t : CPartialMerkleTree α) (hn : t.nTransactions = leaves.length) : 2 * pos + 1 < t.calcTreeWidth height := by
    rw [lt_calcTreeWidth (by omega) (by omega), hn]
    exact hpos
  have hpos' : pos * 2 ^ (height + 1) < leaves.length := by
    rw [← left_start]
    exact Nat.lt_of_le_of_lt (Nat.mul_le_mul_right _ (Nat.le_succ _)) hpos
  have hlebits := hleft.le_bits
  have hlebits' := hright.le_bits
  have hleleaves := hleft.le_leaves
  have hleleaves' := hright.le_leaves
  refine ⟨?_, ?_, ?_, fun t hn => ?_, fun t e bits'' hashes'' hn hbits hhashes => ?_⟩
  · rw [calcHash, hleft.node, Option.bind_some, hright.node]
    exact if_pos (hwidth ⟨leaves.length, [], [], false⟩ rfl)
  · simp only [List.length_cons, List.length_append]
    omega
  · rw [below_succ, List.length_append, List.length_append]
    omega
  · obtain ⟨b, hparent, hb⟩ := parentOfMatch_eq hn hle hmatch hheight hpos'
    obtain rfl : b = true := hb.2 hyes
    refine (traverseAndBuild_descend hparent (hleft.build _ hn)).trans ((if_pos (hwidth t hn)).trans ?_)
    refine (hright.build { t with vBits := t.vBits ++ [true] ++ bits, vHash := t.vHash ++ hashes } hn).trans ?_
    simp only [List.append_assoc, List.cons_append, List.nil_append]
  · rw [List.append_assoc] at hhashes
    rw [List.cons_append, List.append_assoc] at hbits
    obtain ⟨fBad, hextract, hbad⟩ :=
      hleft.extract t { e with nBitsUsed := e.nBitsUsed + 1 } _ _ hn (of_drop_eq_cons hbits).2.2 hhashes
    have hbits' : t.vBits.drop (e.nBitsUsed + 1 + bits.length) = bits' ++ bits'' := by
      rw [← List.drop_drop, (of_drop_eq_cons hbits).2.2, List.drop_left]
    have hhashes' : t.vHash.drop (e.nHashUsed + hashes.length) = hashes' ++ hashes'' := by
      rw [← List.drop_drop, hhashes, List.drop_left]
    obtain ⟨fBad', hextract', hbad'⟩ := hright.extract t ⟨_, _, _, fBad⟩ bits'' hashes'' hn hbits' hhashes'
    refine ⟨fBad' || decide (y = x), ?_, ?_⟩
    · have hbitsUsed : e.nBitsUsed + (true :: (bits ++ bits')).length = e.nBitsUsed + 1 + bits.length + bits'.length := by
        rw [List.length_cons, List.length_append]
        omega
      have hhashUsed : e.nHashUsed + (hashes ++ hashes').length = e.nHashUsed + hashes.length + hashes'.length := by
        rw [List.length_append, Nat.add_assoc]
      rw [traverseAndExtract_descend hbits hextract, if_pos (hwidth t hn), hextract', below_succ, matched_append,
        ← List.append_assoc,
        hbitsUsed, hhashUsed]
      by_cases hsame : y = x
      · simp [hsame]
      · simp [hsame]
    · have htwins : (∃ z, calcHash hash leaves height (2 * pos) = some z ∧
        calcHash hash leaves height (2 * pos + 1) = some z) ↔ y = x := by
        simp only [hleft.node, hright.node, Option.some.injEq]
        constructor
        · intro h
          obtain ⟨z, hx, hy⟩ := h
          rw [hx, hy]
        · intro h
          exact ⟨x, rfl, h⟩
      rw [Bool.or_eq_true, decide_eq_true_iff, hbad', hbad, twinsBelow_succ, htwins, and_iff_right hyes, or_assoc, or_assoc]

variable (hash null) in
/-- By induction on the height: at a leaf, or where no match is below, the visit ends. -/
theorem exists_written (hheight : height < 32) (hpos : pos * 2 ^ height < leaves.length) :
    ∃ bits hashes x, Written hash null leaves vMatch height pos bits hashes x := by
  induction height generalizing pos with
  | zero =>
    obtain ⟨b, x, hwritten⟩ := written_leaf hash null hle hmatch (by simpa using hpos : pos < leaves.length)
    exact ⟨[b], [x], x, hwritten⟩
  | succ height ih =>
    by_cases hyes : HasMatch leaves vMatch (height + 1) pos
    · obtain ⟨bits, hashes, x, hleft⟩ := ih (by omega) (by rwa [left_start] : 2 * pos * 2 ^ height < leaves.length)
      by_cases hright : (2 * pos + 1) * 2 ^ height < leaves.length
      · obtain ⟨bits', hashes', y, hright'⟩ := ih (by omega) hright
        exact ⟨_, _, _, hleft.both hle hmatch hright' hheight hright hyes⟩
      · exact ⟨_, _, _, hleft.only hle hmatch hheight hpos (Nat.not_lt.1 hright) hyes⟩
    · obtain ⟨x, hwritten⟩ := written_cut hash null hle hmatch hheight hpos hyes
      exact ⟨_, _, _, hwritten⟩

end Written

/-! ## The root -/

section Root

variable {hash null} {t : CPartialMerkleTree α} {leaves : List α} {vMatch : List Bool} {height pos n d : Nat} {root : α}
    {mutated : Bool}

theorem loop_nextLevel (hone : ¬ 1 < t.calcTreeWidth d) (hfirst : ∀ j < d, 1 < t.calcTreeWidth j) (hle : height ≤ d)
    (hn : d < height + n) :
    loop t.nextLevel n height = some d := by
  induction n generalizing height with
  | zero => omega
  | succ n ih =>
    rcases Nat.lt_or_eq_of_le hle with hlt | rfl
    · have hturn : t.nextLevel height = .again (height + 1) := if_pos (hfirst height hlt)
      rw [loop_again hturn]
      exact ih hlt (by omega)
    · have hturn : t.nextLevel height = .done height := if_neg hone
      rw [loop_done hturn]

theorem nextLevel_again {height' : Nat} (hn : t.nTransactions ≤ 2 ^ 31) (hheight : height < 32)
    (h : t.nextLevel height = .again height') :
    height' = height + 1 ∧ height' < 32 := by
  unfold CPartialMerkleTree.nextLevel at h
  split at h
  · rename_i hwidth
    rw [lt_calcTreeWidth hn hheight, Nat.one_mul] at hwidth
    cases h
    refine ⟨rfl, ?_⟩
    have hlt : height < 31 := (Nat.pow_lt_pow_iff_right (by decide)).1 (Nat.lt_of_lt_of_le hwidth hn)
    omega
  · cases h

theorem exists_nHeight (hn : t.nTransactions ≤ 2 ^ 31) : ∃ d, t.nHeight = some d ∧ d < 32 := by
  have hends : t.nHeight.isSome := by
    refine loop_isSome_of_measure (I := fun height => height < 32) (fun height => 31 - height) ?_ (by decide) (by decide)
    intro height height' hheight hturn
    obtain ⟨rfl, hlt⟩ := nextLevel_again hn hheight hturn
    exact ⟨hlt, by omega⟩
  obtain ⟨d, hd⟩ := Option.isSome_iff_exists.1 hends
  refine ⟨d, hd, ?_⟩
  refine loop_spec (I := fun height => height < 32) (Q := fun height => height < 32) ?_ ?_ (by decide) hd
  · intro height height' hheight hturn
    exact (nextLevel_again hn hheight hturn).2
  · intro height r hheight hturn
    unfold CPartialMerkleTree.nextLevel at hturn
    split at hturn
    · cases hturn
    · cases hturn
      exact hheight

variable [DecidableEq α]

theorem nHeight_of_root (hne : leaves ≠ []) {inner : Nat → α}
    (hroot : computeMerkleRoot hash null inner leaves = some (root, mutated)) :
    ∃ d, (∀ t : CPartialMerkleTree α, t.nTransactions = leaves.length → t.nHeight = some d) ∧ d < 32 ∧ leaves.length ≤ 2 ^ d ∧
      calcHash hash leaves d 0 = some root ∧ (mutated = true ↔ Flagged hash leaves) := by
  have hle := length_le_of_some hroot
  obtain ⟨root', mutated', d, hroot', hflag, hlevel, hd, hfirst⟩ := computeMerkleRoot_some hash hne hle null inner
  rw [hroot'] at hroot
  cases hroot
  have hwidth (t : CPartialMerkleTree α) (hn : t.nTransactions = leaves.length) (j : Nat) (hj : j < 32) :
      t.calcTreeWidth j = ((parents hash)^[j] leaves).length := by
    rw [← calcTreeWidth_eq hash hle hj, CPartialMerkleTree.calcTreeWidth, hn]
    rfl
  have hone (t : CPartialMerkleTree α) (hn : t.nTransactions = leaves.length) : ¬ 1 < t.calcTreeWidth d := by
    rw [hwidth t hn d hd, hlevel]
    exact Nat.lt_irrefl 1
  refine ⟨d, fun t hn => loop_nextLevel (hone t hn) (fun j hj => ?_) (Nat.zero_le d) (by omega), hd, ?_, ?_, hflag⟩
  · rw [hwidth t hn j (by omega)]
    exact hfirst j hj
  · have hlast := hone ⟨leaves.length, [], [], false⟩ rfl
    rw [lt_calcTreeWidth hle hd, Nat.one_mul] at hlast
    exact Nat.not_lt.1 hlast
  · rw [calcHash_eq hle hd, hlevel]
    rfl

end Root

/-! ## What is read of any tree -/

section Any

variable {hash null} {t : CPartialMerkleTree α} {e e' : Extraction α} {leaves : List α} {height pos n : Nat} {x : α}

theorem takeBit_cases (null : α) (t : CPartialMerkleTree α) (e : Extraction α)
    (next : Bool → Extraction α → Option (α × Extraction α)) :
    takeBit null t e next = some (null, { e with fBad := true }) ∨
      ∃ b, t.vBits[e.nBitsUsed]? = some b ∧ takeBit null t e next = next b { e with nBitsUsed := e.nBitsUsed + 1 } := by
  by_cases hlt : e.nBitsUsed < t.vBits.length
  · have hget := List.getElem?_eq_getElem hlt
    refine .inr ⟨_, hget, ?_⟩
    rw [takeBit, if_neg (Nat.not_le.2 hlt), hget, Option.bind_some]
  · exact .inl (if_pos (Nat.not_lt.1 hlt))

theorem takeHash_cases (null : α) (t : CPartialMerkleTree α) (fMatch : Bool) (e : Extraction α) :
    takeHash null t fMatch e = some (null, { e with fBad := true }) ∨
      ∃ x, takeHash null t fMatch e =
        some (x, { e with nHashUsed := e.nHashUsed + 1, vMatch := if fMatch then e.vMatch ++ [x] else e.vMatch }) := by
  by_cases hlt : e.nHashUsed < t.vHash.length
  · refine .inr ⟨t.vHash[e.nHashUsed], ?_⟩
    rw [takeHash, if_neg (Nat.not_le.2 hlt), List.getElem?_eq_getElem hlt, Option.map_some]
  · exact .inl (if_pos (Nat.not_lt.1 hlt))

theorem takeHash_total (null : α) (t : CPartialMerkleTree α) (fMatch : Bool) (e : Extraction α) :
    ∃ x e', takeHash null t fMatch e = some (x, e') ∧ e'.nBitsUsed = e.nBitsUsed ∧ e'.nHashUsed ≤ e.nHashUsed + 1 := by
  rcases takeHash_cases null t fMatch e with h | ⟨x, h⟩
  · exact ⟨_, _, h, rfl, Nat.le_succ _⟩
  · exact ⟨_, _, h, rfl, Nat.le_refl _⟩

variable [DecidableEq α]

variable (hash null) in
/-- No read is outside of its vector, and what is used of the vectors is bounded by the height. -/
theorem traverse_total (t : CPartialMerkleTree α) (height pos : Nat) (e : Extraction α) :
    ∃ x e', traverseAndExtract hash null t height pos e = some (x, e') ∧ e'.nBitsUsed + 1 ≤ e.nBitsUsed + 2 ^ (height + 1) ∧
      e'.nHashUsed ≤ e.nHashUsed + 2 ^ height := by
  induction height generalizing pos e with
  | zero =>
    rw [traverseAndExtract]
    rcases takeBit_cases null t e fun fParentOfMatch e => takeHash null t fParentOfMatch e with h | ⟨b, -, h⟩
    · exact ⟨_, _, h, Nat.add_le_add_left (by decide) _, Nat.le_succ _⟩
    · obtain ⟨x, e', htake, hbits, hhash⟩ := takeHash_total null t b { e with nBitsUsed := e.nBitsUsed + 1 }
      refine ⟨x, e', h.trans htake, ?_, hhash⟩
      rw [hbits]
      exact Nat.le_refl _
  | succ height ih =>
    have hpos := Nat.two_pow_pos height
    have hpow : 2 ^ (height + 1) = 2 ^ height + 2 ^ height := by rw [pow_succ, Nat.mul_two]
    have hpow' : 2 ^ (height + 1 + 1) = 2 ^ (height + 1) + 2 ^ (height + 1) := by rw [pow_succ, Nat.mul_two]
    rw [traverseAndExtract]
    rcases takeBit_cases null t e _ with h | ⟨b, -, h⟩
    · exact ⟨_, _, h, by dsimp only; omega, by dsimp only; omega⟩
    · rw [h]
      cases b with
      | false =>
        obtain ⟨x, e', htake, hbits, hhash⟩ := takeHash_total null t false { e with nBitsUsed := e.nBitsUsed + 1 }
        dsimp only at hbits hhash
        exact ⟨x, e', htake, by omega, by omega⟩
      | true =>
        obtain ⟨left, e₁, hleft, hbits₁, hhash₁⟩ := ih (2 * pos) { e with nBitsUsed := e.nBitsUsed + 1 }
        dsimp only at hbits₁ hhash₁
        rw [if_pos rfl, hleft, Option.bind_some]
        by_cases hwidth : 2 * pos + 1 < t.calcTreeWidth height
        · obtain ⟨right, e₂, hright, hbits₂, hhash₂⟩ := ih (2 * pos + 1) e₁
          dsimp only
          rw [if_pos hwidth, hright, Option.map_some]
          refine ⟨_, _, rfl, ?_, ?_⟩
          · split <;> dsimp only <;> omega
          · split <;> dsimp only <;> omega
        · dsimp only
          rw [if_neg hwidth]
          exact ⟨_, _, rfl, by omega, by omega⟩

variable (hash null) in
theorem extractMatches_total (t : CPartialMerkleTree α) : ∃ r, extractMatches hash null t = some r := by
  rw [extractMatches]
  split
  · exact ⟨_, rfl⟩
  · rename_i hguard
    have hn : t.nTransactions ≤ 2 ^ 31 := by
      have hmax : MAX_BLOCK_SIZE / 60 ≤ 2 ^ 31 := by decide
      omega
    obtain ⟨d, hd, -⟩ := exists_nHeight hn
    obtain ⟨x, e', htraverse, -⟩ := traverse_total hash null t d 0 ⟨0, 0, [], t.fBad⟩
    rw [hd, Option.bind_some, htraverse, Option.map_some]
    exact ⟨_, rfl⟩

/-! ## What is read where nothing is bad -/

omit [DecidableEq α] in
theorem takeHash_good {fMatch : Bool} (h : takeHash null t fMatch e = some (x, e')) (hgood : e'.fBad = false) :
    e.fBad = false ∧ e'.nBitsUsed = e.nBitsUsed ∧ e'.vMatch = if fMatch then e.vMatch ++ [x] else e.vMatch := by
  rcases takeHash_cases null t fMatch e with htake | ⟨y, htake⟩
  · rw [h] at htake
    cases htake
    cases hgood
  · rw [h] at htake
    cases htake
    exact ⟨hgood, rfl, rfl⟩

theorem traverse_leaf (h : traverseAndExtract hash null t 0 pos e = some (x, e')) (hgood : e'.fBad = false) :
    ∃ b, t.vBits[e.nBitsUsed]? = some b ∧ e.fBad = false ∧ e'.nBitsUsed = e.nBitsUsed + 1 ∧
      e'.vMatch = if b then e.vMatch ++ [x] else e.vMatch := by
  rw [traverseAndExtract] at h
  rcases takeBit_cases null t e fun fParentOfMatch e => takeHash null t fParentOfMatch e with htake | ⟨b, hget, htake⟩
  · rw [h] at htake
    cases htake
    cases hgood
  · rw [h] at htake
    exact ⟨b, hget, takeHash_good htake.symm hgood⟩

theorem traverse_node (h : traverseAndExtract hash null t (height + 1) pos e = some (x, e')) (hgood : e'.fBad = false) :
    (t.vBits[e.nBitsUsed]? = some false ∧ e.fBad = false ∧ e'.nBitsUsed = e.nBitsUsed + 1 ∧ e'.vMatch = e.vMatch) ∨
    (t.vBits[e.nBitsUsed]? = some true ∧
      ∃ left e₁, traverseAndExtract hash null t height (2 * pos) { e with nBitsUsed := e.nBitsUsed + 1 } = some (left, e₁) ∧
        ((2 * pos + 1 < t.calcTreeWidth height ∧ ∃ right, traverseAndExtract hash null t height (2 * pos + 1) e₁ = some (right, e') ∧
            right ≠ left ∧ x = hash left right) ∨
          (¬ 2 * pos + 1 < t.calcTreeWidth height ∧ e' = e₁ ∧ x = hash left left))) := by
  rw [traverseAndExtract] at h
  rcases takeBit_cases null t e _ with htake | ⟨b, hget, htake⟩
  · rw [htake] at h
    cases h
    cases hgood
  · rw [htake] at h
    cases b with
    | false => exact .inl ⟨hget, takeHash_good h hgood⟩
    | true =>
      rw [if_pos rfl] at h
      obtain ⟨⟨left, e₁⟩, hleft, hrest⟩ := Option.bind_eq_some_iff.1 h
      refine .inr ⟨hget, left, e₁, hleft, ?_⟩
      dsimp only at hrest
      split at hrest
      · rename_i hwidth
        obtain ⟨⟨right, e₂⟩, hright, heq⟩ := Option.map_eq_some_iff.1 hrest
        dsimp only at heq
        split at heq
        · cases heq
          cases hgood
        · rename_i hne
          cases heq
          exact .inl ⟨hwidth, right, hright, hne, rfl⟩
      · rename_i hwidth
        cases hrest
        exact .inr ⟨hwidth, rfl, rfl⟩

theorem good_of_traverse (h : traverseAndExtract hash null t height pos e = some (x, e')) (hgood : e'.fBad = false) :
    e.fBad = false := by
  induction height generalizing pos e e' x with
  | zero =>
    obtain ⟨b, -, hbad, -⟩ := traverse_leaf h hgood
    exact hbad
  | succ height ih =>
    rcases traverse_node h hgood with ⟨-, hbad, -⟩ | ⟨-, left, e₁, hleft, ⟨-, right, hright, -⟩ | ⟨-, rfl, -⟩⟩
    · exact hbad
    · have hbad := ih hleft (ih hright hgood)
      exact hbad
    · have hbad := ih hleft hgood
      exact hbad

/-- Where a hash determines what it is of, a node that has the hash of a tree's node has its
    children, and so on down to the leaves. -/
theorem traverse_sound (hinj : Function.Injective2 hash) (hn : t.nTransactions = leaves.length)
    (h : traverseAndExtract hash null t height pos e = some (x, e')) (hgood : e'.fBad = false)
    (hnode : calcHash hash leaves height pos = some x) :
    (matchPositions t height pos e.nBitsUsed).2 = e'.nBitsUsed ∧
      ∃ ms, e'.vMatch = e.vMatch ++ ms ∧ List.Forall₂ (fun p y => leaves[p]? = some y)
        (matchPositions t height pos e.nBitsUsed).1 ms := by
  induction height generalizing pos e e' x with
  | zero =>
    obtain ⟨b, hget, -, hused, hmatch⟩ := traverse_leaf h hgood
    rw [matchPositions, hget, hused, hmatch]
    refine ⟨rfl, ?_⟩
    cases b with
    | false => exact ⟨[], by simp, by simp⟩
    | true => exact ⟨[x], by simp, List.Forall₂.cons hnode .nil⟩
  | succ height ih =>
    have hwidth : t.calcTreeWidth height = calcTreeWidth leaves height := by
      rw [CPartialMerkleTree.calcTreeWidth, hn]
      rfl
    rw [calcHash] at hnode
    obtain ⟨left', hleft', hnode⟩ := Option.bind_eq_some_iff.1 hnode
    rcases traverse_node h hgood with ⟨hget, -, hused, hmatch⟩ | ⟨hget, left, e₁, hleft,
      ⟨hlt, right, hright, -, rfl⟩ | ⟨hlt, rfl, rfl⟩⟩
    · rw [matchPositions, hget, hused, hmatch]
      exact ⟨rfl, [], by simp, by simp⟩
    · rw [hwidth] at hlt
      rw [if_pos hlt] at hnode
      obtain ⟨right', hright', heq⟩ := Option.map_eq_some_iff.1 hnode
      obtain ⟨rfl, rfl⟩ := hinj heq
      obtain ⟨hused₁, ms₁, hmatch₁, hall₁⟩ := ih hleft (good_of_traverse hright hgood) hleft'
      obtain ⟨hused₂, ms₂, hmatch₂, hall₂⟩ := ih hright hgood hright'
      dsimp only at hused₁ hmatch₁ hall₁
      rw [← hused₁] at hused₂ hall₂
      rw [matchPositions, hget, if_pos rfl, hwidth, if_pos hlt]
      refine ⟨hused₂, ms₁ ++ ms₂, ?_, List.rel_append hall₁ hall₂⟩
      rw [hmatch₂, hmatch₁, List.append_assoc]
    · rw [hwidth] at hlt
      rw [if_neg hlt] at hnode
      obtain ⟨rfl, -⟩ := hinj (Option.some.inj hnode)
      rw [matchPositions, hget, if_pos rfl, hwidth, if_neg hlt]
      exact ih hleft hgood hleft'

omit [DecidableEq α] in
theorem div_of_mem_matchPositions {p : Nat} (hp : p ∈ (matchPositions t height pos n).1) : p / 2 ^ height = pos := by
  induction height generalizing pos n with
  | zero =>
    rw [matchPositions] at hp
    split at hp
    · rw [pow_zero, Nat.div_one]
      exact List.mem_singleton.1 hp
    · cases hp
  | succ height ih =>
    rw [matchPositions] at hp
    rw [div_two_pow_succ]
    split at hp
    · dsimp only at hp
      split at hp
      · rcases List.mem_append.1 hp with hp | hp
        · exact .inl (ih hp)
        · exact .inr (ih hp)
      · exact .inl (ih hp)
    · cases hp

omit [DecidableEq α] in
theorem matchPositions_increasing (t : CPartialMerkleTree α) (height pos n : Nat) :
    (matchPositions t height pos n).1.Pairwise (· < ·) := by
  induction height generalizing pos n with
  | zero =>
    rw [matchPositions]
    split
    · exact List.pairwise_singleton _ _
    · exact List.Pairwise.nil
  | succ height ih =>
    rw [matchPositions]
    split
    · dsimp only
      split
      · refine List.pairwise_append.2 ⟨ih _ _, ih _ _, fun p hp q hq => ?_⟩
        have hleft := div_of_mem_matchPositions hp
        have hright := div_of_mem_matchPositions hq
        by_contra hle
        have := Nat.div_le_div_right (c := 2 ^ height) (Nat.not_lt.1 hle)
        omega
      · exact ih _ _
    · exact List.Pairwise.nil

end Any

/-! ## Trees of a list -/

section Trees

variable [DecidableEq α] {hash null} {t t' : CPartialMerkleTree α} {leaves ms : List α} {vMatch : List Bool}
    {inner : Nat → α} {d : Nat}
  {root : α} {mutated : Bool}

variable (hash leaves vMatch) in
def Twinned : Prop :=
  ∃ p k x, p < leaves.length ∧ vMatch[p]? = some true ∧ ((parents hash)^[k] leaves)[2 * (p / 2 ^ (k + 1))]? = some x ∧
    ((parents hash)^[k] leaves)[2 * (p / 2 ^ (k + 1)) + 1]? = some x

omit [DecidableEq α] in
theorem twinsBelow_root (hle : leaves.length ≤ 2 ^ 31) (hd : d < 32) (hlen : leaves.length ≤ 2 ^ d) :
    TwinsBelow hash leaves vMatch d 0 ↔ Twinned hash leaves vMatch := by
  constructor
  · intro h
    obtain ⟨p, k, x, -, hk, hlt, hbit, hleft, hright⟩ := h
    rw [calcHash_eq hle (by omega)] at hleft hright
    exact ⟨p, k, x, hlt, hbit, hleft, hright⟩
  · intro h
    obtain ⟨p, k, x, hlt, hbit, hleft, hright⟩ := h
    have hk : k < d := by
      -- from level d on there is one node
      by_contra hge
      have hpow : 2 ^ d ≤ 2 ^ k := Nat.pow_le_pow_right (by decide) (Nat.not_lt.1 hge)
      have hpos := Nat.two_pow_pos k
      obtain ⟨hsecond, -⟩ := List.getElem?_eq_some_iff.1 hright
      rw [length_parents_iterate, Nat.lt_div_iff_mul_lt hpos, Nat.succ_mul] at hsecond
      omega
    refine ⟨p, k, x, Nat.div_eq_of_lt (by omega), hk, hlt, hbit, ?_, ?_⟩
    · rw [calcHash_eq hle (by omega)]
      exact hleft
    · rw [calcHash_eq hle (by omega)]
      exact hright

omit [DecidableEq α] in
theorem Twinned.flagged (h : Twinned hash leaves vMatch) (hinj : Function.Injective2 hash) : Flagged hash leaves := by
  obtain ⟨p, k, x, -, -, hleft, hright⟩ := h
  exact flagged_of_parents_iterate hinj (flagged_iff.2 (.inl (twins_of_getElem? hleft hright)))

theorem ofTxids_eq (hne : leaves ≠ []) (hmatch : leaves.length ≤ vMatch.length)
    (hroot : computeMerkleRoot hash null inner leaves = some (root, mutated)) :
    ∃ d bits hashes, CPartialMerkleTree.ofTxids hash leaves vMatch = some ⟨leaves.length, bits, hashes, false⟩ ∧
      (∀ t : CPartialMerkleTree α, t.nTransactions = leaves.length → t.nHeight = some d) ∧ d < 32 ∧ leaves.length ≤ 2 ^ d ∧
      Written hash null leaves vMatch d 0 bits hashes root := by
  have hle := length_le_of_some hroot
  have hmod : leaves.length % 2 ^ 32 = leaves.length := Nat.mod_eq_of_lt (by omega)
  have hlen : 0 < leaves.length := List.length_pos_iff.2 hne
  obtain ⟨d, hd, hlt, hpow, hnode, -⟩ := nHeight_of_root hne hroot
  obtain ⟨bits, hashes, x, hwritten⟩ := exists_written hash null hle hmatch hlt (by rwa [Nat.zero_mul] : 0 * 2 ^ d < leaves.length)
  obtain rfl : x = root := Option.some.inj (hwritten.node.symm.trans hnode)
  refine ⟨d, bits, hashes, ?_, hd, hlt, hpow, hwritten⟩
  rw [CPartialMerkleTree.ofTxids, hmod, hd ⟨leaves.length, [], [], false⟩ rfl, Option.bind_some, hwritten.build _ rfl]
  rfl

variable (hash null inner) in
/-- Of a list that is not too long the built tree gives back the matched leaves, and the root
    unless there are twins on the way to a match. The last byte of bits may be filled up. -/
theorem extractMatches_ofTxids (hne : leaves ≠ []) (hle : leaves.length ≤ MAX_BLOCK_SIZE / 60)
    (hmatch : leaves.length ≤ vMatch.length) :
    ∃ t root mutated fBad, CPartialMerkleTree.ofTxids hash leaves vMatch = some t ∧
      computeMerkleRoot hash null inner leaves = some (root, mutated) ∧
      (fBad = true ↔ Twinned hash leaves vMatch) ∧
      ∀ padding : List Bool, (t.vBits.length + padding.length + 7) / 8 = (t.vBits.length + 7) / 8 →
        extractMatches hash null { t with vBits := t.vBits ++ padding } =
          some ((if fBad then null else root, matched (leaves.zip vMatch)), { t with vBits := t.vBits ++ padding, fBad := fBad }) := by
  have hmax : MAX_BLOCK_SIZE / 60 ≤ 2 ^ 31 := by decide
  obtain ⟨root, mutated, -, hroot, -⟩ := computeMerkleRoot_some hash hne (hle.trans hmax) null inner
  obtain ⟨d, bits, hashes, hbuilt, hheight, hd, hpow, hwritten⟩ := ofTxids_eq hne hmatch hroot
  have hlen : 0 < leaves.length := List.length_pos_iff.2 hne
  obtain ⟨fBad, -, hbad⟩ := hwritten.extract ⟨leaves.length, bits, hashes, false⟩ ⟨0, 0, [], false⟩ [] [] rfl (by simp) (by simp)
  have htwinned : fBad = true ↔ Twinned hash leaves vMatch := by
    rw [hbad, twinsBelow_root (hle.trans hmax) hd hpow]
    exact or_iff_right Bool.false_ne_true
  refine ⟨_, root, mutated, fBad, hbuilt, hroot, htwinned, fun padding hpadding => ?_⟩
  obtain ⟨fBad', hextract, hbad'⟩ :=
    hwritten.extract ⟨leaves.length, bits ++ padding, hashes, false⟩ ⟨0, 0, [], false⟩ padding [] rfl rfl (by simp)
  obtain rfl : fBad' = fBad := by
    rw [Bool.eq_iff_iff, hbad', hbad]
  have hlebits := hwritten.le_bits
  have hleleaves := hwritten.le_leaves
  have hzip : (leaves.zip vMatch).length ≤ 2 ^ d := by
    rw [List.length_zip]
    omega
  rw [below_root hpow] at hleleaves
  rw [below_root hzip, List.nil_append] at hextract
  have hguard : ¬ (leaves.length = 0 ∨ MAX_BLOCK_SIZE / 60 < leaves.length ∨ leaves.length < hashes.length ∨
      (bits ++ padding).length < hashes.length) := by
    rw [List.length_append]
    omega
  rw [extractMatches, if_neg hguard, hheight _ rfl, Option.bind_some, hextract, Option.map_some]
  refine congrArg some ?_
  cases fBad' with
  | true => exact if_pos (.inl rfl)
  | false =>
    have hused : ¬ (false = true ∨ (0 + bits.length + 7) / 8 ≠ ((bits ++ padding).length + 7) / 8 ∨
      0 + hashes.length ≠ hashes.length) := by
      rw [List.length_append, hpadding]
      simp
    exact if_neg hused

theorem extractMatches_cases (h : extractMatches hash null t = some ((root, ms), t')) (hnull : root ≠ null) :
    t.nTransactions ≠ 0 ∧ ∃ d e', t.nHeight = some d ∧ traverseAndExtract hash null t d 0 ⟨0, 0, [], t.fBad⟩ = some (root, e') ∧
      e'.fBad = false ∧ e'.vMatch = ms := by
  rw [extractMatches] at h
  split at h
  · cases h
    exact absurd rfl hnull
  · rename_i hguard
    obtain ⟨d, hd, h⟩ := Option.bind_eq_some_iff.1 h
    obtain ⟨⟨x, e'⟩, htraverse, h⟩ := Option.map_eq_some_iff.1 h
    dsimp only at h
    split at h
    · cases h
      exact absurd rfl hnull
    · rename_i hgood
      cases h
      exact ⟨fun hzero => hguard (.inl hzero), d, e', hd, htraverse, by simpa using fun hbad => hgood (.inl hbad), rfl⟩

/-- A tree with as many transactions as a list, and its root, has matches of that list. -/
theorem extractMatches_sound (hinj : Function.Injective2 hash) (hn : t.nTransactions = leaves.length)
    (hroot : computeMerkleRoot hash null inner leaves = some (root, mutated)) (hnull : root ≠ null)
    (h : extractMatches hash null t = some ((root, ms), t')) :
    List.Forall₂ (fun p x => leaves[p]? = some x) t.positions ms ∧ t.positions.Pairwise (· < ·) := by
  obtain ⟨hzero, d, e', hd, htraverse, hgood, rfl⟩ := extractMatches_cases h hnull
  have hne : leaves ≠ [] := by
    intro hnil
    rw [hn, hnil] at hzero
    exact hzero rfl
  obtain ⟨d', hd', -, -, hnode, -⟩ := nHeight_of_root hne hroot
  obtain rfl : d' = d := Option.some.inj ((hd' t hn).symm.trans hd)
  obtain ⟨-, ms, hms, hall⟩ := traverse_sound hinj hn htraverse hgood hnode
  rw [CPartialMerkleTree.positions, hd, hms]
  exact ⟨hall, matchPositions_increasing t d' 0 0⟩

end Trees

/-! ## What a partial tree proves -/

variable [DecidableEq α]

/-- Trees of lists that are not too long give their matches back; what gives the root of a list
    back has its leaves; and every tree gives something back. -/
theorem partialTree_proves (inner : Nat → α) :
    (∀ leaves vMatch, leaves ≠ [] → leaves.length ≤ MAX_BLOCK_SIZE / 60 → leaves.length ≤ vMatch.length →
      ∃ t t' root mutated, CPartialMerkleTree.ofTxids hash leaves vMatch = some t ∧
        computeMerkleRoot hash null inner leaves = some (root, mutated) ∧
        (¬ Twinned hash leaves vMatch → extractMatches hash null t = some ((root, matched (leaves.zip vMatch)), t')) ∧
        (Twinned hash leaves vMatch → extractMatches hash null t = some ((null, matched (leaves.zip vMatch)), t')) ∧
        (Function.Injective2 hash → Twinned hash leaves vMatch → mutated = true)) ∧
    (∀ (t t' : CPartialMerkleTree α) (leaves ms : List α) (root : α) (mutated : Bool), Function.Injective2 hash →
      t.nTransactions = leaves.length → computeMerkleRoot hash null inner leaves = some (root, mutated) → root ≠ null →
        extractMatches hash null t = some ((root, ms), t') →
          List.Forall₂ (fun p x => leaves[p]? = some x) t.positions ms ∧ t.positions.Pairwise (· < ·)) ∧
    ∀ t : CPartialMerkleTree α, ∃ r, extractMatches hash null t = some r := by
  refine ⟨fun leaves vMatch hne hle hmatch => ?_, fun t t' leaves ms root mutated => extractMatches_sound,
    extractMatches_total hash null⟩
  obtain ⟨t, root, mutated, fBad, hbuilt, hroot, htwinned, hextract⟩ := extractMatches_ofTxids hash null inner hne hle hmatch
  have hresult := hextract [] rfl
  rw [List.append_nil] at hresult
  refine ⟨t, { t with fBad := fBad }, root, mutated, hbuilt, hroot, fun hno => ?_, fun hyes => ?_, fun hinj hyes => ?_⟩
  · exact hresult.trans (by rw [if_neg fun hbad => hno (htwinned.1 hbad)])
  · exact hresult.trans (by rw [if_pos (htwinned.2 hyes)])
  · obtain ⟨-, -, -, -, -, hflag⟩ := nHeight_of_root hne hroot
    exact hflag.2 (hyes.flagged hinj)

/-- Three leaves, of which the first and the last are matched. -/
theorem partialTree_proves_three :
    (∃ t t' root, CPartialMerkleTree.ofTxids evenHash [1, 3, 5] [true, false, true] = some t ∧
      computeMerkleRoot evenHash 0 (fun _ => 0) [1, 3, 5] = some (root, false) ∧
        extractMatches evenHash 0 t = some ((root, [1, 5]), t')) ∧
    List.Forall₂ (fun p x => [1, 3, 5][p]? = some x)
      (CPartialMerkleTree.positions ⟨3, [true, false, true, true], [evenHash 1 3, 5], false⟩) [5] := by
  obtain ⟨hback, hsound, -⟩ := partialTree_proves evenHash 0 fun _ => 0
  refine ⟨?_, ?_⟩
  · obtain ⟨t, t', root, mutated, hbuilt, hroot, hresult, -, hmutated⟩ :=
      hback [1, 3, 5] [true, false, true] (by decide) (by decide) (by decide)
    obtain rfl : mutated = false := by
      have hflag : (computeMerkleRoot evenHash 0 (fun _ => 0) [1, 3, 5]).map (·.2) = some false := by decide
      rw [hroot] at hflag
      exact Option.some.inj hflag
    exact ⟨t, t', root, hbuilt, hroot, hresult fun htwinned => Bool.false_ne_true (hmutated evenHash_injective htwinned)⟩
  · exact (hsound ⟨3, [true, false, true, true], [evenHash 1 3, 5], false⟩ _ [1, 3, 5] [5] (evenHash (evenHash 1 3) (evenHash 5 5)) false
      evenHash_injective rfl (by decide) (by decide) rfl).1

def Recovers (leaves : List α) (vMatch : List Bool) : Prop :=
  ∃ t t' root mutated, CPartialMerkleTree.ofTxids hash leaves vMatch = some t ∧
    computeMerkleRoot hash null (fun _ => null) leaves = some (root, mutated) ∧
    extractMatches hash null t = some ((root, matched (leaves.zip vMatch)), t')

theorem extractMatches_long {t : CPartialMerkleTree α} (h : MAX_BLOCK_SIZE / 60 < t.nTransactions) :
    extractMatches hash null t = some ((null, []), t) := if_pos (.inr (.inl h))

/-- Two equal leaves, no leaf, and one more than a block can have give no root; and where the
    root is null, what is read of a tree that is bad is no leaf. -/
theorem null_stands_for_failure :
    ¬ Recovers evenHash 0 [1, 1] [true, false] ∧ ¬ Recovers evenHash 0 [] [] ∧
    ¬ Recovers evenHash 0 (List.replicate (MAX_BLOCK_SIZE / 60 + 1) 1) (List.replicate (MAX_BLOCK_SIZE / 60 + 1) true) ∧
    computeMerkleRoot evenHash 1 (fun _ => 1) [1] = some (1, false) ∧
      (extractMatches evenHash 1 ⟨1, [true, false, false, false, false, false, false, false, false], [3], false⟩).map (·.1) =
        some (1, [3]) := by
  refine ⟨?_, ?_, ?_, by decide, by decide⟩
  · intro h
    obtain ⟨t, t', root, mutated, hbuilt, hroot, hresult⟩ := h
    have hread : ((CPartialMerkleTree.ofTxids evenHash [1, 1] [true, false]).bind (extractMatches evenHash 0)).map (·.1) =
      some (0, [1]) := by
      decide
    have htop : (computeMerkleRoot evenHash 0 (fun _ => 0) [1, 1]).map (·.1) = some (evenHash 1 1) := by decide
    rw [hbuilt, Option.bind_some, hresult] at hread
    rw [hroot] at htop
    cases hread
    cases htop
  · intro h
    obtain ⟨t, t', root, mutated, hbuilt, -⟩ := h
    cases hbuilt
  · generalize hn : MAX_BLOCK_SIZE / 60 = n
    intro h
    obtain ⟨t, t', root, mutated, hbuilt, hroot, hresult⟩ := h
    have hne : List.replicate (n + 1) 1 ≠ [] := List.cons_ne_nil _ _
    have hmatch : (List.replicate (n + 1) 1).length ≤ (List.replicate (n + 1) true).length := by simp
    obtain ⟨d, bits, hashes, hbuilt', -⟩ := ofTxids_eq hne hmatch hroot
    rw [hbuilt] at hbuilt'
    cases hbuilt'
    rw [extractMatches_long evenHash 0 (by rw [hn, List.length_replicate]; exact Nat.lt_succ_self n)] at hresult
    cases hresult

end Zumy.Consensus.PartialMerkle
