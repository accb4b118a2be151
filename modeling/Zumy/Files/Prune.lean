/-
  Zumy.Files.Prune — the block files, and which of them are deleted to stay below a target
  (chain.h, main.cpp).

  A file is its record together with the heights of the blocks that were written to it:
  `BlockFile` says what `AddBlock` keeps of them, so a record that is not of its blocks
  cannot be built. Sizes, heights in a record and the usage are machine integers.
  `nLastBlockFile` is the file that is written; what a block is written with (`fKnown` is
  false) changes it.

  What is meant to be kept is `MIN_BLOCKS_TO_KEEP` blocks up to the tip (`Kept`). The
  comparison is with `nHeight - MIN_BLOCKS_TO_KEEP`, which is unsigned: below that height
  it is above every height, and each file that is not the last is deleted
  (`young_chain_is_deleted`).
-/
import Mathlib.Data.UInt
import Mathlib.Algebra.BigOperators.Group.List.Basic
import Mathlib.Data.List.MinMax
import Mathlib.Tactic.NormNum

namespace Zumy.Files

/-- `int nHeight` of a block, which is not negative. -/
abbrev Height := Fin (2 ^ 31)

def BLOCKFILE_CHUNK_SIZE : UInt32 := 0x4000000
def UNDOFILE_CHUNK_SIZE : UInt32 := 0x400000
def MIN_BLOCKS_TO_KEEP : UInt32 := 288

/-! ## Records -/

structure CBlockFileInfo where
  nBlocks : UInt32
  nSize : UInt32
  nUndoSize : UInt32
  nHeightFirst : UInt32
  nHeightLast : UInt32
  nTimeFirst : UInt64
  nTimeLast : UInt64
  deriving DecidableEq

namespace CBlockFileInfo

/-- `SetNull`. -/
def null : CBlockFileInfo := ⟨0, 0, 0, 0, 0, 0, 0⟩

variable (info : CBlockFileInfo)

/-- `nSize + nUndoSize`, which is added as two `unsigned int` are. -/
def usage : UInt64 := (info.nSize + info.nUndoSize).toUInt64

end CBlockFileInfo

/-- A file's record, and the heights of its blocks, the last one written first. -/
structure BlockFile where
  info : CBlockFileInfo
  blocks : List Height
  highest : info.nHeightLast.toNat = (blocks.map Fin.val).foldr max 0
  filled : info.nSize = 0 ↔ blocks = []

namespace BlockFile

def null : BlockFile := ⟨.null, [], rfl, by simp [CBlockFileInfo.null]⟩

variable (file : BlockFile)

theorem le_highest {h : Height} (hh : h ∈ file.blocks) : h.val ≤ file.info.nHeightLast.toNat := by
  rw [file.highest]
  exact List.le_max_of_le' 0 (List.mem_map_of_mem hh) le_rfl

theorem exists_highest (h : file.blocks ≠ []) : ∃ b ∈ file.blocks, b.val = file.info.nHeightLast.toNat := by
  rw [file.highest]
  generalize file.blocks = bs at h
  induction bs with
  | nil => exact absurd rfl h
  | cons b bs ih =>
    by_cases hbs : bs = []
    · exact ⟨b, by simp, by simp [hbs]⟩
    · obtain ⟨c, hc, hmax⟩ := ih hbs
      rcases max_choice b.val ((bs.map Fin.val).foldr max 0) with h | h
      · exact ⟨b, by simp, by simpa using h.symm⟩
      · exact ⟨c, by simp [hc], by rw [hmax]; simpa using h.symm⟩

end BlockFile

/-! ## The files -/

structure BlockFiles where
  vinfoBlockFile : List BlockFile
  nLastBlockFile : Nat
  last_lt : nLastBlockFile < vinfoBlockFile.length

namespace BlockFiles

variable (s : BlockFiles)

/-- `vinfoBlockFile[fileNumber]`. -/
def file (fileNumber : Nat) : BlockFile := s.vinfoBlockFile.getD fileNumber .null

def calculateCurrentUsage : UInt64 := (s.vinfoBlockFile.map (·.info.usage)).sum

def pruneOneBlockFile (fileNumber : Nat) : BlockFiles where
  vinfoBlockFile := s.vinfoBlockFile.set fileNumber .null
  nLastBlockFile := s.nLastBlockFile
  last_lt := by simpa using s.last_lt

theorem file_pruneOneBlockFile (f g : Nat) : (s.pruneOneBlockFile f).file g = if g = f then .null else s.file g := by
  simp only [file, pruneOneBlockFile, List.getD_eq_getElem?_getD, List.getElem?_set]
  by_cases h : g = f
  · subst h
    by_cases hlt : g < s.vinfoBlockFile.length <;> simp [hlt]
  · rw [if_neg fun e => h e.symm, if_neg h]

theorem usage_pruneOneBlockFile {f : Nat} (hf : f < s.nLastBlockFile) :
    (s.pruneOneBlockFile f).calculateCurrentUsage = s.calculateCurrentUsage - (s.file f).info.usage := by
  have hlt : f < s.vinfoBlockFile.length := hf.trans s.last_lt
  have hset := List.sum_set' (s.vinfoBlockFile.map (·.info.usage)) f (CBlockFileInfo.usage .null)
  have hfile : s.file f = s.vinfoBlockFile[f] := by simp [file, hlt]
  have hnull : CBlockFileInfo.usage .null = 0 := rfl
  simp only [calculateCurrentUsage, pruneOneBlockFile, List.map_set, BlockFile.null]
  rw [hset, dif_pos (by simpa using hlt), List.getElem_map, hnull, add_zero, hfile, sub_eq_add_neg]

end BlockFiles

/-! ## Which files are deleted -/

/-- `tip` is the height of `chainActive.Tip()`. -/
structure Pruning where
  tip : Option Height
  nPruneTarget : UInt64
  nPruneAfterHeight : UInt64

/-- What `FindFilesToPrune` has at the start of a turn of its loop. -/
structure PruneState where
  files : BlockFiles
  setFilesToPrune : Finset Nat
  nCurrentUsage : UInt64

def nBuffer : UInt64 := (BLOCKFILE_CHUNK_SIZE + UNDOFILE_CHUNK_SIZE).toUInt64

def pruneLoop (nPruneTarget : UInt64) (nLastBlockWeCanPrune : UInt32) : List Nat → PruneState → PruneState
  | [], s => s
  | fileNumber :: fileNumbers, s =>
    let info := (s.files.file fileNumber).info
    let nBytesToPrune := info.usage
    if info.nSize = 0 then pruneLoop nPruneTarget nLastBlockWeCanPrune fileNumbers s
    else if s.nCurrentUsage + nBuffer < nPruneTarget then s
    else if nLastBlockWeCanPrune < info.nHeightLast then pruneLoop nPruneTarget nLastBlockWeCanPrune fileNumbers s
    else
      pruneLoop nPruneTarget nLastBlockWeCanPrune fileNumbers
        { files := s.files.pruneOneBlockFile fileNumber
          setFilesToPrune := insert fileNumber s.setFilesToPrune
          nCurrentUsage := s.nCurrentUsage - nBytesToPrune }

def findFilesToPrune (p : Pruning) (s : BlockFiles) : BlockFiles × Finset Nat :=
  match p.tip with
  | none => (s, ∅)
  | some nHeight =>
    if p.nPruneTarget = 0 then (s, ∅)
    else if UInt64.ofNat nHeight ≤ p.nPruneAfterHeight then (s, ∅)
    else
      let nLastBlockWeCanPrune := UInt32.ofNat nHeight - MIN_BLOCKS_TO_KEEP
      let nCurrentUsage := s.calculateCurrentUsage
      if p.nPruneTarget ≤ nCurrentUsage + nBuffer then
        let t := pruneLoop p.nPruneTarget nLastBlockWeCanPrune (List.range s.nLastBlockFile) ⟨s, ∅, nCurrentUsage⟩
        (t.files, t.setFilesToPrune)
      else (s, ∅)

/-! ## What is meant -/

namespace Pruning

variable (p : Pruning)

/-- A block of this height is one of the `MIN_BLOCKS_TO_KEEP` up to the tip, or above it. -/
def Kept (h : Height) : Prop := ∃ tip, p.tip = some tip ∧ tip.val < h.val + MIN_BLOCKS_TO_KEEP.toNat

def Active : Prop := ∃ tip, p.tip = some tip ∧ p.nPruneTarget ≠ 0 ∧ p.nPruneAfterHeight.toNat < tip.val

def BelowTarget (s : BlockFiles) : Prop := s.calculateCurrentUsage + nBuffer < p.nPruneTarget

/-- The file has blocks, none of them is kept, and it is not written any more. -/
def Eligible (s : BlockFiles) (f : Nat) : Prop :=
  p.Active ∧ f < s.nLastBlockFile ∧ (s.file f).blocks ≠ [] ∧ ∀ h ∈ (s.file f).blocks, ¬ p.Kept h

structure Sound (s : BlockFiles) : Prop where
  kept : ∀ f ∈ (findFilesToPrune p s).2, ∀ h ∈ (s.file f).blocks, ¬ p.Kept h
  written : s.nLastBlockFile ∉ (findFilesToPrune p s).2
  enough : p.BelowTarget (findFilesToPrune p s).1 ∨ ∀ f, ¬ p.Eligible (findFilesToPrune p s).1 f

/-- Where there is something to delete, the tip is at `MIN_BLOCKS_TO_KEEP` at least. -/
def OldEnough (s : BlockFiles) : Prop :=
  p.Active → ¬ p.BelowTarget s → (∃ f < s.nLastBlockFile, (s.file f).blocks ≠ []) → ∃ tip, p.tip = some tip ∧
    MIN_BLOCKS_TO_KEEP.toNat ≤ tip.val

end Pruning

/-! ## The loop -/

def Prunable (nLastBlockWeCanPrune : UInt32) (file : BlockFile) : Prop :=
  file.info.nSize ≠ 0 ∧ file.info.nHeightLast ≤ nLastBlockWeCanPrune

section
variable {nPruneTarget : UInt64} {nLastBlockWeCanPrune : UInt32} {fs : List Nat} {s : PruneState} {f : Nat}

theorem not_prunable_null : ¬ Prunable nLastBlockWeCanPrune .null := fun h => h.1 rfl

theorem pruneLoop_subset : s.setFilesToPrune ⊆ (pruneLoop nPruneTarget nLastBlockWeCanPrune fs s).setFilesToPrune := by
  induction fs generalizing s with
  | nil => exact subset_rfl
  | cons f fs ih =>
    simp only [pruneLoop]
    split_ifs
    · exact ih
    · exact subset_rfl
    · exact ih
    · exact fun g hg => ih (Finset.mem_insert_of_mem hg)

@[simp] theorem pruneLoop_nLastBlockFile :
    (pruneLoop nPruneTarget nLastBlockWeCanPrune fs s).files.nLastBlockFile = s.files.nLastBlockFile := by
  induction fs generalizing s with
  | nil => rfl
  | cons f fs ih =>
    simp only [pruneLoop]
    split_ifs
    · exact ih
    · rfl
    · exact ih
    · exact ih

theorem pruneLoop_file (hf : f ∉ fs) : (pruneLoop nPruneTarget nLastBlockWeCanPrune fs s).files.file f = s.files.file f := by
  induction fs generalizing s with
  | nil => rfl
  | cons g fs ih =>
    obtain ⟨hne, hf⟩ := not_or.mp (List.mem_cons.not.mp hf)
    simp only [pruneLoop]
    split_ifs
    · exact ih hf
    · rfl
    · exact ih hf
    · rw [ih hf, BlockFiles.file_pruneOneBlockFile, if_neg hne]

/-- A file that is selected was prunable when the loop began: the turns before it were of other files. -/
theorem pruneLoop_selected (hnodup : fs.Nodup) (hf : f ∈ (pruneLoop nPruneTarget nLastBlockWeCanPrune fs s).setFilesToPrune) :
    f ∈ s.setFilesToPrune ∨ (f ∈ fs ∧ Prunable nLastBlockWeCanPrune (s.files.file f)) := by
  induction fs generalizing s with
  | nil => exact .inl hf
  | cons g fs ih =>
    obtain ⟨hg, hnodup⟩ := List.nodup_cons.mp hnodup
    simp only [pruneLoop] at hf
    split_ifs at hf with hsize hbelow hlast
    · exact (ih hnodup hf).imp_right fun h => ⟨List.mem_cons_of_mem g h.1, h.2⟩
    · exact .inl hf
    · exact (ih hnodup hf).imp_right fun h => ⟨List.mem_cons_of_mem g h.1, h.2⟩
    · rcases ih hnodup hf with h | ⟨hmem, h⟩
      · rcases Finset.mem_insert.mp h with rfl | h
        · exact .inr ⟨List.mem_cons_self, hsize, UInt32.not_lt.mp hlast⟩
        · exact .inl h
      · have hne : f ≠ g := fun e => hg (e ▸ hmem)
        rw [BlockFiles.file_pruneOneBlockFile, if_neg hne] at h
        exact .inr ⟨List.mem_cons_of_mem g hmem, h⟩

theorem pruneLoop_usage (hfs : ∀ f ∈ fs, f < s.files.nLastBlockFile) (hs : s.nCurrentUsage = s.files.calculateCurrentUsage) :
    (pruneLoop nPruneTarget nLastBlockWeCanPrune fs s).nCurrentUsage =
      (pruneLoop nPruneTarget nLastBlockWeCanPrune fs s).files.calculateCurrentUsage := by
  induction fs generalizing s with
  | nil => exact hs
  | cons f fs ih =>
    have hfs' := fun g hg => hfs g (List.mem_cons_of_mem f hg)
    simp only [pruneLoop]
    split_ifs
    · exact ih hfs' hs
    · exact hs
    · exact ih hfs' hs
    · refine ih hfs' ?_
      rw [BlockFiles.usage_pruneOneBlockFile _ (hfs f List.mem_cons_self), hs]

/-- The loop ends below the target, or each of its files is not prunable behind it. -/
theorem pruneLoop_enough (hnodup : fs.Nodup) :
    (pruneLoop nPruneTarget nLastBlockWeCanPrune fs s).nCurrentUsage + nBuffer < nPruneTarget ∨
      ∀ f ∈ fs, ¬ Prunable nLastBlockWeCanPrune ((pruneLoop nPruneTarget nLastBlockWeCanPrune fs s).files.file f) := by
  induction fs generalizing s with
  | nil => exact .inr (by simp)
  | cons g fs ih =>
    obtain ⟨hg, hnodup⟩ := List.nodup_cons.mp hnodup
    simp only [pruneLoop, List.forall_mem_cons]
    split_ifs with hsize hbelow hlast
    · refine (ih hnodup).imp_right fun h => ⟨?_, h⟩
      rw [pruneLoop_file hg]
      exact fun hp => hp.1 hsize
    · exact .inl hbelow
    · refine (ih hnodup).imp_right fun h => ⟨?_, h⟩
      rw [pruneLoop_file hg]
      exact fun hp => UInt32.not_lt.mpr hp.2 hlast
    · refine (ih hnodup).imp_right fun h => ⟨?_, h⟩
      rw [pruneLoop_file hg, BlockFiles.file_pruneOneBlockFile, if_pos rfl]
      exact not_prunable_null

theorem pruneLoop_selects (habove : ¬ s.nCurrentUsage + nBuffer < nPruneTarget) (hf : f ∈ fs)
    (hp : Prunable nLastBlockWeCanPrune (s.files.file f)) :
    ∃ g ∈ (pruneLoop nPruneTarget nLastBlockWeCanPrune fs s).setFilesToPrune, Prunable nLastBlockWeCanPrune (s.files.file g) := by
  induction fs with
  | nil => simp at hf
  | cons g fs ih =>
    simp only [pruneLoop, if_neg habove]
    split_ifs with hsize hlast
    · rcases List.mem_cons.mp hf with rfl | hf
      · exact absurd hsize hp.1
      · exact ih hf
    · rcases List.mem_cons.mp hf with rfl | hf
      · exact absurd hlast (UInt32.not_lt.mpr hp.2)
      · exact ih hf
    · exact ⟨g, pruneLoop_subset (Finset.mem_insert_self _ _), hsize, UInt32.not_lt.mp hlast⟩

end

/-! ## Soundness -/

section
variable {p : Pruning} {s : BlockFiles} {tip : Height}

def startLoop (p : Pruning) (s : BlockFiles) (tip : Height) : PruneState :=
  pruneLoop p.nPruneTarget (UInt32.ofNat tip - MIN_BLOCKS_TO_KEEP) (List.range s.nLastBlockFile) ⟨s, ∅, s.calculateCurrentUsage⟩

theorem toNat_height64 (tip : Height) : (UInt64.ofNat tip).toNat = tip.val :=
  UInt64.toNat_ofNat_of_lt' (lt_trans tip.isLt (by norm_num))

theorem toNat_height32 (tip : Height) : (UInt32.ofNat tip).toNat = tip.val :=
  UInt32.toNat_ofNat_of_lt' (lt_trans tip.isLt (by norm_num))

theorem find_of_active (htip : p.tip = some tip) (ha : p.Active) (habove : ¬ p.BelowTarget s) :
    findFilesToPrune p s = ((startLoop p s tip).files, (startLoop p s tip).setFilesToPrune) := by
  obtain ⟨tip', htip', htarget, hafter⟩ := ha
  obtain rfl : tip = tip' := Option.some.inj (htip.symm.trans htip')
  have hheight : ¬ UInt64.ofNat tip ≤ p.nPruneAfterHeight := by
    rw [UInt64.le_iff_toNat_le, toNat_height64]
    omega
  simp only [findFilesToPrune, htip, if_neg htarget, if_neg hheight, if_pos (UInt64.not_lt.mp habove), startLoop]

theorem find_of_idle (h : ¬ (p.Active ∧ ¬ p.BelowTarget s)) : findFilesToPrune p s = (s, ∅) := by
  simp only [findFilesToPrune]
  split
  · rfl
  · rename_i tip htip
    split_ifs with htarget hheight hbelow
    · rfl
    · rfl
    · refine absurd ⟨⟨tip, htip, htarget, ?_⟩, UInt64.not_lt.mpr hbelow⟩ h
      rw [UInt64.le_iff_toNat_le, toNat_height64] at hheight
      omega
    · rfl

theorem filled_iff (file : BlockFile) : file.info.nSize ≠ 0 ↔ file.blocks ≠ [] := not_congr file.filled

/-- Above `MIN_BLOCKS_TO_KEEP`, the loop's comparison says that no block of the file is kept. -/
theorem prunable_iff (htip : p.tip = some tip) (hold : MIN_BLOCKS_TO_KEEP.toNat ≤ tip.val) (file : BlockFile) :
    Prunable (UInt32.ofNat tip - MIN_BLOCKS_TO_KEEP) file ↔ file.blocks ≠ [] ∧ ∀ h ∈ file.blocks, ¬ p.Kept h := by
  have hsub : (UInt32.ofNat tip - MIN_BLOCKS_TO_KEEP).toNat = tip.val - MIN_BLOCKS_TO_KEEP.toNat := by
    rw [UInt32.toNat_sub_of_le _ _ (by rwa [UInt32.le_iff_toNat_le, toNat_height32]), toNat_height32]
  have hkept (h : Height) : p.Kept h ↔ tip.val < h.val + MIN_BLOCKS_TO_KEEP.toNat :=
    ⟨fun ⟨t, ht, hlt⟩ => Option.some.inj (htip.symm.trans ht) ▸ hlt, fun hlt => ⟨tip, htip, hlt⟩⟩
  unfold Prunable
  rw [filled_iff, UInt32.le_iff_toNat_le, hsub]
  refine and_congr_right fun hne => ⟨fun hle h hh => ?_, fun hnone => ?_⟩
  · have := file.le_highest hh
    rw [hkept]
    omega
  · obtain ⟨h, hh, hval⟩ := file.exists_highest hne
    have := hnone h hh
    rw [hkept] at this
    omega

theorem prunable_of_young (hyoung : tip.val < MIN_BLOCKS_TO_KEEP.toNat) {file : BlockFile} (hne : file.blocks ≠ []) :
    Prunable (UInt32.ofNat tip - MIN_BLOCKS_TO_KEEP) file := by
  obtain ⟨h, -, hval⟩ := file.exists_highest hne
  have hmin : MIN_BLOCKS_TO_KEEP.toNat = 288 := rfl
  refine ⟨(filled_iff file).mpr hne, ?_⟩
  rw [UInt32.le_iff_toNat_le, UInt32.toNat_sub, toNat_height32, ← hval]
  have := h.isLt
  omega

theorem not_written : s.nLastBlockFile ∉ (findFilesToPrune p s).2 := by
  by_cases h : p.Active ∧ ¬ p.BelowTarget s
  · obtain ⟨tip, htip, -⟩ := h.1
    rw [find_of_active htip h.1 h.2]
    intro hf
    rcases pruneLoop_selected List.nodup_range hf with hf | ⟨hf, -⟩
    · simp at hf
    · simp at hf
  · simp [find_of_idle h]

theorem enough_or_none : p.BelowTarget (findFilesToPrune p s).1 ∨ ∀ f, ¬ p.Eligible (findFilesToPrune p s).1 f := by
  by_cases h : p.Active ∧ ¬ p.BelowTarget s
  · obtain ⟨tip, htip, -⟩ := h.1
    rw [find_of_active htip h.1 h.2]
    have husage : (startLoop p s tip).nCurrentUsage = (startLoop p s tip).files.calculateCurrentUsage :=
      pruneLoop_usage (fun f hf => List.mem_range.mp hf) rfl
    have henough : (startLoop p s tip).nCurrentUsage + nBuffer < p.nPruneTarget ∨ ∀ f ∈ List.range s.nLastBlockFile,
        ¬ Prunable (UInt32.ofNat tip - MIN_BLOCKS_TO_KEEP) ((startLoop p s tip).files.file f) := pruneLoop_enough List.nodup_range
    rcases henough with hbelow | hnone
    · left
      change (startLoop p s tip).nCurrentUsage + nBuffer < p.nPruneTarget at hbelow
      rwa [husage] at hbelow
    · right
      rintro f ⟨-, hlt, hne, hkept⟩
      have hmem : f ∈ List.range s.nLastBlockFile := by simpa [startLoop] using hlt
      refine hnone f hmem ?_
      by_cases hold : MIN_BLOCKS_TO_KEEP.toNat ≤ tip.val
      · exact (prunable_iff htip hold _).mpr ⟨hne, hkept⟩
      · exact prunable_of_young (Nat.lt_of_not_le hold) hne
  · rw [find_of_idle h]
    by_cases ha : p.Active
    · exact .inl (not_not.mp fun hb => h ⟨ha, hb⟩)
    · exact .inr fun f hf => ha hf.1

theorem kept_of_young (htip : p.tip = some tip) (hyoung : tip.val < MIN_BLOCKS_TO_KEEP.toNat) (h : Height) : p.Kept h :=
  ⟨tip, htip, by omega⟩

theorem old_enough_of_sound (hs : p.Sound s) : p.OldEnough s := by
  intro ha habove ⟨f, hf, hne⟩
  obtain ⟨tip, htip, -⟩ := id ha
  refine ⟨tip, htip, Nat.le_of_not_lt fun hyoung => ?_⟩
  obtain ⟨g, hg, hp⟩ := pruneLoop_selects (s := ⟨s, ∅, s.calculateCurrentUsage⟩) habove (List.mem_range.mpr hf)
    (prunable_of_young hyoung hne)
  obtain ⟨h, hh⟩ := List.exists_mem_of_ne_nil _ ((filled_iff _).mp hp.1)
  have hkept := hs.kept g
  rw [find_of_active htip ha habove] at hkept
  exact hkept hg h hh (kept_of_young htip hyoung h)

theorem sound_of_old_enough (hold : p.OldEnough s) : p.Sound s := by
  refine ⟨fun f hf => ?_, not_written, enough_or_none⟩
  by_cases h : p.Active ∧ ¬ p.BelowTarget s
  · obtain ⟨tip, htip, -⟩ := h.1
    rw [find_of_active htip h.1 h.2] at hf
    rcases pruneLoop_selected List.nodup_range hf with hf | ⟨hf, hp⟩
    · simp at hf
    · obtain ⟨t, ht, hle⟩ := hold h.1 h.2 ⟨f, List.mem_range.mp hf, (filled_iff _).mp hp.1⟩
      obtain rfl : tip = t := Option.some.inj (htip.symm.trans ht)
      exact ((prunable_iff htip hle _).mp hp).2
  · simp [find_of_idle h] at hf

end

/-- `FindFilesToPrune` keeps what it is meant to exactly if the tip is not below
    `MIN_BLOCKS_TO_KEEP` when it deletes something. -/
theorem sound_iff_old_enough (p : Pruning) (s : BlockFiles) : p.Sound s ↔ p.OldEnough s :=
  ⟨old_enough_of_sound, sound_of_old_enough⟩

/-! ## A young chain -/

def fullInfo (first : UInt32) : CBlockFileInfo := ⟨127, 532677624, 0, first, first + 126, 1543504836, 1543604836⟩

def heightsFrom (first : Nat) : List Height := (List.range 127).map fun i => Fin.ofNat _ (first + i)

def youngFiles : BlockFiles where
  vinfoBlockFile :=
    [⟨fullInfo 1, heightsFrom 1, by decide +kernel, by decide⟩, ⟨fullInfo 128, heightsFrom 128, by decide +kernel, by decide⟩,
      ⟨fullInfo 255, heightsFrom 255, by decide +kernel, by decide⟩, .null]
  nLastBlockFile := 3
  last_lt := by decide

def youngPruning : Pruning := ⟨some 200, 1590 * 1024 * 1024, 100⟩

/-- The file of the blocks 1 to 127 is deleted at height 200. -/
theorem young_chain_is_deleted : ¬ ∀ (p : Pruning) (s : BlockFiles), p.Sound s := by
  intro h
  have hmem : 0 ∈ (findFilesToPrune youngPruning youngFiles).2 := by decide
  have hblock : (100 : Height) ∈ (youngFiles.file 0).blocks := by decide
  exact (h youngPruning youngFiles).kept 0 hmem 100 hblock ⟨200, rfl, by decide⟩

end Zumy.Files
