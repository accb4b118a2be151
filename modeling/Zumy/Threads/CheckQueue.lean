/-
  Zumy.Threads.CheckQueue — checkqueue.h: the queue of the checks of a block, which any number
  of workers and the master take batches from.

  A thread is outside of `Loop`, holds the mutex, waits for its condition variable, or runs a
  batch without the mutex. A section of `Loop` is `lock`, up to the loop over the empty queue,
  and `unlock`, which ends where the mutex is given back; a waiting thread may be woken at any
  time, notified or not. Checks are pure: `eval`. What was added and taken since the last
  `Wait`, and the results of all of them, are kept beside the queue. The counters are unbounded,
  and `fQuit` is never set.

  Proved, for any number of workers, any batch size and any interleaving:
  - `step_inv`: `nTodo`, `nTotal` and `nIdle` count the checks and the threads, and a check that
    fails is seen by `fAllOk` or by a thread that has not given back its batch.
-/
import Zumy.Lib.Run
import Mathlib.Algebra.BigOperators.Group.Finset.Basic
import Mathlib.Algebra.Order.BigOperators.Group.Finset
import Mathlib.Data.List.DropRight
import Mathlib.Data.Fintype.Option

namespace Zumy.Threads

open Zumy.Lib

structure CCheckQueue (T : Type) where
  /-- The checks that wait to be taken, from the back. -/
  queue : List T
  /-- The number of threads, the master among them, that are waiting. -/
  nIdle : Nat
  /-- The number of threads in `Loop`. -/
  nTotal : Nat
  /-- The temporary result of the evaluation. -/
  fAllOk : Bool
  /-- The checks that are not evaluated yet: in the queue, or in a thread's own batch. -/
  nTodo : Nat
  fQuit : Bool
  nBatchSize : Nat

inductive Phase (T : Type) where
  | outside
  | locked
  | waiting
  /-- The batch had `nNow` checks, of which `vChecks` are left. -/
  | running (nNow : Nat) (vChecks : List T) (fOk : Bool)

variable {T ι : Type}

namespace CCheckQueue

def new (nBatchSizeIn : Nat) : CCheckQueue T := ⟨[], 0, 0, true, 0, false, nBatchSizeIn⟩

def add (q : CCheckQueue T) (vChecks : List T) : CCheckQueue T :=
  { q with queue := q.queue ++ vChecks, nTodo := q.nTodo + vChecks.length }

def isIdle (q : CCheckQueue T) : Bool := q.nTotal == q.nIdle && q.nTodo == 0 && q.fAllOk

def cleanUp (q : CCheckQueue T) (nNow : Nat) (fOk : Bool) : CCheckQueue T :=
  if nNow ≠ 0 then { q with fAllOk := q.fAllOk && fOk, nTodo := q.nTodo - nNow }
  else { q with nTotal := q.nTotal + 1 }

/-- How many checks a thread takes: at least one, and fewer the more threads there are. -/
def batch (q : CCheckQueue T) : Nat := max 1 (min q.nBatchSize (q.queue.length / (q.nTotal + q.nIdle + 1)))

def lock (q : CCheckQueue T) : Phase T → Option (CCheckQueue T)
  | .outside => some (q.cleanUp 0 true)
  | .locked => none
  | .waiting => some { q with nIdle := q.nIdle - 1 }
  | .running nNow [] fOk => some (q.cleanUp nNow fOk)
  | .running _ (_ :: _) _ => none

/-- The rest of a section: the queue, where the thread stands then, what it took, and what `Loop` returns. -/
def unlock (fMaster : Bool) (q : CCheckQueue T) : CCheckQueue T × Phase T × List T × Option Bool :=
  match q.queue with
  | [] =>
    if (fMaster || q.fQuit) && q.nTodo == 0 then
      -- the status is reset for new work later
      ({ q with nTotal := q.nTotal - 1, fAllOk := if fMaster then true else q.fAllOk }, .outside, [], some q.fAllOk)
    else ({ q with nIdle := q.nIdle + 1 }, .waiting, [], none)
  | _ :: _ =>
    let nNow := q.batch
    let vChecks := (q.queue.rtake nNow).reverse
    ({ q with queue := q.queue.rdrop nNow }, .running nNow vChecks q.fAllOk, vChecks, none)

end CCheckQueue

/-- A `Wait`: what was added since the one before, what was taken since then, and the answer. -/
structure WaitResult (T : Type) where
  added : List T
  taken : List T
  fRet : Bool

/-- The threads around the queue; the master is `none`. -/
structure CheckThreads (T ι : Type) where
  q : CCheckQueue T
  phase : Option ι → Phase T
  /-- Who holds the mutex. -/
  holder : Option (Option ι)
  added : List T
  taken : List T
  waits : List (WaitResult T)

inductive Event (T ι : Type) where
  /-- The master's `Add`. -/
  | add (vChecks : List T)
  | lock (t : Option ι)
  | unlock (t : Option ι)
  /-- A thread evaluates the next check of its batch. -/
  | check (t : Option ι)

namespace CheckThreads

def start (nBatchSize : Nat) : CheckThreads T ι := ⟨.new nBatchSize, fun _ => .outside, none, [], [], []⟩

variable [DecidableEq ι]

def setPhase (s : CheckThreads T ι) (t : Option ι) (phase : Phase T) : CheckThreads T ι :=
  { s with phase := Function.update s.phase t phase }

/-- What a section leaves: where `Loop` returns to the master, the `Wait` is over. -/
def leave (s : CheckThreads T ι) (t : Option ι) : CCheckQueue T × Phase T × List T × Option Bool → CheckThreads T ι
  | (q, phase, taken, fRet) =>
    let s' := { s.setPhase t phase with q := q, holder := none, taken := s.taken ++ taken }
    match t, fRet with
    | none, some fRet => { s' with added := [], taken := [], waits := ⟨s'.added, s'.taken, fRet⟩ :: s.waits }
    | _, _ => s'

def step (eval : T → Bool) (s : CheckThreads T ι) : Event T ι → Option (CheckThreads T ι)
  | .add vChecks =>
    match s.holder, s.phase none with
    | none, .outside => some { s with q := s.q.add vChecks, added := s.added ++ vChecks }
    | _, _ => none
  | .lock t =>
    match s.holder with
    | none => (s.q.lock (s.phase t)).map fun q => { s.setPhase t .locked with q := q, holder := some t }
    | some _ => none
  | .unlock t => if s.holder = some t then some (s.leave t (s.q.unlock t.isNone)) else none
  | .check t =>
    match s.phase t with
    | .running nNow (c :: vChecks) fOk => some (s.setPhase t (.running nNow vChecks (if fOk then eval c else fOk)))
    | _ => none

end CheckThreads

/-! ## Counting threads -/

namespace Phase

def nNow : Phase T → Nat
  | .running nNow _ _ => nNow
  | _ => 0

def inLoop : Phase T → Nat
  | .outside => 0
  | _ => 1

def idle : Phase T → Nat
  | .waiting => 1
  | _ => 0

end Phase

theorem sum_update [Fintype ι] [DecidableEq ι] (weight : Phase T → Nat) (phase : ι → Phase T) (t : ι) (p : Phase T) (m n : Nat)
    (hm : weight (phase t) = m) (hn : weight p = n) :
    ∑ j, weight (Function.update phase t p j) + m = ∑ j, weight (phase j) + n := by
  rw [← Finset.add_sum_erase _ _ (Finset.mem_univ t),
    ← Finset.add_sum_erase Finset.univ (fun j => weight (phase j)) (Finset.mem_univ t),
    Function.update_self, hm, hn]
  have hothers : ∑ j ∈ Finset.univ.erase t, weight (Function.update phase t p j) =
    ∑ j ∈ Finset.univ.erase t, weight (phase j) := by
    refine Finset.sum_congr rfl fun j hj => ?_
    rw [Function.update_of_ne (Finset.ne_of_mem_erase hj)]
  omega

/-! ## The invariant -/

/-- A `Wait` took all that was added, and answered whether all of it holds. -/
structure WaitResult.Exact (eval : T → Bool) (w : WaitResult T) : Prop where
  taken : w.taken.Perm w.added
  answer : w.fRet = true ↔ ∀ c ∈ w.added, eval c = true

variable [Fintype ι] [DecidableEq ι]

/-- A failed check that was taken is in the shared result, or will be: its thread saw it or still has it. -/
def Pending (s : CheckThreads T ι) (c : T) : Prop :=
  s.q.fAllOk = false ∨ ∃ t nNow vChecks fOk, s.phase t = .running nNow vChecks fOk ∧ (fOk = false ∨ c ∈ vChecks)

structure Inv (eval : T → Bool) (s : CheckThreads T ι) : Prop where
  todo : s.q.nTodo = s.q.queue.length + ∑ t, (s.phase t).nNow
  total : s.q.nTotal = ∑ t, (s.phase t).inLoop
  idle : s.q.nIdle = ∑ t, (s.phase t).idle
  quit : s.q.fQuit = false
  holder : ∀ t, s.phase t = .locked ↔ s.holder = some t
  perm : (s.taken ++ s.q.queue).Perm s.added
  batch : ∀ t nNow vChecks fOk, s.phase t = .running nNow vChecks fOk → 1 ≤ nNow ∧ s.taken ≠ []
  /-- The shared result is false, and so is a thread's, for a reason. -/
  refuted : s.q.fAllOk = false ∨ (∃ t nNow vChecks, s.phase t = .running nNow vChecks false) → ∃ c ∈ s.taken, eval c = false
  pending : ∀ c ∈ s.taken, eval c = false → Pending s c
  /-- A batch that is not given back was taken. -/
  own : ∀ t nNow vChecks fOk, s.phase t = .running nNow vChecks fOk → ∀ c ∈ vChecks, c ∈ s.taken
  waits : ∀ w ∈ s.waits, w.Exact eval

variable {eval : T → Bool} {s s' : CheckThreads T ι} {t : Option ι}

omit [DecidableEq ι] in
theorem inv_start (eval : T → Bool) (nBatchSize : Nat) : Inv eval (CheckThreads.start nBatchSize : CheckThreads T ι) where
  todo := by simp [CheckThreads.start, CCheckQueue.new, Phase.nNow]
  total := by simp [CheckThreads.start, CCheckQueue.new, Phase.inLoop]
  idle := by simp [CheckThreads.start, CCheckQueue.new, Phase.idle]
  quit := rfl
  holder t := by simp [CheckThreads.start]
  perm := .refl _
  batch t nNow vChecks fOk h := by cases h
  refuted h := by
    rcases h with h | ⟨t, nNow, vChecks, h⟩
    · cases h
    · cases h
  pending c hc := by cases hc
  own t nNow vChecks fOk h := by cases h
  waits w hw := by cases hw

/-! ## Steps -/

omit [Fintype ι] in
/-- A thread that runs behind a move ran before, unless it is the one that moved. -/
theorem running_of_update {phase : Option ι → Phase T} {p : Phase T} {t' : Option ι} {n : Nat} {l : List T} {f : Bool}
    (h : Function.update phase t p t' = .running n l f) : (t' = t ∧ p = .running n l f) ∨ phase t' = .running n l f := by
  by_cases ht : t' = t
  · rw [ht, Function.update_self] at h
    exact .inl ⟨ht, h⟩
  · rw [Function.update_of_ne ht] at h
    exact .inr h

omit [Fintype ι] in
theorem running_of_update_of_ne {phase : Option ι → Phase T} {p : Phase T} (hp : ∀ n l f, p ≠ .running n l f)
    {t' : Option ι} {n : Nat}
    {l : List T} {f : Bool} (h : Function.update phase t p t' = .running n l f) : phase t' = .running n l f :=
  (running_of_update h).resolve_left fun hmoved => hp n l f hmoved.2

omit [DecidableEq ι] in
theorem Inv.add (h : Inv eval s) (vChecks : List T) : Inv eval { s with q := s.q.add vChecks, added := s.added ++ vChecks } where
  todo := by
    show s.q.nTodo + vChecks.length = (s.q.queue ++ vChecks).length + ∑ t, (s.phase t).nNow
    rw [h.todo, List.length_append]
    omega
  total := h.total
  idle := h.idle
  quit := h.quit
  holder := h.holder
  perm := by
    show (s.taken ++ (s.q.queue ++ vChecks)).Perm (s.added ++ vChecks)
    rw [← List.append_assoc]
    exact h.perm.append_right vChecks
  batch := h.batch
  refuted := h.refuted
  pending := h.pending
  own := h.own
  waits := h.waits

/-- A thread that locks has nothing of its own any more: what its batch found is in the shared result. -/
theorem Inv.lock (h : Inv eval s) {q : CCheckQueue T} (hfree : s.holder = none) (hq : s.q.lock (s.phase t) = some q) :
    Inv eval { s.setPhase t .locked with q := q, holder := some t } := by
  have hlocked : ∀ nNow vChecks fOk, (Phase.locked : Phase T) ≠ .running nNow vChecks fOk := nofun
  have hholder : ∀ t', Function.update s.phase t .locked t' = .locked ↔ some t = some t' := by
    intro t'
    by_cases ht : t' = t
    · simp [ht]
    · rw [Function.update_of_ne ht, h.holder, hfree]
      simp [Ne.symm ht]
  have hbatch : ∀ t' nNow vChecks fOk, Function.update s.phase t .locked t' = .running nNow vChecks fOk → 1 ≤ nNow ∧
    s.taken ≠ [] :=
    fun t' nNow vChecks fOk hrun => h.batch t' nNow vChecks fOk (running_of_update_of_ne hlocked hrun)
  have hown : ∀ t' nNow vChecks fOk, Function.update s.phase t .locked t' = .running nNow vChecks fOk →
    ∀ c ∈ vChecks, c ∈ s.taken :=
    fun t' nNow vChecks fOk hrun => h.own t' nNow vChecks fOk (running_of_update_of_ne hlocked hrun)
  -- where the thread had no batch, the results are as before
  have hrefuted : (s.q.fAllOk = false ∨ ∃ t' nNow vChecks, Function.update s.phase t .locked t' = .running nNow vChecks false) →
      ∃ c ∈ s.taken, eval c = false := by
    rintro (hfalse | ⟨t', nNow, vChecks, hrun⟩)
    · exact h.refuted (.inl hfalse)
    · exact h.refuted (.inr ⟨t', nNow, vChecks, running_of_update_of_ne hlocked hrun⟩)
  have hpending : (∀ nNow vChecks fOk, s.phase t ≠ .running nNow vChecks fOk) → ∀ c ∈ s.taken, eval c = false →
      s.q.fAllOk = false ∨ ∃ t' nNow vChecks fOk, Function.update s.phase t .locked t' = .running nNow vChecks fOk ∧
        (fOk = false ∨ c ∈ vChecks) := by
    intro hnot c hc hfalse
    rcases h.pending c hc hfalse with hall | ⟨t', nNow, vChecks, fOk, hrun, hseen⟩
    · exact .inl hall
    · refine .inr ⟨t', nNow, vChecks, fOk, ?_, hseen⟩
      rw [Function.update_of_ne, hrun]
      rintro rfl
      exact hnot _ _ _ hrun
  cases hphase : s.phase t with
  | outside =>
    have htodo := sum_update Phase.nNow s.phase t .locked 0 0 (by rw [hphase]; rfl) rfl
    have htotal := sum_update Phase.inLoop s.phase t .locked 0 1 (by rw [hphase]; rfl) rfl
    have hidle := sum_update Phase.idle s.phase t .locked 0 0 (by rw [hphase]; rfl) rfl
    rw [hphase] at hq
    cases hq
    refine ⟨h.todo.trans (congrArg _ htodo.symm), ?_, h.idle.trans hidle.symm, h.quit, hholder, h.perm, hbatch, hrefuted,
      hpending (by rw [hphase]; nofun), hown, h.waits⟩
    show s.q.nTotal + 1 = ∑ j, (Function.update s.phase t .locked j).inLoop
    rw [h.total]
    exact htotal.symm
  | locked =>
    rw [hphase] at hq
    cases hq
  | waiting =>
    have htodo := sum_update Phase.nNow s.phase t .locked 0 0 (by rw [hphase]; rfl) rfl
    have htotal := sum_update Phase.inLoop s.phase t .locked 1 1 (by rw [hphase]; rfl) rfl
    have hidle := sum_update Phase.idle s.phase t .locked 1 0 (by rw [hphase]; rfl) rfl
    rw [hphase] at hq
    cases hq
    refine ⟨h.todo.trans (congrArg _ htodo.symm), h.total.trans (Nat.add_right_cancel htotal).symm, ?_, h.quit, hholder,
      h.perm, hbatch,
      hrefuted, hpending (by rw [hphase]; nofun), hown, h.waits⟩
    show s.q.nIdle - 1 = ∑ j, (Function.update s.phase t .locked j).idle
    rw [h.idle]
    omega
  | running nNow vChecks fOk =>
    have htodo := sum_update Phase.nNow s.phase t .locked nNow 0 (by rw [hphase]; rfl) rfl
    have htotal := sum_update Phase.inLoop s.phase t .locked 1 1 (by rw [hphase]; rfl) rfl
    have hidle := sum_update Phase.idle s.phase t .locked 0 0 (by rw [hphase]; rfl) rfl
    rw [hphase] at hq
    cases vChecks with
    | cons c vChecks => cases hq
    | nil =>
      cases hq
      have hpos : nNow ≠ 0 := by
        have hbatch := (h.batch t nNow [] fOk hphase).1
        omega
      rw [CCheckQueue.cleanUp, if_pos hpos]
      refine ⟨?_, h.total.trans (Nat.add_right_cancel htotal).symm, h.idle.trans hidle.symm, h.quit, hholder, h.perm,
        hbatch, ?_, ?_,
        hown, h.waits⟩
      · show s.q.nTodo - nNow = s.q.queue.length + ∑ j, (Function.update s.phase t .locked j).nNow
        rw [h.todo]
        omega
      · rintro (hfalse | hrun)
        · rcases Bool.and_eq_false_iff.1 hfalse with hall | hown
          · exact h.refuted (.inl hall)
          · rw [hown] at hphase
            exact h.refuted (.inr ⟨t, nNow, [], hphase⟩)
        · exact hrefuted (.inr hrun)
      · intro c hc hfalse
        show (s.q.fAllOk && fOk) = false ∨ _
        rcases h.pending c hc hfalse with hall | ⟨t', nNow', vChecks', fOk', hrun, hseen⟩
        · exact .inl (by rw [hall, Bool.false_and])
        · by_cases ht : t' = t
          · -- its own batch is done, so it saw the failure
            rw [ht, hphase] at hrun
            cases hrun
            rcases hseen with rfl | hmem
            · exact .inl (Bool.and_false _)
            · cases hmem
          · exact .inr ⟨t', nNow', vChecks', fOk', by rw [← hrun]; exact Function.update_of_ne ht .., hseen⟩

theorem Inv.check (h : Inv eval s) {nNow : Nat} {c : T} {vChecks : List T} {fOk : Bool}
    (hphase : s.phase t = .running nNow (c :: vChecks) fOk) :
    Inv eval (s.setPhase t (.running nNow vChecks (if fOk then eval c else fOk))) := by
  have htodo := sum_update Phase.nNow s.phase t (.running nNow vChecks (if fOk then eval c else fOk)) nNow nNow (by rw [hphase]; rfl) rfl
  have htotal := sum_update Phase.inLoop s.phase t (.running nNow vChecks (if fOk then eval c else fOk)) 1 1 (by rw [hphase]; rfl) rfl
  have hidle := sum_update Phase.idle s.phase t (.running nNow vChecks (if fOk then eval c else fOk)) 0 0 (by rw [hphase]; rfl) rfl
  have hmine : c ∈ s.taken := h.own t nNow _ fOk hphase c List.mem_cons_self
  refine ⟨h.todo.trans (congrArg _ (Nat.add_right_cancel htodo).symm), h.total.trans (Nat.add_right_cancel htotal).symm,
    h.idle.trans hidle.symm, h.quit, fun t' => ?_, h.perm, fun t' n l f hrun => ?_, ?_, fun c' hc' hfalse =>
      ?_, fun t' n l f hrun => ?_,
    h.waits⟩
  · show Function.update s.phase t _ t' = .locked ↔ s.holder = some t'
    rw [← h.holder]
    by_cases ht : t' = t
    · rw [ht, Function.update_self, hphase]
      exact ⟨nofun, nofun⟩
    · rw [Function.update_of_ne ht]
  · rcases running_of_update hrun with ⟨-, hmoved⟩ | hrun
    · cases hmoved
      exact h.batch t nNow _ fOk hphase
    · exact h.batch t' n l f hrun
  · rintro (hall | ⟨t', n, l, hrun⟩)
    · exact h.refuted (.inl hall)
    · rcases running_of_update hrun with ⟨-, hmoved⟩ | hrun
      · injection hmoved with _ _ hflag
        cases fOk with
        | true => exact ⟨c, hmine, hflag⟩
        | false => exact h.refuted (.inr ⟨t, nNow, _, hphase⟩)
      · exact h.refuted (.inr ⟨t', n, l, hrun⟩)
  · rcases h.pending c' hc' hfalse with hall | ⟨t', n, l, f, hrun, hseen⟩
    · exact .inl hall
    · by_cases ht : t' = t
      · rw [ht, hphase] at hrun
        cases hrun
        refine .inr ⟨t, nNow, vChecks, _, Function.update_self .., ?_⟩
        cases fOk with
        | false => exact .inl rfl
        | true =>
          rcases hseen with hflag | hmem
          · cases hflag
          · rcases List.mem_cons.1 hmem with rfl | hrest
            · exact .inl hfalse
            · exact .inr hrest
      · exact .inr ⟨t', n, l, f, by rw [← hrun]; exact Function.update_of_ne ht .., hseen⟩
  · intro c' hc'
    rcases running_of_update hrun with ⟨-, hmoved⟩ | hrun
    · cases hmoved
      exact h.own t nNow _ fOk hphase c' (List.mem_cons_of_mem c hc')
    · exact h.own t' n l f hrun c' hc'

omit [DecidableEq ι] in
theorem Inv.not_running (h : Inv eval s) (hzero : s.q.nTodo = 0) (t : Option ι) (nNow : Nat) (vChecks : List T) (fOk : Bool) :
    s.phase t ≠ .running nNow vChecks fOk := by
  intro hrun
  have hsum : ∑ t, (s.phase t).nNow = 0 := by
    have htodo := h.todo
    omega
  have hnone := Finset.sum_eq_zero_iff.1 hsum t (Finset.mem_univ t)
  rw [hrun] at hnone
  have hpos := (h.batch t nNow vChecks fOk hrun).1
  simp only [Phase.nNow] at hnone
  omega

omit [DecidableEq ι] in
theorem Inv.exact (h : Inv eval s) (hzero : s.q.nTodo = 0) : WaitResult.Exact eval ⟨s.added, s.taken, s.q.fAllOk⟩ := by
  have hempty : s.q.queue = [] := by
    have htodo := h.todo
    exact List.length_eq_zero_iff.1 (by omega)
  have hperm : s.taken.Perm s.added := by
    have hperm := h.perm
    rwa [hempty, List.append_nil] at hperm
  refine ⟨hperm, fun hall c hc => ?_, fun hall => ?_⟩
  · by_contra hfalse
    rcases h.pending c (hperm.mem_iff.2 hc) (Bool.eq_false_iff.2 hfalse) with hno | ⟨t, n, l, f, hrun, -⟩
    · rw [show s.q.fAllOk = true from hall] at hno
      cases hno
    · exact h.not_running hzero t n l f hrun
  · by_contra hfalse
    obtain ⟨c, hc, hno⟩ := h.refuted (.inl (Bool.eq_false_iff.2 hfalse))
    rw [hall c (hperm.mem_iff.1 hc)] at hno
    cases hno

omit [Fintype ι] in
theorem leave_none (s : CheckThreads T ι) (t : Option ι) (q : CCheckQueue T) (phase : Phase T) (taken : List T) :
    s.leave t (q, phase, taken, none) = { s.setPhase t phase with q := q, holder := none, taken := s.taken ++ taken } := by
  cases t <;> rfl

theorem Inv.holder_free (h : Inv eval s) (hholder : s.holder = some t) {p : Phase T} (hp : p ≠ .locked) (t' : Option ι) :
    Function.update s.phase t p t' = .locked ↔ (none : Option (Option ι)) = some t' := by
  by_cases ht : t' = t
  · rw [ht, Function.update_self]
    exact ⟨fun heq => absurd heq hp, nofun⟩
  · rw [Function.update_of_ne ht, h.holder, hholder]
    constructor
    · intro heq
      cases heq
      exact absurd rfl ht
    · nofun

theorem Inv.return (h : Inv eval s) (hholder : s.holder = some none) (hzero : s.q.nTodo = 0) :
    Inv eval (s.leave none ({ s.q with nTotal := s.q.nTotal - 1, fAllOk := true }, .outside, [], some s.q.fAllOk)) := by
  have hphase : s.phase none = .locked := (h.holder none).2 hholder
  have htodo := sum_update Phase.nNow s.phase none .outside 0 0 (by rw [hphase]; rfl) rfl
  have htotal := sum_update Phase.inLoop s.phase none .outside 1 0 (by rw [hphase]; rfl) rfl
  have hidle := sum_update Phase.idle s.phase none .outside 0 0 (by rw [hphase]; rfl) rfl
  have hempty : s.q.queue = [] := by
    have htodo := h.todo
    exact List.length_eq_zero_iff.1 (by omega)
  have houtside : ∀ n l f, (Phase.outside : Phase T) ≠ .running n l f := nofun
  have hnone : ∀ t n l f, Function.update s.phase none .outside t ≠ .running n l f :=
    fun t n l f hrun => h.not_running hzero t n l f (running_of_update_of_ne houtside hrun)
  refine ⟨h.todo.trans (congrArg _ htodo.symm), ?_, h.idle.trans hidle.symm, h.quit, h.holder_free hholder nofun, ?_,
    fun t n l f hrun => absurd hrun (hnone t n l f), ?_, nofun, fun t n l f hrun => absurd hrun (hnone t n l f), fun w hw => ?_⟩
  · show s.q.nTotal - 1 = ∑ j, (Function.update s.phase none .outside j).inLoop
    rw [h.total]
    omega
  · show ([] ++ s.q.queue).Perm []
    rw [hempty]
    exact .refl _
  · rintro (hall | ⟨t, n, l, hrun⟩)
    · cases hall
    · exact absurd hrun (hnone t n l false)
  · rcases List.mem_cons.1 hw with rfl | hw
    · show WaitResult.Exact eval ⟨s.added, s.taken ++ [], s.q.fAllOk⟩
      rw [List.append_nil]
      exact h.exact hzero
    · exact h.waits w hw

theorem Inv.wait (h : Inv eval s) (hholder : s.holder = some t) :
    Inv eval (s.leave t ({ s.q with nIdle := s.q.nIdle + 1 }, .waiting, [], none)) := by
  have hphase : s.phase t = .locked := (h.holder t).2 hholder
  have htodo := sum_update Phase.nNow s.phase t .waiting 0 0 (by rw [hphase]; rfl) rfl
  have htotal := sum_update Phase.inLoop s.phase t .waiting 1 1 (by rw [hphase]; rfl) rfl
  have hidle := sum_update Phase.idle s.phase t .waiting 0 1 (by rw [hphase]; rfl) rfl
  have hwaiting : ∀ n l f, (Phase.waiting : Phase T) ≠ .running n l f := nofun
  have hrunning : ∀ {t' n l f}, Function.update s.phase t .waiting t' = .running n l f → s.phase t' = .running n l f :=
    fun hrun => running_of_update_of_ne hwaiting hrun
  rw [leave_none, List.append_nil]
  refine ⟨h.todo.trans (congrArg _ htodo.symm), h.total.trans (Nat.add_right_cancel htotal).symm, ?_, h.quit,
    h.holder_free hholder nofun,
    h.perm, fun t' n l f hrun => h.batch t' n l f (hrunning hrun), ?_, fun c hc hfalse => ?_,
    fun t' n l f hrun => h.own t' n l f (hrunning hrun), h.waits⟩
  · show s.q.nIdle + 1 = ∑ j, (Function.update s.phase t .waiting j).idle
    rw [h.idle]
    omega
  · rintro (hall | ⟨t', n, l, hrun⟩)
    · exact h.refuted (.inl hall)
    · exact h.refuted (.inr ⟨t', n, l, hrunning hrun⟩)
  · rcases h.pending c hc hfalse with hall | ⟨t', n, l, f, hrun, hseen⟩
    · exact .inl hall
    · refine .inr ⟨t', n, l, f, ?_, hseen⟩
      rw [← hrun]
      refine Function.update_of_ne ?_ ..
      rintro rfl
      rw [hphase] at hrun
      cases hrun

theorem batch_bounds {q : CCheckQueue T} (hqueue : q.queue ≠ []) : 1 ≤ q.batch ∧ q.batch ≤ q.queue.length := by
  have hpos : 0 < q.queue.length := List.length_pos_iff.2 hqueue
  have hdiv : q.queue.length / (q.nTotal + q.nIdle + 1) ≤ q.queue.length := Nat.div_le_self _ _
  unfold CCheckQueue.batch
  omega

theorem Inv.take (h : Inv eval s) (hholder : s.holder = some t) (hqueue : s.q.queue ≠ []) :
    Inv eval (s.leave t ({ s.q with queue := s.q.queue.rdrop s.q.batch }, .running s.q.batch (s.q.queue.rtake s.q.batch).reverse s.q.fAllOk,
      (s.q.queue.rtake s.q.batch).reverse, none)) := by
  obtain ⟨hpos, hle⟩ := batch_bounds hqueue
  have hphase : s.phase t = .locked := (h.holder t).2 hholder
  have hlength : (s.q.queue.rtake s.q.batch).length = s.q.batch := by
    rw [List.rtake, List.length_drop]
    omega
  have hsplit : s.q.queue.rdrop s.q.batch ++ s.q.queue.rtake s.q.batch = s.q.queue := List.take_append_drop _ _
  generalize hn : s.q.batch = nNow at hpos hle hlength hsplit ⊢
  generalize hv : (s.q.queue.rtake nNow).reverse = vChecks
  have hvChecks : vChecks.Perm (s.q.queue.rtake nNow) := hv ▸ List.reverse_perm _
  have hvlength : vChecks.length = nNow := hvChecks.length_eq.trans hlength
  have htodo := sum_update Phase.nNow s.phase t (.running nNow vChecks s.q.fAllOk) 0 nNow (by rw [hphase]; rfl) rfl
  have htotal := sum_update Phase.inLoop s.phase t (.running nNow vChecks s.q.fAllOk) 1 1 (by rw [hphase]; rfl) rfl
  have hidle := sum_update Phase.idle s.phase t (.running nNow vChecks s.q.fAllOk) 0 0 (by rw [hphase]; rfl) rfl
  rw [leave_none]
  refine ⟨?_, h.total.trans (Nat.add_right_cancel htotal).symm, h.idle.trans hidle.symm, h.quit, h.holder_free hholder nofun, ?_,
    fun t' n l f hrun => ?_, ?_, fun c hc hfalse => ?_, fun t' n l f hrun c hc => ?_, h.waits⟩
  · show s.q.nTodo = (s.q.queue.rdrop nNow).length + ∑ j, (Function.update s.phase t (.running nNow vChecks s.q.fAllOk) j).nNow
    have hlengths := congrArg List.length hsplit
    rw [List.length_append, hlength] at hlengths
    rw [h.todo]
    omega
  · show ((s.taken ++ vChecks) ++ s.q.queue.rdrop nNow).Perm s.added
    refine List.Perm.trans ?_ h.perm
    rw [List.append_assoc]
    refine List.Perm.append_left _ ?_
    calc (vChecks ++ s.q.queue.rdrop nNow).Perm (s.q.queue.rdrop nNow ++ vChecks) := List.perm_append_comm
      List.Perm _ (s.q.queue.rdrop nNow ++ s.q.queue.rtake nNow) := hvChecks.append_left _
      _ = s.q.queue := hsplit
  · rcases running_of_update hrun with ⟨-, hmoved⟩ | hrun
    · cases hmoved
      refine ⟨hpos, fun hnil => ?_⟩
      have hvnil := (List.append_eq_nil_iff.1 hnil).2
      rw [hvnil, List.length_nil] at hvlength
      omega
    · obtain ⟨hn, htaken⟩ := h.batch t' n l f hrun
      exact ⟨hn, fun hnil => htaken (List.append_eq_nil_iff.1 hnil).1⟩
  · have hold : s.q.fAllOk = false ∨ (∃ t nNow vChecks, s.phase t = .running nNow vChecks false) →
      ∃ c ∈ s.taken ++ vChecks, eval c = false := by
      intro hcause
      obtain ⟨c, hc, hfalse⟩ := h.refuted hcause
      exact ⟨c, List.mem_append_left _ hc, hfalse⟩
    rintro (hall | ⟨t', n, l, hrun⟩)
    · exact hold (.inl hall)
    · rcases running_of_update hrun with ⟨-, hmoved⟩ | hrun
      · injection hmoved with _ _ hflag
        exact hold (.inl hflag)
      · exact hold (.inr ⟨t', n, l, hrun⟩)
  · rcases List.mem_append.1 hc with hc | hc
    · rcases h.pending c hc hfalse with hall | ⟨t', n, l, f, hrun, hseen⟩
      · exact .inl hall
      · refine .inr ⟨t', n, l, f, ?_, hseen⟩
        rw [← hrun]
        refine Function.update_of_ne ?_ ..
        rintro rfl
        rw [hphase] at hrun
        cases hrun
    · exact .inr ⟨t, nNow, vChecks, s.q.fAllOk, Function.update_self .., .inr hc⟩
  · rcases running_of_update hrun with ⟨-, hmoved⟩ | hrun
    · cases hmoved
      exact List.mem_append_right _ hc
    · exact List.mem_append_left _ (h.own t' n l f hrun c hc)

theorem Inv.unlock (h : Inv eval s) (hholder : s.holder = some t) : Inv eval (s.leave t (s.q.unlock t.isNone)) := by
  unfold CCheckQueue.unlock
  split
  · next hqueue =>
    split
    · next hdone =>
      rw [h.quit, Bool.or_false, Bool.and_eq_true, beq_iff_eq] at hdone
      obtain rfl : t = none := Option.isNone_iff_eq_none.1 hdone.1
      exact h.return hholder hdone.2
    · exact h.wait hholder
  · next hqueue =>
    exact h.take hholder (by rw [hqueue]; exact List.cons_ne_nil _ _)

/-! ## Runs -/

theorem step_inv (h : Inv eval s) {e : Event T ι} (hstep : CheckThreads.step eval s e = some s') : Inv eval s' := by
  cases e with
  | add vChecks =>
    unfold CheckThreads.step at hstep
    dsimp only at hstep
    split at hstep
    · cases hstep
      exact h.add vChecks
    · cases hstep
  | lock t =>
    unfold CheckThreads.step at hstep
    dsimp only at hstep
    split at hstep
    · next hfree =>
      obtain ⟨q, hq, rfl⟩ := Option.map_eq_some_iff.1 hstep
      exact h.lock hfree hq
    · cases hstep
  | unlock t =>
    unfold CheckThreads.step at hstep
    dsimp only at hstep
    split at hstep
    · next hholder =>
      cases hstep
      exact h.unlock hholder
    · cases hstep
  | check t =>
    unfold CheckThreads.step at hstep
    dsimp only at hstep
    split at hstep
    · next hphase =>
      cases hstep
      exact h.check hphase
    · cases hstep

omit [DecidableEq ι] in
/-- Between a `Wait` and the next `Add`, whenever the mutex is free, nothing is left and everybody in `Loop` waits. -/
theorem Inv.isIdle (h : Inv eval s) (hfree : s.holder = none) (hadded : s.added = []) :
    s.q.nTodo = 0 ∧ s.q.isIdle = true := by
  have hnone : s.taken = [] ∧ s.q.queue = [] := by
    have hperm := h.perm
    rw [hadded, List.perm_nil] at hperm
    exact List.append_eq_nil_iff.1 hperm
  have hphase : ∀ t, s.phase t = .outside ∨ s.phase t = .waiting := by
    intro t
    cases hp : s.phase t with
    | outside => exact .inl rfl
    | waiting => exact .inr rfl
    | locked =>
      rw [h.holder, hfree] at hp
      cases hp
    | running n l f => exact absurd hnone.1 (h.batch t n l f hp).2
  have htodo : s.q.nTodo = 0 := by
    rw [h.todo, hnone.2, List.length_nil, Nat.zero_add]
    refine Finset.sum_eq_zero fun t _ => ?_
    rcases hphase t with hp | hp <;> rw [hp] <;> rfl
  have htotal : s.q.nTotal = s.q.nIdle := by
    rw [h.total, h.idle]
    refine Finset.sum_congr rfl fun t _ => ?_
    rcases hphase t with hp | hp <;> rw [hp] <;> rfl
  have hok : s.q.fAllOk = true := by
    by_contra hfalse
    obtain ⟨c, hc, -⟩ := h.refuted (.inl (Bool.eq_false_iff.2 hfalse))
    rw [hnone.1] at hc
    cases hc
  refine ⟨htodo, ?_⟩
  rw [CCheckQueue.isIdle, htotal, htodo, hok]
  simp

/-- Where `Loop` returns to the master, what it took and answers becomes the result of the `Wait`. -/
theorem waits_of_step (h : Inv eval s) {e : Event T ι} (hstep : CheckThreads.step eval s e = some s') :
    s'.waits = s.waits ∨ (s.q.nTodo = 0 ∧ s'.waits = ⟨s.added, s.taken, s.q.fAllOk⟩ :: s.waits ∧
      s'.phase none = .outside ∧ s'.holder = none ∧ s'.added = []) := by
  cases e with
  | add vChecks =>
    unfold CheckThreads.step at hstep
    dsimp only at hstep
    split at hstep <;> cases hstep
    exact .inl rfl
  | lock t =>
    unfold CheckThreads.step at hstep
    dsimp only at hstep
    split at hstep
    · obtain ⟨q, -, rfl⟩ := Option.map_eq_some_iff.1 hstep
      exact .inl rfl
    · cases hstep
  | check t =>
    unfold CheckThreads.step at hstep
    dsimp only at hstep
    split at hstep <;> cases hstep
    exact .inl rfl
  | unlock t =>
    unfold CheckThreads.step CCheckQueue.unlock at hstep
    dsimp only at hstep
    split at hstep
    · cases hstep
      split
      · split
        · next hdone =>
          rw [h.quit, Bool.or_false, Bool.and_eq_true, beq_iff_eq] at hdone
          obtain rfl : t = none := Option.isNone_iff_eq_none.1 hdone.1
          refine .inr ⟨hdone.2, ?_, ?_, rfl, rfl⟩
          · show ⟨s.added, s.taken ++ [], s.q.fAllOk⟩ :: s.waits = _
            rw [List.append_nil]
          · exact Function.update_self none Phase.outside s.phase
        · rw [leave_none]
          exact .inl rfl
      · rw [leave_none]
        exact .inl rfl
    · cases hstep

/-- In every interleaving: when a `Wait` returns, every check that was added since the one before was taken once,
    nothing is left to do, the answer is whether all of them hold, and the queue is idle; it is idle whenever it is asked until
    the next `Add`. -/
theorem wait_exact (eval : T → Bool) (nBatchSize : Nat) (es : List (Event T ι)) (s : CheckThreads T ι)
    (hrun : run (CheckThreads.step eval) (CheckThreads.start nBatchSize) es = some s) :
    (∀ e s', CheckThreads.step eval s e = some s' → s'.waits = s.waits ∨
      ∃ fRet, s'.waits = ⟨s.added, s.taken, fRet⟩ :: s.waits ∧ s.taken.Perm s.added ∧ s'.q.nTodo = 0 ∧
        (fRet = true ↔ ∀ c ∈ s.added, eval c = true) ∧ s'.q.isIdle = true) ∧
    (s.phase none = .outside → s.holder = none → s.added = [] → s.q.nTodo = 0 ∧ s.q.isIdle = true) := by
  have hinv : Inv eval s := run_inv (Inv eval) (fun _ _ _ h hstep => step_inv h hstep) (inv_start eval nBatchSize) hrun
  refine ⟨fun e s' hstep => ?_, fun _ => hinv.isIdle⟩
  rcases waits_of_step hinv hstep with hsame | ⟨hzero, hwaits, -, hfree, hadded⟩
  · exact .inl hsame
  · obtain ⟨htodo, hidle⟩ := (step_inv hinv hstep).isIdle hfree hadded
    exact .inr ⟨s.q.fAllOk, hwaits, (hinv.exact hzero).taken, htodo, (hinv.exact hzero).answer, hidle⟩

/-- The master and one worker take a check each, of which the second fails, and the worker is the last to give back its batch. -/
def sampleRun : List (Event Bool (Fin 1)) :=
  [.add [true, false], .lock none, .unlock none, .lock (some 0), .unlock (some 0), .check none, .lock none, .unlock none,
    .check (some 0), .lock (some 0), .unlock (some 0), .lock none]

theorem wait_exact_sample : ∃ s, run (CheckThreads.step id) (CheckThreads.start 128) sampleRun = some s ∧
    ∀ s', CheckThreads.step id s (.unlock none) = some s' →
      s'.waits = s.waits ∨ ∃ fRet, s'.waits = ⟨s.added, s.taken, fRet⟩ :: s.waits ∧
      s.taken.Perm s.added ∧ s'.q.nTodo = 0 ∧ (fRet = true ↔ ∀ c ∈ s.added, id c = true) ∧ s'.q.isIdle = true :=
  ⟨_, rfl, fun s' hstep => (wait_exact id 128 sampleRun _ rfl).1 (.unlock none) s' hstep⟩

/-- There the `Wait` answers that not all of them hold. -/
example : (run (CheckThreads.step id) (CheckThreads.start 128) (sampleRun ++ [.unlock none])).map (·.waits.map (·.fRet)) =
    some [false] := rfl

end Zumy.Threads
