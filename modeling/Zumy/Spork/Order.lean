/-
  Zumy.Spork.Order — the active sporks of two nodes that got the same messages.

  A message replaces the active one of its spork only when it is newer, so of the messages
  with the newest time of a spork the first to arrive stays.

  - `tie_kept_by_first`: two values signed in one second.
-/
import Mathlib.Data.Finset.Dedup
import Zumy.Spork.Model

namespace Zumy.Spork

open Lib

def delivered (env : Env) (l : List CSporkMessage) : CSporkManager := l.foldl (processSpork env) .init

structure Agrees (s s' : CSporkManager) : Prop where
  active : ∀ nSporkID : Int32, s.mapSporksActive[nSporkID]? = s'.mapSporksActive[nSporkID]?
  isSporkActive : ∀ now nSporkID, isSporkActive s now nSporkID = isSporkActive s' now nSporkID
  getSporkValue : ∀ nSporkID, getSporkValue s nSporkID = getSporkValue s' nSporkID

def Newest (S : Finset CSporkMessage) (m : CSporkMessage) : Prop :=
  m ∈ S ∧ ∀ m' ∈ S, m'.nSporkID = m.nSporkID → m'.nTimeSigned.toInt ≤ m.nTimeSigned.toInt

def Settled (S : Finset CSporkMessage) : Prop :=
  ∀ m m', Newest S m → Newest S m' → m.nSporkID = m'.nSporkID → m = m'

/-- The active spork is a newest one of the list, and there where the list has one. -/
def HoldsNewest (l : List CSporkMessage) (s : CSporkManager) : Prop :=
  ∀ nSporkID : Int32, (s.mapSporksActive[nSporkID]? = none → ∀ m ∈ l, m.nSporkID ≠ nSporkID) ∧
    ∀ r, s.mapSporksActive[nSporkID]? = some r → r ∈ l ∧ r.nSporkID = nSporkID ∧
      ∀ m ∈ l, m.nSporkID = nSporkID → m.nTimeSigned.toInt ≤ r.nTimeSigned.toInt

variable {env : Env} {s s' : CSporkManager} {m r : CSporkMessage} {l : List CSporkMessage} {S : Finset CSporkMessage}

theorem Agrees.of_active (h : ∀ nSporkID : Int32, s.mapSporksActive[nSporkID]? = s'.mapSporksActive[nSporkID]?) :
    Agrees s s' where
  active := h
  isSporkActive now nSporkID := by
    unfold Spork.isSporkActive
    rw [h]
  getSporkValue nSporkID := by
    unfold Spork.getSporkValue
    rw [h]

theorem processSpork_valid (hlite : env.fLiteMode = false) (htip : env.hasTip = true) (hsig : m.checkSignature env = true) :
    processSpork env s m = if seen s m then s else putSpork env s m := by
  unfold processSpork
  simp [hlite, htip, hsig]

theorem seen_iff : seen s m = true ↔
    ∃ active, s.mapSporksActive[m.nSporkID]? = some active ∧ m.nTimeSigned.toInt ≤ active.nTimeSigned.toInt := by
  unfold seen
  cases s.mapSporksActive[m.nSporkID]? <;> simp

/-! ## What a list of messages leaves -/

theorem init_holdsNewest : HoldsNewest [] .init := by
  intro nSporkID
  constructor
  · intro _ m hm
    cases hm
  · intro r hr
    simp [CSporkManager.init] at hr

theorem processSpork_holdsNewest (hlite : env.fLiteMode = false) (htip : env.hasTip = true) (hsig : m.checkSignature env = true)
    (h : HoldsNewest l s) : HoldsNewest (l ++ [m]) (processSpork env s m) := by
  rw [processSpork_valid hlite htip hsig]
  intro nSporkID
  obtain ⟨habsent, hnewest⟩ := h nSporkID
  cases hseen : seen s m with
  | true =>
    obtain ⟨active, hactive, hle⟩ := seen_iff.1 hseen
    simp only [if_true, List.mem_append, List.mem_singleton]
    constructor
    · intro hnone m' hm'
      rcases hm' with hm' | rfl
      · exact habsent hnone m' hm'
      · rintro rfl
        rw [hactive] at hnone
        cases hnone
    · intro r hr
      obtain ⟨hin, hid, hle'⟩ := hnewest r hr
      refine ⟨.inl hin, hid, fun m' hm' hid' => ?_⟩
      rcases hm' with hm' | rfl
      · exact hle' m' hm' hid'
      · rw [hid', hr, Option.some.injEq] at hactive
        rw [hactive]
        exact hle
  | false =>
    simp only [Bool.false_eq_true, if_false, List.mem_append, List.mem_singleton]
    rw [lookup_putSpork]
    by_cases hid : nSporkID = m.nSporkID
    · rw [if_pos hid]
      subst hid
      refine ⟨fun hnone => absurd hnone (Option.some_ne_none m), fun r hr => ?_⟩
      cases hr
      refine ⟨.inr rfl, rfl, fun m' hm' hid' => ?_⟩
      rcases hm' with hm' | rfl
      · -- the active spork, when there is one, is older than this message
        cases hactive : s.mapSporksActive[m.nSporkID]? with
        | none => exact absurd hid' (habsent hactive m' hm')
        | some active =>
          have hlt : active.nTimeSigned.toInt < m.nTimeSigned.toInt := by
            unfold seen at hseen
            rw [hactive] at hseen
            simpa using hseen
          exact ((hnewest active hactive).2.2 m' hm' hid').trans hlt.le
      · exact le_rfl
    · rw [if_neg hid]
      constructor
      · intro hnone m' hm'
        rcases hm' with hm' | rfl
        · exact habsent hnone m' hm'
        · exact Ne.symm hid
      · intro r hr
        obtain ⟨hin, hrid, hle⟩ := hnewest r hr
        refine ⟨.inl hin, hrid, fun m' hm' hid' => ?_⟩
        rcases hm' with hm' | rfl
        · exact hle m' hm' hid'
        · exact absurd hid'.symm hid

/-- The induction is on the messages that are still to come; `seen` are those that came. -/
theorem foldl_holdsNewest (hlite : env.fLiteMode = false) (htip : env.hasTip = true) (came : List CSporkMessage)
    (hl : ∀ m ∈ l, m.checkSignature env = true) (h : HoldsNewest came s) :
    HoldsNewest (came ++ l) (l.foldl (processSpork env) s) := by
  induction l generalizing came s with
  | nil =>
    rw [List.append_nil]
    exact h
  | cons m l ih =>
    have hstep := processSpork_holdsNewest hlite htip (hl m List.mem_cons_self) h
    have hrest := ih (came ++ [m]) (fun m' hm' => hl m' (List.mem_cons_of_mem _ hm')) hstep
    rwa [List.append_assoc] at hrest

theorem foldl_keeps (hr : s.mapSporksActive[r.nSporkID]? = some r)
    (hl : ∀ m ∈ l, m.nSporkID = r.nSporkID → m.nTimeSigned.toInt ≤ r.nTimeSigned.toInt) :
    (l.foldl (processSpork env) s).mapSporksActive[r.nSporkID]? = some r := by
  induction l generalizing s with
  | nil => exact hr
  | cons m l ih =>
    rw [List.foldl_cons]
    apply ih
    · rcases processSpork_cases env s m with hsame | ⟨hseen, -, hput⟩
      · rw [hsame]
        exact hr
      · rw [hput, lookup_putSpork, if_neg]
        · exact hr
        · intro hid
          unfold seen at hseen
          rw [← hid, hr] at hseen
          have hle := hl m List.mem_cons_self hid.symm
          simp only [Option.any_some, decide_eq_false_iff_not, ge_iff_le, not_le] at hseen
          omega
    · exact fun m' hm' => hl m' (List.mem_cons_of_mem _ hm')

/-! ## Two orders -/

theorem agrees_of_settled (hlite : env.fLiteMode = false) (htip : env.hasTip = true) (hS : ∀ m ∈ S, m.checkSignature env = true)
    (hsettled : Settled S) {l l' : List CSporkMessage} (hl : l.toFinset = S) (hl' : l'.toFinset = S) :
    Agrees (delivered env l) (delivered env l') := by
  have hmem (m : CSporkMessage) : m ∈ l ↔ m ∈ l' := by rw [← List.mem_toFinset, hl, ← hl', List.mem_toFinset]
  have hholds (l : List CSporkMessage) (hl : l.toFinset = S) : HoldsNewest l (delivered env l) := by
    apply foldl_holdsNewest hlite htip [] _ init_holdsNewest
    intro m hm
    exact hS m (by rw [← hl]; exact List.mem_toFinset.2 hm)
  have hnewest (l : List CSporkMessage) (hl : l.toFinset = S) (nSporkID : Int32) (r : CSporkMessage)
      (hr : (delivered env l).mapSporksActive[nSporkID]? = some r) : Newest S r ∧ r.nSporkID = nSporkID := by
    obtain ⟨hin, hid, hle⟩ := (hholds l hl nSporkID).2 r hr
    refine ⟨⟨by rw [← hl]; exact List.mem_toFinset.2 hin, fun m hm hmid => ?_⟩, hid⟩
    rw [← hl, List.mem_toFinset] at hm
    exact hle m hm (hmid.trans hid)
  apply Agrees.of_active
  intro nSporkID
  cases hr : (delivered env l).mapSporksActive[nSporkID]? with
  | none =>
    cases hr' : (delivered env l').mapSporksActive[nSporkID]? with
    | none => rfl
    | some r' =>
      obtain ⟨hin, hid, -⟩ := (hholds l' hl' nSporkID).2 r' hr'
      exact absurd hid ((hholds l hl nSporkID).1 hr r' ((hmem r').2 hin))
  | some r =>
    cases hr' : (delivered env l').mapSporksActive[nSporkID]? with
    | none =>
      obtain ⟨hin, hid, -⟩ := (hholds l hl nSporkID).2 r hr
      exact absurd hid ((hholds l' hl' nSporkID).1 hr' r ((hmem r).1 hin))
    | some r' =>
      obtain ⟨hnew, hid⟩ := hnewest l hl nSporkID r hr
      obtain ⟨hnew', hid'⟩ := hnewest l' hl' nSporkID r' hr'
      rw [hsettled r r' hnew hnew' (hid.trans hid'.symm)]

theorem delivered_first (hlite : env.fLiteMode = false) (htip : env.hasTip = true) (hsig : m.checkSignature env = true)
    (hm : Newest S m) : (delivered env (m :: S.toList)).mapSporksActive[m.nSporkID]? = some m := by
  unfold delivered
  rw [List.foldl_cons]
  apply foldl_keeps
  · rw [processSpork_valid hlite htip hsig]
    simp [seen, CSporkManager.init, lookup_putSpork]
  · intro m' hm' hid
    exact hm.2 m' (Finset.mem_toList.1 hm') hid

/-- In every order of a set of validly signed messages, repetitions included, the same sporks become
    active, just when the node reads no sporks or each spork has one newest message. -/
theorem order_free_iff (env : Env) (S : Finset CSporkMessage) (hS : ∀ m ∈ S, m.checkSignature env = true) :
    (∀ l l' : List CSporkMessage, l.toFinset = S → l'.toFinset = S → Agrees (delivered env l) (delivered env l')) ↔
      (env.fLiteMode = true ∨ env.hasTip = false ∨ Settled S) := by
  by_cases hreads : env.fLiteMode = false ∧ env.hasTip = true
  · obtain ⟨hlite, htip⟩ := hreads
    simp only [hlite, htip, Bool.false_eq_true, Bool.true_eq_false, false_or]
    constructor
    · intro h m m' hm hm' hid
      have hfirst (m : CSporkMessage) (hm : Newest S m) : (m :: S.toList).toFinset = S := by
        rw [List.toFinset_cons, Finset.toList_toFinset, Finset.insert_eq_of_mem hm.1]
      have hagree := (h _ _ (hfirst m hm) (hfirst m' hm')).active m.nSporkID
      rw [delivered_first hlite htip (hS m hm.1) hm, hid, delivered_first hlite htip (hS m' hm'.1) hm',
        Option.some.injEq] at hagree
      exact hagree
    · intro hsettled l l' hl hl'
      exact agrees_of_settled hlite htip hS hsettled hl hl'
  · -- a node that reads no sporks has none
    have hnone (l : List CSporkMessage) : delivered env l = .init := by
      apply List.foldlRecOn (motive := fun s => s = CSporkManager.init) l _ rfl
      intro s hs m _
      rw [hs]
      unfold processSpork
      by_cases hlite : env.fLiteMode = true
      · rw [if_pos hlite]
      · have htip : env.hasTip = false := by
          by_contra htip
          exact hreads ⟨Bool.eq_false_iff.2 hlite, Bool.not_eq_false _ ▸ htip⟩
        simp [htip]
    constructor
    · intro _
      cases hlite : env.fLiteMode with
      | true => exact .inl rfl
      | false =>
        cases htip : env.hasTip with
        | true => exact absurd ⟨hlite, htip⟩ hreads
        | false => exact .inr (.inl rfl)
    · intro _ l l' _ _
      rw [hnone l, hnone l']
      exact Agrees.of_active fun _ => rfl

def tie : Finset CSporkMessage := {⟨10001, 0, 5, []⟩, ⟨10001, 1, 5, []⟩}

def trusting : Env := ⟨false, true, fun _ _ => true, fun _ _ _ => 0⟩

theorem tie_kept_by_first :
    ¬ ∀ (env : Env) (S : Finset CSporkMessage), (∀ m ∈ S, m.checkSignature env = true) →
      ∀ l l' : List CSporkMessage, l.toFinset = S → l'.toFinset = S → Agrees (delivered env l) (delivered env l') := by
  intro h
  have hvalue := (h trusting tie (fun _ _ => rfl) [⟨10001, 0, 5, []⟩, ⟨10001, 1, 5, []⟩] [⟨10001, 1, 5, []⟩, ⟨10001, 0, 5, []⟩]
    (by decide) (by decide)).getSporkValue 10001
  revert hvalue
  decide

def renewal : Finset CSporkMessage := {⟨10001, 0, 5, []⟩, ⟨10001, 1, 6, []⟩}

theorem renewal_settled : Settled renewal := by
  have hnewest (m : CSporkMessage) (hm : Newest renewal m) : m = ⟨10001, 1, 6, []⟩ := by
    rcases Finset.mem_insert.1 hm.1 with rfl | hlast
    · -- the other message was signed a second later
      have hle := hm.2 ⟨10001, 1, 6, []⟩ (by decide) rfl
      exact absurd hle (by decide)
    · exact Finset.mem_singleton.1 hlast
  intro m m' hm hm' _
  rw [hnewest m hm, hnewest m' hm']

theorem newer_value_agrees :
    Agrees (delivered trusting [⟨10001, 0, 5, []⟩, ⟨10001, 1, 6, []⟩])
      (delivered trusting [⟨10001, 1, 6, []⟩, ⟨10001, 0, 5, []⟩, ⟨10001, 0, 5, []⟩]) :=
  (order_free_iff trusting renewal fun _ _ => rfl).2 (.inr (.inr renewal_settled)) _ _ (by decide) (by decide)

end Zumy.Spork
