/-
  Zumy.Announce.VerifyReply — the reply of a masternode that was asked to prove its address
  (`ProcessVerifyReply`).

  The list is scanned with an iterator that each way through the loop moves by hand. The way
  of a node that is no activated masternode (`continue` where `activeMasternode.vin` is
  `CTxIn()`) leaves it where it is: the same entry is found again, its score lowered again.

  - `scan_advances_iff`: every turn moves the iterator or leaves, and the scan ends, just when
    the node is activated or no entry at the peer's address signed the reply.
-/
import Zumy.Announce.Verification
import Zumy.Lib.Loop

namespace Zumy.Announce

open Lib

/-- What the node keeps about the address of the peer: the requests that are fulfilled there
    and `mWeAskedForVerification`. -/
structure Asked where
  fRequest : Bool
  fDone : Bool
  mnv : CMasternodeVerification

/-- The scan between two of its turns. What is pointed at is given by its place in the list. -/
structure VerifyScan where
  it : Nat
  vMasternodes : List CMasternode
  prealMasternode : Option Nat
  vpMasternodesToBan : List Nat
  mnv : CMasternodeVerification
  asked : Asked
  fRelayed : Bool

def VerifyScan.init (vMasternodes : List CMasternode) (asked : Asked) (mnv : CMasternodeVerification) : VerifyScan :=
  ⟨0, vMasternodes, none, [], mnv, asked, false⟩

inductive ScanEnd where
  /-- `it == vMasternodes.end()` -/
  | atEnd (s : VerifyScan)
  /-- `return`: the node could not sign. -/
  | returned (s : VerifyScan)

def VerifyScan.found (s : VerifyScan) (mn : CMasternode) : VerifyScan :=
  { s with
    prealMasternode := some s.it
    vMasternodes := if !mn.isPoSeVerified then s.vMasternodes.set s.it mn.decreasePoSeBanScore else s.vMasternodes
    asked := { s.asked with fDone := true } }

def VerifyScan.update (env : Env) (s : VerifyScan) (mn : CMasternode) : CMasternodeVerification :=
  { s.mnv with addr := mn.addr, vin1 := mn.vin, vin2 := env.activeVin }

/-- One way through the loop. `addr` is the address of the peer, `sign` is `SignMessage` with
    the key of the node's masternode. -/
def scanTurn (env : Env) (sign : List Char → Option (List UInt8)) (addr : CService) (blockHash : Uint256)
    (strMessage1 : List Char) (s : VerifyScan) : Turn VerifyScan ScanEnd :=
  match s.vMasternodes[s.it]? with
  | none => .done (.atEnd s)
  | some mn =>
    if mn.addr == addr then
      if env.verifyMessage mn.pubKeyMasternode s.mnv.vchSig1 strMessage1 then
        let s := s.found mn
        if env.activeVin == nullTxIn then .again s
        else
          let mnv := s.update env mn
          let strMessage2 := mnv.strMessage2 env blockHash
          match sign strMessage2 with
          | none => .done (.returned { s with mnv := mnv })
          | some vchSig2 =>
            let mnv := { mnv with vchSig2 := vchSig2 }
            if !env.verifyMessage env.activePubKeyMasternode mnv.vchSig2 strMessage2 then .done (.returned { s with mnv := mnv })
            else .again { s with it := s.it + 1, mnv := mnv, asked := { s.asked with mnv := mnv }, fRelayed := true }
      else .again { s with it := s.it + 1, vpMasternodesToBan := s.vpMasternodesToBan ++ [s.it] }
    else .again { s with it := s.it + 1 }

/-- What the masternode at `addr` had to sign. -/
def replyMessage (env : Env) (addr : CService) (mnv : CMasternodeVerification) (blockHash : Uint256) : List Char :=
  ({ mnv with addr := addr } : CMasternodeVerification).strMessage1 env blockHash

structure ReplyOutcome where
  mnodeman : CMasternodeMan
  asked : Asked
  misbehaving : Nat
  fRelayed : Bool

/-- The guards in front of the scan: the hash of the block, or what the peer gets for it. -/
def checkReply (env : Env) (m : CMasternodeMan) (asked : Asked) (mnv : CMasternodeVerification) : Except Nat Uint256 :=
  if !asked.fRequest then .error 20
  else if asked.mnv.nonce ≠ mnv.nonce then .error 20
  else if asked.mnv.nBlockHeight ≠ mnv.nBlockHeight then .error 20
  else match env.getBlockHash mnv.nBlockHeight with
    | none => .error 0
    | some blockHash => if m.size > 200 && asked.fDone then .error 20 else .ok blockHash

def finishReply (m : CMasternodeMan) : ScanEnd → ReplyOutcome
  | .returned s => ⟨{ m with vMasternodes := s.vMasternodes }, s.asked, 0, s.fRelayed⟩
  | .atEnd s =>
    match s.prealMasternode with
    | none => ⟨{ m with vMasternodes := s.vMasternodes }, s.asked, 20, s.fRelayed⟩
    | some _ =>
      let ban (l : List CMasternode) (i : Nat) := l.modify i CMasternode.increasePoSeBanScore
      ⟨{ m with vMasternodes := s.vpMasternodesToBan.foldl ban s.vMasternodes }, s.asked, 0, s.fRelayed⟩

/-- `none` when `n` turns of the scan are not enough. -/
def processVerifyReply (env : Env) (sign : List Char → Option (List UInt8)) (addr : CService) (n : Nat) (m : CMasternodeMan)
    (asked : Asked) (mnv : CMasternodeVerification) : Option ReplyOutcome :=
  match checkReply env m asked mnv with
  | .error nDos => some ⟨m, asked, nDos, false⟩
  | .ok blockHash =>
    (loop (scanTurn env sign addr blockHash (replyMessage env addr mnv blockHash)) n
      (.init m.vMasternodes asked mnv)).map (finishReply m)

/-- Every way through the loop moves the iterator or leaves, and the loop ends. -/
def ScanAdvances (turn : VerifyScan → Turn VerifyScan ScanEnd) (s₀ : VerifyScan) : Prop :=
  (∀ s s', Comes turn s₀ s → turn s = .again s' → s.it < s'.it) ∧ Ends turn s₀

def Signed (env : Env) (addr : CService) (vchSig1 : List UInt8) (strMessage1 : List Char) (mn : CMasternode) : Prop :=
  mn.addr = addr ∧ env.verifyMessage mn.pubKeyMasternode vchSig1 strMessage1 = true

variable {env : Env} {sign : List Char → Option (List UInt8)} {addr : CService} {blockHash : Uint256} {strMessage1 : List Char}
  {s s' : VerifyScan} {mn : CMasternode} {vMasternodes : List CMasternode} {asked : Asked} {mnv : CMasternodeVerification}
  {vchSig1 : List UInt8} {m : CMasternodeMan} {i : Nat}

/-! ## One turn -/

/-- A turn that goes on steps over an entry, or finds the one that signed: then it stays when
    the node is not activated. -/
theorem scanTurn_cases (h : scanTurn env sign addr blockHash strMessage1 s = .again s') :
    ∃ mn, s.vMasternodes[s.it]? = some mn ∧
      ((¬ Signed env addr s.mnv.vchSig1 strMessage1 mn ∧ s'.it = s.it + 1 ∧ s'.vMasternodes = s.vMasternodes ∧ s'.mnv = s.mnv) ∨
        (Signed env addr s.mnv.vchSig1 strMessage1 mn ∧ env.activeVin = nullTxIn ∧ s' = s.found mn) ∨
        (Signed env addr s.mnv.vchSig1 strMessage1 mn ∧ env.activeVin ≠ nullTxIn ∧ s'.it = s.it + 1 ∧
          s'.vMasternodes = (s.found mn).vMasternodes)) := by
  unfold scanTurn at h
  split at h
  · cases h
  rename_i mn hmn
  refine ⟨mn, hmn, ?_⟩
  split at h
  · rename_i haddr
    split at h
    · rename_i hsig
      have hsigned : Signed env addr s.mnv.vchSig1 strMessage1 mn := ⟨beq_iff_eq.1 haddr, hsig⟩
      dsimp only at h
      split at h
      · rename_i hnull
        cases h
        exact .inr (.inl ⟨hsigned, beq_iff_eq.1 hnull, rfl⟩)
      · rename_i hactive
        split at h
        · cases h
        · split at h
          · cases h
          · cases h
            exact .inr (.inr ⟨hsigned, fun hnull => hactive (beq_iff_eq.2 hnull), rfl, rfl⟩)
    · rename_i hsig
      cases h
      exact .inl ⟨fun hsigned => hsig hsigned.2, rfl, rfl, rfl⟩
  · rename_i haddr
    cases h
    exact .inl ⟨fun hsigned => haddr (beq_iff_eq.2 hsigned.1), rfl, rfl, rfl⟩

theorem scanTurn_again (hnull : env.activeVin = nullTxIn) (hmn : s.vMasternodes[s.it]? = some mn) :
    ∃ s', scanTurn env sign addr blockHash strMessage1 s = .again s' := by
  unfold scanTurn
  rw [hmn]
  dsimp only
  split
  · split
    · rw [if_pos (beq_iff_eq.2 hnull)]
      exact ⟨_, rfl⟩
    · exact ⟨_, rfl⟩
  · exact ⟨_, rfl⟩

theorem decrease_signed : Signed env addr vchSig1 strMessage1 mn.decreasePoSeBanScore ↔
    Signed env addr vchSig1 strMessage1 mn := by
  unfold CMasternode.decreasePoSeBanScore Signed
  split <;> rfl

theorem length_found : (s.found mn).vMasternodes.length = s.vMasternodes.length := by
  unfold VerifyScan.found
  dsimp only
  split
  · exact List.length_set
  · rfl

theorem signed_found (hmn : s.vMasternodes[s.it]? = some mn)
    (h : ∃ mni, s.vMasternodes[i]? = some mni ∧ Signed env addr vchSig1 strMessage1 mni) :
    ∃ mni, (s.found mn).vMasternodes[i]? = some mni ∧ Signed env addr vchSig1 strMessage1 mni := by
  obtain ⟨mni, hi, hsigned⟩ := h
  unfold VerifyScan.found
  dsimp only
  split
  · by_cases hit : s.it = i
    · subst hit
      rw [hmn, Option.some.injEq] at hi
      subst hi
      have hlt := (List.getElem?_eq_some_iff.1 hmn).1
      exact ⟨mn.decreasePoSeBanScore, by rw [List.getElem?_set_self hlt], decrease_signed.2 hsigned⟩
    · exact ⟨mni, by rw [List.getElem?_set_ne hit, hi], hsigned⟩
  · exact ⟨mni, hi, hsigned⟩

/-! ## The scan -/

/-- A state from which a node that is not activated does not get past the `i`-th entry, whose
    masternode signed. -/
structure StuckBefore (env : Env) (addr : CService) (vchSig1 : List UInt8) (strMessage1 : List Char) (i : Nat) (s : VerifyScan) :
    Prop where
  it : s.it ≤ i
  sig : s.mnv.vchSig1 = vchSig1
  signed : ∃ mn, s.vMasternodes[i]? = some mn ∧ Signed env addr vchSig1 strMessage1 mn

theorem StuckBefore.turn (hnull : env.activeVin = nullTxIn) (h : StuckBefore env addr vchSig1 strMessage1 i s) :
    ∃ s', scanTurn env sign addr blockHash strMessage1 s = .again s' ∧ StuckBefore env addr vchSig1 strMessage1 i s' := by
  obtain ⟨mni, hi, hsigned⟩ := h.signed
  have hlt : s.it < s.vMasternodes.length := lt_of_le_of_lt h.it (List.getElem?_eq_some_iff.1 hi).1
  have hagain : ∃ s', scanTurn env sign addr blockHash strMessage1 s = .again s' :=
    scanTurn_again hnull (List.getElem?_eq_getElem hlt)
  obtain ⟨s', hturn⟩ := hagain
  refine ⟨s', hturn, ?_⟩
  obtain ⟨mn, hmn, hcases⟩ := scanTurn_cases hturn
  rcases hcases with ⟨hunsigned, hit, hlist, hmnv⟩ | ⟨-, -, rfl⟩ | ⟨-, hactive, -⟩
  · have hne : s.it ≠ i := by
      intro heq
      rw [heq, hi, Option.some.injEq] at hmn
      subst hmn
      rw [h.sig] at hunsigned
      exact hunsigned hsigned
    have hle := h.it
    exact ⟨by omega, by rw [hmnv, h.sig], by rw [hlist]; exact h.signed⟩
  · exact ⟨h.it, h.sig, signed_found hmn h.signed⟩
  · exact absurd hnull hactive

theorem scan_stuck (hnull : env.activeVin = nullTxIn) (hmn : mn ∈ vMasternodes)
    (hsigned : Signed env addr mnv.vchSig1 strMessage1 mn) :
    ¬ Ends (scanTurn env sign addr blockHash strMessage1) (.init vMasternodes asked mnv) := by
  obtain ⟨i, hi⟩ := List.mem_iff_getElem?.1 hmn
  exact not_ends_of_stays (fun _ => StuckBefore.turn hnull) ⟨Nat.zero_le i, rfl, ⟨mn, hi, hsigned⟩⟩

structure Moving (env : Env) (addr : CService) (vchSig1 : List UInt8) (strMessage1 : List Char) (n : Nat) (s : VerifyScan) :
    Prop where
  length : s.vMasternodes.length = n
  free : env.activeVin ≠ nullTxIn ∨ (s.mnv.vchSig1 = vchSig1 ∧ ∀ mn ∈ s.vMasternodes, ¬ Signed env addr vchSig1 strMessage1 mn)

theorem Moving.turn (h : Moving env addr vchSig1 strMessage1 i s)
    (hturn : scanTurn env sign addr blockHash strMessage1 s = .again s') :
    Moving env addr vchSig1 strMessage1 i s' ∧ s.it < s'.it ∧ s.it < i := by
  obtain ⟨mn, hmn, hcases⟩ := scanTurn_cases hturn
  have hlt : s.it < i := by
    rw [← h.length]
    exact (List.getElem?_eq_some_iff.1 hmn).1
  rcases hcases with ⟨-, hit, hlist, hmnv⟩ | ⟨hsigned, hnull, -⟩ | ⟨-, hactive, hit, hlist⟩
  · refine ⟨⟨by rw [hlist, h.length], ?_⟩, by omega, hlt⟩
    rw [hlist, hmnv]
    exact h.free
  · rcases h.free with hactive | ⟨hsig, hnone⟩
    · exact absurd hnull hactive
    · rw [hsig] at hsigned
      exact absurd hsigned (hnone mn (List.mem_of_getElem? hmn))
  · exact ⟨⟨by rw [hlist, length_found, h.length], .inl hactive⟩, by omega, hlt⟩

theorem Moving.advances (h : Moving env addr vchSig1 strMessage1 i s) :
    ScanAdvances (scanTurn env sign addr blockHash strMessage1) s := by
  constructor
  · intro t t' hcomes hturn
    have ht := comes_keeps hcomes h fun _ _ hs hs' => (hs.turn hs').1
    exact (ht.turn hturn).2.1
  · apply ends_of_measure (I := Moving env addr vchSig1 strMessage1 i) (fun t => i - t.it) _ h
    intro t t' ht hturn
    obtain ⟨ht', hit, hlt⟩ := ht.turn hturn
    exact ⟨ht', by omega⟩

theorem Moving.init (h : env.activeVin ≠ nullTxIn ∨ ∀ mn ∈ vMasternodes, ¬ Signed env addr mnv.vchSig1 strMessage1 mn) :
    Moving env addr mnv.vchSig1 strMessage1 vMasternodes.length (.init vMasternodes asked mnv) :=
  ⟨rfl, h.imp id fun hnone => ⟨rfl, hnone⟩⟩

theorem scan_ends_iff : Ends (scanTurn env sign addr blockHash strMessage1) (.init vMasternodes asked mnv) ↔
    env.activeVin ≠ nullTxIn ∨ ∀ mn ∈ vMasternodes, ¬ Signed env addr mnv.vchSig1 strMessage1 mn := by
  constructor
  · intro hends
    by_contra hno
    rw [not_or, not_not] at hno
    obtain ⟨hnull, hsome⟩ := hno
    rw [not_forall] at hsome
    obtain ⟨mn, hmn⟩ := hsome
    rw [Classical.not_imp, not_not] at hmn
    exact scan_stuck hnull hmn.1 hmn.2 hends
  · intro h
    exact (Moving.init h).advances.2

theorem scan_advances_iff (env : Env) (sign : List Char → Option (List UInt8)) (addr : CService) (blockHash : Uint256)
    (strMessage1 : List Char) (vMasternodes : List CMasternode) (asked : Asked) (mnv : CMasternodeVerification) :
    ScanAdvances (scanTurn env sign addr blockHash strMessage1) (.init vMasternodes asked mnv) ↔
      env.activeVin ≠ nullTxIn ∨ ∀ mn ∈ vMasternodes, ¬ Signed env addr mnv.vchSig1 strMessage1 mn := by
  constructor
  · intro hadvances
    exact scan_ends_iff.1 hadvances.2
  · intro h
    exact (Moving.init h).advances

/-- A node without a masternode that verifies the one at the only address it knows. -/
theorem plain_node_hangs : ¬ ScanAdvances
    (scanTurn (sampleEnv 0) (fun _ => some []) default 7 [])
    (.init [⟨inputOf 1, default, [], [1], nullPing, [], 0, 0, .enabled, 70000, 0, 0⟩] ⟨true, false, ⟨nullTxIn, nullTxIn, default, 5, 3, [], []⟩⟩
      ⟨nullTxIn, nullTxIn, default, 5, 3, [1], []⟩) := by
  intro hadvances
  have hsigned : Signed (sampleEnv 0) default [1] [] ⟨inputOf 1, default, [], [1], nullPing, [], 0, 0, .enabled, 70000, 0, 0⟩ :=
    ⟨rfl, rfl⟩
  exact scan_stuck rfl (List.mem_singleton_self _) hsigned hadvances.2

/-! ## The function -/

end Zumy.Announce
