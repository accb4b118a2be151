/-
  Zumy.Spork.Model — spork.cpp: the switches the holder of the spork key signs.

  A node keeps of each spork the message with the newest time of signing it has seen, in
  `mapSporksActive`; the switches are read from there, and from a table of defaults for a
  spork nobody signed. The text that is signed is made of the three numbers of a message
  in decimal, with nothing between them.

  Left out: relaying, the requests to peers, and `ExecuteSpork`, which reads a spork and
  changes none.
-/
import Zumy.Lib.Decimal
import Zumy.Lib.OrdMap
import Zumy.Primitives

namespace Zumy.Spork

open Lib

structure CSporkMessage where
  nSporkID : Int32
  nValue : Int64
  nTimeSigned : Int64
  vchSig : List UInt8
  deriving DecidableEq

/-- `strMessage` of `Sign` and `CheckSignature` -/
def CSporkMessage.strMessage (m : CSporkMessage) : List Char :=
  decimal m.nSporkID.toInt ++ decimal m.nValue.toInt ++ decimal m.nTimeSigned.toInt

structure CSporkManager where
  mapSporksActive : Map Int32 CSporkMessage
  /-- The global map, by the hash of the message. -/
  mapSporks : Map Uint256 CSporkMessage

def CSporkManager.init : CSporkManager := ⟨∅, ∅⟩

/-- What `ProcessSpork` reads outside the manager. -/
structure Env where
  fLiteMode : Bool
  /-- `chainActive.Tip()` is there. -/
  hasTip : Bool
  /-- `VerifyMessage` under the spork key. -/
  verifyMessage : List UInt8 → List Char → Bool
  /-- `GetHash` of the three numbers. -/
  getHash : Int32 → Int64 → Int64 → Uint256

def CSporkMessage.checkSignature (env : Env) (m : CSporkMessage) : Bool := env.verifyMessage m.vchSig m.strMessage

/-! ## Messages -/

def putSpork (env : Env) (s : CSporkManager) (spork : CSporkMessage) : CSporkManager where
  mapSporks := s.mapSporks.insert (env.getHash spork.nSporkID spork.nValue spork.nTimeSigned) spork
  mapSporksActive := s.mapSporksActive.insert spork.nSporkID spork

def seen (s : CSporkManager) (spork : CSporkMessage) : Bool :=
  (s.mapSporksActive[spork.nSporkID]?).any fun active => active.nTimeSigned.toInt ≥ spork.nTimeSigned.toInt

def processSpork (env : Env) (s : CSporkManager) (spork : CSporkMessage) : CSporkManager :=
  if env.fLiteMode then s
  else if !env.hasTip then s
  else if seen s spork then s
  else if !spork.checkSignature env then s
  else putSpork env s spork

/-- `UpdateSpork`; without a signature `Sign` failed. -/
def updateSpork (env : Env) (s : CSporkManager) (nSporkID : Int32) (nValue now : Int64) (vchSig : Option (List UInt8)) :
    Bool × CSporkManager :=
  match vchSig with
  | some vchSig => (true, putSpork env s ⟨nSporkID, nValue, now, vchSig⟩)
  | none => (false, s)

/-! ## Switches -/

def spork2InstantsendEnabled : Int32 := 10001
def spork3InstantsendBlockFiltering : Int32 := 10002
def spork5InstantsendMaxValue : Int32 := 10004
def spork8MasternodePaymentEnforcement : Int32 := 10007
def spork9SuperblocksEnabled : Int32 := 10008
def spork10MasternodePayUpdatedNodes : Int32 := 10009
def spork12ReconsiderBlocks : Int32 := 10011
def spork13OldSuperblockFlag : Int32 := 10012
def spork14RequireSentinelFlag : Int32 := 10013

/-- The table of defaults of `IsSporkActive` and `GetSporkValue`. -/
def sporkDefault (nSporkID : Int32) : Option Int64 :=
  if nSporkID = spork2InstantsendEnabled then some 0
  else if nSporkID = spork3InstantsendBlockFiltering then some 0
  else if nSporkID = spork5InstantsendMaxValue then some 1000
  else if nSporkID = spork8MasternodePaymentEnforcement then some 1547551815
  else if nSporkID = spork9SuperblocksEnabled then some 9547551815
  else if nSporkID = spork10MasternodePayUpdatedNodes then some 1547551815
  else if nSporkID = spork12ReconsiderBlocks then some 0
  else if nSporkID = spork13OldSuperblockFlag then some 4070908800
  else if nSporkID = spork14RequireSentinelFlag then some 4070908800
  else none

def isSporkActive (s : CSporkManager) (now : Int64) (nSporkID : Int32) : Bool :=
  let r := match s.mapSporksActive[nSporkID]? with
    | some spork => spork.nValue
    | none => (sporkDefault nSporkID).getD 4070908800
  r.toInt < now.toInt

def getSporkValue (s : CSporkManager) (nSporkID : Int32) : Int64 :=
  match s.mapSporksActive[nSporkID]? with
  | some spork => spork.nValue
  | none => (sporkDefault nSporkID).getD (-1)

/-! ## What a message does -/

variable {env : Env} {s : CSporkManager} {spork m : CSporkMessage} {nSporkID : Int32}

theorem lookup_putSpork : (putSpork env s spork).mapSporksActive[nSporkID]? =
    if nSporkID = spork.nSporkID then some spork else s.mapSporksActive[nSporkID]? := lookup_insert

theorem processSpork_cases (env : Env) (s : CSporkManager) (spork : CSporkMessage) :
    processSpork env s spork = s ∨
    (seen s spork = false ∧ spork.checkSignature env = true ∧ processSpork env s spork = putSpork env s spork) := by
  unfold processSpork
  split
  · exact .inl rfl
  split
  · exact .inl rfl
  split
  · exact .inl rfl
  rename_i hseen
  split
  · exact .inl rfl
  · rename_i hsig
    exact .inr ⟨Bool.eq_false_iff.2 hseen, by simpa using hsig, rfl⟩

end Zumy.Spork
