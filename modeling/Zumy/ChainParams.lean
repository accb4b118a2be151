/-
  Zumy.ChainParams — the consensus parameters the payment rules read (chainparams.cpp,
  consensus/params.h).

  The three networks set different fields; a field a network leaves out is 0, since the
  parameter objects have static storage.
-/
import Zumy.Primitives

namespace Zumy

structure ConsensusParams where
  nHardForkTwo : Int
  nMasternodePaymentsStartBlock : Int
  nBudgetPaymentsStartBlock : Int
  nBudgetPaymentsCycleBlocks : Int
  nBudgetPaymentsWindowBlocks : Int
  nSuperblockStartBlock : Int
  nSuperblockCycle : Int
  nGovernanceMinQuorum : Int
  nZumyBeginsBlock : Int
  nDevPhaseTotalBlocks : Int
  nPhase1LastBlock : Int
  nPhase3LastBlock : Int
  nPhase5LastBlock : Int
  deriving DecidableEq, Repr

def mainParams : ConsensusParams where
  nHardForkTwo := 1999999999
  nMasternodePaymentsStartBlock := 10801
  nBudgetPaymentsStartBlock := 20545
  nBudgetPaymentsCycleBlocks := 20545
  nBudgetPaymentsWindowBlocks := 100
  nSuperblockStartBlock := 20546
  nSuperblockCycle := 20545
  nGovernanceMinQuorum := 10
  nZumyBeginsBlock := 1800
  nDevPhaseTotalBlocks := 250000
  nPhase1LastBlock := 1999999999
  nPhase3LastBlock := 1999999999
  nPhase5LastBlock := 1999999999

def testNetParams : ConsensusParams where
  nHardForkTwo := 30000
  nMasternodePaymentsStartBlock := 0
  nBudgetPaymentsStartBlock := 200
  nBudgetPaymentsCycleBlocks := 50
  nBudgetPaymentsWindowBlocks := 10
  nSuperblockStartBlock := 0
  nSuperblockCycle := 24
  nGovernanceMinQuorum := 1
  nZumyBeginsBlock := 0
  nDevPhaseTotalBlocks := 0
  nPhase1LastBlock := 30000
  nPhase3LastBlock := 80000
  nPhase5LastBlock := 0

def regTestParams : ConsensusParams where
  nHardForkTwo := 0
  nMasternodePaymentsStartBlock := 0
  nBudgetPaymentsStartBlock := 1000
  nBudgetPaymentsCycleBlocks := 50
  nBudgetPaymentsWindowBlocks := 10
  nSuperblockStartBlock := 0
  nSuperblockCycle := 10
  nGovernanceMinQuorum := 1
  nZumyBeginsBlock := 0
  nDevPhaseTotalBlocks := 0
  nPhase1LastBlock := 375000
  nPhase3LastBlock := 1375000
  nPhase5LastBlock := 0

inductive Network where
  | main
  | test
  | regtest
  deriving DecidableEq, Repr

/-- `Params().GetConsensus()` after `SelectParams`. -/
def Network.params : Network → ConsensusParams
  | .main => mainParams
  | .test => testNetParams
  | .regtest => regTestParams

theorem Network.nGovernanceMinQuorum_pos (net : Network) : 0 < net.params.nGovernanceMinQuorum := by
  cases net <;> decide

end Zumy
