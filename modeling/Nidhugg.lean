import Nidhugg.Verification.AssumeAwait.Preservation
import Nidhugg.Verification.AwaitCond.Comparison
import Nidhugg.Verification.AwaitWakeup.Runs
import Nidhugg.Verification.ByteRanges.Loads
import Nidhugg.Verification.DryRun.NoTrace
import Nidhugg.Verification.FBVClock.Runs
import Nidhugg.Verification.FrontierFilter.Maxima
import Nidhugg.Verification.GenMap.Refinement
import Nidhugg.Verification.GenMapHeap.Isolation
import Nidhugg.Verification.GenVector.Refinement
import Nidhugg.Verification.LoopOrder.Insertion
import Nidhugg.Verification.LoopPurity.Building
import Nidhugg.Verification.LoopPurity.Soundness
import Nidhugg.Verification.MemoryModels.RaceFree
import Nidhugg.Verification.PowerArmAccesses.Registration
import Nidhugg.Verification.PowerArmBranches.Canonicity
import Nidhugg.Verification.PowerArmCycles.Decisions
import Nidhugg.Verification.PowerArmFences.Edges
import Nidhugg.Verification.PowerArmRaces.Runs
import Nidhugg.Verification.PowerArmRuns.Accounting
import Nidhugg.Verification.PrefixHeuristic.Correctness
import Nidhugg.Verification.PsoExploration.Runs
import Nidhugg.Verification.PsoRecorder.Initialisation
import Nidhugg.Verification.PsoTraceBuilder.Availability
import Nidhugg.Verification.RfscAlternatives.Loop
import Nidhugg.Verification.RfscAlternatives.Outcomes
import Nidhugg.Verification.RfscDriver.Accounting
import Nidhugg.Verification.RfscTraceBuilder.Formula
import Nidhugg.Verification.RfscUnfoldingTree.Executions
import Nidhugg.Verification.RmwAction.Instruction
import Nidhugg.Verification.SaturatedGraph.Verdicts
import Nidhugg.Verification.SmtlibSatSolver.Positions
import Nidhugg.Verification.TsoAwaits.Reversals
import Nidhugg.Verification.TsoTraceBuilder.CompareExchange
import Nidhugg.Verification.TsoTraceBuilder.Consumption
import Nidhugg.Verification.TsoTraceBuilder.Observed
import Nidhugg.Verification.VClockMap.Comparisons
import Nidhugg.Verification.VecSetInPlace.Merging
import Nidhugg.Verification.WorkstealingScheduler.Conservation
