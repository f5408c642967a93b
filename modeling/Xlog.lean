import Xlog.Cuda.ConstraintGraphCorrectness
import Xlog.Cuda.JointComponentsCorrectness
import Xlog.Cuda.MemoryBudgetCorrectness
import Xlog.Cuda.ModelWorkAccounting
import Xlog.Cuda.SemanticHistory
import Xlog.Cuda.SemanticProgramUnion
import Xlog.Cuda.SemanticResident
import Xlog.Cuda.SemanticTransition
import Xlog.Cuda.StreamCaptureExclusion
import Xlog.Gpu.DeltaBatchCorrectness
import Xlog.Gpu.WfsPlanCorrectness
import Xlog.Induce.NaryEnumerationCorrectness
import Xlog.Induce.NaryWalk
import Xlog.Logic.ArithmeticMachine
import Xlog.Logic.FoundednessCorrectness
import Xlog.Logic.MagicSetsAnswers
import Xlog.Logic.ModalChain
import Xlog.Logic.ReferenceJoin
import Xlog.Logic.SccCorrectness
import Xlog.Logic.SccDecomposition
import Xlog.Logic.SchemaInferenceCorrectness
import Xlog.Logic.SelectivityFaithful
import Xlog.Prob.AggregatePartition
import Xlog.Prob.CnfCorrectness
import Xlog.Prob.CountLiftExact
import Xlog.Prob.DecisionOrderCorrectness
import Xlog.Prob.DiskCacheProtocol
import Xlog.Prob.FactWeightsCorrectness
import Xlog.Prob.GpuCircuitCacheCorrectness
import Xlog.Prob.PirBuilderSharing
import Xlog.Prob.SamplingPlanCorrectness
import Xlog.Prob.WfsCorrectness
import Xlog.Prob.XgcfBuilderCorrectness
import Xlog.Runtime.AdaptivePlanCorrectness
import Xlog.Runtime.FreeJoinPlanCorrectness
import Xlog.Solve.ProofCheckSound
import Xlog.Solve.ServiceRun
