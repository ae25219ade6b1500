import Nbnet.Types.Chain
import Nbnet.Types.GrammarTheorems
import Nbnet.Txpool.ArrivalTheorems
import Nbnet.Txpool.CollectTheorems
import Nbnet.Txpool.CommitTheorems
import Nbnet.Txpool.DrainTheorems
import Nbnet.Txpool.EncodingTheorems
import Nbnet.Precompile.RollbackTheorems
import Nbnet.Precompile.EffectTheorems
import Nbnet.Precompile.StakingTheorems
import Nbnet.Precompile.BankTheorems
import Nbnet.State.SetterTheorems
import Nbnet.State.OrderTheorems
import Nbnet.State.WindowTheorems
import Nbnet.Execution.LockTheorems
import Nbnet.Execution.CallTheorems
import Nbnet.Execution.FreshTheorems
import Nbnet.Execution.GasTheorems
import Nbnet.Execution.InclusionTheorems
import Nbnet.Execution.IndexTheorems
import Nbnet.Execution.AppHashTheorems
import Nbnet.Execution.RestartTheorems
import Nbnet.Execution.AdmissionTheorems
import Nbnet.Execution.ReceiptTheorems
import Nbnet.Execution.TipTheorems
import Nbnet.Execution.ValidationTheorems
import Nbnet.Rpc.LogTheorems
import Nbnet.Rpc.BenchTheorems
import Nbnet.Network.AgreementTheorems
import Nbnet.Network.GenesisTheorems
import Nbnet.Network.ProvenanceTheorems
