import Logex.Theorems.AdaptivePages
import Logex.Theorems.BTreeLookups
import Logex.Theorems.BatchAdmission
import Logex.Theorems.BloomMembership
import Logex.Theorems.BundleRecovery
import Logex.Theorems.BundleTables
import Logex.Theorems.CandidateMetadata
import Logex.Theorems.CanonicalChain
import Logex.Theorems.CatalogValidity
import Logex.Theorems.CommitteeChain
import Logex.Theorems.ConjunctOrder
import Logex.Theorems.DecimalText
import Logex.Theorems.ForkSchedule
import Logex.Theorems.ForwardRanges
import Logex.Theorems.HeadTracker
import Logex.Theorems.HistoryScan
import Logex.Theorems.IndexVerification
import Logex.Theorems.IntegerCodecs
import Logex.Theorems.LegacyRewrite
import Logex.Theorems.LightClientStore
import Logex.Theorems.MemoryLedger
import Logex.Theorems.MerkleBranches
import Logex.Theorems.RepairSelection
import Logex.Theorems.ResidualChunks
import Logex.Theorems.SourceCommitment
import Logex.Theorems.StreamHash
import Logex.Theorems.UpdateOrder
import Logex.Theorems.VarPages
import Logex.Theorems.VerifiedBatch
import Logex.Theorems.WalCut
import Logex.Theorems.WalRows
