import Preverification.Main
import Preverification.Proofs.ClassFiles
import Preverification.Proofs.Emitted
import Preverification.Proofs.InlinedHandlers
import Preverification.Proofs.Inlining
import Preverification.Proofs.RoundTrip
import Preverification.Proofs.CopiedCode
import Preverification.Proofs.Exploration
import Preverification.Proofs.MoreConstants
import Preverification.Proofs.ValidPools
import Preverification.Proofs.FrameDeltas
import Preverification.Proofs.PoolRequests
import Preverification.Proofs.ExceptionTables
import Preverification.Proofs.LiveFlow
import Preverification.Proofs.MethodRuns
import Preverification.Proofs.PassThrough
import Preverification.Proofs.ReachedCode
import Preverification.Proofs.WrittenClasses
import Preverification.Proofs.TableCounts
import Preverification.Proofs.LinesInForce
import Preverification.Proofs.UncachedAnswers
import Preverification.Proofs.ResolverCalls
import Preverification.Proofs.ArchiveOrder
import Preverification.Proofs.ArchiveCourse
import Preverification.Proofs.ExactLayouts
import Preverification.Proofs.LabelHygiene
import Preverification.Proofs.MemberFindings
import Preverification.Proofs.AllocatedObjects
import Preverification.Proofs.ClimbingStates
import Preverification.Proofs.ExactSizes
import Preverification.Proofs.StackSlots
import Preverification.Proofs.WholeLocals
import Preverification.Proofs.SlotCoverage
import Preverification.Proofs.JumpFrames
import Preverification.Proofs.MergeOrder
import Preverification.Proofs.ConsistentBodies
import Preverification.Proofs.Causes
import Preverification.Proofs.InferenceCauses
import Preverification.Proofs.SubroutineCauses
import Preverification.Proofs.LabelledAllocations
import Preverification.Proofs.NewObjects
import Preverification.Proofs.EmissionCauses
import Preverification.Proofs.CleanRuns
import Preverification.Proofs.DescriptorTexts
import Preverification.Proofs.TextForms
import Preverification.Proofs.AttributeForms
import Preverification.Proofs.PermissivePolicies
import Preverification.Proofs.RegionTree
import Preverification.Proofs.Recursion
import Preverification.Proofs.VectorEdits
