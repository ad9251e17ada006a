import Hierarchy.OrderedMap
import Hierarchy.Name
import Hierarchy.Location
import Hierarchy.Member
import Hierarchy.Declaration
import Hierarchy.VisibleMember
import Hierarchy.MemberTable
import Hierarchy.ResolvedType
import Hierarchy.Diagnostic
import Hierarchy.Codebase
import Hierarchy.Adaptation
import Hierarchy.Merge
import Hierarchy.Text
import Hierarchy.DocTag
import Hierarchy.Hook
import Hierarchy.Cache
import Hierarchy.Inquiry
import Hierarchy.ResolveM
import Hierarchy.Assembly
import Hierarchy.Resolver
import Hierarchy.Outline
import Hierarchy.Signature
import Hierarchy.HookScript
import Hierarchy.Session
import Hierarchy.Resolver.Equations
import Hierarchy.Proofs.Outcomes
import Hierarchy.Proofs.ReportedProblems
import Hierarchy.Proofs.RunsCompared
import Hierarchy.Proofs.PossibleRuns
import Hierarchy.Proofs.CallStack
import Hierarchy.Proofs.Requests
import Hierarchy.Proofs.DeclaredGraph
import Hierarchy.Proofs.GraphSearch
import Hierarchy.Proofs.CodebaseEdits
import Hierarchy.Proofs.PlainRecursion
import Hierarchy.Proofs.AssembledTypes
import Hierarchy.Proofs.StrictSupertypes
import Hierarchy.Proofs.CycleReports
import Hierarchy.Proofs.MergeLaw
import Hierarchy.Proofs.FileHistory
import Hierarchy.Proofs.NestedCalls
import Hierarchy.Proofs.ProducedTypes
import Hierarchy.Proofs.InterfaceLists
import Hierarchy.Proofs.Subtyping
import Hierarchy.Proofs.FirstCandidates
import Hierarchy.Proofs.Exploration
import Hierarchy.Proofs.FetchedOnce
import Hierarchy.Proofs.SourceFailures
import Hierarchy.Proofs.DroppedEdges
import Hierarchy.Proofs.CacheHistory
import Hierarchy.Proofs.DepthBound
import Hierarchy.Proofs.DepthCuts
import Hierarchy.Proofs.EdgesLeadingBack
import Hierarchy.Proofs.FailingHooks
import Hierarchy.Proofs.Cancellation
import Hierarchy.Proofs.MemberFlow
import Hierarchy.Proofs.MemberOrigins
import Hierarchy.Proofs.OverrideChains
import Hierarchy.Proofs.Spelling
import Hierarchy.Proofs.HookRuns
import Hierarchy.Proofs.ParentLines
import Hierarchy.Proofs.KeyedTables
import Hierarchy.Proofs.AdaptedMethods
import Hierarchy.Proofs.TraitMembers
import Hierarchy.Proofs.AnnouncedMembers
import Hierarchy.Proofs.UnmetDirectives
import Hierarchy.Proofs.WordsAndLines
import Hierarchy.Proofs.TagsReadBack
import Hierarchy.Proofs.NameComparison
import Hierarchy.Proofs.TableChanges
import Hierarchy.Proofs.ByteOrder
import Hierarchy.Proofs.Outlines
import Hierarchy.Proofs.HiddenDeclarations
