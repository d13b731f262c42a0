import RosAudit.Code.Reader
import RosAudit.Configure.Walk
import RosAudit.Main
import RosAudit.Proofs.Audit.Atomicity
import RosAudit.Proofs.Audit.Counting
import RosAudit.Proofs.Audit.IgnoredLines
import RosAudit.Proofs.Audit.Isolation
import RosAudit.Proofs.Audit.Suppression
import RosAudit.Proofs.CMake.BlockTrees
import RosAudit.Proofs.CMake.Comments
import RosAudit.Proofs.CMake.Connectives
import RosAudit.Proofs.CMake.Interpolation
import RosAudit.Proofs.CMake.LineGroups
import RosAudit.Proofs.CMake.SourceFiles
import RosAudit.Proofs.CMake.TargetTables
import RosAudit.Proofs.Configure.Conditions
import RosAudit.Proofs.Configure.DecidingLinks
import RosAudit.Proofs.Configure.DeletedParams
import RosAudit.Proofs.Configure.EnabledSplit
import RosAudit.Proofs.Configure.Environment
import RosAudit.Proofs.Configure.Inclusions
import RosAudit.Proofs.Configure.ParamLinks
import RosAudit.Proofs.Configure.ServiceLinks
import RosAudit.Proofs.Configure.TopicNames
import RosAudit.Proofs.Configure.Unfolding
import RosAudit.Proofs.Extract.CacheReading
import RosAudit.Proofs.Extract.NodeOrder
import RosAudit.Proofs.Extract.Tiers
import RosAudit.Proofs.Launch.Refusals
import RosAudit.Proofs.Model.Bindings
import RosAudit.Proofs.Model.Copies
import RosAudit.Proofs.Model.Outlinks
import RosAudit.Proofs.UnknownNames
import RosAudit.Release
import RosAudit.Scenario
import RosAudit.SelfCheck
import RosAudit.View.Build
import RosAudit.View.Configuration
import RosAudit.View.Database
import RosAudit.View.Launch
import RosAudit.View.Package
