import ConfigCompiler.Cache.Script
import ConfigCompiler.Interner.Session
import ConfigCompiler.Kernel.Session
import ConfigCompiler.Settings.Document
import ConfigCompiler.Proofs.Cache.Invalidation
import ConfigCompiler.Proofs.Cache.Admission
import ConfigCompiler.Proofs.Interner.Liveness
import ConfigCompiler.Proofs.Kernel.Identity
import ConfigCompiler.Proofs.Kernel.Transparency
import ConfigCompiler.Proofs.Compilation.Lookup
import ConfigCompiler.Proofs.Pipeline.Concrete
import ConfigCompiler.Proofs.Pipeline.Finite
import ConfigCompiler.Proofs.Pipeline.Publication
import ConfigCompiler.Proofs.Kernel.Deadlines
import ConfigCompiler.Proofs.Kernel.Once
import ConfigCompiler.Proofs.Cache.Failure
import ConfigCompiler.Proofs.Cache.Counters
import ConfigCompiler.Proofs.Cache.WeightCounter
import ConfigCompiler.Proofs.Expansion.Foremost
import ConfigCompiler.Proofs.Expansion.Matches
import ConfigCompiler.Proofs.Kernel.CachedViews
import ConfigCompiler.Proofs.Kernel.SourceInvalidation
import ConfigCompiler.Proofs.Kernel.PassLists
import ConfigCompiler.Proofs.Interner.Sweeping
import ConfigCompiler.Proofs.Interner.Statistics
import ConfigCompiler.Proofs.Interner.Faithful
import ConfigCompiler.Proofs.Hierarchy.Construction
import ConfigCompiler.Proofs.Hierarchy.Preorder
import ConfigCompiler.Proofs.Expansion.Leaves
import ConfigCompiler.Proofs.Interner.Again
import ConfigCompiler.Proofs.Pattern.Grammar
import ConfigCompiler.Proofs.Value.Offences
import ConfigCompiler.Proofs.View.NormalForm
