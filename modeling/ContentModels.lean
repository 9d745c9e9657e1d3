import ContentModels.Builder
import ContentModels.Config.File
import ContentModels.Proofs.Builder.Order
import ContentModels.Proofs.Resolver.Capture
import ContentModels.Proofs.TypeRef.RoundTrip
import ContentModels.Proofs.TypeRef.Mistakes
import ContentModels.Proofs.Builder.Requests
import ContentModels.Proofs.Builder.Bases
import ContentModels.Proofs.Source.MemberNames
import ContentModels.Proofs.Hierarchy.Cycles
import ContentModels.Proofs.Hierarchy.Lifting
import ContentModels.Proofs.Config.Replay
import ContentModels.Proofs.Hierarchy.Index
import ContentModels.Proofs.Labels
import ContentModels.Proofs.Source.Disabled
import ContentModels.Proofs.Source.Summaries
import ContentModels.Proofs.Source.Wrapping
