import JointPlan.Main
import JointPlan.Json.Codec
import JointPlan.Json.Parser
import JointPlan.Json.Printer
import JointPlan.Partition.Audit
import JointPlan.Proofs.Compiling
import JointPlan.Proofs.Cutting
import JointPlan.Proofs.Drafts
import JointPlan.Proofs.Partitioning
import JointPlan.Proofs.Passes
import JointPlan.Proofs.Progress
import JointPlan.Proofs.Schemas
import JointPlan.Proofs.Typing
import JointPlan.Proofs.Delivering
import JointPlan.Proofs.Recompiling
import JointPlan.Proofs.Crossings
import JointPlan.Proofs.Conservation
import JointPlan.Proofs.Rerunning
import JointPlan.Proofs.Labelling
import JointPlan.Proofs.Backends
import JointPlan.Proofs.Workflows
import JointPlan.Proofs.Failing
import JointPlan.Proofs.Equivariance
import JointPlan.Proofs.Reordering
import JointPlan.Proofs.Severing
import JointPlan.Proofs.Deciding
import JointPlan.Proofs.Recovering
import JointPlan.Proofs.Lineage
import JointPlan.Proofs.Dividing
import JointPlan.Proofs.Retaining
import JointPlan.Proofs.Ties
import JointPlan.Proofs.Renewing
import JointPlan.Proofs.Widening
import JointPlan.Proofs.Collapsing
import JointPlan.Proofs.Borders
import JointPlan.Proofs.Combining
import JointPlan.Proofs.Limits
import JointPlan.Proofs.Undoing
import JointPlan.Proofs.Reading
import JointPlan.Proofs.Encoding
import JointPlan.Proofs.Idling
import JointPlan.Proofs.Contributing
import JointPlan.Proofs.Standings
import JointPlan.Proofs.Guarding
