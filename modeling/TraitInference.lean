import TraitInference.Draft
import TraitInference.Report
import TraitInference.Solve
import TraitInference.Proofs.Forest
import TraitInference.Proofs.WellFormed
import TraitInference.Proofs.Meaning
import TraitInference.Proofs.Acyclic
import TraitInference.Proofs.Solutions
import TraitInference.Proofs.RecursiveTypes
import TraitInference.Proofs.Renaming
import TraitInference.Proofs.Simulation
import TraitInference.Proofs.Copying
import TraitInference.Proofs.Solving
import TraitInference.Proofs.Support
import TraitInference.Proofs.Isolation
import TraitInference.Proofs.NormalForm
import TraitInference.Proofs.Later
import TraitInference.Proofs.Counterparts
import TraitInference.Proofs.Copies
import TraitInference.Proofs.Equations
import TraitInference.Proofs.Resolution
import TraitInference.Proofs.Agendas
import TraitInference.Proofs.Termination
import TraitInference.Proofs.Principal
import TraitInference.Proofs.Ascriptions
import TraitInference.Proofs.Relabelling
import TraitInference.Proofs.Templates
import TraitInference.Proofs.Grouping
import TraitInference.Proofs.Presentation
import TraitInference.Proofs.Lookup
import TraitInference.Proofs.Unfolding
import TraitInference.Proofs.Exposure
import TraitInference.Proofs.Evolution
import TraitInference.Proofs.Conflicts
import TraitInference.Proofs.Erasure
import TraitInference.Proofs.Effects
import TraitInference.Proofs.Turns
import TraitInference.Proofs.Limits
import TraitInference.Proofs.Locality
import TraitInference.Proofs.Footprint
import TraitInference.Proofs.Normalization
import TraitInference.Proofs.Interleaving
import TraitInference.Proofs.Relocation
import TraitInference.Proofs.CallSites
import TraitInference.Proofs.Partition
import TraitInference.Proofs.Persistence
import TraitInference.Proofs.Idempotence
import TraitInference.Proofs.Mentions
import TraitInference.Proofs.Coverage
import TraitInference.Proofs.Safety
import TraitInference.Proofs.Faultless
import TraitInference.Proofs.Queries
import TraitInference.Proofs.Consistency
import TraitInference.Proofs.Images
import TraitInference.Proofs.Bookkeeping
import TraitInference.Proofs.Workload
import TraitInference.Proofs.Backlog
import TraitInference.Proofs.Diagnostics
import TraitInference.Proofs.Provenance
import TraitInference.Proofs.Spelling
import TraitInference.Proofs.Legibility
import TraitInference.Proofs.DepthFirst
