import RuleChain.Main
import RuleChain.Session
import RuleChain.Report.Config
import RuleChain.Proofs.Validation
import RuleChain.Proofs.Edits
import RuleChain.Proofs.OpenTransaction
import RuleChain.Proofs.Finalization
import RuleChain.Proofs.System
import RuleChain.Proofs.Isolation
import RuleChain.Proofs.Draft
import RuleChain.Proofs.Refinement
import RuleChain.Proofs.Writes
import RuleChain.Proofs.History
import RuleChain.Proofs.InPlace
import RuleChain.Proofs.Rollback
import RuleChain.Proofs.Expressions
import RuleChain.Proofs.Safety
import RuleChain.Proofs.Meaning
import RuleChain.Proofs.Evaluations
import RuleChain.Proofs.Alike
import RuleChain.Proofs.Observation
import RuleChain.Proofs.Words
import RuleChain.Proofs.Written
import RuleChain.Proofs.Interpretation
import RuleChain.Proofs.Filling
import RuleChain.Proofs.Building
import RuleChain.Proofs.Acceptance
import RuleChain.Proofs.Admission
import RuleChain.Proofs.Application
import RuleChain.Proofs.Visits
import RuleChain.Proofs.Replay
import RuleChain.Proofs.Sessions
import RuleChain.Proofs.Statistics
import RuleChain.Proofs.Locality
import RuleChain.Proofs.Harmless
import RuleChain.Proofs.Tours
import RuleChain.Proofs.Overlay
import RuleChain.Proofs.Loads
import RuleChain.Proofs.Comparisons
import RuleChain.Proofs.Spellings
import RuleChain.Proofs.Bounds
import RuleChain.Proofs.Spans
import RuleChain.Proofs.Publications
import RuleChain.Proofs.Placement
