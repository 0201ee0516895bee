import Reckoner.Config.Toml
import Reckoner.Remote.Adviser
import Reckoner.Remote.Prompt
import Reckoner.Remote.Reply
import Reckoner.Calculator
import Reckoner.Proofs.Config
import Reckoner.Proofs.Consultation
import Reckoner.Proofs.Highlight.ZeroDivisor
import Reckoner.Proofs.Position
import Reckoner.Proofs.Repair.Levels
import Reckoner.Proofs.Value.Exact
import Reckoner.Proofs.Value.Overflow
import Reckoner.Proofs.Value.Reread
import Reckoner.Proofs.Written
import Reckoner.Proofs.Reply
import Reckoner.Proofs.Highlight.Unclosed
import Reckoner.Proofs.Repair.Closing
import Reckoner.Proofs.Spacing
import Reckoner.Proofs.Substitution
import Reckoner.Proofs.Highlight.Parts
import Reckoner.Proofs.Respelling
import Reckoner.Proofs.Repair.Deletion
import Reckoner.Proofs.Reply.Objects
