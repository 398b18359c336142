import Descent.Analysis.Cache
import Descent.Parser.Program
import Descent.Sample
import Descent.Proofs.Grammar.Numbering
import Descent.Proofs.First.Exactness
import Descent.Proofs.First.FirstTokens
import Descent.Proofs.First.LeftRecursion
import Descent.Proofs.First.VisitOrder
import Descent.Proofs.First.Counters
import Descent.Proofs.Follow.Exactness
import Descent.Proofs.Parser.FollowKeys
import Descent.Proofs.Parser.ValidInput
import Descent.Proofs.Analysis.Sharing
import Descent.Proofs.Analysis.Marks
import Descent.Proofs.Parser.Accounting
import Descent.Proofs.Parser.Gates
import Descent.Proofs.Parser.Choice
import Descent.Proofs.Parser.Escapes
import Descent.Proofs.Parser.ErrorLog
import Descent.Proofs.Grammar.Histories
import Descent.Proofs.Grammar.Occurrences
import Descent.Proofs.Grammar.Completeness
import Descent.Proofs.Grammar.ReadBack
import Descent.Proofs.Parser.CallContract
import Descent.Proofs.Token.ScanAgreement
import Descent.Proofs.Follow.Merging
import Descent.Proofs.Parser.Snapshots
import Descent.Proofs.Follow.LocalRests
import Descent.Proofs.Terminal.Members
import Descent.Proofs.Parser.Nesting
