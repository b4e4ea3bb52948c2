import SqlDelete.Document.Dialect
import SqlDelete.Event
import SqlDelete.Outcome
import SqlDelete.Sample.Draw
import SqlDelete.Proofs.History
import SqlDelete.Proofs.Canonical
import SqlDelete.Proofs.Table
import SqlDelete.Proofs.Boundary
import SqlDelete.Proofs.LiteralContent
import SqlDelete.Proofs.Outcome
import SqlDelete.Proofs.Accounting
import SqlDelete.Proofs.Sequel
import SqlDelete.Proofs.LetterCase
import SqlDelete.Proofs.Pairs
import SqlDelete.Proofs.Sample
import SqlDelete.Proofs.Draw
import SqlDelete.Proofs.KeywordOrder
import SqlDelete.Proofs.Continuation
import SqlDelete.Proofs.Spelling
import SqlDelete.Proofs.Conservation
import SqlDelete.Proofs.Documents
import SqlDelete.Proofs.Reach
