import TomlSemantics.Scalar.Datetime
import TomlSemantics.Scalar.Canonical
import TomlSemantics.Text.Marked
import TomlSemantics.KeySet.Listing
import TomlSemantics.Load
import TomlSemantics.Document
import TomlSemantics.Report.Written
import TomlSemantics.Proofs.KeySet
import TomlSemantics.Proofs.NodePool
import TomlSemantics.Proofs.View
import TomlSemantics.Proofs.Assembly
import TomlSemantics.Proofs.Actions
import TomlSemantics.Proofs.Balance
import TomlSemantics.Proofs.ElementIndex
import TomlSemantics.Proofs.Flat
import TomlSemantics.Proofs.HeaderKeys
import TomlSemantics.Proofs.Contiguous
import TomlSemantics.Proofs.Placement
import TomlSemantics.Proofs.Reentry
import TomlSemantics.Proofs.Regular
import TomlSemantics.Proofs.Redefinition
import TomlSemantics.Proofs.Container
import TomlSemantics.Proofs.Resolution
import TomlSemantics.Proofs.Accounts
import TomlSemantics.Proofs.Footprint
import TomlSemantics.Proofs.Staged
import TomlSemantics.Proofs.AllOrNothing
import TomlSemantics.Proofs.FirstBadLine
import TomlSemantics.Proofs.Numbering
import TomlSemantics.Proofs.DatetimeCanonical
import TomlSemantics.Proofs.Lossless
import TomlSemantics.Proofs.Signs
import TomlSemantics.Proofs.NamePath
import TomlSemantics.Proofs.ByteOrder
import TomlSemantics.Proofs.ElementOrder
import TomlSemantics.Proofs.NameOrder
import TomlSemantics.Proofs.Subtrees
import TomlSemantics.Proofs.ReportPlace
import TomlSemantics.Proofs.CommentOrder
