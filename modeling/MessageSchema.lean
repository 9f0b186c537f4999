import MessageSchema.Proofs.AbsoluteNames
import MessageSchema.Proofs.CommentOwners
import MessageSchema.Proofs.Cycles
import MessageSchema.Proofs.Doubles
import MessageSchema.Proofs.FlagNumbers
import MessageSchema.Proofs.ImportOrder
import MessageSchema.Proofs.InheritedFields
import MessageSchema.Proofs.InlineTypes
import MessageSchema.Proofs.MoreImports
import MessageSchema.Proofs.NamedPlaces
import MessageSchema.Proofs.Positions
import MessageSchema.Proofs.Quoting
import MessageSchema.Proofs.Ranges
import MessageSchema.Proofs.Reporting
import MessageSchema.Proofs.Respacing
import MessageSchema.Proofs.Separators
import MessageSchema.Proofs.Visibility
