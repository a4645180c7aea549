import TypedNotation.Main
import TypedNotation.Proofs.CursorPlaces
import TypedNotation.Proofs.DeclarationOrder
import TypedNotation.Proofs.DepthAgreement
import TypedNotation.Proofs.DictGrammar
import TypedNotation.Proofs.IgnoredTokens
import TypedNotation.Proofs.IntegerLiterals
import TypedNotation.Proofs.KeptComments
import TypedNotation.Proofs.LayoutExactness
import TypedNotation.Proofs.ListingDepth
import TypedNotation.Proofs.NameReferences
import TypedNotation.Proofs.PathOwners
import TypedNotation.Proofs.ProblemCap
import TypedNotation.Proofs.RefreshOwnership
import TypedNotation.Proofs.RepeatedFixing
import TypedNotation.Proofs.SiblingTypes
import TypedNotation.Proofs.TextMaps
import TypedNotation.Proofs.TokenEdits
import TypedNotation.Proofs.UriPaths
