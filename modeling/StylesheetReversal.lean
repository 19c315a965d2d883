import StylesheetReversal.Document.Outline
import StylesheetReversal.Document.Surroundings
import StylesheetReversal.Proofs.Document.Ascent
import StylesheetReversal.Proofs.Document.Predicate
import StylesheetReversal.Proofs.Document.Truth
import StylesheetReversal.Proofs.Document.Edits
import StylesheetReversal.Proofs.Document.Wrappers
import StylesheetReversal.Proofs.Path.Dump
import StylesheetReversal.Proofs.Path.Embedding
import StylesheetReversal.Proofs.Path.ErrorWindows
import StylesheetReversal.Proofs.Path.Exposed
import StylesheetReversal.Proofs.Path.InPlace
import StylesheetReversal.Proofs.Path.LongestMatch
import StylesheetReversal.Proofs.Path.NamedUnits
import StylesheetReversal.Proofs.Path.Parsing
import StylesheetReversal.Proofs.Path.Refusal
import StylesheetReversal.Proofs.Path.Suffix
import StylesheetReversal.Proofs.Reversal.Composition
import StylesheetReversal.Proofs.Reversal.Conservation
import StylesheetReversal.Proofs.Reversal.OneTree
import StylesheetReversal.Proofs.Reversal.Qualifiers
import StylesheetReversal.Proofs.Reversal.Readable
import StylesheetReversal.Proofs.Reversal.Rereading
import StylesheetReversal.Proofs.Draft.Attributes
import StylesheetReversal.Proofs.Skeleton.Calls
import StylesheetReversal.Proofs.Xml.Mirror
import StylesheetReversal.Reversal
import StylesheetReversal.Proofs.Path.Variables
import StylesheetReversal.Proofs.Path.Marking
import StylesheetReversal.Proofs.Xml.Namespaces
import StylesheetReversal.Proofs.Xml.Numbering
import StylesheetReversal.Proofs.Path.Strict.Parsing
import StylesheetReversal.Proofs.Path.WindowBounds
import StylesheetReversal.Proofs.Settings
