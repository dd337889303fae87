import PageScript.Conversion.Document
import PageScript.Lexer.Buffered
import PageScript.Main
import PageScript.Proofs.Announcements
import PageScript.Proofs.Roles
import PageScript.Proofs.Refused
import PageScript.Proofs.Sightings
import PageScript.Proofs.FlowedText
import PageScript.Proofs.PrintedStatements
import PageScript.Proofs.DeclaredKinds
import PageScript.Proofs.Assertions
import PageScript.Proofs.ShownText
import PageScript.Proofs.Descenders
import PageScript.Proofs.TextLimits
import PageScript.Proofs.PageBreaks
import PageScript.Proofs.FailingCalls
import PageScript.Proofs.TokenEnds
import PageScript.Proofs.FailingReads
import PageScript.Proofs.SideBySide
import PageScript.Proofs.Layout
import PageScript.Proofs.CutOffStrings
import PageScript.Proofs.Iteration
import PageScript.Proofs.Literals
import PageScript.Proofs.TakenOperands
import PageScript.Proofs.WordPieces
import PageScript.Proofs.FilledLines
import PageScript.Proofs.LineBreaks
import PageScript.Proofs.MergedSpans
import PageScript.Proofs.StackedLines
import PageScript.Proofs.Justified
import PageScript.Proofs.Comments
import PageScript.Proofs.HexStrings
import PageScript.Proofs.ColorDeclarations
import PageScript.Proofs.TextBytes
import PageScript.Proofs.ReplacedValues
import PageScript.Proofs.GivenValues
import PageScript.Proofs.KeptHandles
import PageScript.Proofs.ReadingOn
import PageScript.Proofs.WrittenNumbers
import PageScript.Proofs.LeadingZeros
import PageScript.Proofs.NearestNumbers
import PageScript.Proofs.ReadNumbers
