import ConfigLang.Config.Basic
import ConfigLang.Proofs.GroupText
import ConfigLang.Proofs.PlainDocument
import ConfigLang.Proofs.SharedDocument
import ConfigLang.Proofs.Continuation
import ConfigLang.Proofs.TakenLines
import ConfigLang.Proofs.Layout
import ConfigLang.Proofs.DefaultsOverlay
import ConfigLang.Proofs.Concatenation
import ConfigLang.Proofs.IncludeChains
import ConfigLang.Proofs.IncludedText
import ConfigLang.Proofs.JoinedLines
import ConfigLang.Proofs.LineBreaks
import ConfigLang.Proofs.ArrayLayout
import ConfigLang.Proofs.ArrayStatement
import ConfigLang.Proofs.Definitions
import ConfigLang.Proofs.DefiningLine
import ConfigLang.Proofs.SessionHistory
import ConfigLang.Proofs.TrailingComment
import ConfigLang.Proofs.WrittenValue
import ConfigLang.Proofs.ExpressionGrammar
import ConfigLang.Proofs.SplicedGroups
import ConfigLang.Tree.InPlace
import ConfigLang.Proofs.DefaultsFilling
import ConfigLang.Proofs.OperationFaults
import ConfigLang.Proofs.DefaultsOrder
import ConfigLang.Proofs.Precedence
import ConfigLang.Proofs.ResolvingRuns
import ConfigLang.Proofs.ArrayLiterals
import ConfigLang.Proofs.PathReferences
import ConfigLang.Proofs.AccessorTexts
import ConfigLang.Proofs.IndexedReferences
import ConfigLang.Proofs.DottedReferences
import ConfigLang.Proofs.ReferenceForm
import ConfigLang.Proofs.ConversionSuffixes
import ConfigLang.Proofs.NumberTexts
import ConfigLang.Proofs.OutermostBrackets
import ConfigLang.Proofs.SingleScan
import ConfigLang.Proofs.TokenTexts
import ConfigLang.Proofs.ReaderAgreement
import ConfigLang.Proofs.JsonTokens
import ConfigLang.Proofs.JsonValues
