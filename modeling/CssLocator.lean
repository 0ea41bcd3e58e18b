import CssLocator.AnPlusB
import CssLocator.Command
import CssLocator.Compilation
import CssLocator.ConditionTexts
import CssLocator.Documents
import CssLocator.Double
import CssLocator.DoubleDecimals
import CssLocator.Engines
import CssLocator.Errors
import CssLocator.Folders
import CssLocator.Identifiers
import CssLocator.JsonChecks
import CssLocator.JsonDescriptions
import CssLocator.JsonTexts
import CssLocator.Main
import CssLocator.NativeMatching
import CssLocator.Navigation
import CssLocator.Notices
import CssLocator.Plans
import CssLocator.PseudoClasses
import CssLocator.ScriptedEngines
import CssLocator.SelectorReading
import CssLocator.Selectors
import CssLocator.Text
import CssLocator.TreeEngines
import CssLocator.XPathEvaluation
import CssLocator.XPathExpressions
import CssLocator.XPathFunctions
import CssLocator.XPathParsing
import CssLocator.XPathTokens
import CssLocator.XPathValues
import CssLocator.Proofs.ArgumentGrammar
import CssLocator.Proofs.ArgumentPatterns
import CssLocator.Proofs.BuiltDescriptions
import CssLocator.Proofs.ComparedValues
import CssLocator.Proofs.CompilationOutcomes
import CssLocator.Proofs.CompiledPlans
import CssLocator.Proofs.Complements
import CssLocator.Proofs.ComposedLists
import CssLocator.Proofs.CompoundTests
import CssLocator.Proofs.ConditionAgreement
import CssLocator.Proofs.ConditionExpressions
import CssLocator.Proofs.DescribedDocuments
import CssLocator.Proofs.DocumentEdits
import CssLocator.Proofs.DoubleIntegers
import CssLocator.Proofs.EnclosedExpressions
import CssLocator.Proofs.EncodedTexts
import CssLocator.Proofs.EngineIndependence
import CssLocator.Proofs.EscapedNames
import CssLocator.Proofs.ExecutedBranches
import CssLocator.Proofs.ExpressionGrammar
import CssLocator.Proofs.ExpressionPhrases
import CssLocator.Proofs.ExpressionTokens
import CssLocator.Proofs.FilteredSelections
import CssLocator.Proofs.IdentifierTexts
import CssLocator.Proofs.LanguageRanges
import CssLocator.Proofs.LocatedElements
import CssLocator.Proofs.LoopResults
import CssLocator.Proofs.NativeLocators
import CssLocator.Proofs.NavigatedElements
import CssLocator.Proofs.NestedLists
import CssLocator.Proofs.NestingBounds
import CssLocator.Proofs.NodeOrder
import CssLocator.Proofs.NodeSets
import CssLocator.Proofs.OrSelfAxes
import CssLocator.Proofs.OrderedResults
import CssLocator.Proofs.ParsedExpressions
import CssLocator.Proofs.PathAddresses
import CssLocator.Proofs.PathAgreement
import CssLocator.Proofs.PathConditions
import CssLocator.Proofs.PathLocators
import CssLocator.Proofs.PathQueries
import CssLocator.Proofs.PathValues
import CssLocator.Proofs.PathsFromUnions
import CssLocator.Proofs.PhraseRules
import CssLocator.Proofs.Preimages
import CssLocator.Proofs.PrintedLists
import CssLocator.Proofs.PrintedSelectors
import CssLocator.Proofs.ProtectedNames
import CssLocator.Proofs.QuotedValues
import CssLocator.Proofs.ReadCompounds
import CssLocator.Proofs.ReadConditions
import CssLocator.Proofs.ReadSelectors
import CssLocator.Proofs.ReaderBounds
import CssLocator.Proofs.RearrangedSelectors
import CssLocator.Proofs.RenderedPlans
import CssLocator.Proofs.RepeatedNodes
import CssLocator.Proofs.SelectorShapes
import CssLocator.Proofs.SharedCompilations
import CssLocator.Proofs.SharedProbes
import CssLocator.Proofs.SharedTables
import CssLocator.Proofs.SpelledExpressions
import CssLocator.Proofs.StepLocators
import CssLocator.Proofs.TestedSearches
import CssLocator.Proofs.Texts
import CssLocator.Proofs.TokenSlices
import CssLocator.Proofs.TreeBuilding
import CssLocator.Proofs.TreeEngineProbes
import CssLocator.Proofs.TreeLinks
import CssLocator.Proofs.TreeNavigation
import CssLocator.Proofs.TreeOrder
import CssLocator.Proofs.TreeWalks
import CssLocator.Proofs.WholeSelectors
import CssLocator.Proofs.WidenedQueries
import CssLocator.Proofs.WordTexts
import CssLocator.Proofs.WrittenConditions
