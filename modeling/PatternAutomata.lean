import PatternAutomata.Ascending
import PatternAutomata.Automaton.Basic
import PatternAutomata.Automaton.Dot
import PatternAutomata.Automaton.Fragment
import PatternAutomata.Automaton.Graph
import PatternAutomata.Automaton.Label
import PatternAutomata.Automaton.Partition
import PatternAutomata.Automaton.Subset
import PatternAutomata.Exploration
import PatternAutomata.Expr
import PatternAutomata.Expr.OfTree
import PatternAutomata.Interval
import PatternAutomata.LineSearch
import PatternAutomata.Main
import PatternAutomata.Pattern.Error
import PatternAutomata.Pattern.Parsing
import PatternAutomata.Pattern.Token
import PatternAutomata.Pattern.Token.Reader
import PatternAutomata.Pattern.Tree
import PatternAutomata.Pattern.Tree.Text
import PatternAutomata.Proofs.Determinism
import PatternAutomata.Proofs.Determinization
import PatternAutomata.Proofs.Exploration
import PatternAutomata.Proofs.Graphs
import PatternAutomata.Proofs.Intervals
import PatternAutomata.Proofs.Iteration
import PatternAutomata.Proofs.Language
import PatternAutomata.Proofs.Numbering
import PatternAutomata.Proofs.ParsingStep
import PatternAutomata.Proofs.Partition
import PatternAutomata.Proofs.Passage
import PatternAutomata.Proofs.PatternLanguage
import PatternAutomata.Proofs.Runs
import PatternAutomata.Proofs.Search
import PatternAutomata.Proofs.Shape
import PatternAutomata.Proofs.Walk
import PatternAutomata.Regex.Basic
import PatternAutomata.Regex.Log
import PatternAutomata.Regex.Search
import PatternAutomata.Text.Escaped
import PatternAutomata.Text.Unprintable
import PatternAutomata.Proofs.Grammar
import PatternAutomata.Proofs.PatternSearch
import PatternAutomata.Proofs.Resumption
import PatternAutomata.Proofs.Unambiguity
import PatternAutomata.Proofs.ParserSoundness
import PatternAutomata.Proofs.ParserCompleteness
import PatternAutomata.Proofs.Meaning
import PatternAutomata.Proofs.DeadEnds
import PatternAutomata.Proofs.Correspondence
import PatternAutomata.Proofs.Renumbering
import PatternAutomata.Proofs.SubsetOrder
import PatternAutomata.Proofs.JoinedRows
import PatternAutomata.Proofs.Idempotence
import PatternAutomata.Proofs.Relocation
import PatternAutomata.Proofs.Composition
import PatternAutomata.Proofs.ExactReading
import PatternAutomata.Proofs.EdgeRows
import PatternAutomata.Proofs.ClassBody
import PatternAutomata.Proofs.Complement
import PatternAutomata.Proofs.Extension
import PatternAutomata.Proofs.Refusal
import PatternAutomata.Proofs.TokenPlaces
import PatternAutomata.Proofs.OpenBrackets
import PatternAutomata.Proofs.OutOfPlace
import PatternAutomata.Proofs.ErrorPlaces
import PatternAutomata.Proofs.MovedTokens
import PatternAutomata.Proofs.Blanks
import PatternAutomata.Proofs.Paths
import PatternAutomata.Proofs.BreadthFirst
import PatternAutomata.Proofs.Size
import PatternAutomata.Proofs.Grouping
import PatternAutomata.Proofs.SpacedIntervals
import PatternAutomata.Proofs.CoarsestSplit
import PatternAutomata.Proofs.Unescaping
import PatternAutomata.Proofs.LabelText
import PatternAutomata.Proofs.DrawnLines
import PatternAutomata.Proofs.Drawings
import PatternAutomata.Proofs.NodePlaces
import PatternAutomata.Proofs.UniqueReading
import PatternAutomata.Proofs.RepeatedReading
import PatternAutomata.Proofs.CanonicalIntervals
