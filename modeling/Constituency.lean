import Constituency.Brackets.Reader
import Constituency.SampleTreebank
import Constituency.Tree.Order
import Constituency.Proofs.FloatUnknown
import Constituency.Proofs.TrainingTrees
import Constituency.Proofs.ChainFrequencies
import Constituency.Proofs.KnownProductions
import Constituency.Proofs.RuleOrder
import Constituency.Proofs.Windows
import Constituency.Proofs.Expansions
import Constituency.Proofs.CoarserParses
import Constituency.Proofs.PrintedTrees
import Constituency.Proofs.TreebankOrder
import Constituency.Proofs.UnaryChains
import Constituency.Proofs.SplitSides
import Constituency.Proofs.Stages
import Constituency.Proofs.InvalidScores
import Constituency.Proofs.EstimatedRules
import Constituency.Proofs.TagDistributions
import Constituency.Proofs.AnnotatedTree
import Constituency.Proofs.PlainNodes
import Constituency.Proofs.SyntaxErrors
