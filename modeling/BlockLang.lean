import BlockLang.Main
import BlockLang.Proofs.Backpatch
import BlockLang.Proofs.MeaningPreservation
import BlockLang.Proofs.EvaluationOrder
import BlockLang.Proofs.FrameOverflow
import BlockLang.Proofs.ShortCircuit
import BlockLang.Proofs.TreeText
import BlockLang.Proofs.FrameLayout
import BlockLang.Proofs.ForwardDeclaration
import BlockLang.Proofs.LiteralEscapes
import BlockLang.Proofs.ArrayArguments
import BlockLang.Proofs.BasicBlocks
import BlockLang.Proofs.EndOfInput
import BlockLang.Proofs.Parenthesis
import BlockLang.FileTree
import BlockLang.Proofs.Parsing
import BlockLang.Proofs.Tree.Table
import BlockLang.Session
