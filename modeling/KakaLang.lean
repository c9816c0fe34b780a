import KakaLang.Text.Units
import KakaLang.Number.Layout
import KakaLang.Number.Numeral
import KakaLang.Token.Scan
import KakaLang.Syntax.Parser
import KakaLang.Syntax.Printer
import KakaLang.Machine.Evaluation
import KakaLang.Main
import KakaLang.Proofs.Recognition
import KakaLang.Proofs.RoundTrip
import KakaLang.Proofs.StackDiscipline
import KakaLang.Proofs.Simulation
import KakaLang.Proofs.Transcript
import KakaLang.Proofs.CutShort
import KakaLang.Proofs.Ending
import KakaLang.Proofs.OutputLimit
import KakaLang.Proofs.DepthAndTime
import KakaLang.Proofs.Mirroring
import KakaLang.Proofs.CalleeIsolation
import KakaLang.Proofs.LosslessScan
import KakaLang.Proofs.ScopeWalk
import KakaLang.Proofs.ScopeChain
import KakaLang.Proofs.LineComposition
import KakaLang.Proofs.Lineless
import KakaLang.Proofs.LineIndependence
import KakaLang.Proofs.ParserStops
import KakaLang.Proofs.ControlFlow
import KakaLang.Proofs.FrameRule
import KakaLang.Proofs.Parentheses
import KakaLang.Proofs.LexemeLines
import KakaLang.Proofs.Rendering
import KakaLang.Proofs.DigitScript
import KakaLang.Proofs.NumeralGrammar
import KakaLang.Proofs.TextOrder
import KakaLang.Proofs.NumberText
import KakaLang.Proofs.RadixRounding
import KakaLang.Proofs.BlankAnswers
import KakaLang.Proofs.ByteOrderMarks
import KakaLang.Proofs.Concatenation
import KakaLang.Proofs.HeapMatching
import KakaLang.Proofs.PureExpressions
