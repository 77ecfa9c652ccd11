import PositionAutomaton.Grammar
import PositionAutomaton.Main
import PositionAutomaton.PatternTree.Language
import PositionAutomaton.Proofs.Arena.History
import PositionAutomaton.Proofs.Automaton.Decoding
import PositionAutomaton.Proofs.Automaton.Drawing
import PositionAutomaton.Proofs.Automaton.Edits
import PositionAutomaton.Proofs.Automaton.Updates
import PositionAutomaton.Proofs.CommandLine.Runs
import PositionAutomaton.Proofs.Compilation.Bracketing
import PositionAutomaton.Proofs.Compilation.Outcomes
import PositionAutomaton.Proofs.Compilation.Replay
import PositionAutomaton.Proofs.Compilation.Shifting
import PositionAutomaton.Proofs.Compilation.States
import PositionAutomaton.Proofs.Compilation.Termination
import PositionAutomaton.Proofs.Compilation.Usefulness
import PositionAutomaton.Proofs.Parser.Defects
import PositionAutomaton.Proofs.Parser.Trees
import PositionAutomaton.Proofs.PatternTree.LinkingFailures
import PositionAutomaton.Proofs.PatternTree.Nodes
import PositionAutomaton.Proofs.PatternTree.Printing
import PositionAutomaton.Proofs.Regex.Linearized
import PositionAutomaton.Proofs.Token.Escaping
import PositionAutomaton.CommandLine.Outcome
import PositionAutomaton.Proofs.CommandLine.Texts
