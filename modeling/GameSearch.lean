import GameSearch.Main
import GameSearch.Recording.Playback
import GameSearch.Proofs.Score.Order
import GameSearch.Proofs.Score.Rounding
import GameSearch.Proofs.Score.Negation
import GameSearch.Proofs.Score.Overflow
import GameSearch.Proofs.Decimal.Nearness
import GameSearch.Proofs.Json.Strings
import GameSearch.Proofs.Json.Numbers
import GameSearch.Proofs.Json.Doubles
import GameSearch.Proofs.Json.Grammar
import GameSearch.Proofs.Json.Skipping
import GameSearch.Proofs.Json.Passing
import GameSearch.Proofs.Json.Objects
import GameSearch.Proofs.Json.Records
import GameSearch.Proofs.Tree.Ancestry
import GameSearch.Proofs.Tree.WellFormed
import GameSearch.Proofs.Tree.Subtree
import GameSearch.Proofs.Tree.Positions
import GameSearch.Proofs.Tree.Faults
import GameSearch.Proofs.Tree.Entry
import GameSearch.Proofs.Tree.Acceptance
import GameSearch.Proofs.Tree.Representation
import GameSearch.Proofs.Tree.Preorder
import GameSearch.Proofs.Tree.Walks
import GameSearch.Proofs.Tree.Document
import GameSearch.Proofs.Sink.Hearing
import GameSearch.Proofs.Sink.FanOut
import GameSearch.Proofs.Recording.Capacity
import GameSearch.Proofs.Recording.Playback
import GameSearch.Proofs.Recording.Lines
import GameSearch.Proofs.Minimax.Traversal
import GameSearch.Proofs.Minimax.Side
import GameSearch.Proofs.Minimax.Value
import GameSearch.Proofs.Minimax.Plain
import GameSearch.Proofs.Tree.Mirror
import GameSearch.Proofs.Minimax.Mirror
import GameSearch.Proofs.Minimax.Visit
import GameSearch.Proofs.Minimax.FailSoft
import GameSearch.Proofs.Minimax.Table
import GameSearch.Proofs.Minimax.Principal
import GameSearch.Proofs.Minimax.Cuts
import GameSearch.Proofs.Minimax.Coverage
import GameSearch.Proofs.Minimax.Report
import GameSearch.Proofs.Minimax.Irrelevance
import GameSearch.Proofs.Minimax.Threading
import GameSearch.Proofs.Minimax.EmptyWindow
import GameSearch.Proofs.Minimax.Narrowing
import GameSearch.Proofs.Minimax.Retelling
import GameSearch.Proofs.Minimax.Audience
import GameSearch.Proofs.Minimax.Replay
import GameSearch.Proofs.Minimax.BestLine
import GameSearch.Proofs.Minimax.Refusal
import GameSearch.Proofs.Mcts.Ucb
import GameSearch.Proofs.Mcts.Counters
import GameSearch.Proofs.Mcts.Selection
import GameSearch.Proofs.Mcts.Lockstep
import GameSearch.Proofs.Mcts.Operations
import GameSearch.Proofs.Config
import GameSearch.Proofs.Mcts.Conservation
import GameSearch.Proofs.Mcts.Ledger
import GameSearch.Proofs.Mcts.Audience
import GameSearch.Proofs.Mcts.Runs
import GameSearch.Proofs.Mcts.Recommendation
import GameSearch.Proofs.Mcts.BestChild
import GameSearch.Proofs.Mcts.Walk
import GameSearch.Proofs.SideChannel
import GameSearch.Proofs.Mcts.KeptScores
import GameSearch.Proofs.Mcts.Chronicle
import GameSearch.Proofs.Mcts.Iteration
import GameSearch.Proofs.Mcts.Unrolling
