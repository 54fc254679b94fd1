import ArrayCommand.Main
import ArrayCommand.Proofs.Addressing
import ArrayCommand.Proofs.Advance
import ArrayCommand.Proofs.Assignment
import ArrayCommand.Proofs.Exactness
import ArrayCommand.Proofs.Expansion
import ArrayCommand.Proofs.Forwarding
import ArrayCommand.Proofs.Grammar
import ArrayCommand.Proofs.Handles
import ArrayCommand.Proofs.Leftovers
import ArrayCommand.Proofs.Literals
import ArrayCommand.Proofs.Lookahead
import ArrayCommand.Proofs.MinimumMatch
import ArrayCommand.Proofs.Parameters
import ArrayCommand.Proofs.Progress
import ArrayCommand.Proofs.Ranks
import ArrayCommand.Proofs.Registration
import ArrayCommand.Proofs.Relocation
import ArrayCommand.Proofs.Rounds
import ArrayCommand.Proofs.Tiling
