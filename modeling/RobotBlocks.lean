import RobotBlocks.CommandLine.World
import RobotBlocks.Link.Script
import RobotBlocks.Main
import RobotBlocks.Proofs.Assembly
import RobotBlocks.Proofs.Names
import RobotBlocks.Proofs.Recovery
import RobotBlocks.Proofs.Rounding
import RobotBlocks.Proofs.Simulation
import RobotBlocks.Proofs.Paths
import RobotBlocks.Proofs.Nesting
import RobotBlocks.Proofs.Sending
import RobotBlocks.Proofs.Schedule
import RobotBlocks.Proofs.Faults
import RobotBlocks.Proofs.Capture
import RobotBlocks.Proofs.Disassembly
import RobotBlocks.Proofs.Relocation
import RobotBlocks.Proofs.Outcome
import RobotBlocks.Proofs.Pruning
import RobotBlocks.Proofs.Reuse
import RobotBlocks.Proofs.Operands
import RobotBlocks.Proofs.Waiting
import RobotBlocks.Proofs.Accepted
import RobotBlocks.Proofs.Depth
import RobotBlocks.Proofs.Serialization
import RobotBlocks.Proofs.Malformed
import RobotBlocks.Proofs.Listed
import RobotBlocks.Proofs.Evaluation
import RobotBlocks.Proofs.Appending
import RobotBlocks.Proofs.Patching
