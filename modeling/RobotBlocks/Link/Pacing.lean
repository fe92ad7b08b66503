import RobotBlocks.Json.Container
import RobotBlocks.Json.Writer

/-! Pauses between packets, and how often progress is reported. -/

namespace RobotBlocks

/-- Pauses in milliseconds: `settle` after the first and the last packet of an upload, `interPacket`
after each chunk. Progress is reported every `progressEvery` chunks, and on the last one. -/
structure Pacing where
  settle : Nat
  interPacket : Nat
  progressEvery : Nat
  deriving DecidableEq, Repr

namespace Pacing

open Json

def default : Pacing := ⟨60, 30, 5⟩

/-- Whether chunk number `index` of `total` is reported as progress. -/
def reports (p : Pacing) (index total : Nat) : Bool :=
  index == total || (p.progressEvery != 0 && index % p.progressEvery == 0)

def read (bound : Nat) : Reader Pacing :=
  Reader.record bound
    [ .of "settle_ms" (Reader.natural UInt64.size) fun n p => { p with settle := n },
      .of "inter_packet_ms" (Reader.natural UInt64.size) fun n p => { p with interPacket := n },
      .of "progress_every" (Reader.natural UInt64.size) fun n p => { p with progressEvery := n } ]
    [] default

def parse (text : String) : Except Fault Pacing := Reader.parse read text

def toJson (p : Pacing) : String :=
  String.ofList (Writer.object [Writer.member "settle_ms" (Writer.natural p.settle),
    Writer.member "inter_packet_ms" (Writer.natural p.interPacket),
    Writer.member "progress_every" (Writer.natural p.progressEvery)])

end Pacing

end RobotBlocks
