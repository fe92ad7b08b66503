/-! Faults of files and transports. -/

namespace RobotBlocks

inductive IoFault where
  | notFound
  | notDirectory
  | isDirectory
  | notText
  | noSpace
  | nameTooLong
  | unreachable
  | unresolved
  | badAddress
  | badPort
  | linkDropped
  | flushStalled
  | nothingTaken
  | other (text : String)
  deriving DecidableEq, Repr

def IoFault.message : IoFault → String
  | notFound => "No such file or directory (os error 2)"
  | notDirectory => "Not a directory (os error 20)"
  | isDirectory => "Is a directory (os error 21)"
  | notText => "stream did not contain valid UTF-8"
  | noSpace => "No space left on device (os error 28)"
  | nameTooLong => "File name too long (os error 36)"
  | unreachable => "Network is unreachable (os error 101)"
  | unresolved =>
    "failed to lookup address information: Temporary failure in name resolution"
  | badAddress => "invalid socket address"
  | badPort => "invalid port value"
  | linkDropped => "link dropped"
  | flushStalled => "flush stalled"
  | nothingTaken => "write zero"
  | other text => text

end RobotBlocks
