/-!
# Faults of a connection

A `Fault` is what connecting, reading, writing or setting a timeout can fail with: a kind, on
which the program decides (`isTimeout`, `isInterruption`), and a text, which it passes on. Faults
that the operating system reports by number have the system's text and that number.
-/

namespace FramedRelay

/-- The kinds of fault. -/
inductive FaultKind
  | addressInUse | addressNotAvailable | alreadyExists | argumentListTooLong | brokenPipe
  | connectionAborted | connectionRefused | connectionReset | crossesDevices | deadlock
  | directoryNotEmpty | executableFileBusy | fileTooLarge | hostUnreachable | interrupted
  | invalidData | invalidFilename | invalidInput | isADirectory | networkDown
  | networkUnreachable | notADirectory | notConnected | notFound | notSeekable | other
  | outOfMemory | permissionDenied | quotaExceeded | readOnlyFilesystem | resourceBusy
  | staleNetworkFileHandle | storageFull | timedOut | tooManyLinks | uncategorized
  | unexpectedEnd | unsupported | wouldBlock | writeZero
  deriving DecidableEq, Repr

/-- The text of a kind, for faults that have none of their own. -/
def FaultKind.text : FaultKind → String
  | .addressInUse => "address in use"
  | .addressNotAvailable => "address not available"
  | .alreadyExists => "entity already exists"
  | .argumentListTooLong => "argument list too long"
  | .brokenPipe => "broken pipe"
  | .connectionAborted => "connection aborted"
  | .connectionRefused => "connection refused"
  | .connectionReset => "connection reset"
  | .crossesDevices => "cross-device link or rename"
  | .deadlock => "deadlock"
  | .directoryNotEmpty => "directory not empty"
  | .executableFileBusy => "executable file busy"
  | .fileTooLarge => "file too large"
  | .hostUnreachable => "host unreachable"
  | .interrupted => "operation interrupted"
  | .invalidData => "invalid data"
  | .invalidFilename => "invalid filename"
  | .invalidInput => "invalid input parameter"
  | .isADirectory => "is a directory"
  | .networkDown => "network down"
  | .networkUnreachable => "network unreachable"
  | .notADirectory => "not a directory"
  | .notConnected => "not connected"
  | .notFound => "entity not found"
  | .notSeekable => "seek on unseekable file"
  | .other => "other error"
  | .outOfMemory => "out of memory"
  | .permissionDenied => "permission denied"
  | .quotaExceeded => "quota exceeded"
  | .readOnlyFilesystem => "read-only filesystem or storage medium"
  | .resourceBusy => "resource busy"
  | .staleNetworkFileHandle => "stale network file handle"
  | .storageFull => "no storage space"
  | .timedOut => "timed out"
  | .tooManyLinks => "too many links"
  | .uncategorized => "uncategorized error"
  | .unexpectedEnd => "unexpected end of file"
  | .unsupported => "unsupported"
  | .wouldBlock => "operation would block"
  | .writeZero => "write zero"

/-- A failed operation on a connection. -/
structure Fault where
  kind : FaultKind
  text : String
  deriving DecidableEq, Repr

namespace Fault

/-- The fault of a kind with the kind's own text. -/
def ofKind (kind : FaultKind) : Fault := ⟨kind, kind.text⟩

/-- The system's errors: number, kind and text. -/
def systemErrors : List (Nat × FaultKind × String) :=
  [(1, .permissionDenied, "Operation not permitted"),
   (4, .interrupted, "Interrupted system call"),
   (5, .uncategorized, "Input/output error"),
   (9, .uncategorized, "Bad file descriptor"),
   (11, .wouldBlock, "Resource temporarily unavailable"),
   (12, .outOfMemory, "Cannot allocate memory"),
   (13, .permissionDenied, "Permission denied"),
   (22, .invalidInput, "Invalid argument"),
   (32, .brokenPipe, "Broken pipe"),
   (97, .uncategorized, "Address family not supported by protocol"),
   (98, .addressInUse, "Address already in use"),
   (99, .addressNotAvailable, "Cannot assign requested address"),
   (100, .networkDown, "Network is down"),
   (101, .networkUnreachable, "Network is unreachable"),
   (103, .connectionAborted, "Software caused connection abort"),
   (104, .connectionReset, "Connection reset by peer"),
   (107, .notConnected, "Transport endpoint is not connected"),
   (110, .timedOut, "Connection timed out"),
   (111, .connectionRefused, "Connection refused"),
   (113, .hostUnreachable, "No route to host")]

/-- The fault that the system reports by a number. -/
def ofSystem (number : Nat) : Fault :=
  match systemErrors.find? (·.1 == number) with
  | some (_, kind, text) => ⟨kind, text ++ " (os error " ++ toString number ++ ")"⟩
  | none => ⟨.uncategorized,
      "Unknown error " ++ toString number ++ " (os error " ++ toString number ++ ")"⟩

/-- The operation did not finish in the time allowed. -/
def isTimeout (f : Fault) : Bool :=
  f.kind == .wouldBlock || f.kind == .timedOut

/-- The operation did nothing and may be tried again. -/
def isInterruption (f : Fault) : Bool :=
  f.kind == .interrupted

end Fault

end FramedRelay
