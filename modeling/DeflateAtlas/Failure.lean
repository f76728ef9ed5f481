/-!
# Failures

Everything that can go wrong while locating deflate data has one cause here.
A cause belongs to one of ten kinds, which callers can tell apart and which
also serve as process exit statuses, and it has one wording.  Causes that come
from the surroundings of the program (the operating system, a file that ends
early) have a kind but no wording of their own.
-/

namespace DeflateAtlas

/-- The kinds of failure that a caller can tell apart. -/
inductive FailureKind
  /-- A zlib header breaks RFC 1950. -/
  | invalidZlibHeader
  /-- A gzip member header breaks RFC 1952. -/
  | invalidGzipHeader
  /-- An extent or an offset lies outside of the data. -/
  | outOfBounds
  /-- The puff transform found corrupt deflate data. -/
  | invalidDeflate
  /-- The inflate probe could not decode the data. -/
  | inflateFailed
  /-- A condition that should hold afterwards does not hold. -/
  | consistencyCheck
  /-- The caller broke a precondition. -/
  | invalidParameter
  /-- The stream was already closed. -/
  | streamClosed
  /-- The data ended before the value that was asked for. -/
  | shortRead
  /-- The operating system refused. -/
  | osError
  deriving DecidableEq, Repr

namespace FailureKind

/-- The name under which a kind is reported. -/
def name : FailureKind → String
  | .invalidZlibHeader => "InvalidZlibHeader"
  | .invalidGzipHeader => "InvalidGzipHeader"
  | .outOfBounds => "OutOfBounds"
  | .invalidDeflate => "InvalidDeflate"
  | .inflateFailed => "InflateFailed"
  | .consistencyCheck => "ConsistencyCheck"
  | .invalidParameter => "InvalidParameter"
  | .streamClosed => "StreamClosed"
  | .shortRead => "ShortRead"
  | .osError => "OsError"

/-- The process exit status that stands for a kind; 0 and 2 are never used. -/
def exitStatus : FailureKind → Nat
  | .invalidZlibHeader => 1
  | .invalidGzipHeader => 3
  | .outOfBounds => 4
  | .invalidDeflate => 5
  | .inflateFailed => 6
  | .consistencyCheck => 7
  | .invalidParameter => 8
  | .streamClosed => 9
  | .shortRead => 16
  | .osError => 17

/-- All kinds, in the order of their exit statuses. -/
def all : List FailureKind :=
  [.invalidZlibHeader, .invalidGzipHeader, .outOfBounds, .invalidDeflate, .inflateFailed,
    .consistencyCheck, .invalidParameter, .streamClosed, .shortRead, .osError]

/-- The kind reported under a name. -/
def ofName? (text : String) : Option FailureKind :=
  all.find? fun kind => kind.name == text

theorem mem_all (kind : FailureKind) : kind ∈ all := by
  cases kind <;> decide

theorem exitStatus_injective {first second : FailureKind}
    (same : first.exitStatus = second.exitStatus) : first = second := by
  cases first <;> cases second <;> simp_all [exitStatus]

end FailureKind

/-- What went wrong. -/
inductive Failure
  /-- A bit source holds fewer bits than were asked for. -/
  | endOfBits
  /-- A skip reaches beyond the end of a bit source. -/
  | skipPastEnd
  /-- More than 32 bits were asked for at once. -/
  | readTooWide
  /-- A block has the reserved type 3. -/
  | invalidBlockType
  /-- The two lengths of a stored block are not complements of each other. -/
  | storedLengthMismatch
  /-- A stored block is longer than the rest of the data. -/
  | storedPastEnd
  /-- A code length exceeds 15. -/
  | codeLengthTooLong
  /-- The code lengths describe more codes than there is room for. -/
  | overSubscribedCode
  /-- The code lengths leave room for further codes. -/
  | incompleteCode
  /-- Fifteen bits were read and no code was met. -/
  | unassignedCode
  /-- A decoding table knows a code but not its symbol. -/
  | codeWithoutSymbol
  /-- A dynamic table announces more than 286 literal or 30 distance codes. -/
  | tooManyCodes
  /-- The first entry of a dynamic table repeats a length. -/
  | repeatWithoutPrevious
  /-- A dynamic table uses a symbol above 18. -/
  | invalidCodeLengthSymbol
  /-- The entries of a dynamic table cover more lengths than announced. -/
  | codeLengthOverrun
  /-- A dynamic table has no code for the end of the block. -/
  | missingEndOfBlock
  /-- Literal symbol 286 or 287. -/
  | invalidLengthCode
  /-- Distance symbol 30 or 31. -/
  | invalidDistanceCode
  /-- A probe was asked to start at or after the end of the data. -/
  | probeStartPastEnd
  /-- The data ended before the final block did. -/
  | deflateTruncated
  /-- The deflate data that begins at byte `start` is invalid. -/
  | deflateCorrupt (start : Nat)
  /-- A buffer stream was used after it was closed. -/
  | bufferClosed
  /-- A seek reaches beyond a buffer stream. -/
  | bufferSeekPastEnd
  /-- A read reaches beyond a buffer stream. -/
  | bufferReadPastEnd
  /-- A write to a buffer stream that only reads. -/
  | bufferReadOnly
  /-- A file stream was used after it was closed. -/
  | fileClosed
  /-- A seek reaches beyond a file stream. -/
  | fileSeekPastEnd
  /-- A file stream was to be opened for neither reading nor writing. -/
  | fileAccessMissing
  /-- A file ended before the bytes that were asked for. -/
  | fileEnded
  /-- The file to be opened does not exist. -/
  | fileMissing
  /-- A read from a file that was opened for writing only. -/
  | fileNotReadable
  /-- A write to a file that was opened for reading only. -/
  | fileNotWritable
  /-- A deflate extent ends after the end of its stream. -/
  | deflateExtentPastEnd
  /-- A deflate extent begins before the end of the previous one. -/
  | deflatesOverlap
  /-- The blocks in a byte extent end after `bits` bits and not where the extent ends. -/
  | extentNotConsumed (offset length bits : Nat)
  /-- The blocks in a bit extent end after `bytes` bytes and not in byte `expected`. -/
  | extentEndsElsewhere (offset length bytes expected : Nat)
  /-- A puff would begin before the start of the puff stream. -/
  | negativePuffOffset
  /-- The puff stream would have a negative size. -/
  | negativePuffSize
  /-- A zlib extent ends after the end of its stream. -/
  | zlibExtentPastEnd
  /-- A zlib extent has no room for its header and its trailer. -/
  | zlibExtentTooShort
  /-- A zlib header names a compression method other than 8 and 15. -/
  | zlibMethod (method : Nat)
  /-- A zlib header names a window of more than 32 KiB. -/
  | zlibWindow (window : Nat)
  /-- The two header bytes are not a multiple of 31. -/
  | zlibCheck
  /-- A zip local file header needs 30 bytes. -/
  | zipHeaderEnded
  /-- The data ended inside a gzip member header. -/
  | gzipHeaderEnded
  /-- A gzip member does not begin with 1f 8b. -/
  | gzipMagic
  /-- A gzip member uses a compression method other than 8. -/
  | gzipMethod
  /-- The data ended inside the eight bytes after a gzip payload. -/
  | gzipTrailerEnded
  /-- A failure reported by a transform or a probe that the caller supplied. -/
  | reported (kind : FailureKind) (text : String)
  deriving DecidableEq, Repr

namespace Failure

/-- The kind of failure a cause belongs to. -/
def kind : Failure → FailureKind
  | .endOfBits | .skipPastEnd | .storedPastEnd | .bufferReadPastEnd | .fileEnded
  | .zipHeaderEnded => .shortRead
  | .readTooWide | .bufferReadOnly | .fileAccessMissing | .deflatesOverlap => .invalidParameter
  | .invalidBlockType | .storedLengthMismatch | .codeLengthTooLong | .overSubscribedCode
  | .incompleteCode | .unassignedCode | .tooManyCodes | .repeatWithoutPrevious
  | .invalidCodeLengthSymbol | .codeLengthOverrun | .missingEndOfBlock | .invalidLengthCode
  | .invalidDistanceCode => .invalidDeflate
  | .codeWithoutSymbol | .extentNotConsumed .. | .extentEndsElsewhere .. | .negativePuffOffset
  | .negativePuffSize => .consistencyCheck
  | .probeStartPastEnd | .bufferSeekPastEnd | .fileSeekPastEnd | .deflateExtentPastEnd
  | .zlibExtentPastEnd | .zlibExtentTooShort | .gzipTrailerEnded => .outOfBounds
  | .deflateTruncated | .deflateCorrupt _ => .inflateFailed
  | .bufferClosed | .fileClosed => .streamClosed
  | .fileMissing | .fileNotReadable | .fileNotWritable => .osError
  | .zlibMethod _ | .zlibWindow _ | .zlibCheck => .invalidZlibHeader
  | .gzipHeaderEnded | .gzipMagic | .gzipMethod => .invalidGzipHeader
  | .reported kind _ => kind

/-- The wording of a cause; causes from the surroundings of the program have none. -/
def message? : Failure → Option String
  | .endOfBits => some "BitReader: end of buffer"
  | .skipPastEnd => some "BitReader: skip past end of buffer"
  | .readTooWide => some "BitReader Error: Attempt to read more than 32 bits"
  | .invalidBlockType => some "Invalid block type"
  | .storedLengthMismatch => some "Block length mismatch"
  | .storedPastEnd => some "Stored block past end of data"
  | .codeLengthTooLong => some "Invalid Huffman code length"
  | .overSubscribedCode => some "Over-subscribed Huffman code"
  | .incompleteCode => some "Incomplete Huffman code"
  | .unassignedCode => some "Invalid Huffman code"
  | .codeWithoutSymbol => some "Huffman code without a symbol"
  | .tooManyCodes => some "Too many length or distance codes"
  | .repeatWithoutPrevious => some "Repeat code without previous length"
  | .invalidCodeLengthSymbol => some "Invalid code length symbol"
  | .codeLengthOverrun => some "Code lengths overrun the literal and distance counts"
  | .missingEndOfBlock => some "Missing end of block code"
  | .invalidLengthCode => some "Invalid length code"
  | .invalidDistanceCode => some "Invalid distance code"
  | .probeStartPastEnd => some "deflate start is past the end of the data"
  | .deflateTruncated => some "deflate stream ended before the final block"
  | .deflateCorrupt _ => some "inflate failed"
  | .bufferClosed => some "memory stream is closed"
  | .bufferSeekPastEnd => some "seek past end of memory stream"
  | .bufferReadPastEnd => some "read past end of memory stream"
  | .bufferReadOnly => some "memory stream is read-only"
  | .fileClosed => some "file stream is closed"
  | .fileSeekPastEnd => some "seek past end of file stream"
  | .fileAccessMissing => some "file stream must be opened for read or write"
  | .fileEnded | .fileMissing | .fileNotReadable | .fileNotWritable | .zipHeaderEnded => none
  | .deflateExtentPastEnd => some "deflate extent runs past the end of the stream"
  | .deflatesOverlap => some "deflates have to be ordered and not overlap"
  | .extentNotConsumed .. => some "deflate stream did not consume the whole extent"
  | .extentEndsElsewhere .. => some "deflate did not end in the last byte of its extent"
  | .negativePuffOffset => some "negative puff offset"
  | .negativePuffSize => some "negative puff stream size"
  | .zlibExtentPastEnd => some "zlib extent runs past the end of the stream"
  | .zlibExtentTooShort => some "zlib extent too short for header and trailer"
  | .zlibMethod _ => some "invalid compression method"
  | .zlibWindow _ => some "window size too large"
  | .zlibCheck => some "header check bits mismatch"
  | .gzipHeaderEnded => some "truncated gzip header"
  | .gzipMagic => some "missing gzip magic"
  | .gzipMethod => some "Unsupported compression method"
  | .gzipTrailerEnded => some "gzip trailer past end of data"
  | .reported _ text => some text

/-- A failure as one line: its kind and, where there is one, its wording. -/
def text (failure : Failure) : String :=
  match failure.message? with
  | some wording => s!"{failure.kind.name}: {wording}"
  | none => failure.kind.name

end Failure

end DeflateAtlas
