import FormBody.Decoder.Basic

/-!
Bodies that arrive in pieces: from a stream of chunks, each of which may fail, or from a reader that
is asked for a bounded number of bytes at a time. The limit on the whole body holds already while
the pieces are collected.
-/
namespace FormBody

/-- One item of a stream, or of what a reader has to give. -/
inductive Chunk where
  | bytes (content : Bytes)
  | failure (reason : String)
  deriving DecidableEq, Repr

namespace Source

/-- Collects the chunks behind those in `kept`, which hold `size` bytes and stand in reverse. -/
def collectFrom (limit : UInt64) (size : Nat) (kept : List Bytes) :
    List Chunk → Except DecodeError Bytes
  | [] => .ok kept.reverse.flatten
  | .failure reason :: _ => .error (.readFailed reason)
  | .bytes content :: rest =>
    if limit.toNat < size + content.length then .error (.bodyTooLarge limit)
    else collectFrom limit (size + content.length) (content :: kept) rest

/-- The bytes of all chunks, unless one fails or they grow beyond the limit before that. -/
def collect (limit : UInt64) (chunks : List Chunk) : Except DecodeError Bytes :=
  collectFrom limit 0 [] chunks

/-- Cuts bytes into non-empty pieces of at most `capacity` bytes, or of one byte if that is none. -/
def pieces (capacity : Nat) : Bytes → List Bytes
  | [] => []
  | b :: rest => (b :: rest.take (capacity - 1)) :: pieces capacity (rest.drop (capacity - 1))
termination_by content => content.length
decreasing_by simp only [List.length_drop, List.length_cons]; omega

/-- The stream that reading gives. A read that returns nothing is the end of the input, and so is a
failure. -/
def ofReader (capacity : Nat) : List Chunk → List Chunk
  | [] => []
  | .failure reason :: _ => [.failure reason]
  | .bytes content :: rest =>
    if content.isEmpty then []
    else (pieces capacity content).map .bytes ++ ofReader capacity rest

def readerCapacity : Nat := 4096

end Source

namespace Decoder

def decodeStream (d : Decoder) (chunks : List Chunk) : Logged Form :=
  (Logged.mk [] (Source.collect d.policy.sizes.wholeBody chunks)).andThen d.decode

def decodeReader (d : Decoder) (chunks : List Chunk) : Logged Form :=
  d.decodeStream (Source.ofReader Source.readerCapacity chunks)

end Decoder
end FormBody
