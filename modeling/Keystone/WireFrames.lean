import Keystone.ByteCodecs
import Keystone.InterruptedReads
import Keystone.StorageInternalKey

/-! # The frames of the gRPC and WebSocket connections

Both loops wait for a frame or a Flux event, and give the frame up for the event. -/
namespace WireFrames

open ByteCodecs GuardedRuns InterruptedReads StorageInternalKey

structure Frame where
  frameType : UInt8
  flags : UInt8
  streamId : ℕ
  payload : Bytes
  deriving DecidableEq

def Frame.flag (f : Frame) (flag : UInt8) : Bool := f.flags &&& flag ≠ 0

/-- `http2::read_frame`: nine bytes of header, then the payload. -/
def readFrame (bytes : Bytes) : Status Frame :=
  let len := decodeBE (bytes.take 3)
  if bytes.length < 9 then .more
  else if 16 * 1024 * 1024 < len then .fail
  else if bytes.length < 9 + len then .more
  else .frame
    { frameType := bytes.getD 3 0
      flags := bytes.getD 4 0
      streamId := decodeBE ((bytes.drop 5).take 4) % 2 ^ 31
      payload := (bytes.drop 9).take len }

/-- The handlers of frames may end a connection too, which is not part of the framing. -/
def grpcLoop : Framing UInt8 Frame := ⟨readFrame, fun _ => false⟩

inductive WsFrame where
  | text (text : Bytes)
  | ignored
  | close
  deriving DecidableEq

def unmask (key payload : Bytes) : Bytes := payload.mapIdx fun i b => b ^^^ key.getD (i % 4) 0

/-- `websocket::read_frame`: a length of 126 or 127 stands for two or eight bytes of length; a
buffer of 2⁶³ bytes cannot be allocated. -/
def wsReadFrame : Bytes → Status WsFrame
  | b₀ :: b₁ :: rest =>
    let short := b₁.toNat % 128
    let ext := if short = 126 then 2 else if short = 127 then 8 else 0
    let len := if ext = 0 then short else decodeBE (rest.take ext)
    let mask := if b₁ < 0x80 then 0 else 4
    let payload := (rest.drop (ext + mask)).take len
    if b₀ < 0x80 then .fail
    else if rest.length < ext + mask then .more
    else if 2 ^ 63 ≤ len then .fail
    else if rest.length < ext + mask + len then .more
    else match b₀ &&& 0x0F with
      | 0x1 =>
        .frame (.text (fromUtf8Lossy (if mask = 0 then payload
          else unmask (rest.drop ext) payload)))
      | 0x8 => .frame .close
      | _ => .frame .ignored
  | _ => .more

def webSocketLoop : Framing UInt8 WsFrame := ⟨wsReadFrame, (· = .close)⟩

end WireFrames
