import Cirradio.HsmEngine

/-!
# The voice codec

Frames of audio go through the codec2 library, which keeps a state of its own. Both
directions take exactly one frame and throw on any other length.
-/

namespace Cirradio.Voice
open Security

/-- The codec2 calls of one mode. The frame sizes are C `int`s. -/
structure Codec2 (κ : Type) where
  create : κ
  samplesPerFrame : Int
  bytesPerFrame : Int
  encode : κ → List Int16 → κ × Bytes
  decode : κ → Bytes → κ × List Int16

/-- `static_cast<int>` of a size. -/
def intOfSize (n : ℕ) : Int := (BitVec.ofNat 32 n).toInt

structure VoiceCodec (κ : Type) where
  codec2 : κ

namespace VoiceCodec
variable {κ : Type} (lib : Codec2 κ)

def new : VoiceCodec κ := ⟨lib.create⟩

def encode (c : VoiceCodec κ) (samples : List Int16) : VoiceCodec κ × Throws Bytes :=
  if intOfSize samples.length ≠ lib.samplesPerFrame then
    (c, .error "Input sample count does not match frame size")
  else (⟨(lib.encode c.codec2 samples).1⟩, .ok (lib.encode c.codec2 samples).2)

def decode (c : VoiceCodec κ) (data : Bytes) : VoiceCodec κ × Throws (List Int16) :=
  if intOfSize data.length ≠ lib.bytesPerFrame then
    (c, .error "Input data size does not match expected frame bytes")
  else (⟨(lib.decode c.codec2 data).1⟩, .ok (lib.decode c.codec2 data).2)

end VoiceCodec
end Cirradio.Voice
