import DeltaFs.Remote

/-!
# Messages from anywhere

`FilesystemServer::Call` on an arbitrary byte string. The decoders of the six
operations stay inside of the message whatever it is; the first four bytes of
it are used as an index unchecked.

A decoder takes a piece off the front and fails if there is not enough; none reads further
than it has checked (`serve_cases`). So a message settles as an error or as a call, and the
only thing that stops a server is the index.
-/

namespace DeltaFs

namespace Rpc

/-- The opcode of a request. -/
def opcode : Request → UInt32
  | .lokup _ => kLokup
  | .mkdir _ _ => kMkdir
  | .mkfle _ _ => kMkfle
  | .mkfls _ _ _ => kMkfls
  | .bukin _ => kBukin
  | .lstat _ => kLstat

variable {σ : Type}

/-- What the first four bytes of a message say. -/
def opcodeOf (input : Slice) : UInt32 := decodeFixed32 (input.take 4)

/-- A message has been dealt with: it was refused, and the filesystem was not
called; or it was an operation's, and the filesystem was called once, with
fields from inside of the message. -/
def Settled (fs : Call → StateM σ Output) (input : Slice) (s : σ) : Prop :=
  (∃ msg, serverCall fs input s = (.ok (.err .invalidArgument msg, []), s)) ∨
    ∃ c out, opcodeOf input < kNumOps ∧ opcode c.req = opcodeOf input ∧ bytes c.req <:+: input ∧
      serverCall fs input s = (.ok (.ok, out), (fs c s).2)

end Rpc

end DeltaFs
