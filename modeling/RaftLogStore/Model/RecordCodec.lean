import RaftLogStore.Lib.Codec
import RaftLogStore.Model.Types

/-!
# The codec of records

An action is encoded as a type tag, its parts, and a checksum of both; a state as a version
byte and its five fields.  The codecs of the parts belong to the types of the application and
to `codeq`, and so does the checksum: they are the parameter `RecordCodecs`.
-/

namespace RaftLogStore

open ByteCodec

/-- The tag of a checkpoint record. -/
def checkpointRecordType : UInt32 := 5

/-- The codecs of the parts of a record, and the checksum. -/
structure RecordCodecs (T : Types) where
  vote : Codec T.Vote
  logId : Codec T.LogId
  logPayload : Codec T.LogPayload
  userData : Codec T.UserData
  option {α : Type} : Codec α → Codec (Option α)
  checksum : Checksum

variable {T : Types}

structure RecordCodecs.Lawful (C : RecordCodecs T) : Prop where
  vote : C.vote.Lawful
  logId : C.logId.Lawful
  logPayload : C.logPayload.Lawful
  userData : C.userData.Lawful
  option {α : Type} {c : Codec α} : c.Lawful → (C.option c).Lawful

namespace RaftLogAction

/-- The numeric type identifier for this action. -/
def recordType : RaftLogAction T → UInt32
  | .saveVote _ => 0
  | .append _ _ => 1
  | .commit _ => 2
  | .truncateAfter _ => 3
  | .purgeUpto _ => 4

def encodePayload (C : RecordCodecs T) : RaftLogAction T → Encoder ℕ
  | .saveVote vote => C.vote.encode vote
  | .append logId payload => do
      let n ← C.logId.encode logId
      let m ← C.logPayload.encode payload
      pure (n + m)
  | .commit logId => C.logId.encode logId
  | .truncateAfter logId => (C.option C.logId).encode logId
  | .purgeUpto logId => C.logId.encode logId

def decodePayload (C : RecordCodecs T) (recordType : UInt32) : Decoder (RaftLogAction T) :=
  match recordType with
  | 0 => do
      let vote ← C.vote.decode
      pure (.saveVote vote)
  | 1 => do
      let logId ← C.logId.decode
      let payload ← C.logPayload.decode
      pure (.append logId payload)
  | 2 => do
      let logId ← C.logId.decode
      pure (.commit logId)
  | 3 => do
      let logId ← (C.option C.logId).decode
      pure (.truncateAfter logId)
  | 4 => do
      let logId ← C.logId.decode
      pure (.purgeUpto logId)
  | _ => throw ⟨.invalidData, s!"Unknown record type: {recordType}"⟩

def encode (C : RecordCodecs T) (action : RaftLogAction T) : Encoder ℕ := do
  let start ← get
  let typ := action.recordType
  if typ = checkpointRecordType then
    throw ⟨.invalidInput,
      s!"Action record type {checkpointRecordType} is reserved for checkpoint"⟩
  let n ← u32.encode typ
  let m ← action.encodePayload C
  let k ← C.checksum.writeChecksum start
  pure (n + m + k)

def decode (C : RecordCodecs T) : Decoder (RaftLogAction T) := do
  let start ← get
  let recordType ← u32.decode
  let rec ← decodePayload C recordType
  C.checksum.verifyChecksum start "Record::decode()"
  pure rec

def codec (C : RecordCodecs T) : Codec (RaftLogAction T) := ⟨encode C, decode C⟩

end RaftLogAction

namespace RaftLogState

def encode (C : RecordCodecs T) (st : RaftLogState T) : Encoder ℕ := do
  let ver : UInt8 := 1
  let n₀ ← u8.encode ver
  let n₁ ← (C.option C.vote).encode st.vote
  let n₂ ← (C.option C.logId).encode st.last
  let n₃ ← (C.option C.logId).encode st.committed
  let n₄ ← (C.option C.logId).encode st.purged
  let n₅ ← (C.option C.userData).encode st.userData
  pure (n₀ + n₁ + n₂ + n₃ + n₄ + n₅)

/-- The fields of a state, in the layout of version `ver`. -/
def decodeFields (C : RecordCodecs T) (ver : UInt8) : Decoder (RaftLogState T) :=
  match ver with
  | 1 => do
      let vote ← (C.option C.vote).decode
      let last ← (C.option C.logId).decode
      let committed ← (C.option C.logId).decode
      let purged ← (C.option C.logId).decode
      let userData ← (C.option C.userData).decode
      pure ⟨vote, last, committed, purged, userData⟩
  | _ => throw ⟨.invalidData, s!"Unsupported RaftLogState version: {ver}"⟩

def decode (C : RecordCodecs T) : Decoder (RaftLogState T) := do
  let ver ← u8.decode
  decodeFields C ver

def codec (C : RecordCodecs T) : Codec (RaftLogState T) := ⟨encode C, decode C⟩

end RaftLogState

end RaftLogStore
