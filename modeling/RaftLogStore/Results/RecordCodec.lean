import RaftLogStore.Model.RecordCodec
import RaftLogStore.Model.Simulation

/-!
# Encoding and decoding records

The codec of actions and the codec of states are lawful if the codecs of their parts are.  The
proof gives the format of each decoder: the tag, the bytes that `encode_payload` writes, and
the checksum of both; or the version and the five fields.
-/

namespace RaftLogStore

open ByteCodec

variable {T : Types} {C : RecordCodecs T}

namespace RaftLogAction

theorem recordType_ne_checkpoint (action : RaftLogAction T) :
    action.recordType ≠ checkpointRecordType := by
  cases action <;> exact of_decide_eq_true rfl

/-- The bytes of the tag. -/
def tagBytes (recordType : UInt32) : Bytes := beBytes 4 recordType.toNat

theorem writes_payload (hC : C.Lawful) (action : RaftLogAction T) :
    ∃ p, Writes (action.encodePayload C) p := by
  cases action with
  | saveVote vote => exact hC.vote.total vote
  | append logId payload =>
      obtain ⟨u, hu⟩ := hC.logId.total logId
      obtain ⟨v, hv⟩ := hC.logPayload.total payload
      exact ⟨u ++ v, hu.add hv⟩
  | commit logId => exact hC.logId.total logId
  | truncateAfter logId => exact (hC.option hC.logId).total logId
  | purgeUpto logId => exact hC.logId.total logId

/-- What `encode` writes. -/
theorem writes_encode {action : RaftLogAction T} {p : Bytes}
    (hp : Writes (action.encodePayload C) p) :
    Writes (action.encode C) (tagBytes action.recordType ++ p ++
      beBytes 8 (C.checksum.sum (tagBytes action.recordType ++ p)).toNat) := by
  intro buffer
  have htag := writes_u32 action.recordType
  have hsum := C.checksum.run_writeChecksum buffer (tagBytes action.recordType ++ p)
  have hrun : (action.encode C).run buffer = (do
      let n ← u32.encode action.recordType
      let m ← action.encodePayload C
      let k ← C.checksum.writeChecksum buffer
      pure (n + m + k) : Encoder ℕ).run buffer := by
    simp only [encode, if_neg (recordType_ne_checkpoint action)]
    rfl
  rw [hrun, htag.run_bind, hp.run_bind, StateT.run_bind, List.append_assoc buffer]
  show (C.checksum.writeChecksum buffer).run (buffer ++ (tagBytes action.recordType ++ p)) >>= _ = _
  rw [hsum]
  simp only [List.length_append, length_beBytes, tagBytes, List.append_assoc]
  rfl

/-- A part that is decoded as the payload of the actions of one tag. -/
theorem decodes_part {α : Type} {c : Codec α} (hc : c.Lawful) {f : α → RaftLogAction T}
    {recordType : UInt32} (htype : ∀ x, (f x).recordType = recordType)
    (hencode : ∀ x, (f x).encodePayload C = c.encode x)
    (honly : ∀ action : RaftLogAction T, action.recordType = recordType → ∃ x, action = f x) :
    Decodes (do let x ← c.decode; pure (f x)) fun action w =>
      action.recordType = recordType ∧ Writes (action.encodePayload C) w := by
  refine hc.decodes.map.congr fun action w => ?_
  constructor
  · rintro ⟨x, hw, rfl⟩
    exact ⟨htype x, hencode x ▸ hw⟩
  · rintro ⟨haction, hw⟩
    obtain ⟨x, rfl⟩ := honly action haction
    exact ⟨x, hencode x ▸ hw, rfl⟩

/-- The decoder of the payload reads what is written for the actions of its tag, and nothing for
any other tag. -/
theorem decodes_payload (hC : C.Lawful) (recordType : UInt32) :
    Decodes (decodePayload C recordType) fun action w =>
      action.recordType = recordType ∧ Writes (action.encodePayload C) w := by
  unfold decodePayload
  split
  · refine decodes_part hC.vote (fun _ => rfl) (fun _ => rfl) fun action h => ?_
    cases action with
    | saveVote vote => exact ⟨vote, rfl⟩
    | _ => exact absurd h (of_decide_eq_true rfl)
  · refine (hC.logId.decodes.bind fun logId => hC.logPayload.decodes.map).congr fun action w => ?_
    constructor
    · rintro ⟨logId, u, v, hu, ⟨payload, hv, rfl⟩, rfl⟩
      exact ⟨rfl, hu.add hv⟩
    · rintro ⟨haction, hw⟩
      cases action with
      | append logId payload =>
          obtain ⟨u, hu⟩ := hC.logId.total logId
          obtain ⟨v, hv⟩ := hC.logPayload.total payload
          exact ⟨logId, u, v, hu, ⟨payload, hv, rfl⟩, hw.unique (hu.add hv)⟩
      | _ => exact absurd haction (of_decide_eq_true rfl)
  · refine decodes_part hC.logId (fun _ => rfl) (fun _ => rfl) fun action h => ?_
    cases action with
    | commit logId => exact ⟨logId, rfl⟩
    | _ => exact absurd h (of_decide_eq_true rfl)
  · refine decodes_part (hC.option hC.logId) (fun _ => rfl) (fun _ => rfl) fun action h => ?_
    cases action with
    | truncateAfter logId => exact ⟨logId, rfl⟩
    | _ => exact absurd h (of_decide_eq_true rfl)
  · refine decodes_part hC.logId (fun _ => rfl) (fun _ => rfl) fun action h => ?_
    cases action with
    | purgeUpto logId => exact ⟨logId, rfl⟩
    | _ => exact absurd h (of_decide_eq_true rfl)
  · next h₀ h₁ h₂ h₃ h₄ =>
    refine (decodes_throw _).congr fun action w => iff_of_false id ?_
    rintro ⟨rfl, -⟩
    cases action with
    | saveVote vote => exact h₀ rfl
    | append logId payload => exact h₁ rfl
    | commit logId => exact h₂ rfl
    | truncateAfter logId => exact h₃ rfl
    | purgeUpto logId => exact h₄ rfl

theorem codec_lawful (hC : C.Lawful) : (codec C).Lawful := by
  have htotal (action : RaftLogAction T) : ∃ w, Writes (action.encode C) w := by
    obtain ⟨p, hp⟩ := writes_payload hC action
    exact ⟨_, writes_encode hp⟩
  refine Codec.lawful_of_decodes htotal ?_
  have hbody := u32_lawful.decodes.bind fun recordType => decodes_payload hC recordType
  have hdecode : (codec C).decode = (do
      let start ← get
      let action ← u32.decode >>= decodePayload C
      C.checksum.verifyChecksum start "Record::decode()"
      pure action) := by
    simp only [codec, decode, bind_assoc]
  rw [hdecode]
  refine (C.checksum.decodes_verified hbody "Record::decode()").congr fun action w => ?_
  constructor
  · rintro ⟨body, ⟨recordType, u, p, hu, ⟨rfl, hp⟩, rfl⟩, rfl⟩
    obtain rfl := hu.unique (writes_u32 _)
    exact writes_encode hp
  · intro hw
    obtain ⟨p, hp⟩ := writes_payload hC action
    exact ⟨_, ⟨_, _, p, writes_u32 _, ⟨rfl, hp⟩, rfl⟩, hw.unique (writes_encode hp)⟩

/-- The first four bytes of an encoding are the tag of the action. -/
theorem decode_tag {action : RaftLogAction T} {w : Bytes} (hC : C.Lawful)
    (hw : Writes (action.encode C) w) :
    ∃ rest, u32.decode.run w = .ok (action.recordType, rest) := by
  obtain ⟨p, hp⟩ := writes_payload hC action
  obtain rfl := hw.unique (writes_encode hp)
  rw [List.append_assoc]
  exact ⟨_, u32_lawful.roundTrip (writes_u32 _) _⟩

theorem encode_ne_nil {action : RaftLogAction T} {w : Bytes} (hC : C.Lawful)
    (hw : Writes (action.encode C) w) : w ≠ [] := by
  rintro rfl
  obtain ⟨rest, hrest⟩ := decode_tag hC hw
  exact absurd hrest (by simp [u32, number, readExact, StateT.run, bind, StateT.bind, Except.bind])

/-! ## What is rejected -/

theorem decode_unknown_type {recordType : UInt32} (h : 5 ≤ recordType) (rest : Bytes) :
    (decode C).run (tagBytes recordType ++ rest) =
      .error ⟨.invalidData, s!"Unknown record type: {recordType}"⟩ := by
  have hpayload : decodePayload C recordType =
      throw ⟨.invalidData, s!"Unknown record type: {recordType}"⟩ := by
    unfold decodePayload
    split
    case h_6 => rfl
    all_goals exact absurd h (by decide)
  have hread := u32_lawful.roundTrip (writes_u32 recordType) rest
  show (u32.decode >>= fun typ => decodePayload C typ >>= fun action => do
    C.checksum.verifyChecksum (tagBytes recordType ++ rest) "Record::decode()"
    pure action).run (tagBytes recordType ++ rest) = _
  rw [tagBytes, run_bind_ok hread, hpayload]
  rfl

theorem decode_wrong_checksum (hC : C.Lawful) {action : RaftLogAction T} {p : Bytes}
    (hp : Writes (action.encodePayload C) p) {sum : UInt64}
    (hsum : sum ≠ C.checksum.sum (tagBytes action.recordType ++ p)) (rest : Bytes) :
    (decode C).run (tagBytes action.recordType ++ p ++ (beBytes 8 sum.toNat ++ rest)) =
      .error (C.checksum.mismatch sum (C.checksum.sum (tagBytes action.recordType ++ p))
        "Record::decode()") := by
  have hread := u32_lawful.roundTrip (writes_u32 action.recordType)
    (p ++ (beBytes 8 sum.toNat ++ rest))
  have hpayload := (decodes_payload hC action.recordType (p ++ (beBytes 8 sum.toNat ++ rest))
    action (beBytes 8 sum.toNat ++ rest)).mpr ⟨p, ⟨rfl, hp⟩, rfl⟩
  have hverify := (C.checksum.run_verifyChecksum (tagBytes action.recordType ++ p)
    (beBytes 8 sum.toNat ++ rest) "Record::decode()").trans
    (C.checksum.run_expectChecksum_of_ne hsum _ rest)
  show (u32.decode >>= fun typ => decodePayload C typ >>= fun action' => do
    C.checksum.verifyChecksum (tagBytes action.recordType ++ p ++ (beBytes 8 sum.toNat ++ rest))
      "Record::decode()"
    pure action').run (tagBytes action.recordType ++ p ++ (beBytes 8 sum.toNat ++ rest)) = _
  rw [run_bind_ok (List.append_assoc _ _ _ ▸ hread), run_bind_ok hpayload, run_bind_error hverify]

end RaftLogAction

namespace RaftLogState

/-- The bytes of the five fields. -/
def WritesFields (C : RecordCodecs T) (st : RaftLogState T) (w : Bytes) : Prop :=
  ∃ w₁ w₂ w₃ w₄ w₅,
    Writes ((C.option C.vote).encode st.vote) w₁ ∧
    Writes ((C.option C.logId).encode st.last) w₂ ∧
    Writes ((C.option C.logId).encode st.committed) w₃ ∧
    Writes ((C.option C.logId).encode st.purged) w₄ ∧
    Writes ((C.option C.userData).encode st.userData) w₅ ∧
    w = w₁ ++ (w₂ ++ (w₃ ++ (w₄ ++ w₅)))

theorem writesFields_total (hC : C.Lawful) (st : RaftLogState T) : ∃ w, WritesFields C st w := by
  obtain ⟨w₁, h₁⟩ := (hC.option hC.vote).total st.vote
  obtain ⟨w₂, h₂⟩ := (hC.option hC.logId).total st.last
  obtain ⟨w₃, h₃⟩ := (hC.option hC.logId).total st.committed
  obtain ⟨w₄, h₄⟩ := (hC.option hC.logId).total st.purged
  obtain ⟨w₅, h₅⟩ := (hC.option hC.userData).total st.userData
  exact ⟨_, w₁, w₂, w₃, w₄, w₅, h₁, h₂, h₃, h₄, h₅, rfl⟩

/-- What `encode` writes. -/
theorem writes_encode {st : RaftLogState T} {w : Bytes} (h : WritesFields C st w) :
    Writes (st.encode C) (1 :: w) := by
  obtain ⟨w₁, w₂, w₃, w₄, w₅, h₁, h₂, h₃, h₄, h₅, rfl⟩ := h
  intro buffer
  have hver : Writes (u8.encode 1) [1] := writes_u8 1
  rw [encode, hver.run_bind, h₁.run_bind, h₂.run_bind, h₃.run_bind, h₄.run_bind, h₅.run_bind]
  have hlen : [(1 : UInt8)].length + w₁.length + w₂.length + w₃.length + w₄.length + w₅.length =
      (1 :: (w₁ ++ (w₂ ++ (w₃ ++ (w₄ ++ w₅))))).length := by
    simp only [List.length_cons, List.length_append, List.length_nil]
    omega
  have hbytes : buffer ++ [1] ++ w₁ ++ w₂ ++ w₃ ++ w₄ ++ w₅ =
      buffer ++ 1 :: (w₁ ++ (w₂ ++ (w₃ ++ (w₄ ++ w₅)))) := by
    simp only [List.append_assoc, List.cons_append, List.nil_append]
  rw [hlen, hbytes]
  rfl

/-- Only version 1 is read. -/
theorem decodes_fields (hC : C.Lawful) (ver : UInt8) :
    Decodes (decodeFields C ver) fun st w => ver = 1 ∧ WritesFields C st w := by
  have hvote := (hC.option hC.vote).decodes
  have hlogId := (hC.option hC.logId).decodes
  have huserData := (hC.option hC.userData).decodes
  unfold decodeFields
  split
  · refine (hvote.bind fun vote => hlogId.bind fun last => hlogId.bind fun committed =>
      hlogId.bind fun purged => huserData.map).congr fun st w => ?_
    constructor
    · rintro ⟨vote, w₁, -, h₁, ⟨last, w₂, -, h₂, ⟨committed, w₃, -, h₃,
        ⟨purged, w₄, w₅, h₄, ⟨userData, h₅, rfl⟩, rfl⟩, rfl⟩, rfl⟩, rfl⟩
      exact ⟨rfl, w₁, w₂, w₃, w₄, w₅, h₁, h₂, h₃, h₄, h₅, rfl⟩
    · rintro ⟨-, w₁, w₂, w₃, w₄, w₅, h₁, h₂, h₃, h₄, h₅, rfl⟩
      exact ⟨st.vote, w₁, _, h₁, ⟨st.last, w₂, _, h₂, ⟨st.committed, w₃, _, h₃,
        ⟨st.purged, w₄, w₅, h₄, ⟨st.userData, h₅, rfl⟩, rfl⟩, rfl⟩, rfl⟩, rfl⟩
  · next hne => exact (decodes_throw _).congr fun st w => iff_of_false id fun h => hne h.1

theorem codec_lawful (hC : C.Lawful) : (codec C).Lawful := by
  have htotal (st : RaftLogState T) : ∃ w, Writes (st.encode C) w := by
    obtain ⟨w, hw⟩ := writesFields_total hC st
    exact ⟨_, writes_encode hw⟩
  refine Codec.lawful_of_decodes htotal ?_
  refine (u8_lawful.decodes.bind fun ver => decodes_fields hC ver).congr fun st w => ?_
  constructor
  · rintro ⟨ver, u, v, hu, ⟨rfl, hv⟩, rfl⟩
    obtain rfl := hu.unique (writes_u8 1)
    exact writes_encode hv
  · intro hw
    obtain ⟨v, hv⟩ := writesFields_total hC st
    exact ⟨1, _, v, writes_u8 1, ⟨rfl, hv⟩, hw.unique (writes_encode hv)⟩

end RaftLogState

/-! ## The codec of records -/

theorem decode_unsupported_version {ver : UInt8} (h : ver ≠ 1) (rest : Bytes) :
    (RaftLogState.decode C).run (ver :: rest) =
      .error ⟨.invalidData, s!"Unsupported RaftLogState version: {ver}"⟩ := by
  have hbytes : beBytes 1 ver.toNat = [ver] := by simp [beBytes]
  have hread := u8_lawful.roundTrip (writes_u8 ver) rest
  rw [hbytes, List.singleton_append] at hread
  rw [RaftLogState.decode, run_bind_ok hread]
  unfold RaftLogState.decodeFields
  split
  · exact absurd rfl h
  · rfl

/-- Both codecs count what they write, read back exactly that, reject what is cut off, and accept
nothing else.  A list of actions is read back from its encodings.  No encoding of an action
begins with the tag of a checkpoint, and an unknown tag, a wrong version and a wrong checksum are
rejected. -/
theorem record_codec (hC : C.Lawful) :
    (RaftLogAction.codec C).Lawful ∧ (RaftLogState.codec C).Lawful ∧
    (∀ actions : List (RaftLogAction T), ∃ w,
      Writes (encodeAll (RaftLogAction.codec C) actions) w ∧
        decodeAll (RaftLogAction.codec C) w.length w = .ok actions) ∧
    (∀ (action : RaftLogAction T) (w : Bytes), Writes (action.encode C) w →
      ∃ typ rest, u32.decode.run w = .ok (typ, rest) ∧ typ ≠ checkpointRecordType) ∧
    (∀ (typ : UInt32) (rest : Bytes), 5 ≤ typ →
      (RaftLogAction.decode C).run (RaftLogAction.tagBytes typ ++ rest) =
        .error ⟨.invalidData, s!"Unknown record type: {typ}"⟩) ∧
    (∀ (ver : UInt8) (rest : Bytes), ver ≠ 1 →
      (RaftLogState.decode C).run (ver :: rest) =
        .error ⟨.invalidData, s!"Unsupported RaftLogState version: {ver}"⟩) ∧
    (∀ (action : RaftLogAction T) (p rest : Bytes) (sum : UInt64),
      Writes (action.encodePayload C) p →
      sum ≠ C.checksum.sum (RaftLogAction.tagBytes action.recordType ++ p) →
      (RaftLogAction.decode C).run (RaftLogAction.tagBytes action.recordType ++ p ++
          (beBytes 8 sum.toNat ++ rest)) =
        .error (C.checksum.mismatch sum
          (C.checksum.sum (RaftLogAction.tagBytes action.recordType ++ p))
          "Record::decode()")) := by
  have hlawful := RaftLogAction.codec_lawful hC
  refine ⟨hlawful, RaftLogState.codec_lawful hC, fun actions => ?_, fun action w hw => ?_,
    fun typ rest h => RaftLogAction.decode_unknown_type h rest,
    fun ver rest h => decode_unsupported_version h rest,
    fun action p rest sum hp hsum => RaftLogAction.decode_wrong_checksum hC hp hsum rest⟩
  · obtain ⟨w, hw, hdecode⟩ := roundTrip_all hlawful
      (fun action w hw => RaftLogAction.encode_ne_nil hC hw) actions
    exact ⟨w, hw, hdecode _ le_rfl⟩
  · obtain ⟨rest, hrest⟩ := RaftLogAction.decode_tag hC hw
    exact ⟨_, rest, hrest, action.recordType_ne_checkpoint⟩

/-- CRC-32, bit by bit. -/
def crc32 (b : Bytes) : UInt64 :=
  let shift (crc : ℕ) : ℕ := if crc % 2 = 1 then crc / 2 ^^^ 0xEDB88320 else crc / 2
  UInt64.ofNat ((b.foldl (fun crc byte => Nat.iterate shift 8 (crc ^^^ byte.toNat)) 0xFFFFFFFF) ^^^
    0xFFFFFFFF)

abbrev codecTypes : Types :=
  { exampleTypes true with UserData := Fin (2 ^ 64), userDataEq := inferInstance }

/-- The big-endian term and index in 16 bytes. -/
def termIndexCodec : Codec TermIndex :=
  number 16 TermIndex.rank fun n => ⟨Fin.ofNat _ (n / 2 ^ 64), Fin.ofNat _ n⟩

def finCodec : Codec (Fin (2 ^ 64)) := number 8 Fin.val (Fin.ofNat _)

def exampleCodecs : RecordCodecs codecTypes where
  vote := termIndexCodec
  logId := termIndexCodec
  logPayload := finCodec
  userData := finCodec
  option := ByteCodec.option
  checksum := ⟨crc32, fun _ _ context => ⟨.invalidData, context⟩⟩

theorem exampleCodecs_lawful : exampleCodecs.Lawful := by
  have htermIndex : termIndexCodec.Lawful := by
    refine number_lawful (fun l => ?_) (fun l => ?_) fun n hn => ?_
    · have hterm := l.term.isLt
      have hindex := l.index.isLt
      simp only [TermIndex.rank]
      omega
    · have hterm := l.term.isLt
      have hindex := l.index.isLt
      refine TermIndex.ext (Fin.ext ?_) (Fin.ext ?_)
      · simp only [TermIndex.rank, Fin.val_ofNat]
        omega
      · simp only [TermIndex.rank, Fin.val_ofNat]
        omega
    · simp only [TermIndex.rank, Fin.val_ofNat]
      omega
  have hfin : finCodec.Lawful := by
    refine number_lawful (fun x => ?_) (fun x => ?_) fun n hn => ?_
    · have hlt := x.isLt
      omega
    · exact Fin.ext (Nat.mod_eq_of_lt x.isLt)
    · rw [Fin.val_ofNat]
      omega
  exact ⟨htermIndex, htermIndex, hfin, hfin, option_lawful⟩

/-- The bytes of a truncation after `(1, 2)`, as the tests of the source have them. -/
def truncateAfterBytes : Bytes :=
  [0, 0, 0, 3, 1, 0, 0, 0, 0, 0, 0, 0, 1, 0, 0, 0, 0, 0, 0, 0, 2, 0, 0, 0, 0, 213, 81, 166, 197]

theorem record_codec_truncateAfterBytes :
    (RaftLogAction.decode exampleCodecs).run (truncateAfterBytes ++ [0, 0, 0]) =
      .ok (.truncateAfter (some ⟨1, 2⟩), [0, 0, 0]) := by
  have hlawful := (record_codec exampleCodecs_lawful).1
  have hcomputed : (RaftLogAction.encode exampleCodecs (.truncateAfter (some ⟨1, 2⟩))).run [] =
      .ok (29, truncateAfterBytes) := by decide +kernel
  obtain ⟨w, hw⟩ := hlawful.total (.truncateAfter (some ⟨1, 2⟩))
  have hbytes : w = truncateAfterBytes :=
    congrArg Prod.snd (Except.ok.inj ((hw []).symm.trans hcomputed))
  exact hlawful.roundTrip (hbytes ▸ hw) [0, 0, 0]

end RaftLogStore
