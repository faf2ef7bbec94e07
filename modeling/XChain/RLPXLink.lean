import XChain.RLPXFrameCoder

/-!
# Two coders connected to each other

The egress half of a coder and the ingress half of its peer start equal and make the same
steps: what one of them writes, the other one reads, in any interleaving of the two
directions. A header or a frame that was changed on the way has made the MAC absorb
something else than the writer's has.
-/
namespace XChain

namespace RLPXFrameCoder

/-- What one direction of a coder depends on. -/
@[ext] structure Half where
  key : FixedHash 32
  pos : ℕ
  macEncKey : FixedHash 32
  mac : Bytes

def egress (c : RLPXFrameCoder) : Half := ⟨c.frameEncKey, c.frameEnc, c.macEncKey, c.egressMac⟩

def ingress (c : RLPXFrameCoder) : Half := ⟨c.frameDecKey, c.frameDec, c.macEncKey, c.ingressMac⟩

section Halves

variable (P : Primitives)

@[simp] theorem ingress_writeFrame (c : RLPXFrameCoder) (header : FrameHeader) (payload : Bytes) :
    (c.writeFrame P header payload).2.ingress = c.ingress := rfl

@[simp] theorem egress_authAndDecryptHeader (c : RLPXFrameCoder) (io : Bytes) :
    (c.authAndDecryptHeader P io).2.egress = c.egress := by
  unfold authAndDecryptHeader
  dsimp only
  split_ifs <;> rfl

@[simp] theorem egress_authAndDecryptFrame (c : RLPXFrameCoder) (io : Bytes) :
    (c.authAndDecryptFrame P io).2.egress = c.egress := by
  unfold authAndDecryptFrame
  dsimp only
  split_ifs <;> rfl

/-- Writing does not depend on the ingress half. -/
theorem writeFrame_congr {c c' : RLPXFrameCoder} (h : c.egress = c'.egress) (header : FrameHeader)
    (payload : Bytes) :
    (c.writeFrame P header payload).1 = (c'.writeFrame P header payload).1 ∧
      (c.writeFrame P header payload).2.egress = (c'.writeFrame P header payload).2.egress := by
  obtain ⟨key, pos, dkey, dpos, mkey, mac, imac⟩ := c
  obtain ⟨key', pos', dkey', dpos', mkey', mac', imac'⟩ := c'
  simp only [egress, Half.mk.injEq] at h
  obtain ⟨rfl, rfl, rfl, rfl⟩ := h
  constructor <;> rfl

end Halves

section Mac

variable (P : Primitives)

theorem length_updateMAC (key : FixedHash 32) (mac seed : Bytes) :
    (updateMAC P key mac seed).length = mac.length + 16 := by
  simp [updateMAC]

theorem prefix_updateMAC (key : FixedHash 32) (mac seed : Bytes) :
    mac <+: updateMAC P key mac seed := List.prefix_append _ _

/-- Two seeds of one block leave different MACs. -/
theorem updateMAC_injective {key : FixedHash 32} {mac a b : Bytes} (ha : a.length = 16)
    (hb : b.length = 16) (h : updateMAC P key mac a = updateMAC P key mac b) : a = b := by
  have ha0 : a.length ≠ 0 := by omega
  have hb0 : b.length ≠ 0 := by omega
  simp only [updateMAC, ha0, hb0, ne_eq, not_false_eq_true, if_true] at h
  have hxor := FixedHash.xor_right_injective _ (FixedHash.ext (List.append_cancel_left h))
  rw [← FixedHash.ofRef_bytes ha, hxor, FixedHash.ofRef_bytes hb]

end Mac

section Header

/-- The first block of a frame. -/
def headerBlock (header : Bytes) : Bytes :=
  (header.take 32 ++ List.replicate (32 - header.length) 0).take 16

@[simp] theorem length_headerBlock (header : Bytes) : (headerBlock header).length = 16 := by
  simp only [headerBlock, List.length_take, List.length_append, List.length_replicate]
  omega

/-- A short header is in its block as a whole. -/
theorem headerBlock_eq {header : Bytes} (h : header.length ≤ 16) :
    headerBlock header = header ++ List.replicate (16 - header.length) 0 := by
  rw [headerBlock, List.take_of_length_le (show header.length ≤ 32 by omega), List.take_append,
    List.take_of_length_le h, List.take_replicate]
  congr 2
  omega

variable (P : Primitives) {w r : RLPXFrameCoder}

/-- The header block as it goes over the wire. -/
def headerCipher (w : RLPXFrameCoder) (header : Bytes) : Bytes :=
  mask (P.keystream w.frameEncKey) w.frameEnc (headerBlock header)

@[simp] theorem length_headerCipher (header : Bytes) : (w.headerCipher P header).length = 16 := by
  rw [headerCipher, length_mask, length_headerBlock]

theorem cropped_headerCipher (header rest : Bytes) :
    cropped (w.headerCipher P header ++ rest) 0 16 = w.headerCipher P header := by
  rw [cropped_zero (by simp), List.take_left' (length_headerCipher P header)]

theorem egressMac_writeHeader (header : Bytes) :
    (w.writeHeader P header).2.egressMac =
      updateMAC P w.macEncKey w.egressMac (w.headerCipher P header) := by
  have h := cropped_headerCipher P (w := w) header []
  rw [List.append_nil] at h
  simp only [writeHeader, processEnc, updateEgressMACWithHeader]
  exact congrArg (updateMAC P w.macEncKey w.egressMac) h

theorem writeHeader_eq (header : Bytes) :
    (w.writeHeader P header).1 =
      w.headerCipher P header ++ (P.digest (w.writeHeader P header).2.egressMac).bytes := rfl

@[simp] theorem length_writeHeader (header : Bytes) :
    (w.writeHeader P header).1.length = 32 := by
  rw [writeHeader_eq, List.length_append, length_headerCipher, FixedHash.size]

/-- A header is accepted and decrypted by the other side, which makes the same step. -/
theorem authAndDecryptHeader_writeHeader (h : w.egress = r.ingress) (header : Bytes) :
    ∃ tag r', r.authAndDecryptHeader P (w.writeHeader P header).1 =
        (some (headerBlock header ++ tag), r') ∧ (w.writeHeader P header).2.egress = r'.ingress := by
  simp only [egress, ingress, Half.mk.injEq] at h
  obtain ⟨hkey, hpos, hmkey, hmac⟩ := h
  set digest := P.digest (w.writeHeader P header).2.egressMac with hdigest
  have hio : (w.writeHeader P header).1 = w.headerCipher P header ++ digest.bytes :=
    writeHeader_eq P header
  have hmac' : updateMAC P r.macEncKey r.ingressMac
      (cropped (w.headerCipher P header ++ digest.bytes) 0 16) =
        (w.writeHeader P header).2.egressMac := by
    rw [cropped_headerCipher, ← hmkey, ← hmac, egressMac_writeHeader]
  have htag : cropped (w.headerCipher P header ++ digest.bytes) 16 16 = digest.bytes := by
    have hcrop := cropped_append (w.headerCipher P header) digest.bytes []
    rwa [List.append_nil, length_headerCipher, digest.size] at hcrop
  have hplain : mask (P.keystream r.frameDecKey) r.frameDec (w.headerCipher P header) =
      headerBlock header := by
    rw [headerCipher, hkey, hpos, mask_mask]
  refine ⟨digest.bytes, { r with ingressMac := (w.writeHeader P header).2.egressMac,
                                 frameDec := r.frameDec + 16 }, ?_, ?_⟩
  · simp only [authAndDecryptHeader, updateIngressMACWithHeader, ingressDigest, processDec, hio,
      hmac', htag, FixedHash.ofRef_self, ← hdigest, ne_eq, not_true_eq_false, if_false]
    rw [List.take_left' (length_headerCipher P header),
      List.drop_left' (length_headerCipher P header), hplain, length_headerCipher]
  · simp only [writeHeader, processEnc, updateEgressMACWithHeader, egress, ingress, hkey, hpos,
      hmkey, Half.mk.injEq, true_and, and_true]
    exact congrArg (r.frameDec + ·) (length_headerBlock header)

end Header

section Payload

variable (P : Primitives) {w r : RLPXFrameCoder}

/-- The payload and its padding as they go over the wire. -/
def frameCipher (w : RLPXFrameCoder) (payload : Bytes) : Bytes :=
  mask (P.keystream w.frameEncKey) w.frameEnc
    (payload ++ List.replicate (paddingOf payload.length) 0)

@[simp] theorem length_frameCipher (payload : Bytes) :
    (w.frameCipher P payload).length = payload.length + paddingOf payload.length := by
  rw [frameCipher, length_mask, List.length_append, List.length_replicate]

/-- The padding is encrypted right behind the payload. -/
theorem writePayload_eq (payload : Bytes) :
    w.writePayload P payload =
      (w.frameCipher P payload ++ (P.digest (updateMAC P w.macEncKey
          (w.egressMac ++ w.frameCipher P payload) [])).bytes,
        { w with frameEnc := w.frameEnc + (w.frameCipher P payload).length,
                 egressMac := updateMAC P w.macEncKey
                  (w.egressMac ++ w.frameCipher P payload) [] }) := by
  have hparts : mask (P.keystream w.frameEncKey) w.frameEnc payload ++
      mask (P.keystream w.frameEncKey) (w.frameEnc + payload.length)
        (List.replicate (paddingOf payload.length) 0) = w.frameCipher P payload := by
    rw [frameCipher, mask_append]
  simp only [writePayload, processEnc, updateEgressMACWithFrame, egressDigest, hparts]
  rw [length_frameCipher, List.length_replicate, Nat.add_assoc]

@[simp] theorem length_writePayload (payload : Bytes) :
    (w.writePayload P payload).1.length = payload.length + paddingOf payload.length + 16 := by
  rw [writePayload_eq, List.length_append, length_frameCipher, FixedHash.size]

theorem egressMac_writePayload (payload : Bytes) :
    (w.writePayload P payload).2.egressMac =
      updateMAC P w.macEncKey (w.egressMac ++ w.frameCipher P payload) [] := by
  rw [writePayload_eq]

/-- A frame is accepted and decrypted by the other side, which makes the same step. -/
theorem authAndDecryptFrame_writePayload (h : w.egress = r.ingress) (payload : Bytes) :
    ∃ rest r', r.authAndDecryptFrame P (w.writePayload P payload).1 =
        (some (payload ++ rest), r') ∧ (w.writePayload P payload).2.egress = r'.ingress := by
  simp only [egress, ingress, Half.mk.injEq] at h
  obtain ⟨hkey, hpos, hmkey, hmac⟩ := h
  rw [writePayload_eq]
  generalize hd : P.digest (updateMAC P w.macEncKey (w.egressMac ++ w.frameCipher P payload) []) =
    digest
  have hlen : (w.frameCipher P payload ++ digest.bytes).length - 16 =
      (w.frameCipher P payload).length := by
    rw [List.length_append, digest.size, Nat.add_sub_cancel]
  have hcipher : cropped (w.frameCipher P payload ++ digest.bytes) 0
      (w.frameCipher P payload).length = w.frameCipher P payload := by
    rw [cropped_zero (by simp), List.take_left]
  have hplain : mask (P.keystream r.frameDecKey) r.frameDec (w.frameCipher P payload) =
      payload ++ List.replicate (paddingOf payload.length) 0 := by
    rw [frameCipher, hkey, hpos, mask_mask]
  have hupdate : updateMAC P r.macEncKey (r.ingressMac ++ w.frameCipher P payload) [] =
      updateMAC P w.macEncKey (w.egressMac ++ w.frameCipher P payload) [] := by
    rw [hmkey, hmac]
  refine ⟨List.replicate (paddingOf payload.length) 0 ++ digest.bytes,
    { r with ingressMac := updateMAC P w.macEncKey (w.egressMac ++ w.frameCipher P payload) [],
             frameDec := r.frameDec + (w.frameCipher P payload).length }, ?_, ?_⟩
  · simp only [authAndDecryptFrame, updateIngressMACWithFrame, ingressDigest, processDec, hlen,
      hcipher, hupdate, hd, List.drop_left, List.take_left, FixedHash.ofRef_self, ne_eq,
      not_true_eq_false, if_false, hplain, List.append_assoc]
  · simp only [egress, ingress, hkey, hpos, hmkey]

theorem prefix_writeHeader (w : RLPXFrameCoder) (header : Bytes) :
    w.egressMac <+: (w.writeHeader P header).2.egressMac := by
  rw [egressMac_writeHeader]
  exact prefix_updateMAC P _ _ _

theorem prefix_writePayload (w : RLPXFrameCoder) (payload : Bytes) :
    w.egressMac <+: (w.writePayload P payload).2.egressMac := by
  rw [egressMac_writePayload]
  exact (List.prefix_append _ _).trans (prefix_updateMAC P _ _ _)

theorem writeFrame_eq (w : RLPXFrameCoder) (header : FrameHeader) (payload : Bytes) :
    w.writeFrame P header payload =
      ((w.writeHeader P (header.out payload.length)).1 ++
          ((w.writeHeader P (header.out payload.length)).2.writePayload P payload).1,
        ((w.writeHeader P (header.out payload.length)).2.writePayload P payload).2) := rfl

theorem prefix_writeFrame (w : RLPXFrameCoder) (header : FrameHeader) (payload : Bytes) :
    w.egressMac <+: (w.writeFrame P header payload).2.egressMac := by
  have hheader := prefix_writeHeader P w (header.out payload.length)
  have hpayload := prefix_writePayload P (w.writeHeader P (header.out payload.length)).2 payload
  rw [writeFrame_eq]
  exact hheader.trans hpayload

end Payload

section Tampering

variable (P : Primitives) {w r : RLPXFrameCoder}

/-- The MAC input that a reader compares a header's digest with. -/
def headerInput (r : RLPXFrameCoder) (io : Bytes) : Bytes :=
  (r.updateIngressMACWithHeader P io).ingressMac

/-- The MAC input that a reader compares a frame's digest with. -/
def frameInput (r : RLPXFrameCoder) (io : Bytes) : Bytes :=
  (r.updateIngressMACWithFrame P (cropped io 0 (io.length - 16))).ingressMac

/-- An ideal MAC: a tag that is shown is the digest of nothing but what the MAC of the
writing side has absorbed at some time. -/
def Unforged (writer : RLPXFrameCoder) (input tag : Bytes) : Prop :=
  (P.digest input).bytes = tag → input <+: writer.egressMac

/-- A header with other bytes than the one that was written is refused. -/
theorem changed_header_refused {writer : RLPXFrameCoder} (h : w.egress = r.ingress)
    (header : Bytes) (hlater : (w.writeHeader P header).2.egressMac <+: writer.egressMac)
    {io : Bytes} (hlen : io.length = 32) (hne : io ≠ (w.writeHeader P header).1)
    (hideal : Unforged P writer (r.headerInput P io) (io.drop 16)) :
    (r.authAndDecryptHeader P io).1 = none := by
  simp only [egress, ingress, Half.mk.injEq] at h
  obtain ⟨-, -, hmkey, hmac⟩ := h
  have hcrop : cropped io 16 16 = io.drop 16 := by
    rw [cropped, if_pos (by omega), List.take_of_length_le (by rw [List.length_drop]; omega)]
  have htag : (io.drop 16).length = 16 := by rw [List.length_drop]; omega
  by_cases hverify : FixedHash.ofRef 16 (cropped io 16 16) ≠ P.digest (r.headerInput P io)
  · exact congrArg Prod.fst (if_pos hverify)
  exfalso
  rw [not_not, hcrop] at hverify
  have hbytes : (P.digest (r.headerInput P io)).bytes = io.drop 16 := by
    rw [← hverify, FixedHash.ofRef_bytes htag]
  -- The MAC inputs have one length, so that they are the same part of the writer's.
  have hinput : r.headerInput P io = updateMAC P w.macEncKey w.egressMac (io.take 16) := by
    rw [headerInput, updateIngressMACWithHeader, hmkey, hmac, cropped_zero (by omega)]
  rw [egressMac_writeHeader] at hlater
  have hsame : updateMAC P w.macEncKey w.egressMac (io.take 16) =
      updateMAC P w.macEncKey w.egressMac (w.headerCipher P header) := by
    have hprefix := hideal hbytes
    rw [hinput] at hprefix
    refine (List.prefix_of_prefix_length_le hprefix hlater ?_).eq_of_length ?_
    · rw [length_updateMAC, length_updateMAC]
    · rw [length_updateMAC, length_updateMAC]
  have hcipher : io.take 16 = w.headerCipher P header :=
    updateMAC_injective P (by rw [List.length_take]; omega) (length_headerCipher P header) hsame
  refine hne ?_
  rw [writeHeader_eq, egressMac_writeHeader, ← hsame, ← hinput, hbytes, ← hcipher,
    List.take_append_drop]

/-- A frame with other bytes than the one that was written is refused. -/
theorem changed_frame_refused {writer : RLPXFrameCoder} (h : w.egress = r.ingress)
    (payload : Bytes) (hlater : (w.writePayload P payload).2.egressMac <+: writer.egressMac)
    {io : Bytes} (hlen : io.length = (w.writePayload P payload).1.length)
    (hne : io ≠ (w.writePayload P payload).1)
    (hideal : Unforged P writer (r.frameInput P io) (io.drop (io.length - 16))) :
    (r.authAndDecryptFrame P io).1 = none := by
  simp only [egress, ingress, Half.mk.injEq] at h
  obtain ⟨-, -, hmkey, hmac⟩ := h
  have hcount : io.length - 16 = (w.frameCipher P payload).length := by
    rw [hlen, length_writePayload, length_frameCipher, Nat.add_sub_cancel]
  have htag : (io.drop (io.length - 16)).length = 16 := by
    rw [List.length_drop, hcount, hlen, length_writePayload, length_frameCipher]
    omega
  by_cases hverify :
      FixedHash.ofRef 16 (io.drop (io.length - 16)) ≠ P.digest (r.frameInput P io)
  · exact congrArg Prod.fst (if_pos hverify)
  exfalso
  rw [not_not] at hverify
  have hbytes : (P.digest (r.frameInput P io)).bytes = io.drop (io.length - 16) := by
    rw [← hverify, FixedHash.ofRef_bytes htag]
  have hinput : r.frameInput P io =
      updateMAC P w.macEncKey (w.egressMac ++ io.take (io.length - 16)) [] := by
    rw [frameInput, updateIngressMACWithFrame, hmkey, hmac, cropped_zero (by omega)]
  rw [egressMac_writePayload] at hlater
  have htake : (io.take (io.length - 16)).length = (w.frameCipher P payload).length := by
    rw [List.length_take]
    omega
  have hsame : updateMAC P w.macEncKey (w.egressMac ++ io.take (io.length - 16)) [] =
      updateMAC P w.macEncKey (w.egressMac ++ w.frameCipher P payload) [] := by
    have hprefix := hideal hbytes
    rw [hinput] at hprefix
    refine (List.prefix_of_prefix_length_le hprefix hlater ?_).eq_of_length ?_
    · rw [length_updateMAC, length_updateMAC, List.length_append, List.length_append, htake]
    · rw [length_updateMAC, length_updateMAC, List.length_append, List.length_append, htake]
  have hcipher : io.take (io.length - 16) = w.frameCipher P payload := by
    have hmacs : w.egressMac ++ io.take (io.length - 16) =
        w.egressMac ++ w.frameCipher P payload := by
      refine (List.append_inj hsame ?_).1
      rw [List.length_append, List.length_append, htake]
    exact List.append_cancel_left hmacs
  refine hne ?_
  rw [writePayload_eq, ← hsame, ← hinput, hbytes, ← hcipher, List.take_append_drop]

end Tampering

section Setup

variable (P : Primitives)

/-- Mirrored handshakes leave each side reading what the other one writes. -/
theorem setup_mirrored (secretO secretA : Secret) (nonceO nonceA : FixedHash 32)
    (ackCipher authCipher : Bytes) :
    ∃ a b, setup P true (P.toPublic secretA) nonceA (.fresh secretO) nonceO ackCipher authCipher =
        some (a, ⟨secretO, P.toPublic secretA⟩) ∧
      setup P false (P.toPublic secretO) nonceO (.fresh secretA) nonceA ackCipher authCipher =
        some (b, ⟨secretA, P.toPublic secretO⟩) ∧
      a.egress = b.ingress ∧ b.egress = a.ingress := by
  have hshared := P.agree_comm secretO secretA
  refine ⟨_, _, by rw [setup, ECDHE.agree_fresh]; rfl, by rw [setup, ECDHE.agree_fresh]; rfl, ?_, ?_⟩
  · simp only [egress, ingress, hshared, FixedHash.xor_xor_self, if_true, Bool.false_eq_true,
      if_false]
  · simp only [egress, ingress, hshared, FixedHash.xor_xor_self, if_true, Bool.false_eq_true,
      if_false]

end Setup
end RLPXFrameCoder

/-- A frame handed to a coder. Its length fits into the three bytes of the header. -/
structure Frame where
  header : FrameHeader
  payload : Bytes
  short : payload.length < 2 ^ 24

namespace Frame

def info (f : Frame) : RLPXFrameInfo := f.header.info f.payload.length

@[simp] theorem length_info (f : Frame) : f.info.length = f.payload.length := by
  unfold info
  cases f.header <;> rfl

@[simp] theorem padding_info (f : Frame) : f.info.padding = paddingOf f.payload.length := by
  unfold info
  cases f.header <;> rfl

end Frame

/-- A side of the connection, with the header it has read but not yet the frame of. -/
structure Side where
  coder : RLPXFrameCoder
  expecting : Option RLPXFrameInfo

/-- The two sides by whether they originated the connection, the bytes that each has written
and the other not yet read, and what each has read: a frame, or nothing where one was not
authenticated. -/
structure Link where
  side : Bool → Side
  wire : Bool → Bytes
  received : Bool → List (Option (RLPXFrameInfo × Bytes))

inductive Event where
  | write (originated : Bool) (f : Frame)
  | read (originated : Bool)

section Runs

variable (P : Primitives)

/-- Reads the next header or the frame behind it, once all of it has arrived. -/
def Side.read (s : Side) (wire : Bytes) : Side × Bytes × List (Option (RLPXFrameInfo × Bytes)) :=
  match s.expecting with
  | none =>
    if wire.length < 32 then (s, wire, [])
    else
      let (io, coder) := s.coder.authAndDecryptHeader P (wire.take 32)
      match io.bind RLPXFrameInfo.ofHeader with
      | none => (⟨coder, none⟩, wire.drop 32, [none])
      | some info => (⟨coder, some info⟩, wire.drop 32, [])
  | some info =>
    let tlen := info.length + info.padding + 16
    if wire.length < tlen then (s, wire, [])
    else
      let (io, coder) := s.coder.authAndDecryptFrame P (wire.take tlen)
      (⟨coder, none⟩, wire.drop tlen, [io.map fun frame => (info, frame.take info.length)])

namespace Link

def start (originator acceptor : RLPXFrameCoder) : Link where
  side originated := if originated then ⟨originator, none⟩ else ⟨acceptor, none⟩
  wire _ := []
  received _ := []

def step (l : Link) : Event → Link
  | .write s f =>
    let (bytes, coder) := (l.side s).coder.writeFrame P f.header f.payload
    { l with side := Function.update l.side s { l.side s with coder }
             wire := Function.update l.wire s (l.wire s ++ bytes) }
  | .read s =>
    let (side, wire, out) := (l.side s).read P (l.wire !s)
    { side := Function.update l.side s side
      wire := Function.update l.wire (!s) wire
      received := Function.update l.received s (l.received s ++ out) }

def run (l : Link) (events : List Event) : Link := events.foldl (step P) l

end Link

/-- The frames that one side writes in a run. -/
def writtenBy (s : Bool) (events : List Event) : List Frame :=
  events.filterMap fun
    | .write s' f => if s' = s then some f else none
    | .read _ => none

/-- What the other side is to make of a frame. -/
def delivered (f : Frame) : Option (RLPXFrameInfo × Bytes) := some (f.info, f.payload)

/-- The bytes of frames written one after the other. -/
def writeAll (w : RLPXFrameCoder) : List Frame → Bytes × RLPXFrameCoder
  | [] => ([], w)
  | f :: fs =>
    let (bytes, w) := w.writeFrame P f.header f.payload
    let (rest, w) := writeAll w fs
    (bytes ++ rest, w)

/-- The bytes on the wire are those of the frames in flight, written by a coder that makes
the same steps as the reader. Once a header is read, they begin with its frame. -/
def InFlight (writer : RLPXFrameCoder) (reader : Side) (wire : Bytes) (pending : List Frame) :
    Prop :=
  match reader.expecting with
  | none =>
    ∃ w : RLPXFrameCoder, w.egress = reader.coder.ingress ∧ (writeAll P w pending).1 = wire ∧
      (writeAll P w pending).2.egress = writer.egress
  | some info =>
    ∃ (w : RLPXFrameCoder) (f : Frame) (fs : List Frame), pending = f :: fs ∧ info = f.info ∧
      w.egress = reader.coder.ingress ∧
      (w.writePayload P f.payload).1 ++ (writeAll P (w.writePayload P f.payload).2 fs).1 = wire ∧
      (writeAll P (w.writePayload P f.payload).2 fs).2.egress = writer.egress

theorem writeAll_concat (w : RLPXFrameCoder) (fs : List Frame) (f : Frame) :
    writeAll P w (fs ++ [f]) =
      ((writeAll P w fs).1 ++ ((writeAll P w fs).2.writeFrame P f.header f.payload).1,
        ((writeAll P w fs).2.writeFrame P f.header f.payload).2) := by
  induction fs generalizing w with
  | nil => simp [writeAll]
  | cons g fs ih => simp only [List.cons_append, writeAll, ih, List.append_assoc]

/-- Frames only add to what the MAC has absorbed. -/
theorem prefix_writeAll (w : RLPXFrameCoder) (fs : List Frame) :
    w.egressMac <+: (writeAll P w fs).2.egressMac := by
  induction fs generalizing w with
  | nil => exact List.prefix_rfl
  | cons f fs ih => exact (RLPXFrameCoder.prefix_writeFrame P w f.header f.payload).trans (ih _)

namespace InFlight

variable {P} {writer writer' : RLPXFrameCoder} {reader reader' : Side} {wire : Bytes}
  {pending : List Frame}

/-- One direction does not depend on the other halves of the coders. -/
theorem congr (h : InFlight P writer reader wire pending) (hw : writer'.egress = writer.egress)
    (hr : reader'.coder.ingress = reader.coder.ingress)
    (he : reader'.expecting = reader.expecting) : InFlight P writer' reader' wire pending := by
  unfold InFlight at h ⊢
  rw [he, hr, hw]
  exact h

theorem write (h : InFlight P writer reader wire pending) (f : Frame) :
    InFlight P (writer.writeFrame P f.header f.payload).2 reader
      (wire ++ (writer.writeFrame P f.header f.payload).1) (pending ++ [f]) := by
  unfold InFlight at h ⊢
  cases hread : reader.expecting with
  | none =>
    rw [hread] at h
    obtain ⟨w, hw, hwire, hlast⟩ := h
    have hsame := RLPXFrameCoder.writeFrame_congr P hlast f.header f.payload
    refine ⟨w, hw, ?_, ?_⟩
    · rw [writeAll_concat, hwire, hsame.1]
    · rw [writeAll_concat, hsame.2]
  | some info =>
    rw [hread] at h
    obtain ⟨w, g, fs, rfl, hinfo, hw, hwire, hlast⟩ := h
    have hsame := RLPXFrameCoder.writeFrame_congr P hlast f.header f.payload
    refine ⟨w, g, fs ++ [f], List.cons_append, hinfo, hw, ?_, ?_⟩
    · rw [writeAll_concat, ← hwire, hsame.1, List.append_assoc]
    · rw [writeAll_concat, hsame.2]

/-- Nothing in flight leaves nothing to read. -/
theorem read_nil (h : InFlight P writer reader wire []) : reader.read P wire = (reader, wire, []) := by
  unfold InFlight at h
  cases hread : reader.expecting with
  | some info =>
    rw [hread] at h
    obtain ⟨_, _, _, hcons, _⟩ := h
    cases hcons
  | none =>
    rw [hread] at h
    obtain ⟨w, -, rfl, -⟩ := h
    have hshort : (writeAll P w []).1.length < 32 := by simp [writeAll]
    simp only [Side.read, hread, if_pos hshort]

/-- A reader between two frames reads the next header. -/
theorem read_header {f : Frame} {fs : List Frame}
    (h : InFlight P writer reader wire (f :: fs)) (hread : reader.expecting = none) :
    ∃ reader' wire', reader.read P wire = (reader', wire', []) ∧
      reader'.expecting = some f.info ∧ reader'.coder.egress = reader.coder.egress ∧
      InFlight P writer reader' wire' (f :: fs) := by
  unfold InFlight at h
  rw [hread] at h
  obtain ⟨w, hw, hwire, hlast⟩ := h
  obtain ⟨tag, r', hauth, hegress⟩ :=
    RLPXFrameCoder.authAndDecryptHeader_writeHeader P hw (f.header.out f.payload.length)
  set header := f.header.out f.payload.length with hheader
  set w₁ := (w.writeHeader P header).2 with hw₁
  have hwire' : wire = (w.writeHeader P header).1 ++
      ((w₁.writePayload P f.payload).1 ++ (writeAll P (w₁.writePayload P f.payload).2 fs).1) := by
    rw [← hwire]
    simp only [writeAll, RLPXFrameCoder.writeFrame, ← hheader, ← hw₁, List.append_assoc]
  have hlen := RLPXFrameCoder.length_writeHeader P (w := w) header
  have hlong : ¬ wire.length < 32 := by
    rw [hwire', List.length_append]
    omega
  have hinfo : RLPXFrameInfo.ofHeader (RLPXFrameCoder.headerBlock header ++ tag) = some f.info := by
    rw [RLPXFrameCoder.headerBlock_eq (FrameHeader.length_out_le _ _), List.append_assoc]
    exact FrameHeader.ofHeader_out f.header f.short _
  have hkeep := RLPXFrameCoder.egress_authAndDecryptHeader P reader.coder (w.writeHeader P header).1
  rw [hauth] at hkeep
  refine ⟨⟨r', some f.info⟩, wire.drop 32, ?_, rfl, hkeep, ?_⟩
  · simp only [Side.read, hread, if_neg hlong]
    rw [hwire', List.take_left' hlen, hauth]
    simp only [Option.bind_some, hinfo]
  · refine ⟨w₁, f, fs, rfl, rfl, hegress, ?_, ?_⟩
    · rw [hwire', List.drop_left' hlen]
    · rw [← hlast]
      rfl

/-- A reader that has read a header reads the frame behind it. -/
theorem read_frame {f : Frame} {fs : List Frame}
    (h : InFlight P writer reader wire (f :: fs)) (hread : reader.expecting ≠ none) :
    ∃ reader' wire', reader.read P wire = (reader', wire', [delivered f]) ∧
      reader'.expecting = none ∧ reader'.coder.egress = reader.coder.egress ∧
      InFlight P writer reader' wire' fs := by
  unfold InFlight at h
  obtain ⟨info, hread⟩ := Option.ne_none_iff_exists'.mp hread
  rw [hread] at h
  obtain ⟨w, g, gs, hcons, rfl, hw, hwire, hlast⟩ := h
  obtain ⟨rfl, rfl⟩ := List.cons.inj hcons
  obtain ⟨rest, r', hauth, hegress⟩ :=
    RLPXFrameCoder.authAndDecryptFrame_writePayload P hw f.payload
  have hlen : (w.writePayload P f.payload).1.length = f.info.length + f.info.padding + 16 := by
    rw [RLPXFrameCoder.length_writePayload, Frame.length_info, Frame.padding_info]
  have hlong : ¬ wire.length < f.info.length + f.info.padding + 16 := by
    rw [← hwire, List.length_append, hlen]
    omega
  have hpayload : (f.payload ++ rest).take f.info.length = f.payload :=
    List.take_left' (Frame.length_info f).symm
  have hkeep := RLPXFrameCoder.egress_authAndDecryptFrame P reader.coder
    (w.writePayload P f.payload).1
  rw [hauth] at hkeep
  refine ⟨⟨r', none⟩, wire.drop (f.info.length + f.info.padding + 16), ?_, rfl, hkeep, ?_⟩
  · simp only [Side.read, hread, if_neg hlong]
    rw [← hwire, List.take_left' hlen, hauth]
    simp only [Option.map_some, hpayload, delivered]
  · refine ⟨(w.writePayload P f.payload).2, hegress, ?_, hlast⟩
    rw [← hwire, List.drop_left' hlen]

/-- A read delivers the frames at the front of those in flight: none or the next one. -/
theorem read (h : InFlight P writer reader wire pending) :
    ∃ done rest, pending = done ++ rest ∧ (reader.read P wire).2.2 = done.map delivered ∧
      (reader.read P wire).1.coder.egress = reader.coder.egress ∧
      InFlight P writer (reader.read P wire).1 (reader.read P wire).2.1 rest := by
  cases pending with
  | nil =>
    rw [h.read_nil]
    exact ⟨[], [], rfl, rfl, rfl, h⟩
  | cons f fs =>
    by_cases hread : reader.expecting = none
    · obtain ⟨reader', wire', heq, -, hegress, h'⟩ := h.read_header hread
      rw [heq]
      exact ⟨[], f :: fs, rfl, rfl, hegress, h'⟩
    · obtain ⟨reader', wire', heq, -, hegress, h'⟩ := h.read_frame hread
      rw [heq]
      exact ⟨[f], fs, rfl, rfl, hegress, h'⟩

/-- A header that was changed on the way is refused. -/
theorem changed_header (h : InFlight P writer reader wire pending)
    (hread : reader.expecting = none) (hwire : 32 ≤ wire.length) {io : Bytes}
    (hlen : io.length = 32) (hne : io ≠ wire.take 32)
    (hideal : RLPXFrameCoder.Unforged P writer (reader.coder.headerInput P io) (io.drop 16)) :
    (reader.coder.authAndDecryptHeader P io).1 = none := by
  unfold InFlight at h
  rw [hread] at h
  obtain ⟨w, hw, rfl, hlast⟩ := h
  have hmac : (writeAll P w pending).2.egressMac = writer.egressMac :=
    congrArg RLPXFrameCoder.Half.mac hlast
  cases pending with
  | nil => simp [writeAll] at hwire
  | cons f fs =>
    set header := f.header.out f.payload.length with hheader
    refine RLPXFrameCoder.changed_header_refused P hw header ?_ hlen ?_ hideal
    · rw [← hmac]
      simp only [writeAll, RLPXFrameCoder.writeFrame_eq, ← hheader]
      exact (RLPXFrameCoder.prefix_writePayload P _ f.payload).trans (prefix_writeAll P _ fs)
    · intro hio
      refine hne ?_
      simp only [writeAll, RLPXFrameCoder.writeFrame_eq, ← hheader, List.append_assoc]
      rw [List.take_left' (RLPXFrameCoder.length_writeHeader P header), hio]

/-- A frame that was changed on the way is refused. -/
theorem changed_frame (h : InFlight P writer reader wire pending) {info : RLPXFrameInfo}
    (hread : reader.expecting = some info) {io : Bytes}
    (hlen : io.length = info.length + info.padding + 16) (hne : io ≠ wire.take io.length)
    (hideal : RLPXFrameCoder.Unforged P writer (reader.coder.frameInput P io)
      (io.drop (io.length - 16))) :
    (reader.coder.authAndDecryptFrame P io).1 = none := by
  unfold InFlight at h
  rw [hread] at h
  obtain ⟨w, f, fs, rfl, rfl, hw, rfl, hlast⟩ := h
  have hmac : (writeAll P (w.writePayload P f.payload).2 fs).2.egressMac = writer.egressMac :=
    congrArg RLPXFrameCoder.Half.mac hlast
  have hlen' : io.length = (w.writePayload P f.payload).1.length := by
    rw [hlen, Frame.length_info, Frame.padding_info, RLPXFrameCoder.length_writePayload]
  refine RLPXFrameCoder.changed_frame_refused P hw f.payload ?_ hlen' ?_ hideal
  · rw [← hmac]
    exact prefix_writeAll P _ fs
  · intro hio
    refine hne ?_
    rw [List.take_left' hlen'.symm, hio]

end InFlight

/-- In both directions the frames that were written are the ones read so far and those in
flight. -/
def Link.Consistent (l : Link) (events : List Event) : Prop :=
  ∀ s, ∃ done pending, writtenBy (!s) events = done ++ pending ∧
    l.received s = done.map delivered ∧
    InFlight P (l.side !s).coder (l.side s) (l.wire !s) pending

namespace Link

variable {P} {l : Link} {events : List Event}

@[simp] theorem writtenBy_write (s s' : Bool) (f : Frame) :
    writtenBy s (events ++ [.write s' f]) =
      writtenBy s events ++ if s' = s then [f] else [] := by
  simp only [writtenBy, List.filterMap_append, List.filterMap_cons, List.filterMap_nil]
  split_ifs <;> rfl

@[simp] theorem writtenBy_read (s s' : Bool) :
    writtenBy s (events ++ [.read s']) = writtenBy s events := by
  simp [writtenBy]

theorem Consistent.write (h : l.Consistent P events) (s : Bool) (f : Frame) :
    (l.step P (.write s f)).Consistent P (events ++ [.write s f]) := by
  intro t
  obtain ⟨done, pending, hsent, hread, hflight⟩ := h t
  by_cases hts : t = s
  · -- The writing side reads as before.
    subst hts
    have hother : (!t) ≠ t := by cases t <;> decide
    refine ⟨done, pending, ?_, hread, ?_⟩
    · rw [writtenBy_write, if_neg hother.symm, List.append_nil, hsent]
    · simp only [step, Function.update_self, Function.update_of_ne hother]
      exact hflight.congr rfl (RLPXFrameCoder.ingress_writeFrame P _ _ _) rfl
  · obtain rfl : s = !t := by cases s <;> cases t <;> simp_all
    refine ⟨done, pending ++ [f], ?_, hread, ?_⟩
    · rw [writtenBy_write, if_pos rfl, hsent, List.append_assoc]
    · simp only [step, Function.update_self, Function.update_of_ne hts]
      exact hflight.write f

theorem Consistent.read (h : l.Consistent P events) (s : Bool) :
    (l.step P (.read s)).Consistent P (events ++ [.read s]) := by
  have hs := h s
  have hother : ∀ b : Bool, (!b) ≠ b := by decide
  intro t
  obtain ⟨done, pending, hsent, hread, hflight⟩ := h t
  by_cases hts : t = s
  · subst hts
    obtain ⟨now, rest, rfl, hout, -, hflight'⟩ := hflight.read
    refine ⟨done ++ now, rest, ?_, ?_, ?_⟩
    · rw [writtenBy_read, hsent, List.append_assoc]
    · simp only [step, Function.update_self, hread, hout, List.map_append]
    · simp only [step, Function.update_self, Function.update_of_ne (hother t)]
      exact hflight'
  · -- The reading side writes as before.
    obtain rfl : s = !t := by cases s <;> cases t <;> simp_all
    obtain ⟨_, _, _, _, hs⟩ := hs
    obtain ⟨_, _, -, -, hegress, -⟩ := hs.read
    rw [Bool.not_not] at hegress
    refine ⟨done, pending, ?_, ?_, ?_⟩
    · rw [writtenBy_read, hsent]
    · simp only [step, Function.update_of_ne hts, hread]
    · simp only [step, Bool.not_not, Function.update_self, Function.update_of_ne hts,
        Function.update_of_ne (hother t)]
      exact hflight.congr hegress rfl rfl

theorem Consistent.run (h : l.Consistent P []) (events : List Event) :
    (l.run P events).Consistent P events := by
  induction events using List.reverseRecOn with
  | nil => exact h
  | append_singleton events e ih =>
    rw [Link.run, List.foldl_concat]
    cases e with
    | write s f => exact ih.write s f
    | read s => exact ih.read s

/-- What is read is the beginning of what was written. -/
theorem Consistent.received_eq (h : l.Consistent P events) (s : Bool) :
    l.received s = ((writtenBy (!s) events).take (l.received s).length).map delivered := by
  obtain ⟨done, pending, hsent, hread, -⟩ := h s
  rw [hread, List.length_map, hsent, List.take_left]

theorem Consistent.reads (h : l.Consistent P events) (s : Bool) (n : ℕ) :
    (l.run P (List.replicate n (.read s))).Consistent P (events ++ List.replicate n (.read s)) := by
  induction n generalizing l events with
  | zero => simpa [Link.run] using h
  | succ n ih =>
    have hnext := ih (h.read s)
    rwa [List.append_assoc, List.singleton_append, ← List.replicate_succ] at hnext

/-- Two reads deliver one more frame. -/
theorem Consistent.advance (h : l.Consistent P events) (s : Bool)
    (hmore : (l.received s).length < (writtenBy (!s) events).length) :
    ∃ n, ((l.run P (List.replicate n (.read s))).received s).length =
      (l.received s).length + 1 := by
  obtain ⟨done, pending, hsent, hread, hflight⟩ := h s
  cases pending with
  | nil =>
    rw [hsent, hread, List.append_nil, List.length_map] at hmore
    omega
  | cons f fs =>
    by_cases hexpect : (l.side s).expecting = none
    · obtain ⟨reader', wire', hfirst, hinfo, -, hflight'⟩ := hflight.read_header hexpect
      have hne : reader'.expecting ≠ none := by simp [hinfo]
      obtain ⟨_, _, hsecond, -⟩ := hflight'.read_frame hne
      refine ⟨2, ?_⟩
      simp [Link.run, List.replicate_succ, step, hfirst, hsecond]
    · obtain ⟨_, _, hfirst, -⟩ := hflight.read_frame hexpect
      refine ⟨1, ?_⟩
      simp [Link.run, step, hfirst]

/-- Reading on delivers every frame that was written. -/
theorem Consistent.drain (h : l.Consistent P events) (s : Bool) :
    ∃ n, (l.run P (List.replicate n (.read s))).received s =
      (writtenBy (!s) events).map delivered := by
  obtain ⟨k, hk⟩ : ∃ k, (writtenBy (!s) events).length ≤ (l.received s).length + k :=
    ⟨_, Nat.le_add_left _ _⟩
  induction k generalizing l events with
  | zero =>
    refine ⟨0, (h.received_eq s).trans ?_⟩
    rw [List.take_of_length_le (by omega)]
  | succ k ih =>
    by_cases hmore : (l.received s).length < (writtenBy (!s) events).length
    · obtain ⟨n, hn⟩ := h.advance s hmore
      have hsame : writtenBy (!s) (events ++ List.replicate n (.read s)) =
          writtenBy (!s) events := by
        simp [writtenBy]
      have hreads := h.reads s n
      obtain ⟨m, hm⟩ := ih hreads (by rw [hsame, hn]; omega)
      refine ⟨n + m, ?_⟩
      rw [List.replicate_add, Link.run, List.foldl_append]
      rw [hsame] at hm
      exact hm
    · refine ⟨0, (h.received_eq s).trans ?_⟩
      rw [List.take_of_length_le (by omega)]

/-- The link between two sides that have made the same handshake. -/
def connect (P : Primitives) (secretO secretA : Secret) (nonceO nonceA : FixedHash 32)
    (ackCipher authCipher : Bytes) : Option Link := do
  let (originator, _) ← RLPXFrameCoder.setup P true (P.toPublic secretA) nonceA (.fresh secretO)
    nonceO ackCipher authCipher
  let (acceptor, _) ← RLPXFrameCoder.setup P false (P.toPublic secretO) nonceO (.fresh secretA)
    nonceA ackCipher authCipher
  return start originator acceptor

theorem connect_consistent (P : Primitives) (secretO secretA : Secret)
    (nonceO nonceA : FixedHash 32) (ackCipher authCipher : Bytes) :
    ∃ l, connect P secretO secretA nonceO nonceA ackCipher authCipher = some l ∧
      l.Consistent P [] := by
  obtain ⟨a, b, ha, hb, hab, hba⟩ :=
    RLPXFrameCoder.setup_mirrored P secretO secretA nonceO nonceA ackCipher authCipher
  refine ⟨start a b, ?_, fun s => ⟨[], [], rfl, rfl, ?_⟩⟩
  · simp only [connect, ha, hb, Option.bind_eq_bind, Option.bind_some, Option.pure_def]
  · cases s with
    | false => exact ⟨a, hab, rfl, rfl⟩
    | true => exact ⟨b, hba, rfl, rfl⟩

end Link

/-- In every run of a link each side reads the frames that the other one wrote, in order and
with what their headers said, and reading on delivers all of them. A header or a frame that
differs from the one on the wire is refused. -/
theorem frames_delivered_or_refused (secretO secretA : Secret) (nonceO nonceA : FixedHash 32)
    (ackCipher authCipher : Bytes) :
    ∃ l₀, Link.connect P secretO secretA nonceO nonceA ackCipher authCipher = some l₀ ∧
      ∀ (events : List Event) (s : Bool),
        let l := l₀.run P events
        let writer := (l.side !s).coder
        let reader := (l.side s).coder
        l.received s = ((writtenBy (!s) events).take (l.received s).length).map delivered ∧
        (∃ n, (l.run P (List.replicate n (.read s))).received s =
          (writtenBy (!s) events).map delivered) ∧
        (∀ io : Bytes, (l.side s).expecting = none → 32 ≤ (l.wire !s).length →
          io.length = 32 → io ≠ (l.wire !s).take 32 →
          RLPXFrameCoder.Unforged P writer (reader.headerInput P io) (io.drop 16) →
          (reader.authAndDecryptHeader P io).1 = none) ∧
        (∀ (io : Bytes) (info : RLPXFrameInfo), (l.side s).expecting = some info →
          io.length = info.length + info.padding + 16 → io ≠ (l.wire !s).take io.length →
          RLPXFrameCoder.Unforged P writer (reader.frameInput P io) (io.drop (io.length - 16)) →
          (reader.authAndDecryptFrame P io).1 = none) := by
  obtain ⟨l₀, hl₀, hstart⟩ :=
    Link.connect_consistent P secretO secretA nonceO nonceA ackCipher authCipher
  refine ⟨l₀, hl₀, fun events s => ?_⟩
  have hrun := hstart.run events
  obtain ⟨_, _, -, -, hflight⟩ := hrun s
  refine ⟨hrun.received_eq s, hrun.drain s, ?_, ?_⟩
  · intro io hread hwire hlen hne hideal
    exact hflight.changed_header hread hwire hlen hne hideal
  · intro io info hread hlen hne hideal
    exact hflight.changed_frame hread hlen hne hideal

end Runs

section Example

/-- Primitives to evaluate runs with: keys agree by combining them, a hash is a beginning
and a digest an end of what is hashed. -/
def xorPrimitives : Primitives where
  toPublic s := ⟨s.bytes ++ s.bytes, by simp⟩
  agree a b := a ^^^ FixedHash.ofRef 32 (b.bytes.take 32)
  sha3 b := FixedHash.ofRef 32 ((b ++ List.replicate 32 0).take 32)
  digest b := FixedHash.ofRef 16 ((b.reverse ++ List.replicate 16 0).take 16)
  keystream _ i := UInt8.ofNat i
  aes _ block := ⟨block.bytes.reverse, by simp⟩
  agree_comm a b := by
    have htake : ∀ c : Secret, (c.bytes ++ c.bytes).take 32 = c.bytes := fun c =>
      List.take_left' c.size
    simp only [htake, FixedHash.ofRef_self, FixedHash.xor_comm a b]

/-- The link of two sides with small keys. -/
def exampleLink : Link :=
  (Link.connect xorPrimitives ⟨List.replicate 32 1, rfl⟩ ⟨List.replicate 32 2, rfl⟩
    ⟨List.replicate 32 3, rfl⟩ ⟨List.replicate 32 4, rfl⟩ [5] [6]).get (by decide +kernel)

def exampleFrame : Frame := ⟨.first 1 2 7, [8, 9, 10], by decide⟩

/-- A run with one frame, of which the header or the body is changed in one byte. -/
theorem changed_byte_refused :
    (let l := exampleLink.run xorPrimitives [.write true exampleFrame]
     let header := ((l.wire true).take 32).set 20 77
     ((l.side false).coder.authAndDecryptHeader xorPrimitives header).1 = none) ∧
    (let l := exampleLink.run xorPrimitives [.write true exampleFrame, .read false]
     let frame := (l.wire true).set 1 77
     ((l.side false).coder.authAndDecryptFrame xorPrimitives frame).1 = none) := by
  obtain ⟨l, hl, h⟩ := frames_delivered_or_refused xorPrimitives ⟨List.replicate 32 1, rfl⟩
    ⟨List.replicate 32 2, rfl⟩ ⟨List.replicate 32 3, rfl⟩ ⟨List.replicate 32 4, rfl⟩ [5] [6]
  obtain rfl : l = exampleLink := Option.some.inj (hl.symm.trans (Option.some_get _).symm)
  constructor
  · refine (h [.write true exampleFrame] false).2.2.1 _ ?_ ?_ ?_ ?_ ?_
    · decide +kernel
    · decide +kernel
    · decide +kernel
    · decide +kernel
    · exact fun hforged => absurd hforged (by decide +kernel)
  · refine (h [.write true exampleFrame, .read false] false).2.2.2 _ exampleFrame.info ?_ ?_ ?_ ?_
    · decide +kernel
    · decide +kernel
    · decide +kernel
    · exact fun hforged => absurd hforged (by decide +kernel)

end Example
end XChain
