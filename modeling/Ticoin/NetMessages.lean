import Ticoin.ChainParams
import Ticoin.Lib.Framing
import Ticoin.Lib.Machine

/-!
# Messages between two nodes

A message is queued as one buffer in `vSendMsg`, a header of 24 bytes with the size of the payload
and the payload. `SocketSendData` hands what `send` takes of the queue to the socket, with an offset
into the first buffer, and `ReceiveMsgBytes` of the peer cuts the bytes that arrive, in chunks of any
length, into `CNetMessage`s.

Whatever `send` takes and however the bytes arrive, no assertion of `SocketSendData` fails,
`nSendSize` is the size of the queue, the bytes sent begin the queued messages, and the peer holds
the messages that arrived whole and at most an incomplete one after them (`messages_of_run`).
-/

namespace Ticoin

open Codec Framing

/-! ## CMessageHeader -/

def MESSAGE_SIZE_OFFSET : ℕ := 16

def CHECKSUM_OFFSET : ℕ := 20

def HEADER_SIZE : ℕ := 24

structure CMessageHeader where
  pchMessageStart : Bytes
  pchCommand : Bytes
  nMessageSize : UInt32
  nChecksum : UInt32
  deriving DecidableEq

/-- The header of a `CNetMessage` before it is read. -/
def CMessageHeader.empty (network : Network) : CMessageHeader where
  pchMessageStart := messageStart network
  pchCommand := [0, 1, 0, 0, 0, 0, 0, 0, 0, 0, 0, 0]
  nMessageSize := -1
  nChecksum := 0

/-- `strncpy` into the command of a header. -/
def padCommand (pszCommand : Bytes) : Bytes :=
  let command := (pszCommand.takeWhile (· ≠ 0)).take 12
  command ++ List.replicate (12 - command.length) 0

def CMessageHeader.new (network : Network) (pszCommand : Bytes) (nMessageSizeIn : UInt32) :
    CMessageHeader where
  pchMessageStart := messageStart network
  pchCommand := padCommand pszCommand
  nMessageSize := nMessageSizeIn
  nChecksum := 0

def CMessageHeader.serialize (hdr : CMessageHeader) : Bytes :=
  hdr.pchMessageStart ++ (hdr.pchCommand ++
    (serializeUInt32 hdr.nMessageSize ++ serializeUInt32 hdr.nChecksum))

def CMessageHeader.unserialize : Reader CMessageHeader := do
  let pchMessageStart ← readBytes endOfData 4
  let pchCommand ← readBytes endOfData 12
  let nMessageSize ← unserializeUInt32
  let nChecksum ← unserializeUInt32
  return ⟨pchMessageStart, pchCommand, nMessageSize, nChecksum⟩

/-! ## CNetMessage -/

structure CNetMessage where
  in_data : Bool
  hdrbuf : Bytes
  hdr : CMessageHeader
  nHdrPos : ℕ
  vRecv : Bytes
  nDataPos : ℕ
  deriving DecidableEq

namespace CNetMessage

def new (network : Network) : CNetMessage where
  in_data := false
  hdrbuf := List.replicate 24 0
  hdr := .empty network
  nHdrPos := 0
  vRecv := []
  nDataPos := 0

def complete (msg : CNetMessage) : Bool :=
  msg.in_data && msg.hdr.nMessageSize.toNat == msg.nDataPos

/-- `readHeader`, with `none` for its answer below zero. -/
def readHeader (pch : Bytes) (msg : CNetMessage) : Option ℕ × CNetMessage :=
  let nCopy := min (24 - msg.nHdrPos) pch.length
  let msg := { msg with
    hdrbuf := overwrite msg.nHdrPos (pch.take nCopy) msg.hdrbuf
    nHdrPos := msg.nHdrPos + nCopy }
  if msg.nHdrPos < 24 then (some nCopy, msg)
  else
    match CMessageHeader.unserialize msg.hdrbuf with
    | .error _ => (none, msg)
    | .ok (hdr, hdrbuf) =>
      if hdr.nMessageSize.toNat > MAX_SIZE then (none, { msg with hdr := hdr, hdrbuf := hdrbuf })
      else
        (some nCopy, { msg with
          hdr := hdr
          hdrbuf := hdrbuf
          in_data := true
          vRecv := msg.vRecv.take hdr.nMessageSize.toNat ++
            List.replicate (hdr.nMessageSize.toNat - msg.vRecv.length) 0 })

def readData (pch : Bytes) (msg : CNetMessage) : Option ℕ × CNetMessage :=
  let nCopy := min (msg.hdr.nMessageSize.toNat - msg.nDataPos) pch.length
  (some nCopy, { msg with
    vRecv := overwrite msg.nDataPos (pch.take nCopy) msg.vRecv
    nDataPos := msg.nDataPos + nCopy })

end CNetMessage

/-! ## ReceiveMsgBytes -/

/-- The messages before the current incomplete one, and that or a new one. -/
def currentMessage (network : Network) (vRecvMsg : List CNetMessage) : List CNetMessage × CNetMessage :=
  match vRecvMsg.getLast? with
  | none => ([], .new network)
  | some msg => if msg.complete then (vRecvMsg, .new network) else (vRecvMsg.dropLast, msg)

/-- `CNode::ReceiveMsgBytes` in some rounds, and `none` when they are not enough. -/
def receiveMsgBytes (network : Network) :
    ℕ → Bytes → List CNetMessage → Option (Bool × List CNetMessage)
  | _, [], vRecvMsg => some (true, vRecvMsg)
  | 0, _ :: _, _ => none
  | n + 1, pch, vRecvMsg =>
    let (before, msg) := currentMessage network vRecvMsg
    match if msg.in_data then msg.readData pch else msg.readHeader pch with
    | (none, msg) => some (false, before ++ [msg])
    | (some handled, msg) => receiveMsgBytes network n (pch.drop handled) (before ++ [msg])

/-! ## SocketSendData -/

/-- What `send` does with some bytes : it takes a number of them, would block, or fails. -/
inductive SendResult (len : ℕ)
  | bytes (n : Fin (len + 1))
  | wouldBlock
  | failed

/-- The answers of `send`, by the number of the call and of the bytes offered. -/
abbrev SendOracle := ℕ → (len : ℕ) → SendResult len

/-- The assertions that a connection can fail. -/
inductive NetAssert
  | beginMessage
  | endMessage
  | dataLeft
  | offsetZero
  | sizeZero
  | receiveRounds
  deriving DecidableEq

/-- What sending and receiving keep of a `CNode`. -/
structure CNode where
  ssSend : Bytes
  nSendSize : ℕ
  nSendOffset : ℕ
  vSendMsg : List Bytes
  vRecvMsg : List CNetMessage
  fDisconnect : Bool

def CNode.new : CNode := ⟨[], 0, 0, [], [], false⟩

def CNode.closeSocketDisconnect (pnode : CNode) : CNode :=
  { pnode with fDisconnect := true, vRecvMsg := [] }

/-- The loop of `SocketSendData` over the buffers from `it` on. The node has the others erased, and
the bytes that `send` took are added to a stream. -/
def sendLoop (send : SendOracle) : List Bytes → CNode → Bytes → Except NetAssert (CNode × Bytes)
  | [], pnode, sent => .ok ({ pnode with vSendMsg := [] }, sent)
  | data :: it, pnode, sent =>
    if pnode.nSendOffset < data.length then
      match send 0 (data.length - pnode.nSendOffset) with
      | .bytes n =>
        if 0 < n.val then
          let sent := sent ++ (data.drop pnode.nSendOffset).take n
          if pnode.nSendOffset + n = data.length then
            sendLoop (fun i => send (i + 1)) it
              { pnode with nSendOffset := 0, nSendSize := pnode.nSendSize - data.length } sent
          else
            .ok ({ pnode with nSendOffset := pnode.nSendOffset + n, vSendMsg := data :: it }, sent)
        else .ok ({ pnode with vSendMsg := data :: it }, sent)
      | .wouldBlock => .ok ({ pnode with vSendMsg := data :: it }, sent)
      | .failed => .ok ({ pnode with vSendMsg := data :: it }.closeSocketDisconnect, sent)
    else .error .dataLeft

/-- `SocketSendData`. -/
def socketSendData (send : SendOracle) (pnode : CNode) (sent : Bytes) :
    Except NetAssert (CNode × Bytes) := do
  let (pnode, sent) ← sendLoop send pnode.vSendMsg pnode sent
  if pnode.vSendMsg = [] ∧ pnode.nSendOffset ≠ 0 then throw .offsetZero
  if pnode.vSendMsg = [] ∧ pnode.nSendSize ≠ 0 then throw .sizeZero
  return (pnode, sent)

/-! ## Messages -/

variable (H : Bytes → UInt256) (network : Network)

/-- `BeginMessage`. -/
def beginMessage (pszCommand : Bytes) (pnode : CNode) : Except NetAssert CNode :=
  if pnode.ssSend = [] then
    .ok { pnode with ssSend := (CMessageHeader.new network pszCommand 0).serialize }
  else .error .beginMessage

/-- `AbortMessage`. -/
def abortMessage (pnode : CNode) : CNode := { pnode with ssSend := [] }

/-- The bytes of a message with its size and checksum set. -/
def sealMessage (ssSend : Bytes) : Bytes :=
  let nSize := UInt32.ofNat (ssSend.length - HEADER_SIZE)
  let hash := H (ssSend.drop HEADER_SIZE)
  overwrite CHECKSUM_OFFSET ((serializeUInt256 hash).take 4)
    (overwrite MESSAGE_SIZE_OFFSET (serializeUInt32 nSize) ssSend)

/-- `EndMessage`, with whether `-dropmessagestest` drops the message and what `Fuzz` makes of it :
the node, the messages queued and the stream of bytes sent. -/
def endMessage (fDrop : Bool) (fuzz : Bytes → Bytes) (send : SendOracle) (pnode : CNode)
    (sent : Bytes) : Except NetAssert (CNode × List Bytes × Bytes) :=
  if fDrop then .ok (abortMessage pnode, [], sent)
  else
    let ssSend := fuzz pnode.ssSend
    if ssSend = [] then .ok ({ pnode with ssSend := [] }, [], sent)
    else if ssSend.length < HEADER_SIZE then .error .endMessage
    else do
      let data := sealMessage H ssSend
      let queued := { pnode with
        ssSend := []
        vSendMsg := pnode.vSendMsg ++ [data]
        nSendSize := pnode.nSendSize + data.length }
      if pnode.vSendMsg = [] then
        let (pnode, sent) ← socketSendData send queued sent
        return (pnode, [data], sent)
      else return (queued, [data], sent)

/-! ## Connections -/

/-- A node and its peer. `queued` has the messages that `EndMessage` has queued, `sent` the bytes
that `send` has taken, and `received` those of them passed to the peer. -/
structure Connection where
  node : CNode
  peer : CNode
  queued : List Bytes
  sent : Bytes
  received : Bytes

def Connection.new : Connection := ⟨.new, .new, [], [], []⟩

inductive NetOp
  | beginMessage (pszCommand : Bytes)
  | write (data : Bytes)
  | abortMessage
  | endMessage (fDrop : Bool) (fuzz : Bytes → Bytes) (send : SendOracle)
  | socketSendData (send : SendOracle)
  | receive (nBytes : ℕ)

/-- The next bytes of the stream, at most a number of them, are passed to the peer. -/
def Connection.receive (nBytes : ℕ) (c : Connection) : Except NetAssert Connection :=
  let pch := (c.sent.drop c.received.length).take nBytes
  match receiveMsgBytes network pch.length pch c.peer.vRecvMsg with
  | none => .error .receiveRounds
  | some (fOk, vRecvMsg) =>
    let peer := { c.peer with vRecvMsg := vRecvMsg }
    .ok { c with
      peer := if fOk then peer else peer.closeSocketDisconnect
      received := c.received ++ pch }

def Connection.step (c : Connection) : NetOp → Except NetAssert Connection
  | .beginMessage pszCommand => do
    let node ← Ticoin.beginMessage network pszCommand c.node
    return { c with node := node }
  | .write data => .ok { c with node := { c.node with ssSend := c.node.ssSend ++ data } }
  | .abortMessage => .ok { c with node := Ticoin.abortMessage c.node }
  | .endMessage fDrop fuzz send => do
    let (node, queued, sent) ← Ticoin.endMessage H fDrop fuzz send c.node c.sent
    return { c with node := node, queued := c.queued ++ queued, sent := sent }
  | .socketSendData send => do
    let (node, sent) ← Ticoin.socketSendData send c.node c.sent
    return { c with node := node, sent := sent }
  | .receive nBytes => c.receive network nBytes

/-! ## Headers of messages -/

/-- The header in the first bytes of a message. -/
def headerOf (data : Bytes) : CMessageHeader where
  pchMessageStart := data.take 4
  pchCommand := (data.drop 4).take 12
  nMessageSize := UInt32.ofNat (ofLeBytes ((data.drop 16).take 4))
  nChecksum := UInt32.ofNat (ofLeBytes ((data.drop 20).take 4))

theorem reads_uint32_ofLeBytes {bs : Bytes} (h : bs.length = 4) :
    Reads unserializeUInt32 bs (UInt32.ofNat (ofLeBytes bs)) := by
  have hlt := ofLeBytes_lt bs
  rw [h] at hlt
  have hread := reads_uint32 (UInt32.ofNat (ofLeBytes bs))
  rw [serializeUInt32, UInt32.toNat_ofNat_of_lt' hlt, ← h, leBytes_ofLeBytes] at hread
  exact hread

/-- A header is read from its 24 bytes. -/
theorem unserialize_headerOf {data : Bytes} (h : data.length = 24) :
    CMessageHeader.unserialize data = .ok (headerOf data, []) := by
  have hstart : Reads (readBytes endOfData 4) (data.take 4) (data.take 4) := by
    have hread := reads_readBytes endOfData (data.take 4)
    rw [List.length_take, h] at hread
    exact hread
  have hcommand : Reads (readBytes endOfData 12) ((data.drop 4).take 12) ((data.drop 4).take 12) := by
    have hread := reads_readBytes endOfData ((data.drop 4).take 12)
    rw [List.length_take, List.length_drop, h] at hread
    exact hread
  have hsize : Reads unserializeUInt32 ((data.drop 16).take 4) (headerOf data).nMessageSize :=
    reads_uint32_ofLeBytes (by simp [h])
  have hchecksum : Reads unserializeUInt32 ((data.drop 20).take 4) (headerOf data).nChecksum :=
    reads_uint32_ofLeBytes (by simp [h])
  have hread : Reads CMessageHeader.unserialize
      (data.take 4 ++ ((data.drop 4).take 12 ++ ((data.drop 16).take 4 ++ (data.drop 20).take 4)))
      (headerOf data) :=
    hstart.bind (hcommand.bind (hsize.bind (hchecksum.map _)))
  have hall := hread []
  rw [List.append_nil] at hall
  have hdata : data.take 4 ++ ((data.drop 4).take 12 ++ ((data.drop 16).take 4 ++
      (data.drop 20).take 4)) = data := by
    rw [List.take_of_length_le (l := data.drop 20) (by rw [List.length_drop, h])]
    rw [show data.drop 20 = (data.drop 16).drop 4 by rw [List.drop_drop], List.take_append_drop,
      show data.drop 16 = (data.drop 4).drop 12 by rw [List.drop_drop], List.take_append_drop,
      List.take_append_drop]
  rw [hdata] at hall
  exact hall

theorem headerOf_append {data : Bytes} (h : 24 ≤ data.length) (bs : Bytes) :
    headerOf (data ++ bs) = headerOf data := by
  have htake : ∀ k n, k + n ≤ 24 → ((data ++ bs).drop k).take n = (data.drop k).take n := by
    intro k n hkn
    rw [List.drop_append_of_le_length (by omega),
      List.take_append_of_le_length (by rw [List.length_drop]; omega)]
  have hstart : (data ++ bs).take 4 = data.take 4 := List.take_append_of_le_length (by omega)
  rw [headerOf, headerOf, hstart, htake 4 12 (by omega), htake 16 4 (by omega), htake 20 4 (by omega)]

/-- A message whose size is that of its payload. -/
structure Framed (data : Bytes) : Prop where
  length_ge : HEADER_SIZE ≤ data.length
  size_eq : HEADER_SIZE + (headerOf data).nMessageSize.toNat = data.length
  size_le : (headerOf data).nMessageSize.toNat ≤ MAX_SIZE

/-- `EndMessage` sets the size and the checksum and leaves the rest. -/
theorem sealMessage_eq {ssSend : Bytes} (hge : HEADER_SIZE ≤ ssSend.length) :
    sealMessage H ssSend = ssSend.take 16 ++
      (serializeUInt32 (UInt32.ofNat (ssSend.length - HEADER_SIZE)) ++
        ((serializeUInt256 (H (ssSend.drop HEADER_SIZE))).take 4 ++ ssSend.drop HEADER_SIZE)) := by
  rw [HEADER_SIZE] at hge
  have hsize : ∀ n : UInt32, (serializeUInt32 n).length = 4 := fun n => length_leBytes 4 _
  have hsum : ∀ n : UInt256, ((serializeUInt256 n).take 4).length = 4 := fun n => by
    rw [List.length_take, serializeUInt256, length_leBytes]
    rfl
  have hpre : (ssSend.take 16).length = 16 := by
    rw [List.length_take]
    omega
  rw [sealMessage]
  generalize hnew : serializeUInt32 (UInt32.ofNat (ssSend.length - HEADER_SIZE)) = new
  have hnewlen : new.length = 4 := by rw [← hnew, hsize]
  have hfirst : overwrite MESSAGE_SIZE_OFFSET new ssSend =
      ssSend.take 16 ++ new ++ ssSend.drop 20 := by
    rw [overwrite, hnewlen]
    rfl
  have hpre' : (ssSend.take 16 ++ new).length = CHECKSUM_OFFSET := by
    rw [List.length_append, hpre, hnewlen]
    rfl
  rw [hfirst, ← hpre', overwrite_append, hsum, List.drop_drop, List.append_assoc, List.append_assoc]
  rfl

theorem length_sealMessage {ssSend : Bytes} (hge : HEADER_SIZE ≤ ssSend.length) :
    (sealMessage H ssSend).length = ssSend.length := by
  rw [sealMessage_eq H hge]
  rw [HEADER_SIZE] at hge ⊢
  simp only [List.length_append, List.length_take, List.length_drop, serializeUInt32,
    serializeUInt256, length_leBytes]
  omega

/-- The size that `EndMessage` sets is that of the payload. -/
theorem framed_sealMessage {ssSend : Bytes} (hge : HEADER_SIZE ≤ ssSend.length)
    (hle : (sealMessage H ssSend).length ≤ HEADER_SIZE + MAX_SIZE) :
    Framed (sealMessage H ssSend) := by
  have hlen := length_sealMessage H hge
  rw [hlen] at hle
  have hfield : ((sealMessage H ssSend).drop 16).take 4 =
      serializeUInt32 (UInt32.ofNat (ssSend.length - HEADER_SIZE)) := by
    rw [sealMessage_eq H hge, List.drop_left', List.take_left']
    · exact length_leBytes 4 _
    · rw [List.length_take]
      rw [HEADER_SIZE] at hge
      omega
  have hlt : ssSend.length - HEADER_SIZE < 2 ^ 32 := by
    rw [MAX_SIZE] at hle
    omega
  have hsize : (headerOf (sealMessage H ssSend)).nMessageSize.toNat = ssSend.length - HEADER_SIZE := by
    rw [headerOf, hfield, serializeUInt32, UInt32.toNat_ofNat_of_lt' hlt,
      ofLeBytes_leBytes_of_lt hlt, UInt32.toNat_ofNat_of_lt' hlt]
  constructor
  · rw [hlen]
    exact hge
  · rw [hsize, hlen]
    omega
  · rw [hsize]
    omega

/-! ## What a message has absorbed -/

/-- A `CNetMessage` that has absorbed some bytes. -/
def CNetMessage.absorbed (network : Network) (bs : Bytes) : CNetMessage :=
  if bs.length < 24 then
    { CNetMessage.new network with
      hdrbuf := bs ++ List.replicate (24 - bs.length) 0
      nHdrPos := bs.length }
  else
    { in_data := true
      hdrbuf := []
      hdr := headerOf bs
      nHdrPos := 24
      vRecv := bs.drop 24 ++
        List.replicate ((headerOf bs).nMessageSize.toNat - (bs.length - 24)) 0
      nDataPos := bs.length - 24 }

/-- The `CNetMessage` of a message that arrived whole. -/
def CNetMessage.received (data : Bytes) : CNetMessage where
  in_data := true
  hdrbuf := []
  hdr := headerOf data
  nHdrPos := 24
  vRecv := data.drop HEADER_SIZE
  nDataPos := data.length - HEADER_SIZE

namespace CNetMessage

variable {network} {bs pch data : Bytes}

theorem absorbed_nil : absorbed network [] = new network := rfl

theorem Framed.absorbed_eq (h : Framed data) : absorbed network data = received data := by
  have hge := h.length_ge
  have hsize := h.size_eq
  rw [HEADER_SIZE] at hge hsize
  rw [absorbed, if_neg (not_lt.mpr hge), received, HEADER_SIZE,
    show (headerOf data).nMessageSize.toNat - (data.length - 24) = 0 by omega, List.replicate_zero,
    List.append_nil]

theorem Framed.complete_received (h : Framed data) : (received data).complete = true := by
  have hsize := h.size_eq
  rw [HEADER_SIZE] at hsize
  rw [complete, received, Bool.true_and, beq_iff_eq, HEADER_SIZE]
  dsimp only
  omega

/-- A proper part of a message is incomplete. -/
theorem Framed.complete_absorbed (h : Framed data) (hpre : bs <+: data) (hne : bs ≠ data) :
    (absorbed network bs).complete = false := by
  have hlt : bs.length < data.length :=
    lt_of_le_of_ne hpre.length_le fun heq => hne (hpre.eq_of_length heq)
  rw [absorbed]
  split
  · rfl
  · rename_i hge
    obtain ⟨tail, rfl⟩ := hpre
    have hsize := h.size_eq
    rw [headerOf_append (by omega), HEADER_SIZE] at hsize
    rw [complete, Bool.true_and, beq_eq_false_iff_ne]
    dsimp only
    omega

/-- Reading the header absorbs what is left of it. -/
theorem readHeader_absorbed (hlt : bs.length < 24)
    (hmax : 24 - bs.length ≤ pch.length →
      (headerOf (bs ++ pch.take (24 - bs.length))).nMessageSize.toNat ≤ MAX_SIZE) :
    (absorbed network bs).readHeader pch = (some (min (24 - bs.length) pch.length),
      absorbed network (bs ++ pch.take (min (24 - bs.length) pch.length))) := by
  have hstate : absorbed network bs = { new network with
      hdrbuf := bs ++ List.replicate (24 - bs.length) 0
      nHdrPos := bs.length } := by
    rw [absorbed, if_pos hlt]
  rw [hstate, readHeader]
  dsimp only
  generalize hn : min (24 - bs.length) pch.length = n
  have htake : (pch.take n).length = n := by
    rw [List.length_take]
    omega
  have hlen : (bs ++ pch.take n).length = bs.length + n := by rw [List.length_append, htake]
  have hbuf : overwrite bs.length (pch.take n) (bs ++ List.replicate (24 - bs.length) 0) =
      bs ++ pch.take n ++ List.replicate (24 - (bs ++ pch.take n).length) 0 := by
    rw [overwrite_append, htake, List.drop_replicate, hlen, Nat.sub_sub]
  rw [hbuf]
  split
  · rename_i hshort
    rw [absorbed, if_pos (by rw [hlen]; exact hshort), hlen]
  · rename_i hfull
    have hpos : bs.length + n = 24 := by omega
    have h24 : (bs ++ pch.take n).length = 24 := by rw [hlen, hpos]
    have hmax' : (headerOf (bs ++ pch.take n)).nMessageSize.toNat ≤ MAX_SIZE := by
      have hmax' := hmax (by omega)
      rw [show 24 - bs.length = n by omega] at hmax'
      exact hmax'
    rw [h24, Nat.sub_self, List.replicate_zero, List.append_nil, unserialize_headerOf h24]
    dsimp only
    rw [if_neg (not_lt.mpr hmax'), absorbed, if_neg (by omega), hpos, h24,
      List.drop_eq_nil_of_le h24.le, Nat.sub_self, show (new network).vRecv = [] from rfl,
      List.take_nil]
    rfl

/-- Reading the data absorbs what is left of it. -/
theorem readData_absorbed (hge : 24 ≤ bs.length)
    (hle : bs.length ≤ 24 + (headerOf bs).nMessageSize.toNat) :
    (absorbed network bs).readData pch =
      (some (min (24 + (headerOf bs).nMessageSize.toNat - bs.length) pch.length),
        absorbed network
          (bs ++ pch.take (min (24 + (headerOf bs).nMessageSize.toNat - bs.length) pch.length))) := by
  have hdrop : (bs.drop 24).length = bs.length - 24 := List.length_drop
  rw [absorbed, if_neg (not_lt.mpr hge), readData]
  dsimp only
  rw [show (headerOf bs).nMessageSize.toNat - (bs.length - 24) =
    24 + (headerOf bs).nMessageSize.toNat - bs.length by omega]
  generalize hn : min (24 + (headerOf bs).nMessageSize.toNat - bs.length) pch.length = n
  have htake : (pch.take n).length = n := by
    rw [List.length_take]
    omega
  have hlen : (bs ++ pch.take n).length = bs.length + n := by rw [List.length_append, htake]
  rw [← hdrop, overwrite_append, htake, List.drop_replicate, absorbed, if_neg (by omega),
    headerOf_append hge, hlen, List.drop_append_of_le_length hge, hdrop,
    show 24 + (headerOf bs).nMessageSize.toNat - bs.length - n =
      (headerOf bs).nMessageSize.toNat - (bs.length + n - 24) by omega,
    show bs.length - 24 + n = bs.length + n - 24 by omega]

variable (network) in
/-- Some of the bytes of a message are absorbed, and none beyond its end. -/
theorem Framed.absorb {rest tail : Bytes} (h : Framed data) (hpre : rest <+: data) (hne : rest ≠ data)
    (hpch : pch ≠ []) (hmore : rest ++ pch <+: data ++ tail) :
    ∃ k, 0 < k ∧ k ≤ pch.length ∧ rest ++ pch.take k <+: data ∧
      (if (absorbed network rest).in_data then (absorbed network rest).readData pch
        else (absorbed network rest).readHeader pch) =
        (some k, absorbed network (rest ++ pch.take k)) := by
  have hge := h.length_ge
  have hsize := h.size_eq
  rw [HEADER_SIZE] at hge hsize
  have hpos := List.length_pos_iff.mpr hpch
  have hlt : rest.length < data.length :=
    lt_of_le_of_ne hpre.length_le fun heq => hne (hpre.eq_of_length heq)
  have hwithin : ∀ k, rest.length + k ≤ data.length → rest ++ pch.take k <+: data := by
    intro k hk
    have htake : rest ++ pch.take k <+: data ++ tail :=
      ((List.prefix_append_right_inj rest).mpr (List.take_prefix k pch)).trans hmore
    refine List.prefix_of_prefix_length_le htake (List.prefix_append _ _) ?_
    rw [List.length_append, List.length_take]
    omega
  by_cases hshort : rest.length < 24
  · refine ⟨min (24 - rest.length) pch.length, by omega, by omega, hwithin _ (by omega), ?_⟩
    have hin : (absorbed network rest).in_data = false := by
      rw [absorbed, if_pos hshort]
      rfl
    rw [hin, if_neg Bool.false_ne_true]
    refine readHeader_absorbed hshort fun hlong => ?_
    obtain ⟨t, ht⟩ := hwithin (24 - rest.length) (by omega)
    have hheader := headerOf_append (show 24 ≤ (rest ++ pch.take (24 - rest.length)).length by
      rw [List.length_append, List.length_take]; omega) t
    rw [ht] at hheader
    rw [← hheader]
    exact h.size_le
  · rw [not_lt] at hshort
    obtain ⟨t, ht⟩ := hpre
    have hheader := headerOf_append hshort t
    rw [ht] at hheader
    rw [hheader] at hsize
    refine ⟨min (24 + (headerOf rest).nMessageSize.toNat - rest.length) pch.length, by omega,
      by omega, hwithin _ (by omega), ?_⟩
    have hin : (absorbed network rest).in_data = true := by
      rw [absorbed, if_neg (not_lt.mpr hshort)]
    rw [hin, if_pos rfl]
    exact readData_absorbed hshort (by omega)

end CNetMessage

/-! ## What the peer holds -/

/-- The messages that arrived whole, and the beginning of the next. -/
def Holds (frames : List Bytes) (stream : Bytes) (vRecvMsg : List CNetMessage) : Prop :=
  ∃ full rest, Cut frames stream full rest ∧
    vRecvMsg = full.map .received ++ if rest = [] then [] else [.absorbed network rest]

variable {network} {frames frames' full : List Bytes} {stream rest pch : Bytes}
  {vRecvMsg : List CNetMessage}

theorem Holds.nil (frames : List Bytes) : Holds network frames [] [] :=
  ⟨[], [], Cut.nil frames, rfl⟩

theorem Holds.mono (h : Holds network frames stream vRecvMsg) (hframes : frames <+: frames') :
    Holds network frames' stream vRecvMsg :=
  h.imp fun _ ⟨rest, hcut, heq⟩ => ⟨rest, hcut.mono hframes, heq⟩

/-- The message that goes on where the stream was cut. -/
theorem currentMessage_cut (hframed : ∀ data ∈ frames, Framed data) (hcut : Cut frames stream full rest) :
    currentMessage network (full.map .received ++
        if rest = [] then [] else [.absorbed network rest]) =
      (full.map .received, .absorbed network rest) := by
  by_cases hrest : rest = []
  · rw [if_pos hrest, List.append_nil, currentMessage, hrest, CNetMessage.absorbed_nil,
      List.getLast?_map]
    cases hlast : full.getLast? with
    | none => rw [List.getLast?_eq_none_iff.mp hlast]; rfl
    | some data =>
      have hmem : data ∈ frames := hcut.full_prefix.subset (List.mem_of_getLast? hlast)
      have hcomplete := CNetMessage.Framed.complete_received (hframed data hmem)
      simp only [Option.map_some, hcomplete, if_true]
  · rw [if_neg hrest, currentMessage, List.getLast?_concat]
    rcases hcut.rest_proper with hnil | ⟨data, hnext, hpre, hne⟩
    · exact absurd hnil hrest
    · have hmem : data ∈ frames := hnext.subset (by simp)
      have hincomplete : (CNetMessage.absorbed network rest).complete = false :=
        CNetMessage.Framed.complete_absorbed (hframed data hmem) hpre hne
      simp only [hincomplete, Bool.false_eq_true, if_false, List.dropLast_concat]

/-- Bytes that go on the stream are received, in at most as many rounds as there are. -/
theorem Holds.receiveMsgBytes (hframed : ∀ data ∈ frames, Framed data) : ∀ {n : ℕ} {pch stream : Bytes}
    {vRecvMsg : List CNetMessage}, Holds network frames stream vRecvMsg → pch.length ≤ n →
    stream ++ pch <+: frames.flatten →
    ∃ vRecvMsg', receiveMsgBytes network n pch vRecvMsg = some (true, vRecvMsg') ∧
      Holds network frames (stream ++ pch) vRecvMsg'
  | n, [], stream, vRecvMsg, h, _, _ => by
    rw [List.append_nil]
    exact ⟨vRecvMsg, by rw [Ticoin.receiveMsgBytes], h⟩
  | n + 1, b :: bs, stream, vRecvMsg, h, hle, hmore => by
    obtain ⟨full, rest, hcut, rfl⟩ := h
    have hne : ∀ data ∈ frames, data ≠ [] := by
      rintro data hdata rfl
      exact absurd (hframed [] hdata).length_ge (by decide)
    obtain ⟨data, tail, hsplit, hpre, hproper, hbytes⟩ := hcut.next hne (List.cons_ne_nil b bs) hmore
    have hdata : Framed data := hframed data (by rw [hsplit]; simp)
    have hnext : full ++ [data] <+: frames := ⟨tail, by rw [hsplit]; simp⟩
    obtain ⟨k, hpos, hk, hwithin, hread⟩ := CNetMessage.Framed.absorb network hdata hpre
      hproper (List.cons_ne_nil b bs) hbytes
    -- the messages after this round
    have hround : Holds network frames (stream ++ (b :: bs).take k)
        (full.map .received ++ [.absorbed network (rest ++ (b :: bs).take k)]) := by
      by_cases hend : rest ++ (b :: bs).take k = data
      · refine ⟨full ++ [data], [], hcut.finish hnext hend, ?_⟩
        rw [hend, CNetMessage.Framed.absorbed_eq hdata, if_pos rfl, List.append_nil, List.map_append]
        rfl
      · refine ⟨full, rest ++ (b :: bs).take k, hcut.within hnext hwithin hend, ?_⟩
        rw [if_neg]
        intro hnil
        have hlen := congrArg List.length (List.append_eq_nil_iff.mp hnil).2
        rw [List.length_take, List.length_nil] at hlen
        omega
    have hrest : (stream ++ (b :: bs).take k) ++ (b :: bs).drop k = stream ++ b :: bs := by
      rw [List.append_assoc, List.take_append_drop]
    obtain ⟨vRecvMsg', hloop, hholds⟩ := hround.receiveMsgBytes hframed
      (show ((b :: bs).drop k).length ≤ n by rw [List.length_drop]; omega) (by rw [hrest]; exact hmore)
    rw [hrest] at hholds
    refine ⟨vRecvMsg', ?_, hholds⟩
    rw [Ticoin.receiveMsgBytes, currentMessage_cut hframed hcut]
    · dsimp only
      rw [hread]
      exact hloop
    · exact List.cons_ne_nil b bs

/-! ## What the sender keeps -/

/-- The buffers still to be sent, some of the first perhaps already. -/
structure SendQueue (vSendMsg : List Bytes) (nSendOffset nSendSize : ℕ) : Prop where
  size_eq : nSendSize = (vSendMsg.map List.length).sum
  offset_zero : vSendMsg = [] → nSendOffset = 0
  offset_lt : ∀ data it, vSendMsg = data :: it → nSendOffset < data.length
  ne_nil : ∀ data ∈ vSendMsg, data ≠ []

theorem SendQueue.nil : SendQueue [] 0 0 := ⟨rfl, fun _ => rfl, nofun, nofun⟩

/-- The bytes of the queue that are not yet sent. -/
def CNode.unsent (pnode : CNode) : Bytes := pnode.vSendMsg.flatten.drop pnode.nSendOffset

def CNode.Sends (pnode : CNode) : Prop :=
  SendQueue pnode.vSendMsg pnode.nSendOffset pnode.nSendSize

/-- The first buffer is gone. -/
theorem SendQueue.tail {data : Bytes} {it : List Bytes} {nSendOffset nSendSize : ℕ}
    (h : SendQueue (data :: it) nSendOffset nSendSize) : SendQueue it 0 (nSendSize - data.length) where
  size_eq := by
    have hsize := h.size_eq
    rw [List.map_cons, List.sum_cons] at hsize
    omega
  offset_zero _ := rfl
  offset_lt data' it' heq :=
    List.length_pos_iff.mpr (h.ne_nil data' (by rw [heq]; simp))
  ne_nil data' hmem := h.ne_nil data' (List.mem_cons_of_mem data hmem)

/-- Part of what is left of the first buffer is gone. -/
theorem SendQueue.part {data : Bytes} {it : List Bytes} {nSendOffset nSendSize n : ℕ}
    (h : SendQueue (data :: it) nSendOffset nSendSize) (hn : nSendOffset + n < data.length) :
    SendQueue (data :: it) (nSendOffset + n) nSendSize where
  size_eq := h.size_eq
  offset_zero := nofun
  offset_lt data' it' heq := by
    rw [← (List.cons.inj heq).1]
    exact hn
  ne_nil := h.ne_nil

/-- A buffer is queued. -/
theorem SendQueue.concat {vSendMsg : List Bytes} {data : Bytes} {nSendOffset nSendSize : ℕ}
    (h : SendQueue vSendMsg nSendOffset nSendSize) (hne : data ≠ []) :
    SendQueue (vSendMsg ++ [data]) nSendOffset (nSendSize + data.length) where
  size_eq := by rw [h.size_eq, List.map_append, List.sum_append]; simp
  offset_zero := by simp
  offset_lt data' it' heq := by
    cases vSendMsg with
    | nil =>
      rw [h.offset_zero rfl]
      rw [List.nil_append, List.cons.injEq] at heq
      rw [← heq.1]
      exact List.length_pos_iff.mpr hne
    | cons first it =>
      rw [List.cons_append, List.cons.injEq] at heq
      rw [← heq.1]
      exact h.offset_lt first it rfl
  ne_nil data' hmem := by
    rcases List.mem_append.mp hmem with hmem | hmem
    · exact h.ne_nil data' hmem
    · rw [List.mem_singleton.mp hmem]
      exact hne

/-- The loop keeps the queue, and moves bytes from its beginning to the stream. -/
theorem sendLoop_spec : ∀ {it : List Bytes} (send : SendOracle) (pnode : CNode) (sent : Bytes),
    SendQueue it pnode.nSendOffset pnode.nSendSize →
    ∃ pnode' sent', sendLoop send it pnode sent = .ok (pnode', sent') ∧ pnode'.Sends ∧
      pnode'.ssSend = pnode.ssSend ∧ sent <+: sent' ∧
      sent' ++ pnode'.unsent = sent ++ it.flatten.drop pnode.nSendOffset
  | [], send, pnode, sent, h => by
    refine ⟨_, sent, rfl, h, rfl, List.prefix_rfl, ?_⟩
    rw [CNode.unsent]
  | data :: it, send, pnode, sent, h => by
    have hlt := h.offset_lt data it rfl
    have hstay : ∃ pnode' sent',
        Except.ok ({ pnode with vSendMsg := data :: it }, sent) =
          (Except.ok (pnode', sent') : Except NetAssert (CNode × Bytes)) ∧ pnode'.Sends ∧
        pnode'.ssSend = pnode.ssSend ∧ sent <+: sent' ∧
        sent' ++ pnode'.unsent = sent ++ (data :: it).flatten.drop pnode.nSendOffset :=
      ⟨_, sent, rfl, h, rfl, List.prefix_rfl, rfl⟩
    rw [sendLoop, if_pos hlt]
    cases send 0 (data.length - pnode.nSendOffset) with
    | wouldBlock => exact hstay
    | failed => exact ⟨_, sent, rfl, h, rfl, List.prefix_rfl, rfl⟩
    | bytes n =>
      have hn := n.isLt
      dsimp only
      split
      · have hdrop : (data :: it).flatten.drop pnode.nSendOffset =
            data.drop pnode.nSendOffset ++ it.flatten := by
          rw [List.flatten_cons, List.drop_append_of_le_length hlt.le]
        split
        · rename_i hall
          obtain ⟨pnode', sent', hloop, hsends, hss, hpre, hstream⟩ := sendLoop_spec
            (fun i => send (i + 1))
            { pnode with nSendOffset := 0, nSendSize := pnode.nSendSize - data.length }
            (sent ++ (data.drop pnode.nSendOffset).take n) h.tail
          refine ⟨pnode', sent', hloop, hsends, hss, (List.prefix_append _ _).trans hpre, ?_⟩
          rw [hstream, hdrop, List.take_of_length_le (by rw [List.length_drop]; omega),
            List.append_assoc]
          rfl
        · rename_i hpart
          refine ⟨_, _, rfl, h.part (by omega), rfl, List.prefix_append _ _, ?_⟩
          change _ ++ (data :: it).flatten.drop (pnode.nSendOffset + n) = _
          rw [List.append_assoc, ← List.drop_drop, hdrop]
          congr 1
          rw [List.drop_append_of_le_length (by rw [List.length_drop]; omega), ← List.append_assoc,
            List.take_append_drop]
      · exact hstay

/-- `SocketSendData` fails no assertion and moves bytes from the queue to the stream. -/
theorem socketSendData_spec (send : SendOracle) {pnode : CNode} (sent : Bytes) (h : pnode.Sends) :
    ∃ pnode' sent', socketSendData send pnode sent = .ok (pnode', sent') ∧ pnode'.Sends ∧
      pnode'.ssSend = pnode.ssSend ∧ sent <+: sent' ∧ sent' ++ pnode'.unsent = sent ++ pnode.unsent := by
  obtain ⟨pnode', sent', hloop, hsends, hrest⟩ := sendLoop_spec send pnode sent h
  refine ⟨pnode', sent', ?_, hsends, hrest⟩
  have hoffset : ¬(pnode'.vSendMsg = [] ∧ pnode'.nSendOffset ≠ 0) := fun hcase =>
    hcase.2 (hsends.offset_zero hcase.1)
  have hsize : ¬(pnode'.vSendMsg = [] ∧ pnode'.nSendSize ≠ 0) := fun hcase =>
    hcase.2 (by rw [hsends.size_eq, hcase.1]; rfl)
  rw [socketSendData, hloop]
  simp only [bind, Except.bind, if_neg hoffset, if_neg hsize]
  rfl

/-- `EndMessage` fails at most its own assertion, and adds a sealed message to the queue. -/
theorem endMessage_spec (fDrop : Bool) (fuzz : Bytes → Bytes) (send : SendOracle) {pnode : CNode}
    (sent : Bytes) (h : pnode.Sends) :
    endMessage H fDrop fuzz send pnode sent = .error .endMessage ∨
    ∃ pnode' queued sent', endMessage H fDrop fuzz send pnode sent = .ok (pnode', queued, sent') ∧
      pnode'.Sends ∧ sent <+: sent' ∧
      sent' ++ pnode'.unsent = sent ++ pnode.unsent ++ queued.flatten ∧
      ∀ data ∈ queued, ∃ ssSend : Bytes, HEADER_SIZE ≤ ssSend.length ∧ data = sealMessage H ssSend := by
  have hnone : ∀ ssSend, ∃ pnode' queued sent',
      Except.ok ({ pnode with ssSend := ssSend }, [], sent) =
        (Except.ok (pnode', queued, sent') : Except NetAssert (CNode × List Bytes × Bytes)) ∧
      pnode'.Sends ∧ sent <+: sent' ∧
      sent' ++ pnode'.unsent = sent ++ pnode.unsent ++ queued.flatten ∧
      ∀ data ∈ queued, ∃ ssSend : Bytes, HEADER_SIZE ≤ ssSend.length ∧ data = sealMessage H ssSend :=
    fun ssSend => ⟨_, [], sent, rfl, h, List.prefix_rfl, (List.append_nil _).symm, nofun⟩
  unfold endMessage
  split
  · exact Or.inr (hnone [])
  dsimp only
  split
  · exact Or.inr (hnone [])
  split
  · exact Or.inl rfl
  rename_i hge
  rw [not_lt] at hge
  generalize hdata : sealMessage H (fuzz pnode.ssSend) = data
  have hsealed : ∀ data' ∈ [data], ∃ ssSend : Bytes,
      HEADER_SIZE ≤ ssSend.length ∧ data' = sealMessage H ssSend := by
    intro data' hmem
    rw [List.mem_singleton.mp hmem, ← hdata]
    exact ⟨_, hge, rfl⟩
  have hne : data ≠ [] := by
    have hlen := length_sealMessage H hge
    rw [hdata] at hlen
    rw [HEADER_SIZE] at hge
    exact List.length_pos_iff.mp (by omega)
  obtain ⟨queued, hqueued⟩ : ∃ queued : CNode, queued = { pnode with
    ssSend := []
    vSendMsg := pnode.vSendMsg ++ [data]
    nSendSize := pnode.nSendSize + data.length } := ⟨_, rfl⟩
  have hsends : queued.Sends := by
    rw [hqueued]
    exact SendQueue.concat h hne
  have hunsent : queued.unsent = pnode.unsent ++ data := by
    have hle : pnode.nSendOffset ≤ pnode.vSendMsg.flatten.length := by
      cases hq : pnode.vSendMsg with
      | nil => rw [h.offset_zero hq]; exact Nat.zero_le _
      | cons first it =>
        have hlt := h.offset_lt first it hq
        rw [List.flatten_cons, List.length_append]
        omega
    rw [hqueued, CNode.unsent, CNode.unsent, List.flatten_append, List.flatten_singleton,
      List.drop_append_of_le_length hle]
  rw [← hqueued]
  split
  · obtain ⟨pnode', sent', hcall, hsends', -, hpre, hstream⟩ := socketSendData_spec send sent hsends
    refine Or.inr ⟨pnode', [data], sent', ?_, hsends', hpre, ?_, hsealed⟩
    · rw [hcall]
      rfl
    · rw [hstream, hunsent, List.flatten_singleton, List.append_assoc]
  · refine Or.inr ⟨queued, [data], sent, rfl, hsends, List.prefix_rfl, ?_, hsealed⟩
    rw [hunsent, List.flatten_singleton, List.append_assoc]

/-! ## Connections over runs -/

variable (network) in
/-- One operation of either node. -/
def Connection.Step (c c' : Connection) : Prop := ∃ op, c.step H network op = .ok c'

/-- What holds of a connection while the messages queued are within `MAX_SIZE`. -/
structure ConnectionInv (network : Network) (c : Connection) : Prop where
  sends : c.node.Sends
  stream : c.sent ++ c.node.unsent = c.queued.flatten
  received : c.received <+: c.sent
  sealed : ∀ data ∈ c.queued, ∃ ssSend : Bytes,
    HEADER_SIZE ≤ ssSend.length ∧ data = sealMessage H ssSend
  holds : (∀ data ∈ c.queued, data.length ≤ HEADER_SIZE + MAX_SIZE) →
    Holds network c.queued c.received c.peer.vRecvMsg

theorem ConnectionInv.new : ConnectionInv H network .new where
  sends := SendQueue.nil
  stream := rfl
  received := List.prefix_rfl
  sealed := nofun
  holds _ := Holds.nil []

variable {H} {c c' : Connection}

theorem ConnectionInv.next_prefix (h : ConnectionInv H network c) (nBytes : ℕ) :
    c.received ++ (c.sent.drop c.received.length).take nBytes <+: c.sent := by
  obtain ⟨tail, htail⟩ := h.received
  rw [← htail, List.drop_left, List.prefix_append_right_inj]
  exact List.take_prefix nBytes tail

theorem ConnectionInv.framed (h : ConnectionInv H network c)
    (hmax : ∀ data ∈ c.queued, data.length ≤ HEADER_SIZE + MAX_SIZE) :
    ∀ data ∈ c.queued, Framed data := by
  intro data hdata
  obtain ⟨ssSend, hge, rfl⟩ := h.sealed data hdata
  exact framed_sealMessage H hge (hmax _ hdata)

/-- The next bytes are received, if the messages queued are within `MAX_SIZE`. -/
theorem ConnectionInv.receive_spec (h : ConnectionInv H network c)
    (hmax : ∀ data ∈ c.queued, data.length ≤ HEADER_SIZE + MAX_SIZE) (nBytes : ℕ) :
    ∃ vRecvMsg, c.receive network nBytes = .ok { c with
        peer := { c.peer with vRecvMsg := vRecvMsg }
        received := c.received ++ (c.sent.drop c.received.length).take nBytes } ∧
      Holds network c.queued (c.received ++ (c.sent.drop c.received.length).take nBytes) vRecvMsg := by
  have hmore : c.received ++ (c.sent.drop c.received.length).take nBytes <+: c.queued.flatten :=
    (h.next_prefix nBytes).trans ⟨_, h.stream⟩
  obtain ⟨vRecvMsg, hcall, hholds⟩ :=
    (h.holds hmax).receiveMsgBytes (h.framed hmax) le_rfl hmore
  refine ⟨vRecvMsg, ?_, hholds⟩
  rw [Connection.receive]
  dsimp only
  rw [hcall]
  rfl

/-- The peer's messages are those of the stream while more messages are queued. -/
theorem ConnectionInv.holds_of_prefix (h : ConnectionInv H network c)
    (hqueued : c.queued <+: frames') (hmax : ∀ data ∈ frames', data.length ≤ HEADER_SIZE + MAX_SIZE) :
    Holds network frames' c.received c.peer.vRecvMsg :=
  (h.holds fun data hdata => hmax data (hqueued.subset hdata)).mono hqueued

/-- Every operation that ends keeps the invariant. -/
theorem ConnectionInv.step (h : ConnectionInv H network c) {op : NetOp}
    (hstep : c.step H network op = .ok c') : ConnectionInv H network c' := by
  cases op with
  | beginMessage pszCommand =>
    rw [Connection.step, Ticoin.beginMessage] at hstep
    split at hstep
    · cases hstep
      exact ⟨h.sends, h.stream, h.received, h.sealed, h.holds⟩
    · cases hstep
  | write data =>
    cases hstep
    exact ⟨h.sends, h.stream, h.received, h.sealed, h.holds⟩
  | abortMessage =>
    cases hstep
    exact ⟨h.sends, h.stream, h.received, h.sealed, h.holds⟩
  | endMessage fDrop fuzz send =>
    rw [Connection.step] at hstep
    rcases endMessage_spec H fDrop fuzz send c.sent h.sends with
      herr | ⟨node, queued, sent, hcall, hsends, hpre, hstream, hsealed⟩
    · rw [herr] at hstep
      cases hstep
    · rw [hcall] at hstep
      cases hstep
      refine ⟨hsends, ?_, h.received.trans hpre, ?_, h.holds_of_prefix (List.prefix_append _ _)⟩
      · rw [hstream, h.stream, List.flatten_append]
      · intro data hdata
        rcases List.mem_append.mp hdata with hdata | hdata
        · exact h.sealed data hdata
        · exact hsealed data hdata
  | socketSendData send =>
    rw [Connection.step] at hstep
    obtain ⟨node, sent, hcall, hsends, -, hpre, hstream⟩ := socketSendData_spec send c.sent h.sends
    rw [hcall] at hstep
    cases hstep
    exact ⟨hsends, hstream.trans h.stream, h.received.trans hpre, h.sealed, h.holds⟩
  | receive nBytes =>
    have hcall : c.receive network nBytes = .ok c' := hstep
    have hstate : c'.node = c.node ∧ c'.queued = c.queued ∧ c'.sent = c.sent ∧
        c'.received = c.received ++ (c.sent.drop c.received.length).take nBytes := by
      rw [Connection.receive] at hcall
      dsimp only at hcall
      split at hcall
      · cases hcall
      · cases hcall
        exact ⟨rfl, rfl, rfl, rfl⟩
    obtain ⟨hnode, hqueued, hsent, hreceived⟩ := hstate
    constructor
    · rw [hnode]
      exact h.sends
    · rw [hnode, hqueued, hsent]
      exact h.stream
    · rw [hreceived, hsent]
      exact h.next_prefix nBytes
    · rw [hqueued]
      exact h.sealed
    · intro hmax
      rw [hqueued] at hmax
      obtain ⟨vRecvMsg, hcall', hholds⟩ := h.receive_spec hmax nBytes
      rw [hcall'] at hcall
      cases hcall
      exact hholds

/-- An operation fails at most an assertion of `BeginMessage` or `EndMessage`. -/
theorem ConnectionInv.step_error (h : ConnectionInv H network c)
    (hmax : ∀ data ∈ c.queued, data.length ≤ HEADER_SIZE + MAX_SIZE) {op : NetOp} {e : NetAssert}
    (hstep : c.step H network op = .error e) : e = .beginMessage ∨ e = .endMessage := by
  cases op with
  | beginMessage pszCommand =>
    rw [Connection.step, Ticoin.beginMessage] at hstep
    split at hstep
    · cases hstep
    · cases hstep
      exact Or.inl rfl
  | write data => cases hstep
  | abortMessage => cases hstep
  | endMessage fDrop fuzz send =>
    rw [Connection.step] at hstep
    rcases endMessage_spec H fDrop fuzz send c.sent h.sends with
      herr | ⟨node, queued, sent, hcall, -⟩
    · rw [herr] at hstep
      cases hstep
      exact Or.inr rfl
    · rw [hcall] at hstep
      cases hstep
  | socketSendData send =>
    rw [Connection.step] at hstep
    obtain ⟨node, sent, hcall, -⟩ := socketSendData_spec send c.sent h.sends
    rw [hcall] at hstep
    cases hstep
  | receive nBytes =>
    obtain ⟨vRecvMsg, hcall, -⟩ := h.receive_spec hmax nBytes
    cases hcall.symm.trans hstep

theorem ConnectionInv.of_run (hrun : Relation.ReflTransGen (Connection.Step H network) .new c) :
    ConnectionInv H network c :=
  Machine.invariant_of_steps (fun _ _ h ⟨_, hstep⟩ => h.step hstep) hrun (ConnectionInv.new H)

/-- In every state of two nodes no assertion of `SocketSendData` can fail and what arrives is
received, `nSendSize` is the size of the queue, the bytes sent and the unsent ones are the messages
queued, and the peer has those that arrived whole, in order, with at most an incomplete one after
them. -/
theorem messages_of_run (hrun : Relation.ReflTransGen (Connection.Step H network) .new c)
    (hmax : ∀ data ∈ c.queued, data.length ≤ HEADER_SIZE + MAX_SIZE) :
    (∀ op e, c.step H network op = .error e → e = .beginMessage ∨ e = .endMessage) ∧
    c.node.nSendSize = (c.node.vSendMsg.map List.length).sum ∧
    c.queued.flatten = c.sent ++ c.node.vSendMsg.flatten.drop c.node.nSendOffset ∧
    c.received <+: c.sent ∧
    ∃ n tail, c.peer.vRecvMsg = (c.queued.take n).map .received ++ tail ∧
      (∀ i < c.queued.length, i < n ↔ (c.queued.take (i + 1)).flatten <+: c.received) ∧
      (∀ data ∈ c.queued, (CNetMessage.received data).complete = true) ∧
      (tail = [] ∨ ∃ msg, tail = [msg] ∧ msg.complete = false) := by
  have h := ConnectionInv.of_run hrun
  have hframed := h.framed hmax
  have hne : ∀ data ∈ c.queued, data ≠ [] := by
    rintro data hdata rfl
    exact absurd (hframed [] hdata).length_ge (by decide)
  refine ⟨fun op e => h.step_error hmax, h.sends.size_eq, h.stream.symm, h.received, ?_⟩
  obtain ⟨full, rest, hcut, heq⟩ := h.holds hmax
  refine ⟨full.length, if rest = [] then [] else [.absorbed network rest], ?_, fun i hi => hcut.lt_length_iff hne hi,
    fun data hdata => CNetMessage.Framed.complete_received (hframed data hdata), ?_⟩
  · rw [← List.prefix_iff_eq_take.mp hcut.full_prefix]
    exact heq
  · by_cases hrest : rest = []
    · exact Or.inl (if_pos hrest)
    · rw [if_neg hrest]
      rcases hcut.rest_proper with hnil | ⟨data, hnext, hpre, hproper⟩
      · exact absurd hnil hrest
      · have hmem : data ∈ c.queued := hnext.subset (by simp)
        exact Or.inr ⟨_, rfl, CNetMessage.Framed.complete_absorbed (hframed data hmem) hpre hproper⟩

/-- Two messages, the first sent in two pieces, of which 30 bytes arrived. -/
def sampleOps : List NetOp :=
  [.beginMessage [118, 101, 114, 97, 99, 107],
    .endMessage false id fun _ len => .bytes (Fin.ofNat (len + 1) (min 10 len)),
    .receive 5,
    .beginMessage [112, 105, 110, 103],
    .write [1, 2, 3],
    .endMessage false id fun _ _ => .wouldBlock,
    .socketSendData fun _ len => .bytes (Fin.last len),
    .receive 25]

theorem messages_of_sampleOps : ∃ c,
    Relation.ReflTransGen (Connection.Step (fun _ => 0) .regTest) .new c ∧
    (c.queued.length = 2 ∧ c.sent.length = 51 ∧ c.received.length = 30) ∧
    c.peer.vRecvMsg.length = 2 ∧
    c.node.nSendSize = (c.node.vSendMsg.map List.length).sum := by
  obtain ⟨c, hc, hsample⟩ := Option.map_eq_some_iff.mp
    (show ((sampleOps.foldlM (Connection.step (fun _ => 0) .regTest) .new).toOption.map fun c =>
      (c.queued.map List.length, c.sent.length, c.received.length, c.peer.vRecvMsg.length)) =
        some ([24, 27], 51, 30, 2) by decide)
  simp only [Prod.mk.injEq] at hsample
  obtain ⟨hqueued, hsent, hreceived, hpeer⟩ := hsample
  have hreach : Relation.ReflTransGen (Connection.Step (fun _ => 0) .regTest) .new c :=
    Machine.steps_of_foldlM sampleOps (Machine.eq_ok_of_toOption hc)
  have hmax : ∀ data ∈ c.queued, data.length ≤ HEADER_SIZE + MAX_SIZE := by
    intro data hdata
    have hlen : data.length ∈ c.queued.map List.length := List.mem_map_of_mem hdata
    rw [hqueued] at hlen
    have hall : ∀ n ∈ [24, 27], n ≤ HEADER_SIZE + MAX_SIZE := by decide
    exact hall _ hlen
  have hlength := congrArg List.length hqueued
  rw [List.length_map] at hlength
  exact ⟨c, hreach, ⟨hlength, hsent, hreceived⟩, hpeer, (messages_of_run hreach hmax).2.1⟩

end Ticoin
