/-
The wire protocol (`src/protocol/protocol.cpp`): requests and responses as bytes with lengths in
network order, and the frames that carry them. A stream is the bytes a peer has sent; what a reader
sees of it does not depend on how the reads cut it up, since each loop of `readFrame` goes on until
it has its bytes.
-/
import KvStore.Common.Types

namespace KvStore.Protocol

open Bytes

/-! ## Messages -/

def serializeRequest (req : Request) : Str :=
  req.command.toByte :: (be32 req.key.length ++ (req.key ++ (be32 req.value.length ++ req.value)))

/-- The `n` bytes from offset `off` on. -/
def slice (data : Str) (off n : Nat) : Str := (data.drop off).take n

def deserializeRequest (data : Str) : Option Request :=
  if data.length < 1 + 4 + 4 then none
  else
    let command := Command.ofByte (data.headD 0)
    let keyLen := ofBe (slice data 1 4)
    if data.length < 5 + keyLen + 4 then none
    else
      let key := slice data 5 keyLen
      let valLen := ofBe (slice data (5 + keyLen) 4)
      if data.length < 5 + keyLen + 4 + valLen then none
      else some ⟨command, key, slice data (5 + keyLen + 4) valLen⟩

def serializeResponse (resp : Response) : Str :=
  resp.status.toByte :: (be32 resp.value.length ++ resp.value)

def deserializeResponse (data : Str) : Option Response :=
  if data.length < 1 + 4 then none
  else
    let status := Status.ofByte (data.headD 0)
    let valLen := ofBe (slice data 1 4)
    if data.length < 5 + valLen then none
    else some ⟨status, slice data 5 valLen⟩

/-! ## Frames -/

/-- The bytes `writeFrame` sends for a payload. -/
def writeFrame (data : Str) : Str := framed data

/-- `readFrame` on a stream: the payload and the rest, or nothing if the stream ends first. -/
def readFrame (stream : Str) : Option (Str × Str) :=
  (takeExact 4 stream).bind fun (header, rest) => takeExact (ofBe header) rest

/-- What the server reads of a request a peer has sent: `readRequest`. -/
def receiveRequest (stream : Str) : Option Request := (readFrame stream).bind fun (data, _) => deserializeRequest data

/-- What a peer reads of the response: the last part of `forwardRequest`. -/
def receiveResponse (stream : Str) : Response :=
  ((readFrame stream).bind fun (data, _) => deserializeResponse data).getD ⟨.nodeUnavailable, []⟩

/-! ## Round trips -/

theorem slice_append {a b c : Str} {off n : Nat} (ha : a.length = off) (hb : b.length = n) :
    slice (a ++ (b ++ c)) off n = b := by
  subst ha hb
  unfold slice
  rw [List.drop_left, List.take_left]

theorem length_serializeRequest (req : Request) :
    (serializeRequest req).length = 9 + req.key.length + req.value.length := by
  unfold serializeRequest
  simp only [List.length_cons, List.length_append, length_be32]
  omega

/-- A request is read back from its bytes, whatever follows them. -/
theorem deserializeRequest_append {req : Request} (hk : req.key.length < 2 ^ 32) (hv : req.value.length < 2 ^ 32)
    (t : Str) : deserializeRequest (serializeRequest req ++ t) = some req := by
  obtain ⟨command, key, value⟩ := req
  have hlen := length_serializeRequest ⟨command, key, value⟩
  simp only at hk hv hlen
  have hlen : (serializeRequest ⟨command, key, value⟩ ++ t).length = 9 + key.length + value.length + t.length := by
    rw [List.length_append, hlen]
  generalize hdata : serializeRequest ⟨command, key, value⟩ ++ t = data at hlen ⊢
  -- the four ways to cut the bytes at a field
  have h1 : data = [command.toByte] ++ (be32 key.length ++ (key ++ (be32 value.length ++ (value ++ t)))) := by
    rw [← hdata, serializeRequest]
    simp only [List.append_assoc, List.cons_append, List.nil_append]
  have h2 : data = (command.toByte :: be32 key.length) ++ (key ++ (be32 value.length ++ (value ++ t))) := h1
  have h3 : data = (command.toByte :: be32 key.length ++ key) ++ (be32 value.length ++ (value ++ t)) := by
    rw [h2, List.append_assoc]
  have h4 : data = (command.toByte :: be32 key.length ++ key ++ be32 value.length) ++ (value ++ t) := by
    rw [h3, List.append_assoc (_ ++ key)]
  have hk : ofBe (slice data 1 4) = key.length := by
    rw [h1, slice_append (by rfl) (length_be32 _), ofBe_be32 hk]
  have hkey : slice data 5 key.length = key := by
    rw [h2]
    exact slice_append rfl rfl
  have hv : ofBe (slice data (5 + key.length) 4) = value.length := by
    rw [h3, slice_append (by simp; omega) (length_be32 _), ofBe_be32 hv]
  have hvalue : slice data (5 + key.length + 4) value.length = value := by
    rw [h4]
    exact slice_append (by simp; omega) rfl
  unfold deserializeRequest
  simp only [hk, hkey, hv, hvalue, hlen]
  rw [if_neg (by omega), if_neg (by omega), if_neg (by omega), h1]
  simp

theorem deserializeRequest_serialize {req : Request} (h : req.FitsFrame) :
    deserializeRequest (serializeRequest req) = some req := by
  unfold Request.FitsFrame at h
  have hread := deserializeRequest_append (by omega : req.key.length < 2 ^ 32) (by omega) []
  rwa [List.append_nil] at hread

/-- A response is read back from its bytes, whatever follows them. -/
theorem deserializeResponse_append {resp : Response} (h : resp.value.length < 2 ^ 32) (t : Str) :
    deserializeResponse (serializeResponse resp ++ t) = some resp := by
  obtain ⟨status, value⟩ := resp
  simp only at h
  have hlen : (serializeResponse ⟨status, value⟩ ++ t).length = 5 + value.length + t.length := by
    simp only [serializeResponse, List.length_cons, List.length_append, length_be32]
    omega
  generalize hdata : serializeResponse ⟨status, value⟩ ++ t = data at hlen ⊢
  have h1 : data = [status.toByte] ++ (be32 value.length ++ (value ++ t)) := by
    rw [← hdata, serializeResponse]
    simp only [List.append_assoc, List.cons_append, List.nil_append]
  have h2 : data = (status.toByte :: be32 value.length) ++ (value ++ t) := h1
  have hv : ofBe (slice data 1 4) = value.length := by
    rw [h1, slice_append (by rfl) (length_be32 _), ofBe_be32 h]
  have hvalue : slice data 5 value.length = value := by
    rw [h2]
    exact slice_append rfl rfl
  unfold deserializeResponse
  simp only [hv, hvalue, hlen]
  rw [if_neg (by omega), if_neg (by omega), h1]
  simp

theorem deserializeResponse_serialize {resp : Response} (h : 5 + resp.value.length < 2 ^ 32) :
    deserializeResponse (serializeResponse resp) = some resp := by
  have hread := deserializeResponse_append (by omega : resp.value.length < 2 ^ 32) []
  rwa [List.append_nil] at hread

theorem readFrame_writeFrame {data : Str} (h : data.length < 2 ^ 32) (rest : Str) :
    readFrame (writeFrame data ++ rest) = some (data, rest) := by
  unfold readFrame writeFrame framed
  rw [List.append_assoc, takeExact_append _ (length_be32 _)]
  simp only [Option.bind_some, ofBe_be32 h]
  exact takeExact_append rest rfl

/-- A request that fits a frame arrives as it was sent. -/
theorem receiveRequest_sent {req : Request} (h : req.FitsFrame) :
    receiveRequest (writeFrame (serializeRequest req)) = some req := by
  have hlen : (serializeRequest req).length < 2 ^ 32 := by
    rw [length_serializeRequest]
    exact h
  have hread := readFrame_writeFrame hlen []
  rw [List.append_nil] at hread
  unfold receiveRequest
  rw [hread]
  exact deserializeRequest_serialize h

/-- A response that fits a frame arrives as it was sent. -/
theorem receiveResponse_sent {resp : Response} (h : 5 + resp.value.length < 2 ^ 32) :
    receiveResponse (writeFrame (serializeResponse resp)) = resp := by
  have hlen : (serializeResponse resp).length < 2 ^ 32 := by
    simp [serializeResponse]
    omega
  have hread := readFrame_writeFrame hlen []
  rw [List.append_nil] at hread
  unfold receiveResponse
  rw [hread]
  simp only [Option.bind_some, deserializeResponse_serialize h, Option.getD_some]

end KvStore.Protocol
