/-
Frames over a connection that transfers as many bytes at a time as it likes. Whatever sizes the
writes and the reads have, and wherever the stream ends, the reader gets the payloads whose frames
have arrived whole, in order, and then the end of the stream.
-/
import KvStore.Networking.Connection

namespace KvStore.Protocol

open Bytes Sockets

/-- Successive calls of `writeFrame`, until one fails. -/
def writeFrames : Socket UInt8 → List Str → Bool × Socket UInt8
  | fd, [] => (true, fd)
  | fd, data :: payloads =>
    match writeFrameFd fd data with
    | (false, fd) => (false, fd)
    | (true, fd) => writeFrames fd payloads

/-- Repeated calls of `readFrame` return true with these payloads, and the next one returns false. -/
inductive ReadsFrames : Socket UInt8 → List Str → Prop
  | stop {fd : Socket UInt8} (h : (readFrameFd fd).1 = none) : ReadsFrames fd []
  | frame {fd : Socket UInt8} {data : Str} {payloads : List Str} (h : (readFrameFd fd).1 = some data)
      (hrest : ReadsFrames (readFrameFd fd).2 payloads) : ReadsFrames fd (data :: payloads)

/-! ## Writing -/

theorem writeFrames_eq : ∀ (payloads : List Str) (fd : Socket UInt8),
    ∃ calls, writeFrames fd payloads =
      (true, { fd with output := fd.output ++ payloads.flatMap writeFrame, calls := calls })
  | [], fd => ⟨fd.calls, by simp [writeFrames]⟩
  | data :: payloads, fd => by
    obtain ⟨calls, hwrite⟩ := Socket.writeFully_eq fd (writeFrame data)
    obtain ⟨calls', ih⟩ := writeFrames_eq payloads { fd with output := fd.output ++ writeFrame data, calls := calls }
    refine ⟨calls', ?_⟩
    rw [writeFrames, writeFrameFd, hwrite]
    simp only [ih, List.flatMap_cons, List.append_assoc]

/-! ## Reading -/

/-- A frame cut short is no frame. -/
theorem readFrame_torn {data : Str} (h : data.length < 2 ^ 32) {n : Nat} (hn : n < (writeFrame data).length) :
    readFrame ((writeFrame data).take n) = none := by
  have hlen : (writeFrame data).length = 4 + data.length := length_framed data
  unfold readFrame
  by_cases hheader : n < 4
  · rw [takeExact_short (by rw [List.length_take]; omega)]
    rfl
  · -- the cut lies in the payload
    obtain ⟨m, rfl⟩ : ∃ m, n = 4 + m := ⟨n - 4, by omega⟩
    have hcut : (writeFrame data).take (4 + m) = be32 data.length ++ data.take m := by
      rw [writeFrame, framed, ← length_be32 data.length, List.take_length_add_append]
    rw [hcut, takeExact_append _ (length_be32 _), Option.bind_some]
    simp only [ofBe_be32 h]
    exact takeExact_short (by rw [List.length_take]; omega)

/-- On the first `n` bytes of the frames, the reader gets those that lie within them. -/
theorem readsFrames_take : ∀ {payloads : List Str}, (∀ data ∈ payloads, data.length < 2 ^ 32) →
    ∀ (n : Nat) {fd : Socket UInt8}, fd.input = (payloads.flatMap writeFrame).take n →
      ReadsFrames fd (payloads.take (fitting writeFrame payloads n))
  | [], _, n, fd, hinput => by
    have hnone : readFrame fd.input = none := by
      rw [hinput, List.flatMap_nil, List.take_nil]
      rfl
    obtain ⟨calls, hread⟩ := readFrameFd_none hnone
    exact .stop (by rw [hread])
  | data :: payloads, h, n, fd, hinput => by
    obtain ⟨hdata, hrest⟩ := List.forall_mem_cons.1 h
    rw [List.flatMap_cons] at hinput
    rw [fitting]
    by_cases hn : (writeFrame data).length ≤ n
    · rw [if_pos hn, List.take_succ_cons]
      rw [List.take_append, List.take_of_length_le hn] at hinput
      have hsome := readFrame_writeFrame hdata ((payloads.flatMap writeFrame).take (n - (writeFrame data).length))
      rw [← hinput] at hsome
      obtain ⟨calls, hread⟩ := readFrameFd_some hsome
      refine .frame (by rw [hread]) ?_
      rw [hread]
      exact readsFrames_take hrest _ rfl
    · rw [if_neg hn, List.take_zero]
      rw [List.take_append_of_le_length (by omega)] at hinput
      have hnone : readFrame fd.input = none := by
        rw [hinput]
        exact readFrame_torn hdata (by omega)
      obtain ⟨calls, hread⟩ := readFrameFd_none hnone
      exact .stop (by rw [hread])

/-- Framing does not depend on how the stream is cut up. Successive calls of `writeFrame` succeed,
whatever the sizes of the writes; and on the first `n` bytes of what they have written, whatever the
sizes of the reads, repeated calls of `readFrame` return exactly the payloads of the frames within the
`n` bytes, the longest initial run that fits, and then false. -/
theorem framing_any_chunks {payloads : List Str} (h : ∀ data ∈ payloads, data.length < 2 ^ 32)
    (writeSizes readSizes : Nat → Nat) (n : Nat) :
    let written := writeFrames (Socket.start [] writeSizes) payloads
    written.1 = true ∧ ∃ k,
      IsGreatest {i | i ≤ payloads.length ∧ ((payloads.take i).flatMap writeFrame).length ≤ n} k ∧
      ReadsFrames (Socket.start (written.2.output.take n) readSizes) (payloads.take k) := by
  intro written
  obtain ⟨calls, hwrite⟩ := writeFrames_eq payloads (Socket.start [] writeSizes)
  have hwritten : written = _ := hwrite
  rw [hwritten]
  refine ⟨rfl, fitting writeFrame payloads n, isGreatest_fitting writeFrame payloads n, ?_⟩
  exact readsFrames_take h n rfl

/-- An empty payload and one of which a byte is missing, written and read byte by byte. -/
theorem framing_any_chunks_bytewise :
    let payloads : List Str := [[], [1, 2]]
    let written := writeFrames (Socket.start [] fun _ => 1) payloads
    (∀ data ∈ payloads, data.length < 2 ^ 32) ∧ written.1 = true ∧ ∃ k,
      IsGreatest {i | i ≤ payloads.length ∧ ((payloads.take i).flatMap writeFrame).length ≤ 9} k ∧
      ReadsFrames (Socket.start (written.2.output.take 9) fun _ => 1) (payloads.take k) := by
  intro payloads written
  have hlen : ∀ data ∈ payloads, data.length < 2 ^ 32 := by decide
  exact ⟨hlen, framing_any_chunks hlen (fun _ => 1) (fun _ => 1) 9⟩

end KvStore.Protocol
