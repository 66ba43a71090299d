/-
A connection between two ends that send each other frames, each behind its length in four bytes, over
one stream of bytes for each direction. A call transfers as many bytes as it likes, the calls of the two
ends come in any order, and an end may fail or close at any moment. What each end has received is then
always a first part of what the other one has sent, frame by frame (`received_isPrefix`), and an end
that waits in vain has received all of it (`received_all`).
-/
import KvStore.Lib.Bytes

namespace Duplex

open Bytes Function

/-! ## Frames -/

/-- The bytes of some frames. -/
def frames (payloads : List Str) : Str := payloads.flatMap framed

@[simp] theorem frames_nil : frames [] = [] := rfl

theorem frames_cons (data : Str) (payloads : List Str) : frames (data :: payloads) = framed data ++ frames payloads :=
  List.flatMap_cons

theorem frames_append (xs ys : List Str) : frames (xs ++ ys) = frames xs ++ frames ys := List.flatMap_append

theorem frames_concat (xs : List Str) (data : Str) : frames (xs ++ [data]) = frames xs ++ framed data := by
  rw [frames_append, frames_cons, frames_nil, List.append_nil]

/-- A frame ends where its header says. -/
theorem framed_inj {x y X Y : Str} (hx : x.length < 2 ^ 32) (hy : y.length < 2 ^ 32)
    (h : framed x ++ X = framed y ++ Y) : x = y ∧ X = Y := by
  unfold framed at h
  rw [List.append_assoc, List.append_assoc] at h
  obtain ⟨hheader, hrest⟩ := List.append_inj h (by simp)
  have hlen : x.length = y.length := by
    rw [← ofBe_be32 hx, ← ofBe_be32 hy, hheader]
  exact List.append_inj hrest hlen

/-- A first part of a stream of frames that is frames itself is the first of them. -/
theorem frames_isPrefix : ∀ {xs ys : List Str} {X : Str}, (∀ x ∈ xs, x.length < 2 ^ 32) →
    (∀ y ∈ ys, y.length < 2 ^ 32) → frames xs ++ X = frames ys → ∃ zs, ys = xs ++ zs ∧ X = frames zs
  | [], ys, X, _, _, h => ⟨ys, rfl, h⟩
  | x :: xs, [], X, _, _, h => by
    have hlen := congrArg List.length h
    rw [frames_cons, List.length_append, List.length_append, length_framed, frames_nil, List.length_nil] at hlen
    omega
  | x :: xs, y :: ys, X, hxs, hys, h => by
    obtain ⟨hx, hxs⟩ := List.forall_mem_cons.1 hxs
    obtain ⟨hy, hys'⟩ := List.forall_mem_cons.1 hys
    rw [frames_cons, frames_cons, List.append_assoc] at h
    obtain ⟨rfl, hrest⟩ := framed_inj hx hy h
    obtain ⟨zs, rfl, hX⟩ := frames_isPrefix hxs hys' hrest
    exact ⟨zs, rfl, hX⟩

/-! ## Reading a frame -/

/-- How far the reading of a frame has come. -/
inductive Reader
  | header (got : Str)
  | payload (len : Nat) (got : Str)
  deriving DecidableEq

namespace Reader

/-- How many bytes the next call asks for. -/
def want : Reader → Nat
  | header got => 4 - got.length
  | payload len got => len - got.length

/-- What is read so far of the frame. -/
def bytes : Reader → Str
  | header got => got
  | payload len got => be32 len ++ got

/-- The frame is not complete. -/
def Open : Reader → Prop
  | header got => got.length < 4
  | payload len got => got.length < len ∧ len < 2 ^ 32

/-- The reader with some more bytes, or the payload. -/
def feed : Reader → Str → Reader ⊕ Str
  | header got, bs =>
    if (got ++ bs).length < 4 then .inl (header (got ++ bs))
    else if ofBe (got ++ bs) = 0 then .inr [] else .inl (payload (ofBe (got ++ bs)) [])
  | payload len got, bs =>
    if (got ++ bs).length < len then .inl (payload len (got ++ bs)) else .inr (got ++ bs)

variable {r r' : Reader} {bs data : Str}

/-- A header that is complete is the length in four bytes. -/
theorem header_bytes {got : Str} (hopen : got.length < 4) (hle : bs.length ≤ 4 - got.length)
    (hfull : ¬ (got ++ bs).length < 4) : (got ++ bs).length = 4 := by
  rw [List.length_append] at hfull ⊢
  omega

theorem feed_more (hopen : r.Open) (hle : bs.length ≤ r.want) (h : r.feed bs = .inl r') :
    r'.Open ∧ r'.bytes = r.bytes ++ bs := by
  cases r with
  | header got =>
    simp only [feed] at h
    split at h
    · rename_i hlt
      cases h
      exact ⟨hlt, rfl⟩
    · rename_i hfull
      have hfour := header_bytes hopen hle hfull
      split at h
      · cases h
      · rename_i hzero
        cases h
        exact ⟨⟨Nat.pos_of_ne_zero hzero, ofBe_lt hfour⟩, by simp only [bytes, be32_ofBe hfour, List.append_nil]⟩
  | payload len got =>
    simp only [feed] at h
    split at h
    · rename_i hlt
      cases h
      exact ⟨⟨hlt, hopen.2⟩, by simp only [bytes, List.append_assoc]⟩
    · cases h

theorem feed_whole (hopen : r.Open) (hle : bs.length ≤ r.want) (h : r.feed bs = .inr data) :
    framed data = r.bytes ++ bs ∧ data.length < 2 ^ 32 := by
  cases r with
  | header got =>
    simp only [feed] at h
    split at h
    · cases h
    · rename_i hfull
      have hfour := header_bytes hopen hle hfull
      split at h
      · rename_i hzero
        cases h
        refine ⟨?_, by simp⟩
        show be32 0 ++ [] = got ++ bs
        rw [List.append_nil, ← hzero, be32_ofBe hfour]
      · cases h
  | payload len got =>
    simp only [feed] at h
    split at h
    · cases h
    · rename_i hfull
      cases h
      have hlen : (got ++ bs).length = len := by
        have hopen' : got.length < len := hopen.1
        have hle' : bs.length ≤ len - got.length := hle
        rw [List.length_append] at hfull ⊢
        omega
      refine ⟨?_, hlen ▸ hopen.2⟩
      show be32 (got ++ bs).length ++ (got ++ bs) = be32 len ++ got ++ bs
      rw [hlen, List.append_assoc]

/-- What is read of a frame that is not complete is not a stream of frames. -/
theorem Open.bytes_eq_frames (hopen : r.Open) {payloads : List Str} (hfit : ∀ data ∈ payloads, data.length < 2 ^ 32)
    (h : r.bytes = frames payloads) : payloads = [] := by
  cases payloads with
  | nil => rfl
  | cons data payloads =>
    rw [frames_cons] at h
    cases r with
    | header got =>
      have hlt : got.length < 4 := hopen
      have hlen : got.length = _ := congrArg List.length h
      rw [List.length_append, length_framed] at hlen
      omega
    | payload len got =>
      obtain ⟨hlt, hlen⟩ := hopen
      have heq : be32 len ++ got = be32 data.length ++ (data ++ frames payloads) := by
        rw [← List.append_assoc]
        exact h
      obtain ⟨hheader, hgot⟩ := List.append_inj heq (by simp)
      have hsame : len = data.length := by
        rw [← ofBe_be32 hlen, ← ofBe_be32 (hfit data List.mem_cons_self), hheader]
      have hgotlen := congrArg List.length hgot
      rw [List.length_append] at hgotlen
      omega

end Reader

/-! ## The machine -/

/-- What has been written to a stream, and how many bytes of it have been read. -/
structure Pipe where
  written : Str
  taken : Nat
  deriving DecidableEq

/-- Where an end is: between two calls, in one of them, or done with the connection. -/
inductive Pc
  | idle
  | writing (rest : Str)
  | reading (r : Reader)
  | closed
  deriving DecidableEq

/-- An end, with the payloads it has begun to send and those it has received. -/
structure End where
  pc : Pc
  sent : List Str
  got : List Str
  deriving DecidableEq

/-- Both ends, and the stream that each of them writes. -/
structure Link where
  ends : Bool → End
  pipes : Bool → Pipe

/-- One call on the socket of an end. -/
inductive Event
  /-- it writes, or reads, `n` bytes -/
  | write (s : Bool) (n : Nat)
  | read (s : Bool) (n : Nat)
  /-- it reads the end of the stream -/
  | eof (s : Bool)
  | fail (s : Bool)
  deriving DecidableEq

namespace Link

/-- The connection has just been made. -/
def start : Link := ⟨fun _ => ⟨.idle, [], []⟩, fun _ => ⟨[], 0⟩⟩

def setEnd (l : Link) (s : Bool) (e : End) : Link := { l with ends := update l.ends s e }

/-- End `s` goes on at `pc`. -/
def goTo (l : Link) (s : Bool) (pc : Pc) : Link := l.setEnd s { l.ends s with pc := pc }

/-! What an end does between two calls: it begins to send a frame or to wait for one, or closes. -/

def send (l : Link) (s : Bool) (data : Str) : Link :=
  l.setEnd s { l.ends s with pc := .writing (framed data), sent := (l.ends s).sent ++ [data] }

def receive (l : Link) (s : Bool) : Link := l.goTo s (.reading (.header []))

def close (l : Link) (s : Bool) : Link := l.goTo s .closed

/-- How many bytes end `s` could read. -/
def available (l : Link) (s : Bool) : Nat := (l.pipes !s).written.length - (l.pipes !s).taken

/-- The next `n` bytes for end `s`. -/
def next (l : Link) (s : Bool) (n : Nat) : Str := ((l.pipes !s).written.drop (l.pipes !s).taken).take n

/-- End `s` puts bytes into its stream. -/
def put (l : Link) (s : Bool) (bs : Str) : Link :=
  { l with pipes := update l.pipes s ⟨(l.pipes s).written ++ bs, (l.pipes s).taken⟩ }

/-- End `s` takes `n` bytes off the stream of the other one. -/
def takeOff (l : Link) (s : Bool) (n : Nat) : Link :=
  { l with pipes := update l.pipes (!s) ⟨(l.pipes !s).written, (l.pipes !s).taken + n⟩ }

section Ends

variable (l : Link) (s t : Bool)

@[simp] theorem ends_setEnd (e : End) : (l.setEnd s e).ends t = if t = s then e else l.ends t := update_apply ..

@[simp] theorem ends_goTo (pc : Pc) :
    (l.goTo s pc).ends t = if t = s then { l.ends s with pc := pc } else l.ends t := update_apply ..

@[simp] theorem ends_send (data : Str) : (l.send s data).ends t =
    if t = s then { l.ends s with pc := .writing (framed data), sent := (l.ends s).sent ++ [data] } else l.ends t :=
  update_apply ..

@[simp] theorem ends_receive :
    (l.receive s).ends t = if t = s then { l.ends s with pc := .reading (.header []) } else l.ends t :=
  update_apply ..

@[simp] theorem ends_close : (l.close s).ends t = if t = s then { l.ends s with pc := .closed } else l.ends t :=
  update_apply ..

@[simp] theorem ends_put (bs : Str) : (l.put s bs).ends = l.ends := rfl

@[simp] theorem ends_takeOff (n : Nat) : (l.takeOff s n).ends = l.ends := rfl

end Ends

def step (l : Link) : Event → Option Link
  | .write s n =>
    match (l.ends s).pc with
    | .writing rest =>
      if 0 < n ∧ n ≤ rest.length then
        some ((l.put s (rest.take n)).goTo s (if n = rest.length then .idle else .writing (rest.drop n)))
      else none
    | _ => none
  | .read s n =>
    match (l.ends s).pc with
    | .reading r =>
      if 0 < n ∧ n ≤ r.want ∧ n ≤ l.available s then
        match r.feed (l.next s n) with
        | .inl r' => some ((l.takeOff s n).goTo s (.reading r'))
        | .inr data => some ((l.takeOff s n).setEnd s { l.ends s with pc := .idle, got := (l.ends s).got ++ [data] })
      else none
    | _ => none
  | .eof s =>
    match (l.ends s).pc with
    | .reading _ => if (l.ends !s).pc = .closed ∧ l.available s = 0 then some (l.close s) else none
    | _ => none
  | .fail s =>
    match (l.ends s).pc with
    | .reading _ | .writing _ => some (l.close s)
    | _ => none

/-- Everything a call can do. -/
inductive Takes (l : Link) : Link → Prop
  | write (s : Bool) {n : Nat} {rest : Str} : (l.ends s).pc = .writing rest → n ≤ rest.length →
      Takes l ((l.put s (rest.take n)).goTo s (if n = rest.length then .idle else .writing (rest.drop n)))
  | more (s : Bool) {n : Nat} {r r' : Reader} : (l.ends s).pc = .reading r → n ≤ r.want → n ≤ l.available s →
      r.feed (l.next s n) = .inl r' → Takes l ((l.takeOff s n).goTo s (.reading r'))
  | whole (s : Bool) {n : Nat} {r : Reader} {data : Str} : (l.ends s).pc = .reading r → n ≤ r.want →
      n ≤ l.available s → r.feed (l.next s n) = .inr data →
      Takes l ((l.takeOff s n).setEnd s { l.ends s with pc := .idle, got := (l.ends s).got ++ [data] })
  | drop (s : Bool) : (l.ends s).pc ≠ .idle → Takes l (l.close s)

theorem step_takes {l l' : Link} {e : Event} (h : l.step e = some l') : Takes l l' := by
  cases e with
  | write s n =>
    simp only [step] at h
    split at h
    · rename_i rest hpc
      obtain ⟨⟨-, hn⟩, heq⟩ := Option.ite_none_right_eq_some.1 h
      cases heq
      exact .write s hpc hn
    · cases h
  | read s n =>
    simp only [step] at h
    split at h
    · rename_i r hpc
      obtain ⟨⟨-, hwant, havail⟩, heq⟩ := Option.ite_none_right_eq_some.1 h
      split at heq
      · rename_i r' hfeed
        cases heq
        exact .more s hpc hwant havail hfeed
      · rename_i data hfeed
        cases heq
        exact .whole s hpc hwant havail hfeed
    · cases h
  | eof s =>
    simp only [step] at h
    split at h
    · rename_i r hpc
      obtain ⟨-, heq⟩ := Option.ite_none_right_eq_some.1 h
      cases heq
      exact .drop s (by simp [hpc])
    · cases h
  | fail s =>
    simp only [step] at h
    split at h
    · rename_i r hpc
      cases h
      exact .drop s (by simp [hpc])
    · rename_i r hpc
      cases h
      exact .drop s (by simp [hpc])
    · cases h

end Link

/-- What a call does to the end that makes it. -/
inductive End.Moves (e : End) : End → Prop
  | write {rest : Str} (pc : Pc) : e.pc = .writing rest → (∀ r, pc ≠ .reading r) → Moves e { e with pc := pc }
  | more {r : Reader} (r' : Reader) : e.pc = .reading r → Moves e { e with pc := .reading r' }
  | whole {r : Reader} (data : Str) : e.pc = .reading r → Moves e { e with pc := .idle, got := e.got ++ [data] }
  | drop : e.pc ≠ .idle → Moves e { e with pc := .closed }

theorem End.Moves.sent {e e' : End} (h : e.Moves e') : e'.sent = e.sent := by
  cases h <;> rfl

/-- A call brings a frame at most. -/
theorem End.Moves.got {e e' : End} (h : e.Moves e') :
    e'.got = e.got ∨ (∃ r, e.pc = .reading r) ∧ ∃ data, e'.got = e.got ++ [data] := by
  cases h with
  | write | more | drop => exact .inl rfl
  | whole data hpc => exact .inr ⟨⟨_, hpc⟩, data, rfl⟩

/-- The other end is where it was. -/
theorem Link.Takes.ends {l l' : Link} (h : Takes l l') :
    ∃ s, End.Moves (l.ends s) (l'.ends s) ∧ ∀ t, t ≠ s → l'.ends t = l.ends t := by
  cases h with
  | write s hpc hn =>
    refine ⟨s, ?_, fun t ht => by simp [ht]⟩
    simp only [ends_goTo, ends_put, if_true]
    refine .write _ hpc fun r => ?_
    split
    · rintro ⟨⟩
    · rintro ⟨⟩
  | more s hpc hwant havail hfeed =>
    refine ⟨s, ?_, fun t ht => by simp [ht]⟩
    simp only [ends_goTo, ends_takeOff, if_true]
    exact .more _ hpc
  | whole s hpc hwant havail hfeed =>
    refine ⟨s, ?_, fun t ht => by simp [ht]⟩
    simp only [ends_setEnd, if_true]
    exact .whole _ hpc
  | drop s hpc =>
    refine ⟨s, ?_, fun t ht => by simp [ht]⟩
    simp only [ends_close, if_true]
    exact .drop hpc

/-! ## What is under way -/

namespace Pc

/-- What is still to be written, if the end goes on. -/
def rest : Pc → Option Str
  | idle | reading _ => some []
  | writing r => some r
  | closed => none

/-- What has been read of the next frame, if the end goes on. -/
def part : Pc → Option Str
  | idle | writing _ => some []
  | reading r => some r.bytes
  | closed => none

end Pc

/-- The stream holds the frames of an end, up to what it has still to write. -/
structure Writes (e : End) (p : Pipe) : Prop where
  stream : ∃ rest, p.written ++ rest = frames e.sent ∧ ∀ r, e.pc.rest = some r → rest = r
  unfinished : e.pc ≠ .writing []

/-- An end has read the frames it has received, and a part of the next one. -/
structure Reads (e : End) (p : Pipe) : Prop where
  within : p.taken ≤ p.written.length
  stream : ∃ part, p.written.take p.taken = frames e.got ++ part ∧ ∀ q, e.pc.part = some q → part = q
  unfinished : ∀ r, e.pc = .reading r → r.Open
  fits : ∀ data ∈ e.got, data.length < 2 ^ 32

/-- More bytes in the stream are nothing to the end that reads it. -/
theorem Reads.append {e : End} {p : Pipe} (h : Reads e p) (bs : Str) : Reads e ⟨p.written ++ bs, p.taken⟩ := by
  obtain ⟨hwithin, ⟨part, hpart, hpc⟩, hopen, hfits⟩ := h
  refine ⟨hwithin.trans (by simp), ⟨part, ?_, hpc⟩, hopen, hfits⟩
  show (p.written ++ bs).take p.taken = _
  rw [List.take_append_of_le_length hwithin, hpart]

namespace Link

structure Sound (l : Link) : Prop where
  writes : ∀ s, Writes (l.ends s) (l.pipes s)
  reads : ∀ s, Reads (l.ends s) (l.pipes !s)

variable {l l' : Link}

theorem Sound.start : Sound start where
  writes s := ⟨⟨[], rfl, by rintro r ⟨⟩; rfl⟩, by rintro ⟨⟩⟩
  reads s := ⟨le_refl _, ⟨[], rfl, by rintro r ⟨⟩; rfl⟩, by rintro r ⟨⟩, by rintro data ⟨⟩⟩

/-- One end changes, and no stream. -/
theorem Sound.setEnd (h : Sound l) {s : Bool} {e : End} (hw : Writes e (l.pipes s)) (hr : Reads e (l.pipes !s)) :
    Sound (l.setEnd s e) := by
  refine ⟨fun t => ?_, fun t => ?_⟩
  · by_cases ht : t = s
    · subst ht
      show Writes (update l.ends t e t) _
      rw [update_self]
      exact hw
    · show Writes (update l.ends s e t) _
      rw [update_of_ne ht]
      exact h.writes t
  · by_cases ht : t = s
    · subst ht
      show Reads (update l.ends t e t) _
      rw [update_self]
      exact hr
    · show Reads (update l.ends s e t) _
      rw [update_of_ne ht]
      exact h.reads t

/-- One stream changes, and with it what its two ends know of it. -/
theorem Sound.setPipe (h : Sound l) {s : Bool} {p : Pipe} {e : End} (hw : Writes e p) (hr : Reads (l.ends !s) p)
    (hr' : Reads e (l.pipes !s)) :
    Sound (({ l with pipes := update l.pipes s p } : Link).setEnd s e) := by
  have hne : (!s) ≠ s := Bool.not_ne_self s
  refine ⟨fun t => ?_, fun t => ?_⟩
  · by_cases ht : t = s
    · subst ht
      show Writes (update l.ends t e t) (update l.pipes t p t)
      rw [update_self, update_self]
      exact hw
    · show Writes (update l.ends s e t) (update l.pipes s p t)
      rw [update_of_ne ht, update_of_ne ht]
      exact h.writes t
  · by_cases ht : t = s
    · subst ht
      show Reads (update l.ends t e t) (update l.pipes t p !t)
      rw [update_self, update_of_ne hne]
      exact hr'
    · obtain rfl : t = !s := Bool.eq_not.2 ht
      show Reads (update l.ends s e !s) (update l.pipes s p !!s)
      rw [update_of_ne hne, Bool.not_not, update_self]
      exact hr

/-- An end that is done has written a part of its frames, and read a part of the other's. -/
theorem Sound.close (h : Sound l) (s : Bool) : Sound (l.close s) := by
  obtain ⟨⟨rest, hrest, -⟩, -⟩ := h.writes s
  obtain ⟨hwithin, ⟨part, hpart, -⟩, -, hfits⟩ := h.reads s
  exact h.setEnd ⟨⟨rest, hrest, by rintro r ⟨⟩⟩, by rintro ⟨⟩⟩
    ⟨hwithin, ⟨part, hpart, by rintro q ⟨⟩⟩, by rintro r ⟨⟩, hfits⟩

theorem Sound.send (h : Sound l) {s : Bool} (hpc : (l.ends s).pc = .idle) (data : Str) :
    Sound (l.send s data) := by
  obtain ⟨⟨rest, hrest, hidle⟩, -⟩ := h.writes s
  obtain ⟨hwithin, ⟨part, hpart, hnone⟩, -, hfits⟩ := h.reads s
  rw [hpc] at hidle hnone
  obtain rfl := hidle [] rfl
  refine h.setEnd ⟨⟨framed data, ?_, by rintro r ⟨⟩; rfl⟩, by rintro ⟨⟩⟩
    ⟨hwithin, ⟨part, hpart, ?_⟩, by rintro r ⟨⟩, hfits⟩
  · rw [frames_concat, ← hrest, List.append_nil]
  · rintro q ⟨⟩
    exact hnone [] rfl

theorem Sound.receive (h : Sound l) {s : Bool} (hpc : (l.ends s).pc = .idle) :
    Sound (l.receive s) := by
  obtain ⟨⟨rest, hrest, hidle⟩, -⟩ := h.writes s
  obtain ⟨hwithin, ⟨part, hpart, hnone⟩, -, hfits⟩ := h.reads s
  rw [hpc] at hidle hnone
  refine h.setEnd ⟨⟨rest, hrest, ?_⟩, by rintro ⟨⟩⟩ ⟨hwithin, ⟨part, hpart, ?_⟩, ?_, hfits⟩
  · rintro r ⟨⟩
    exact hidle [] rfl
  · rintro q ⟨⟩
    exact hnone [] rfl
  · rintro r ⟨⟩
    exact Nat.zero_lt_succ 3

theorem Sound.write (h : Sound l) {s : Bool} {n : Nat} {rest : Str} (hpc : (l.ends s).pc = .writing rest)
    (hn : n ≤ rest.length) :
    Sound ((l.put s (rest.take n)).goTo s (if n = rest.length then .idle else .writing (rest.drop n))) := by
  obtain ⟨⟨rest', hrest, hwriting⟩, -⟩ := h.writes s
  obtain ⟨hwithin, ⟨part, hpart, hnone⟩, -, hfits⟩ := h.reads s
  rw [hpc] at hwriting hnone
  obtain rfl := hwriting rest rfl
  have hcut : (l.pipes s).written ++ rest'.take n ++ rest'.drop n = frames (l.ends s).sent := by
    rw [List.append_assoc, List.take_append_drop, hrest]
  have hother : Reads (l.ends !s) (l.pipes s) := by
    have hreads := h.reads !s
    rwa [Bool.not_not] at hreads
  refine h.setPipe ⟨⟨rest'.drop n, hcut, ?_⟩, ?_⟩ (hother.append _) ⟨hwithin, ⟨part, hpart, ?_⟩, ?_, hfits⟩
  · intro r hr
    split at hr
    · rename_i hall
      cases hr
      exact List.drop_eq_nil_of_le (le_of_eq hall.symm)
    · cases hr
      rfl
  · show (if n = rest'.length then Pc.idle else .writing (rest'.drop n)) ≠ .writing []
    split
    · rintro ⟨⟩
    · rename_i hpart
      intro heq
      have hnil := List.drop_eq_nil_iff.1 (Pc.writing.inj heq)
      omega
  · intro q hq
    split at hq <;> cases hq <;> exact hnone [] rfl
  · intro r hr
    split at hr <;> cases hr

/-- What an end has read, after one more call. -/
theorem Sound.take_next (h : Sound l) {s : Bool} {n : Nat} {r : Reader} (hpc : (l.ends s).pc = .reading r)
    (havail : n ≤ l.available s) :
    (l.next s n).length = n ∧ (l.pipes !s).taken + n ≤ (l.pipes !s).written.length ∧
      (l.pipes !s).written.take ((l.pipes !s).taken + n) = frames (l.ends s).got ++ (r.bytes ++ l.next s n) := by
  obtain ⟨hwithin, ⟨part, hpart, hreading⟩, -, -⟩ := h.reads s
  rw [hpc] at hreading
  obtain rfl := hreading r.bytes rfl
  unfold available at havail
  refine ⟨?_, by omega, ?_⟩
  · unfold next
    rw [List.length_take, List.length_drop]
    omega
  · rw [List.take_add, hpart, List.append_assoc]
    rfl

/-- An end goes on after a call that has brought it some bytes. -/
theorem Sound.takeOff (h : Sound l) {s : Bool} {n : Nat} {r : Reader} {pc : Pc} {got : List Str} {part : Str}
    (hpc : (l.ends s).pc = .reading r) (havail : n ≤ l.available s) (hrest : pc.rest = some [])
    (hpart : pc.part = some part) (hstream : frames (l.ends s).got ++ (r.bytes ++ l.next s n) = frames got ++ part)
    (hnot : pc ≠ .writing []) (hopen : ∀ r', pc = .reading r' → r'.Open)
    (hfits : ∀ data ∈ got, data.length < 2 ^ 32) :
    Sound ((l.takeOff s n).setEnd s { l.ends s with pc := pc, got := got }) := by
  obtain ⟨-, hwithin, htaken⟩ := h.take_next hpc havail
  obtain ⟨⟨rest, hwrites, hidle⟩, -⟩ := h.writes s
  rw [hpc] at hidle
  have hne : s ≠ !s := (Bool.not_ne_self s).symm
  -- the other end still writes the stream
  have hother : Writes (l.ends !s) ⟨(l.pipes !s).written, (l.pipes !s).taken + n⟩ :=
    ⟨(h.writes !s).stream, (h.writes !s).unfinished⟩
  refine ⟨fun t => ?_, fun t => ?_⟩
  · by_cases ht : t = s
    · subst ht
      show Writes (update l.ends t _ t) (update l.pipes (!t) _ t)
      rw [update_self, update_of_ne hne]
      refine ⟨⟨rest, hwrites, ?_⟩, hnot⟩
      intro r' hr'
      rw [show pc.rest = some r' from hr'] at hrest
      cases hrest
      exact hidle [] rfl
    · obtain rfl : t = !s := Bool.eq_not.2 ht
      show Writes (update l.ends s _ !s) (update l.pipes (!s) _ !s)
      rw [update_of_ne ht, update_self]
      exact hother
  · by_cases ht : t = s
    · subst ht
      show Reads (update l.ends t _ t) (update l.pipes (!t) _ !t)
      rw [update_self, update_self]
      refine ⟨hwithin, ⟨part, htaken.trans hstream, ?_⟩, hopen, hfits⟩
      intro q hq
      rw [show pc.part = some q from hq] at hpart
      cases hpart
      rfl
    · obtain rfl : t = !s := Bool.eq_not.2 ht
      show Reads (update l.ends s _ !s) (update l.pipes (!s) _ !!s)
      rw [update_of_ne ht, update_of_ne (by rw [Bool.not_not]; exact hne)]
      exact h.reads !s

theorem Sound.takes (h : Sound l) (ht : Takes l l') : Sound l' := by
  cases ht with
  | write s hpc hn => exact h.write hpc hn
  | drop s => exact h.close s
  | more s hpc hwant havail hfeed =>
    obtain ⟨hlen, -, -⟩ := h.take_next hpc havail
    obtain ⟨hopen, hbytes⟩ := Reader.feed_more ((h.reads s).unfinished _ hpc) (hlen.trans_le hwant) hfeed
    refine h.takeOff hpc havail rfl rfl (by rw [hbytes]; rfl) (by rintro ⟨⟩) ?_ (h.reads s).fits
    rintro r' ⟨⟩
    exact hopen
  | whole s hpc hwant havail hfeed =>
    obtain ⟨hlen, -, -⟩ := h.take_next hpc havail
    obtain ⟨hframe, hfit⟩ := Reader.feed_whole ((h.reads s).unfinished _ hpc) (hlen.trans_le hwant) hfeed
    refine h.takeOff hpc havail rfl rfl (by rw [← hframe, frames_concat, List.append_nil]) (by rintro ⟨⟩)
      (by rintro r ⟨⟩) ?_
    intro data hdata
    rcases List.mem_append.1 hdata with hdata | hdata
    · exact (h.reads s).fits data hdata
    · rw [List.mem_singleton.1 hdata]
      exact hfit

/-! ## What has arrived -/

/-- What an end has received is a first part of what the other one has sent. -/
theorem Sound.received_isPrefix (h : Sound l) (s : Bool)
    (hfits : ∀ data ∈ (l.ends !s).sent, data.length < 2 ^ 32) : (l.ends s).got <+: (l.ends !s).sent := by
  obtain ⟨⟨rest, hrest, -⟩, -⟩ := h.writes !s
  obtain ⟨-, ⟨part, hpart, -⟩, -, hgot⟩ := h.reads s
  have hstream : frames (l.ends s).got ++ (part ++ (((l.pipes !s).written.drop (l.pipes !s).taken) ++ rest)) =
      frames (l.ends !s).sent := by
    rw [← List.append_assoc, ← hpart, ← List.append_assoc, List.take_append_drop, hrest]
  obtain ⟨zs, hzs, -⟩ := frames_isPrefix hgot hfits hstream
  exact ⟨zs, hzs.symm⟩

/-- An end that waits has received all, if the other one has nothing left to write and the stream is read up. -/
theorem Sound.received_all (h : Sound l) {s : Bool} {r : Reader}
    (hfits : ∀ data ∈ (l.ends !s).sent, data.length < 2 ^ 32) (hpc : (l.ends s).pc = .reading r)
    (hrest : (l.ends !s).pc.rest = some []) (havail : l.available s = 0) : (l.ends s).got = (l.ends !s).sent := by
  obtain ⟨⟨rest, hwrites, hdone⟩, -⟩ := h.writes !s
  obtain ⟨hwithin, ⟨part, hpart, hreading⟩, hopen, hgot⟩ := h.reads s
  rw [hpc] at hreading
  obtain rfl := hreading r.bytes rfl
  obtain rfl := hdone [] hrest
  have hall : (l.pipes !s).written.take (l.pipes !s).taken = (l.pipes !s).written := by
    unfold available at havail
    exact List.take_of_length_le (by omega)
  rw [hall] at hpart
  rw [List.append_nil, hpart] at hwrites
  obtain ⟨zs, hzs, hbytes⟩ := frames_isPrefix hgot hfits hwrites
  -- the frames that are missing would make up the part that has been read
  have hnil : zs = [] := by
    refine (hopen r hpc).bytes_eq_frames (fun data hdata => hfits data ?_) hbytes
    rw [hzs]
    exact List.mem_append_right _ hdata
  rw [hzs, hnil, List.append_nil]

/-! ## Calls that can be made -/

theorem Sound.exists_write (h : Sound l) {s : Bool} {rest : Str} (hpc : (l.ends s).pc = .writing rest) :
    ∃ l', l.step (.write s 1) = some l' := by
  have hne : rest ≠ [] := by
    rintro rfl
    exact (h.writes s).unfinished hpc
  have hlen : 1 ≤ rest.length := List.length_pos_iff.2 hne
  exact ⟨_, by simp only [step, hpc, if_pos (And.intro Nat.one_pos hlen)]; rfl⟩

theorem Sound.exists_read (h : Sound l) {s : Bool} {r : Reader} (hpc : (l.ends s).pc = .reading r)
    (havail : 0 < l.available s) : ∃ l', l.step (.read s 1) = some l' := by
  have hwant : 1 ≤ r.want := by
    have hopen := (h.reads s).unfinished r hpc
    cases r with
    | header got =>
      have hlt : got.length < 4 := hopen
      exact Nat.sub_pos_of_lt hlt
    | payload len got => exact Nat.sub_pos_of_lt hopen.1
  simp only [step, hpc, if_pos (And.intro Nat.one_pos (And.intro hwant (Nat.succ_le_of_lt havail)))]
  split
  · exact ⟨_, rfl⟩
  · exact ⟨_, rfl⟩

theorem exists_eof {s : Bool} {r : Reader} (hpc : (l.ends s).pc = .reading r) (hclosed : (l.ends !s).pc = .closed)
    (havail : l.available s = 0) : ∃ l', l.step (.eof s) = some l' :=
  ⟨_, by simp only [step, hpc, if_pos (And.intro hclosed havail)]; rfl⟩

end Link

end Duplex
