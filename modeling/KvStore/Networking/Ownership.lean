/-
Connections as objects that own a descriptor (`src/networking/tcp_connection.cpp`): the constructors,
the assignment, the destructor and the operations that close as a side effect. A program is a list of
operations on named objects; what it does to descriptors is the list of its calls on them. A descriptor
is in the hands of the one open connection that has it until it is closed, so that it is closed once.
-/
import KvStore.Lib.Custody
import KvStore.Lib.Machine
import KvStore.Networking.Connection

namespace KvStore

open Custody Function Machine Protocol

/-- A `TcpConnection` by the number of its descriptor. -/
structure ConnectionObject where
  fd : Int
  isOpen : Bool
  deriving DecidableEq, Repr

/-- A call on a descriptor; the reads of one `readFrame` are one call, as are the writes of one
`writeFrame`. -/
inductive SysCall
  | read (fd : Int)
  | write (fd : Int)
  | close (fd : Int)
  deriving DecidableEq, Repr

namespace SysCall

def fd : SysCall → Int
  | read fd | write fd | close fd => fd

/-- The descriptor the call closes. -/
def closes : SysCall → Option Int
  | close fd => some fd
  | read _ | write _ => none

theorem closes_eq_some {c : SysCall} {d : Int} : c.closes = some d ↔ c = .close d := by
  cases c <;> simp [closes]

end SysCall

inductive ConnectionOp
  | construct (x : Nat) (fd : Int)
  | moveConstruct (x other : Nat)
  | moveAssign (x other : Nat)
  /-- with the result of `readFrame` -/
  | readRequest (x : Nat) (read : Bool)
  /-- with the result of `writeFrame` -/
  | sendResponse (x : Nat) (written : Bool)
  | close (x : Nat)
  | destroy (x : Nat)
  deriving DecidableEq, Repr

/-- The objects there are, the descriptors handed to a constructor and the calls made so far. -/
structure Connections where
  objects : Nat → Option ConnectionObject
  handed : List Int
  calls : List SysCall

namespace Connections

/-! ## Operations -/

def start : Connections := ⟨fun _ => none, [], []⟩

def set (w : Connections) (x : Nat) (c : Option ConnectionObject) : Connections :=
  { w with objects := update w.objects x c }

def call (w : Connections) (c : SysCall) : Connections := { w with calls := w.calls ++ [c] }

/-- `close()`; the number of the descriptor stays behind. -/
def close (w : Connections) (x : Nat) (c : ConnectionObject) : Connections :=
  if c.isOpen then (w.call (.close c.fd)).set x (some { c with isOpen := false }) else w

/-- The members of `other` go to `x`. -/
def moveFrom (w : Connections) (x y : Nat) (other : ConnectionObject) : Connections :=
  (w.set x (some other)).set y (some ⟨-1, false⟩)

/-- `readRequest` and `sendResponse`: a call on the descriptor, and `close()` if it fails. -/
def use (w : Connections) (x : Nat) (c : ConnectionObject) (touch : Int → SysCall) (ok : Bool) : Connections :=
  if c.isOpen then
    if ok then w.call (touch c.fd) else (w.call (touch c.fd)).close x c
  else w

def step (w : Connections) : ConnectionOp → Option Connections
  | .construct x fd =>
    if w.objects x = none ∧ fd ∉ w.handed then
      some { w.set x (some ⟨fd, true⟩) with handed := w.handed ++ [fd] }
    else none
  | .moveConstruct x y => (w.objects y).bind fun other =>
    if w.objects x = none then some (w.moveFrom x y other) else none
  | .moveAssign x y => (w.objects x).bind fun c => (w.objects y).map fun other =>
    if x = y then w else (w.close x c).moveFrom x y other
  | .readRequest x read => (w.objects x).map fun c => w.use x c .read read
  | .sendResponse x written => (w.objects x).map fun c => w.use x c .write written
  | .close x => (w.objects x).map fun c => w.close x c
  | .destroy x => (w.objects x).map fun c => (w.close x c).set x none

/-! ## The operations on one connection -/

theorem objects_close {w : Connections} {x : Nat} {c : ConnectionObject} (hx : w.objects x = some c) :
    (w.close x c).objects x = some { c with isOpen := false } := by
  rcases c with ⟨fd, _ | _⟩
  · exact hx
  · exact update_self _ _ _

theorem objects_use {w : Connections} {x : Nat} {c : ConnectionObject} (hx : w.objects x = some c)
    (touch : Int → SysCall) (ok : Bool) :
    (w.use x c touch ok).objects x = some { c with isOpen := c.isOpen && ok } := by
  rcases c with ⟨fd, _ | _⟩
  · exact hx
  · cases ok
    · exact objects_close (w := w.call _) hx
    · exact hx

/-- The object is open after `readRequest` exactly if the connection on the socket is. -/
theorem readRequest_isOpen {w : Connections} {x : Nat} {c : ConnectionObject} (hx : w.objects x = some c)
    {conn : TcpConnection} (hopen : conn.isOpen = c.isOpen) :
    ∃ w' c', w.step (.readRequest x (readFrameFd conn.fd).1.isSome) = some w' ∧ w'.objects x = some c' ∧
      c'.isOpen = conn.readRequest.2.isOpen := by
  refine ⟨_, _, by rw [step, hx, Option.map_some], objects_use hx _ _, ?_⟩
  unfold TcpConnection.readRequest
  rw [← hopen]
  rcases conn with ⟨fd, _ | _⟩
  · rfl
  · rcases readFrameFd fd with ⟨_ | buffer, fd'⟩ <;> rfl

/-- The object is open after `sendResponse` exactly if the connection on the socket is. -/
theorem sendResponse_isOpen {w : Connections} {x : Nat} {c : ConnectionObject} (hx : w.objects x = some c)
    {conn : TcpConnection} (hopen : conn.isOpen = c.isOpen) (resp : Response) :
    ∃ w' c', w.step (.sendResponse x (writeFrameFd conn.fd (serializeResponse resp)).1) = some w' ∧
      w'.objects x = some c' ∧ c'.isOpen = (conn.sendResponse resp).2.isOpen := by
  refine ⟨_, _, by rw [step, hx, Option.map_some], objects_use hx _ _, ?_⟩
  unfold TcpConnection.sendResponse
  rw [← hopen]
  rcases conn with ⟨fd, _ | _⟩
  · rfl
  · rcases writeFrameFd fd (serializeResponse resp) with ⟨_ | _, fd'⟩ <;> rfl

/-! ## Descriptors -/

/-- The descriptor an object owns: that of an open connection. -/
def owned : Option ConnectionObject → Option Int
  | some ⟨fd, true⟩ => some fd
  | some ⟨_, false⟩ | none => none

def held (w : Connections) (x : Nat) : Option Int := owned (w.objects x)

/-- The descriptors closed so far. -/
def closed (w : Connections) : List Int := w.calls.filterMap SysCall.closes

theorem mem_closed {w : Connections} {d : Int} : d ∈ w.closed ↔ .close d ∈ w.calls := by
  simp [closed, List.mem_filterMap, SysCall.closes_eq_some]

theorem count_closed (w : Connections) (d : Int) : w.calls.count (.close d) = w.closed.count d := by
  unfold closed
  induction w.calls with
  | nil => rfl
  | cons c calls ih =>
    rw [List.count_cons, ih, List.filterMap_cons]
    cases c <;> simp [SysCall.closes, List.count_cons]

/-- Descriptors pass from hand to hand until they are closed, and no call comes behind the close. -/
structure Owned (w : Connections) : Prop where
  holding : Holding w.held w.handed w.closed
  order : w.calls.Pairwise fun earlier later => earlier ≠ .close later.fd
  known : ∀ c ∈ w.calls, c.fd ∈ w.handed

section Owned

variable {w : Connections} {x y : Nat} {c other : ConnectionObject}

theorem held_set (o : Option ConnectionObject) : (w.set x o).held = update w.held x (owned o) := by
  funext y
  exact apply_update (fun _ => owned) w.objects x o y

theorem held_eq (hx : w.objects x = some c) (hopen : c.isOpen = true) : w.held x = some c.fd := by
  rw [held, hx]
  rcases c with ⟨fd, _ | _⟩
  · cases hopen
  · rfl

theorem Owned.start : Owned start := ⟨Holding.start, .nil, by rintro c ⟨⟩⟩

/-- A call on the descriptor of an open connection comes before its close. -/
theorem Owned.order_call (h : Owned w) (hx : w.held x = some c.fd) {touch : SysCall} (hfd : touch.fd = c.fd) :
    (w.call touch).calls.Pairwise fun earlier later => earlier ≠ .close later.fd := by
  refine List.pairwise_append.2 ⟨h.order, List.pairwise_singleton _ _, ?_⟩
  rintro earlier hearlier later hlater rfl
  rw [List.mem_singleton.1 hlater, hfd] at hearlier
  exact h.holding.not_done x _ hx (mem_closed.2 hearlier)

theorem Owned.known_call (h : Owned w) (hx : w.held x = some c.fd) {touch : SysCall} (hfd : touch.fd = c.fd) :
    ∀ t ∈ (w.call touch).calls, t.fd ∈ w.handed := by
  intro t ht
  rcases List.mem_append.1 ht with ht | ht
  · exact h.known t ht
  · rw [List.mem_singleton.1 ht, hfd]
    exact h.holding.mem_of_held hx

theorem Owned.touch (h : Owned w) (hx : w.held x = some c.fd) {touch : SysCall} (hfd : touch.fd = c.fd)
    (hcloses : touch.closes = none) : Owned (w.call touch) := by
  have hclosed : (w.call touch).closed = w.closed := by
    simp [closed, call, List.filterMap_append, hcloses]
  refine ⟨?_, h.order_call hx hfd, h.known_call hx hfd⟩
  rw [hclosed]
  exact h.holding

theorem Owned.close (h : Owned w) (hx : w.objects x = some c) : Owned (w.close x c) := by
  by_cases hopen : c.isOpen = true
  · have hheld := held_eq hx hopen
    rw [Connections.close, if_pos hopen]
    refine ⟨?_, h.order_call hheld rfl, h.known_call hheld rfl⟩
    have hclosed : ((w.call (.close c.fd)).set x (some { c with isOpen := false })).closed = w.closed ++ [c.fd] := by
      simp [closed, call, set, List.filterMap_append, SysCall.closes]
    rw [hclosed, held_set]
    exact h.holding.finish hheld
  · rw [Connections.close, if_neg hopen]
    exact h

/-- Where nothing is owned before and after, nothing changes hands. -/
theorem Owned.set_empty (h : Owned w) (hx : w.held x = none) {o : Option ConnectionObject} (ho : owned o = none) :
    Owned (w.set x o) := by
  refine ⟨?_, h.order, h.known⟩
  rw [held_set]
  exact h.holding.keep (ho.trans hx.symm)

theorem Owned.moveFrom (h : Owned w) (hxy : x ≠ y) (hx : w.held x = none) (hy : w.objects y = some other) :
    Owned (w.moveFrom x y other) := by
  refine ⟨?_, h.order, h.known⟩
  have hheld : (w.moveFrom x y other).held = update (update w.held x (w.held y)) y none := by
    rw [Connections.moveFrom, held_set, held_set, held, hy]
    rfl
  rw [hheld]
  exact h.holding.pass hxy hx

theorem held_close (hx : w.objects x = some c) : (w.close x c).held x = none := by
  rw [held, objects_close hx]
  rfl

theorem objects_close_ne (hxy : x ≠ y) : (w.close x c).objects y = w.objects y := by
  unfold close
  split
  · exact update_of_ne hxy.symm _ _
  · rfl

theorem Owned.use (h : Owned w) (hx : w.objects x = some c) {touch : Int → SysCall}
    (hfd : ∀ d, (touch d).fd = d) (hcloses : ∀ d, (touch d).closes = none) (ok : Bool) :
    Owned (w.use x c touch ok) := by
  by_cases hopen : c.isOpen = true
  · have htouch : Owned (w.call (touch c.fd)) := h.touch (held_eq hx hopen) (hfd _) (hcloses _)
    rw [Connections.use, if_pos hopen]
    cases ok
    · exact htouch.close hx
    · exact htouch
  · rw [Connections.use, if_neg hopen]
    exact h

theorem Owned.step {w' : Connections} {op : ConnectionOp} (h : Owned w) (hstep : w.step op = some w') : Owned w' := by
  cases op with
  | construct x fd =>
    obtain ⟨⟨hx, hfd⟩, hstep⟩ := Option.ite_none_right_eq_some.1 hstep
    cases hstep
    refine ⟨?_, h.order, fun c hc => List.mem_append_left _ (h.known c hc)⟩
    have hnone : w.held x = none := by
      rw [held, hx]
      rfl
    have hheld : Connections.held { w.set x (some ⟨fd, true⟩) with handed := w.handed ++ [fd] } =
        update w.held x (some fd) := held_set _
    rw [hheld]
    exact h.holding.take hnone hfd
  | moveConstruct x y =>
    obtain ⟨other, hy, hstep⟩ := Option.bind_eq_some_iff.1 hstep
    obtain ⟨hx, hstep⟩ := Option.ite_none_right_eq_some.1 hstep
    cases hstep
    refine h.moveFrom ?_ ?_ hy
    · rintro rfl
      rw [hx] at hy
      cases hy
    · rw [held, hx]
      rfl
  | moveAssign x y =>
    obtain ⟨c, hx, hstep⟩ := Option.bind_eq_some_iff.1 hstep
    obtain ⟨other, hy, rfl⟩ := Option.map_eq_some_iff.1 hstep
    by_cases hxy : x = y
    · -- `this != &other` is false
      rw [if_pos hxy]
      exact h
    · rw [if_neg hxy]
      exact (h.close hx).moveFrom hxy (held_close hx) ((objects_close_ne hxy).trans hy)
  | readRequest x read =>
    obtain ⟨c, hx, rfl⟩ := Option.map_eq_some_iff.1 hstep
    exact h.use hx (fun _ => rfl) (fun _ => rfl) read
  | sendResponse x written =>
    obtain ⟨c, hx, rfl⟩ := Option.map_eq_some_iff.1 hstep
    exact h.use hx (fun _ => rfl) (fun _ => rfl) written
  | close x =>
    obtain ⟨c, hx, rfl⟩ := Option.map_eq_some_iff.1 hstep
    exact h.close hx
  | destroy x =>
    obtain ⟨c, hx, rfl⟩ := Option.map_eq_some_iff.1 hstep
    exact (h.close hx).set_empty (held_close hx) rfl

end Owned

/-- Whatever a program does with its connections: a descriptor has at most one open owner, no call on it
comes behind its close, and in particular no second close; when all objects are destroyed, every
descriptor handed to a constructor has been closed. -/
theorem descriptors_closed_once {ops : List ConnectionOp} {w : Connections}
    (h : Runs step (fun _ _ => True) start ops w) :
    (∀ x y c d, w.objects x = some c → w.objects y = some d → c.isOpen = true → d.isOpen = true →
        c.fd = d.fd → x = y) ∧
      (w.calls.Pairwise fun earlier later => earlier ≠ .close later.fd) ∧ (∀ c ∈ w.calls, c.fd ∈ w.handed) ∧
      (∀ fd, w.calls.count (.close fd) ≤ 1) ∧
      ((∀ x, w.objects x = none) → ∀ fd ∈ w.handed, w.calls.count (.close fd) = 1) := by
  have hw : Owned w := h.invariant (fun _ _ _ hw _ hstep => hw.step hstep) Owned.start
  refine ⟨?_, hw.order, hw.known, ?_, ?_⟩
  · intro x y c d hx hy hc hd hfd
    have hheld := held_eq hx hc
    rw [hfd] at hheld
    exact hw.holding.one x y _ hheld (held_eq hy hd)
  · intro fd
    rw [count_closed]
    exact List.nodup_iff_count_le_one.1 hw.holding.done_nodup fd
  · intro hnone fd hfd
    have hperm : w.closed.Perm w.handed := hw.holding.done_perm fun x => by rw [held, hnone x]; rfl
    rw [count_closed, hperm.count_eq]
    exact List.count_eq_one_of_mem hw.holding.taken_nodup hfd

/-- Two connections: the second is moved onto the first, which is assigned to itself, fails to send and
is destroyed, as is the one that was moved from. -/
def movedAndFailed : List ConnectionOp :=
  [.construct 0 3, .construct 1 4, .readRequest 1 true, .moveAssign 0 1, .moveAssign 0 0, .sendResponse 0 false,
    .close 0, .sendResponse 0 true, .readRequest 1 true, .moveConstruct 2 1, .destroy 0, .destroy 1, .destroy 2]

theorem descriptors_closed_once_movedAndFailed :
    ∃ w, Runs step (fun _ _ => True) start movedAndFailed w ∧
      w.calls = [.read 4, .close 3, .write 4, .close 4] ∧ ∀ fd ∈ w.handed, w.calls.count (.close fd) = 1 := by
  obtain ⟨w, hw⟩ : ∃ w, runEvents (guarded step fun _ _ => True) start movedAndFailed = some w := ⟨_, rfl⟩
  have hnone : ∀ x, w.objects x = none := by
    cases hw
    intro x
    rcases x with _ | _ | _ | x <;> rfl
  have hrun : Runs step (fun _ _ => True) start movedAndFailed w := runs_of_runEvents hw
  refine ⟨w, hrun, ?_, (descriptors_closed_once hrun).2.2.2.2 hnone⟩
  cases hw
  rfl

end Connections

end KvStore
