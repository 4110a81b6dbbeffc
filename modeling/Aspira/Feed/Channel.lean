import Aspira.Pool.Sequential
import Aspira.Ring.Rounding

/-!
# Feed — Channel

The way of a message through `feed_handler.c`: `recv_thread_func` allocates an object of the pool,
fills it and pushes its address; the consumer pops the address, reads the object and gives it back
with `feed_return_msg`.  A step is one call on the pool or on the ring, or one access to the object;
calls on the pool that overlap are the subject of `Pool/Exclusive.lean`.

The queue holds addresses of memory that is recycled.  `Flow` says why it is a queue of messages all
the same: at all times every object is free, in the queue, or in the hands of one of the threads, so
that none is filled while the consumer may still read it.  `channel_flows` is that for every run.

`feed_init` makes the pool as large as the requested size of the queue, "so we never exhaust".  The
ring has the size rounded up to a power of two, and one slot less to use; `channel_drops` says which
of the two limits a message meets, and `channel_exhausts_iff` that every pool of more than one object
can be exhausted.  `destroy_returns` is about `feed_destroy`.
-/

namespace Aspira

variable {M : Type}

/-- `sizeof(feed_msg_t)`. -/
def feedMsgSize : ℕ := 64

/-- What the receive thread has in its hands. -/
inductive RecvHand (M : Type) where
  | idle
  /-- An object to be filled. -/
  | allocated (ptr : UInt64) (fill : M → M)
  /-- An object to be pushed. -/
  | filled (ptr : UInt64)
  /-- An object that the queue had no room for. -/
  | refused (ptr : UInt64)

/-- What the consumer has in its hands. -/
inductive MsgHand where
  | idle
  /-- A message to be processed. -/
  | popped (ptr : UInt64)
  /-- A message to be given back. -/
  | processed (ptr : UInt64)

/-- `feed_handler_t`, as far as messages go through it, and where its two threads are.  The last four
fields are a record of the run: the messages pushed, those processed, how many objects the receive
thread has asked for, and how many bytes the socket has brought. -/
structure FeedChannel (M : Type) where
  simulationMode : Bool
  outputQueue : RingBuffer UInt64
  msgPool : Mempool
  memory : UInt64 → M
  msgsReceived : UInt64
  msgsDropped : UInt64
  bytesReceived : UInt64
  recv : RecvHand M
  consumer : MsgHand
  pushed : List M
  processed : List M
  asked : ℕ
  heard : ℕ

/-- What the receive thread finds at the head of its loop: the bytes that `recv` returns (in
production mode), and what it writes to an object. -/
structure Received (M : Type) where
  len : ℕ
  fill : M → M

/-- The two threads. -/
inductive FeedTurn (M : Type) where
  | recv (r : Received M)
  | consumer

namespace FeedChannel

/-- `feed_init`; `slab` and `list` are what `calloc` and `malloc` give for the pool. -/
def init (simulationMode : Bool) (slab : Option UInt64) (list : Bool) (memory : UInt64 → M)
    (outputQueueSize : UInt32) : Option (FeedChannel M) := do
  let outputQueue ← RingBuffer.init outputQueueSize
  let msgPool ← Mempool.init slab list (UInt64.ofNat feedMsgSize) outputQueueSize
  return {
    simulationMode := simulationMode
    outputQueue := outputQueue
    msgPool := msgPool
    memory := memory
    msgsReceived := 0
    msgsDropped := 0
    bytesReceived := 0
    recv := .idle
    consumer := .idle
    pushed := []
    processed := []
    asked := 0
    heard := 0 }

/-- The call of `mempool_alloc`. -/
def allocate (fh : FeedChannel M) (fill : M → M) : Option (FeedChannel M) := do
  let r ← fh.msgPool.alloc
  let fh := { fh with msgPool := r.2, asked := fh.asked + 1 }
  match r.1 with
  | .object ptr => return { fh with recv := .allocated ptr fill }
  | _ => return { fh with msgsDropped := fh.msgsDropped + 1 }

/-- The message needs an object: always in simulation mode, and else if the datagram is as long as a
message. -/
def Asks (fh : FeedChannel M) (r : Received M) : Bool :=
  fh.simulationMode || decide (feedMsgSize ≤ r.len)

/-- The bytes that `recv` brings are counted; there is no socket in simulation mode. -/
def hear (fh : FeedChannel M) (len : ℕ) : FeedChannel M :=
  if fh.simulationMode then fh
  else { fh with
    bytesReceived := fh.bytesReceived + UInt64.ofNat len
    heard := fh.heard + len }

/-- `recv_thread_func`. -/
def recvStep (fh : FeedChannel M) (r : Received M) : Option (FeedChannel M) :=
  match fh.recv with
  | .idle => if fh.Asks r then (fh.hear r.len).allocate r.fill else some (fh.hear r.len)
  | .allocated ptr fill =>
      some { fh with
        memory := Function.update fh.memory ptr (fill (fh.memory ptr))
        recv := .filled ptr }
  | .filled ptr => do
      let r ← fh.outputQueue.push ptr
      if r.1 then
        return { fh with
          outputQueue := r.2
          msgsReceived := fh.msgsReceived + 1
          bytesReceived := if fh.simulationMode then fh.bytesReceived + UInt64.ofNat feedMsgSize
            else fh.bytesReceived
          recv := .idle
          pushed := fh.pushed ++ [fh.memory ptr] }
      else return { fh with recv := .refused ptr }
  | .refused ptr => do
      let r ← fh.msgPool.free ptr
      return { fh with msgPool := r.2, msgsDropped := fh.msgsDropped + 1, recv := .idle }

/-- The consumer: `ring_buffer_pop`, `process_market_data`, `feed_return_msg`. -/
def consumerStep (fh : FeedChannel M) : Option (FeedChannel M) :=
  match fh.consumer with
  | .idle => do
      let r ← fh.outputQueue.pop
      match r.1 with
      | none => return fh
      | some ptr => return { fh with outputQueue := r.2, consumer := .popped ptr }
  | .popped ptr =>
      some { fh with processed := fh.processed ++ [fh.memory ptr], consumer := .processed ptr }
  | .processed ptr => do
      let r ← fh.msgPool.free ptr
      return { fh with msgPool := r.2, consumer := .idle }

/-- The next step of a thread. -/
def step (fh : FeedChannel M) (t : FeedTurn M) : Option (Unit × FeedChannel M) :=
  Option.map (fun fh' => ((), fh')) <|
    match t with
    | .recv r => fh.recvStep r
    | .consumer => fh.consumerStep

end FeedChannel

/-! ### Where the objects are -/

/-- The object in the hands of the receive thread. -/
def RecvHand.ptrs : RecvHand M → List UInt64
  | .idle => []
  | .allocated ptr _ | .filled ptr | .refused ptr => [ptr]

/-- The object in the hands of the consumer. -/
def MsgHand.ptrs : MsgHand → List UInt64
  | .idle => []
  | .popped ptr | .processed ptr => [ptr]

/-- The message in the hands of the consumer that it has not processed. -/
def MsgHand.unread : MsgHand → List UInt64
  | .popped ptr => [ptr]
  | .idle | .processed _ => []

namespace FeedChannel

/-- The objects of the pool, by their indices: `free` are on its list, `mine` in the hands of the
receive thread, `q` in the queue, and `yours` in the hands of the consumer.  What was pushed is what
was processed and what is still in memory, in order. -/
structure Flow (n cap : ℕ) (fh : FeedChannel M) (free mine q yours : List UInt32) : Prop where
  size : fh.msgPool.objectSize ≠ 0
  capacity : fh.msgPool.capacity.toNat = n
  stack : fh.msgPool.Stacks free
  queue : fh.outputQueue.Holds cap (q.map fh.msgPool.address)
  recv : fh.recv.ptrs = mine.map fh.msgPool.address
  consumer : fh.consumer.ptrs = yours.map fh.msgPool.address
  perm : ((free ++ mine ++ q ++ yours).map UInt32.toNat).Perm (List.range n)
  intact : fh.pushed =
    fh.processed ++ (fh.consumer.unread ++ q.map fh.msgPool.address).map fh.memory
  received : fh.msgsReceived = UInt64.ofNat fh.pushed.length
  asked : UInt64.ofNat fh.asked = fh.msgsReceived + fh.msgsDropped + UInt64.ofNat mine.length
  bytes : fh.bytesReceived =
    if fh.simulationMode then UInt64.ofNat feedMsgSize * fh.msgsReceived else UInt64.ofNat fh.heard

variable {n cap : ℕ} {fh fh' : FeedChannel M} {free mine q yours : List UInt32}

theorem Flow.length (h : fh.Flow n cap free mine q yours) :
    free.length + mine.length + q.length + yours.length = n := by
  have hlen := h.perm.length_eq
  rw [List.length_map, List.length_range] at hlen
  simp only [List.length_append] at hlen
  exact hlen

theorem Flow.lt (h : fh.Flow n cap free mine q yours) {x : UInt32}
    (hx : x ∈ free ++ mine ++ q ++ yours) : x.toNat < n :=
  List.mem_range.mp (h.perm.mem_iff.mp (List.mem_map_of_mem hx))

theorem Flow.nodup (h : fh.Flow n cap free mine q yours) : (free ++ mine ++ q ++ yours).Nodup :=
  List.Nodup.of_map _ (h.perm.nodup_iff.mpr List.nodup_range)

theorem Flow.mine_nil (h : fh.Flow n cap free mine q yours) (hr : fh.recv = .idle) : mine = [] := by
  have hptrs := h.recv
  rw [hr] at hptrs
  exact List.map_eq_nil_iff.mp hptrs.symm

theorem Flow.yours_nil (h : fh.Flow n cap free mine q yours) (hc : fh.consumer = .idle) :
    yours = [] := by
  have hptrs := h.consumer
  rw [hc] at hptrs
  exact List.map_eq_nil_iff.mp hptrs.symm

/-- The indices can change places. -/
theorem perm_range {l l' : List UInt32} (h : (l.map UInt32.toNat).Perm (List.range n))
    (hcount : ∀ a, l'.count a = l.count a) : (l'.map UInt32.toNat).Perm (List.range n) :=
  ((List.perm_iff_count.mpr hcount).map _).trans h

/-! ### The receive thread -/

theorem Flow.hear (h : fh.Flow n cap free mine q yours) (len : ℕ) :
    (fh.hear len).Flow n cap free mine q yours := by
  unfold FeedChannel.hear
  split
  · exact h
  · rename_i hs
    refine ⟨h.size, h.capacity, h.stack, h.queue, h.recv, h.consumer, h.perm, h.intact, h.received,
      h.asked, ?_⟩
    have hbytes := h.bytes
    rw [if_neg hs] at hbytes
    show fh.bytesReceived + _ = if fh.simulationMode then _ else UInt64.ofNat (fh.heard + len)
    rw [if_neg hs, UInt64.ofNat_add, hbytes]

theorem hear_msgsDropped (fh : FeedChannel M) (len : ℕ) :
    (fh.hear len).msgsDropped = fh.msgsDropped := by
  unfold hear
  split <;> rfl

/-- The pool has an object. -/
theorem Flow.allocate_cons {x : UInt32} (h : fh.Flow n cap (x :: free) [] q yours)
    (fill : M → M) : ∃ fh', fh.allocate fill = some fh' ∧ fh'.Flow n cap free [x] q yours ∧
      fh'.msgsDropped = fh.msgsDropped ∧ fh'.recv = .allocated (fh'.msgPool.address x) fill := by
  obtain ⟨-, halloc, hstack⟩ := h.stack.alloc_cons
  have heq : fh.allocate fill = some { fh with
      msgPool := { fh.msgPool with freeTop := fh.msgPool.freeTop - 1 }
      asked := fh.asked + 1
      recv := .allocated (fh.msgPool.address x) fill } := by
    simp only [allocate, halloc]
    rfl
  refine ⟨_, heq, ⟨h.size, h.capacity, hstack, h.queue, rfl, h.consumer, ?_, h.intact, h.received,
    ?_, h.bytes⟩, rfl, rfl⟩
  · refine perm_range h.perm fun a => ?_
    simp only [List.count_append, List.count_cons, List.count_nil]
    omega
  · have hasked : UInt64.ofNat fh.asked = fh.msgsReceived + fh.msgsDropped + UInt64.ofNat 0 := h.asked
    show UInt64.ofNat (fh.asked + 1) = fh.msgsReceived + fh.msgsDropped + UInt64.ofNat 1
    rw [UInt64.ofNat_add, hasked]
    exact congrArg (· + UInt64.ofNat 1) (add_zero _)

/-- The pool is exhausted, and the message is dropped. -/
theorem Flow.allocate_nil (h : fh.Flow n cap [] [] q yours) (fill : M → M) :
    ∃ fh', fh.allocate fill = some fh' ∧ fh'.Flow n cap [] [] q yours ∧
      fh'.msgsDropped = fh.msgsDropped + 1 ∧ fh'.recv = fh.recv := by
  have heq : fh.allocate fill = some { fh with
      asked := fh.asked + 1
      msgsDropped := fh.msgsDropped + 1 } := by
    simp only [allocate, h.stack.alloc_nil]
    rfl
  refine ⟨_, heq, ⟨h.size, h.capacity, h.stack, h.queue, h.recv, h.consumer, h.perm, h.intact,
    h.received, ?_, h.bytes⟩, rfl, rfl⟩
  have hasked : UInt64.ofNat fh.asked = fh.msgsReceived + fh.msgsDropped + UInt64.ofNat 0 := h.asked
  show UInt64.ofNat (fh.asked + 1) = fh.msgsReceived + (fh.msgsDropped + 1) + UInt64.ofNat 0
  rw [UInt64.ofNat_add, hasked]
  show _ + 0 + 1 = _ + (_ + 1) + 0
  rw [add_zero, add_zero, add_assoc]

/-- The object of the receive thread is none of those that hold a message. -/
theorem Flow.address_ne {x y : UInt32} (h : fh.Flow n cap free [x] q yours) (hy : y ∈ q ++ yours) :
    fh.msgPool.address y ≠ fh.msgPool.address x := by
  intro e
  cases fh.msgPool.address_injective h.size e
  have hnodup := h.nodup
  rw [List.append_assoc, List.append_assoc, List.nodup_append] at hnodup
  exact (List.nodup_cons.mp hnodup.2.1).1 hy

/-- The messages that are not processed. -/
theorem Flow.unread_mem (h : fh.Flow n cap free mine q yours) {ptr : UInt64}
    (hp : ptr ∈ fh.consumer.unread ++ q.map fh.msgPool.address) :
    ∃ y ∈ q ++ yours, fh.msgPool.address y = ptr := by
  rcases List.mem_append.mp hp with hp | hp
  · have hmem : ptr ∈ fh.consumer.ptrs := by
      cases hc : fh.consumer with
      | idle | processed =>
        rw [hc] at hp
        cases hp
      | popped ptr' =>
        rw [hc] at hp
        exact hp
    rw [h.consumer] at hmem
    obtain ⟨y, hy, he⟩ := List.mem_map.mp hmem
    exact ⟨y, List.mem_append_right _ hy, he⟩
  · obtain ⟨y, hy, he⟩ := List.mem_map.mp hp
    exact ⟨y, List.mem_append_left _ hy, he⟩

/-- The receive thread fills its object, and no message changes. -/
theorem Flow.fill {x : UInt32} {fill : M → M} (h : fh.Flow n cap free [x] q yours)
    (r : Received M) (hr : fh.recv = .allocated (fh.msgPool.address x) fill) :
    ∃ fh', fh.recvStep r = some fh' ∧ fh'.Flow n cap free [x] q yours ∧
      fh'.msgsDropped = fh.msgsDropped ∧ fh'.recv = .filled (fh'.msgPool.address x) := by
  have heq : fh.recvStep r = some { fh with
      memory := Function.update fh.memory (fh.msgPool.address x)
        (fill (fh.memory (fh.msgPool.address x)))
      recv := .filled (fh.msgPool.address x) } := by
    simp only [recvStep, hr]
  refine ⟨_, heq, ⟨h.size, h.capacity, h.stack, h.queue, rfl, h.consumer, h.perm, ?_, h.received,
    h.asked, h.bytes⟩, rfl, rfl⟩
  show fh.pushed = _
  rw [h.intact]
  refine congrArg (fh.processed ++ ·) (List.map_congr_left fun ptr hp => ?_)
  obtain ⟨y, hy, rfl⟩ := h.unread_mem hp
  exact (Function.update_of_ne (h.address_ne hy) ..).symm

/-- The queue has room. -/
theorem Flow.push {x : UInt32} (h : fh.Flow n cap free [x] q yours) (hlt : q.length + 1 < cap)
    (r : Received M) (hr : fh.recv = .filled (fh.msgPool.address x)) :
    ∃ fh', fh.recvStep r = some fh' ∧ fh'.Flow n cap free [] (q ++ [x]) yours ∧
      fh'.msgsDropped = fh.msgsDropped ∧ fh'.recv = .idle := by
  obtain ⟨rb', hpush, hqueue⟩ := h.queue.push (by rwa [List.length_map]) (fh.msgPool.address x)
  have heq : fh.recvStep r = some { fh with
      outputQueue := rb'
      msgsReceived := fh.msgsReceived + 1
      bytesReceived := if fh.simulationMode then fh.bytesReceived + UInt64.ofNat feedMsgSize
        else fh.bytesReceived
      recv := .idle
      pushed := fh.pushed ++ [fh.memory (fh.msgPool.address x)] } := by
    simp only [recvStep, hr, hpush]
    rfl
  refine ⟨_, heq, ⟨h.size, h.capacity, h.stack, ?_, rfl, h.consumer, ?_, ?_, ?_, ?_, ?_⟩, rfl, rfl⟩
  · rwa [List.map_append]
  · refine perm_range h.perm fun a => ?_
    simp only [List.count_append, List.count_cons, List.count_nil]
    omega
  · show fh.pushed ++ _ = _
    rw [h.intact]
    simp only [List.map_append, List.map_cons, List.map_nil, List.append_assoc]
  · show fh.msgsReceived + 1 = UInt64.ofNat (fh.pushed ++ _).length
    rw [List.length_append, UInt64.ofNat_add, h.received]
    rfl
  · have hasked : UInt64.ofNat fh.asked = fh.msgsReceived + fh.msgsDropped + UInt64.ofNat 1 := h.asked
    show UInt64.ofNat fh.asked = fh.msgsReceived + 1 + fh.msgsDropped + UInt64.ofNat 0
    rw [hasked, add_right_comm]
    exact (add_zero _).symm
  · show (if fh.simulationMode then _ else _) = if fh.simulationMode then _ else _
    have hbytes := h.bytes
    cases hs : fh.simulationMode with
    | false =>
      rw [hs] at hbytes
      exact hbytes
    | true =>
      rw [hs, if_pos rfl] at hbytes
      rw [if_pos rfl, if_pos rfl, hbytes]
      show _ = _ * (fh.msgsReceived + 1)
      rw [mul_add, mul_one]

/-- The queue is full. -/
theorem Flow.push_full {x : UInt32} (h : fh.Flow n cap free [x] q yours) (hfull : q.length + 1 = cap)
    (r : Received M) (hr : fh.recv = .filled (fh.msgPool.address x)) :
    ∃ fh', fh.recvStep r = some fh' ∧ fh'.Flow n cap free [x] q yours ∧
      fh'.msgsDropped = fh.msgsDropped ∧ fh'.recv = .refused (fh.msgPool.address x) := by
  have hpush := h.queue.push_full (by rwa [List.length_map]) (fh.msgPool.address x)
  have heq : fh.recvStep r = some { fh with recv := .refused (fh.msgPool.address x) } := by
    simp only [recvStep, hr, hpush]
    rfl
  exact ⟨_, heq, ⟨h.size, h.capacity, h.stack, h.queue, rfl, h.consumer, h.perm, h.intact,
    h.received, h.asked, h.bytes⟩, rfl, rfl⟩

/-- An object goes back to the pool. -/
theorem Flow.give_back {x : UInt32} (h : fh.Flow n cap free mine q yours) (hx : x ∈ mine ++ q ++ yours) :
    ∃ mp, fh.msgPool.free (fh.msgPool.address x) = some (.freed, mp) ∧ mp.Stacks (x :: free) ∧
      mp.objectSize = fh.msgPool.objectSize ∧ mp.capacity = fh.msgPool.capacity ∧
      mp.address = fh.msgPool.address := by
  have hlen := h.length
  have hpos : 0 < (mine ++ q ++ yours).length := List.length_pos_of_mem hx
  simp only [List.length_append] at hpos
  have hlt : x.toNat < n := h.lt (by
    rw [List.append_assoc, List.append_assoc]
    exact List.mem_append_right _ (by rwa [← List.append_assoc]))
  obtain ⟨hfree, hstack⟩ := h.stack.free_address h.size (x := x)
    (by rw [h.capacity]; omega) (by rwa [h.capacity])
  exact ⟨_, hfree, hstack, rfl, rfl, rfl⟩

/-- A message that was refused is dropped. -/
theorem Flow.refused {x : UInt32} (h : fh.Flow n cap free [x] q yours) (r : Received M)
    (hr : fh.recv = .refused (fh.msgPool.address x)) :
    ∃ fh', fh.recvStep r = some fh' ∧ fh'.Flow n cap (x :: free) [] q yours ∧
      fh'.msgsDropped = fh.msgsDropped + 1 ∧ fh'.recv = .idle := by
  obtain ⟨mp, hfree, hstack, hsize, hcap, haddr⟩ := h.give_back (x := x) (by simp)
  have heq : fh.recvStep r = some { fh with
      msgPool := mp
      msgsDropped := fh.msgsDropped + 1
      recv := .idle } := by
    simp only [recvStep, hr, hfree]
    rfl
  refine ⟨_, heq, ⟨hsize ▸ h.size, hcap ▸ h.capacity, hstack, haddr ▸ h.queue, rfl,
    haddr ▸ h.consumer, ?_, haddr ▸ h.intact, h.received, ?_, h.bytes⟩, rfl, rfl⟩
  · refine perm_range h.perm fun a => ?_
    simp only [List.count_append, List.count_cons, List.count_nil]
    omega
  · have hasked : UInt64.ofNat fh.asked = fh.msgsReceived + fh.msgsDropped + UInt64.ofNat 1 := h.asked
    show UInt64.ofNat fh.asked = fh.msgsReceived + (fh.msgsDropped + 1) + UInt64.ofNat 0
    rw [hasked, add_assoc]
    exact (add_zero _).symm

/-! ### The consumer -/

/-- The consumer takes the oldest message. -/
theorem Flow.pop {x : UInt32} (h : fh.Flow n cap free mine (x :: q) yours)
    (hc : fh.consumer = .idle) :
    ∃ fh', fh.consumerStep = some fh' ∧ fh'.Flow n cap free mine q [x] ∧
      fh'.msgsDropped = fh.msgsDropped ∧ fh'.recv = fh.recv := by
  obtain ⟨rb', hpop, hqueue⟩ := h.queue.pop_cons
  have hnil := h.yours_nil hc
  have heq : fh.consumerStep = some { fh with
      outputQueue := rb'
      consumer := .popped (fh.msgPool.address x) } := by
    simp only [consumerStep, hc, hpop]
    rfl
  refine ⟨_, heq, ⟨h.size, h.capacity, h.stack, hqueue, h.recv, rfl, ?_, ?_, h.received, h.asked,
    h.bytes⟩, rfl, rfl⟩
  · refine perm_range h.perm fun a => ?_
    simp only [hnil, List.count_append, List.count_cons, List.count_nil]
    omega
  · have hintact := h.intact
    rw [hc] at hintact
    exact hintact

/-- The consumer reads the message. -/
theorem Flow.process {ptr : UInt64} (h : fh.Flow n cap free mine q yours)
    (hc : fh.consumer = .popped ptr) :
    Flow n cap { fh with
      processed := fh.processed ++ [fh.memory ptr]
      consumer := .processed ptr } free mine q yours where
  size := h.size
  capacity := h.capacity
  stack := h.stack
  queue := h.queue
  recv := h.recv
  consumer := by
    have hptrs := h.consumer
    rw [hc] at hptrs
    exact hptrs
  perm := h.perm
  intact := by
    have hintact := h.intact
    rw [hc] at hintact
    show fh.pushed = fh.processed ++ _ ++ _
    rw [List.append_assoc]
    exact hintact
  received := h.received
  asked := h.asked
  bytes := h.bytes

/-- `feed_return_msg`. -/
theorem Flow.return {ptr : UInt64} (h : fh.Flow n cap free mine q yours)
    (hc : fh.consumer = .processed ptr) :
    ∃ fh' free', fh.consumerStep = some fh' ∧ fh'.Flow n cap free' mine q [] ∧
      fh'.msgsDropped = fh.msgsDropped ∧ fh'.recv = fh.recv := by
  obtain ⟨x, rfl, hx⟩ : ∃ x, yours = [x] ∧ ptr = fh.msgPool.address x := by
    have hptrs := h.consumer
    rw [hc] at hptrs
    obtain ⟨x, hyours, hx⟩ := List.map_eq_singleton_iff.mp hptrs.symm
    exact ⟨x, hyours, hx.symm⟩
  obtain ⟨mp, hfree, hstack, hsize, hcap, haddr⟩ := h.give_back (x := x) (by simp)
  have heq : fh.consumerStep = some { fh with msgPool := mp, consumer := .idle } := by
    simp only [consumerStep, hc, hx, hfree]
    rfl
  refine ⟨_, x :: free, heq, ⟨hsize ▸ h.size, hcap ▸ h.capacity, hstack, haddr ▸ h.queue,
    haddr ▸ h.recv, rfl, ?_, ?_, h.received, h.asked, h.bytes⟩, rfl, rfl⟩
  · refine perm_range h.perm fun a => ?_
    simp only [List.count_append, List.count_cons, List.count_nil]
    omega
  · have hintact := h.intact
    rw [hc] at hintact
    rw [haddr]
    exact hintact

/-! ### A step -/

/-- All the objects of a pool of `n` hold messages: those in the queue and the consumer's. -/
def Exhausted (n : ℕ) (fh : FeedChannel M) : Prop :=
  fh.outputQueue.count.toNat + fh.consumer.ptrs.length = n

instance (n : ℕ) (fh : FeedChannel M) : Decidable (Exhausted n fh) :=
  inferInstanceAs (Decidable (_ = _))

/-- Which limit a message meets.  It is dropped at once if the pool is exhausted; it is refused, and
dropped by the next step, if all the other objects are in the queue and their number is a power of
two. -/
def Meets (n : ℕ) (fh : FeedChannel M) : FeedTurn M → FeedChannel M → Prop
  | .consumer, fh' => fh'.msgsDropped = fh.msgsDropped
  | .recv r, fh' =>
      match fh.recv with
      | .idle =>
          if fh.Asks r ∧ fh.Exhausted n then fh'.msgsDropped = fh.msgsDropped + 1
          else fh'.msgsDropped = fh.msgsDropped
      | .allocated _ _ => fh'.msgsDropped = fh.msgsDropped
      | .filled ptr => fh'.msgsDropped = fh.msgsDropped ∧
          (fh'.recv = .refused ptr ↔ n.isPowerOfTwo ∧ fh.outputQueue.count.toNat + 1 = n)
      | .refused _ => fh'.msgsDropped = fh.msgsDropped + 1

theorem Flow.count (h : fh.Flow n cap free mine q yours) :
    fh.outputQueue.count.toNat = q.length := by
  rw [h.queue.spans.count, List.length_map]

theorem Flow.exhausted_iff (h : fh.Flow n cap free [] q yours) : fh.Exhausted n ↔ free = [] := by
  have hlen := h.length
  have hyours : fh.consumer.ptrs.length = yours.length := by rw [h.consumer, List.length_map]
  rw [Exhausted, h.count, hyours, ← List.length_eq_zero_iff]
  simp only [List.length_nil] at hlen
  omega

/-- The ring has one slot less than it has room for: its size is the pool's. -/
theorem Flow.full_iff {x : UInt32} (h : fh.Flow n cap free [x] q yours)
    (hcap : IsLeast {p : ℕ | p.isPowerOfTwo ∧ n ≤ p} cap) :
    q.length + 1 = cap ↔ n.isPowerOfTwo ∧ q.length + 1 = n := by
  have hlen := h.length
  have hle : n ≤ cap := hcap.1.2
  simp only [List.length_singleton] at hlen
  constructor
  · intro hfull
    have hn : n = cap := by omega
    exact ⟨hn ▸ hcap.1.1, by omega⟩
  · rintro ⟨hpow, hfull⟩
    have hge : cap ≤ n := hcap.2 ⟨hpow, le_rfl⟩
    omega

/-- **A step of the receive thread.** -/
theorem Flow.recvStep (h : fh.Flow n cap free mine q yours)
    (hcap : IsLeast {p : ℕ | p.isPowerOfTwo ∧ n ≤ p} cap) (r : Received M) :
    ∃ fh', fh.recvStep r = some fh' ∧
      (∃ free' mine' q', fh'.Flow n cap free' mine' q' yours) ∧ fh.Meets n (.recv r) fh' := by
  have hrecv := h.recv
  cases hr : fh.recv with
  | idle =>
    cases h.mine_nil hr
    have hexhausted := h.exhausted_iff
    have hdropped := fh.hear_msgsDropped r.len
    have hheard := h.hear r.len
    by_cases hasks : fh.Asks r = true
    · cases free with
      | nil =>
        obtain ⟨fh', hstep, h', hdrop, -⟩ := hheard.allocate_nil r.fill
        refine ⟨fh', by simpa only [FeedChannel.recvStep, hr, if_pos hasks] using hstep,
          ⟨_, _, _, h'⟩, ?_⟩
        simp only [Meets, hr]
        rw [if_pos ⟨hasks, hexhausted.mpr rfl⟩, hdrop, hdropped]
      | cons x free =>
        obtain ⟨fh', hstep, h', hdrop, -⟩ := hheard.allocate_cons r.fill
        refine ⟨fh', by simpa only [FeedChannel.recvStep, hr, if_pos hasks] using hstep,
          ⟨_, _, _, h'⟩, ?_⟩
        simp only [Meets, hr]
        rw [if_neg (fun e => List.cons_ne_nil _ _ (hexhausted.mp e.2)), hdrop, hdropped]
    · refine ⟨fh.hear r.len, by simp only [FeedChannel.recvStep, hr, if_neg hasks],
        ⟨_, _, _, hheard⟩, ?_⟩
      simp only [Meets, hr]
      rw [if_neg (fun e => hasks e.1), hdropped]
  | allocated ptr fill =>
    rw [hr] at hrecv
    obtain ⟨x, rfl, hx⟩ := List.map_eq_singleton_iff.mp hrecv.symm
    subst hx
    obtain ⟨fh', hstep, h', hdrop, -⟩ := h.fill r hr
    refine ⟨fh', hstep, ⟨_, _, _, h'⟩, ?_⟩
    simp only [Meets, hr]
    exact hdrop
  | filled ptr =>
    rw [hr] at hrecv
    obtain ⟨x, rfl, hx⟩ := List.map_eq_singleton_iff.mp hrecv.symm
    subst hx
    have hlt := h.queue.length_lt
    rw [List.length_map] at hlt
    have hfull := h.full_iff hcap
    by_cases hq : q.length + 1 = cap
    · obtain ⟨fh', hstep, h', hdrop, hr'⟩ := h.push_full hq r hr
      refine ⟨fh', hstep, ⟨_, _, _, h'⟩, ?_⟩
      simp only [Meets, hr, h.count]
      exact ⟨hdrop, fun _ => hfull.mp hq, fun _ => hr'⟩
    · obtain ⟨fh', hstep, h', hdrop, hr'⟩ := h.push (by omega) r hr
      refine ⟨fh', hstep, ⟨_, _, _, h'⟩, ?_⟩
      simp only [Meets, hr, h.count]
      refine ⟨hdrop, fun e => ?_, fun e => absurd (hfull.mpr e) hq⟩
      rw [hr'] at e
      cases e
  | refused ptr =>
    rw [hr] at hrecv
    obtain ⟨x, rfl, hx⟩ := List.map_eq_singleton_iff.mp hrecv.symm
    subst hx
    obtain ⟨fh', hstep, h', hdrop, -⟩ := h.refused r hr
    refine ⟨fh', hstep, ⟨_, _, _, h'⟩, ?_⟩
    simp only [Meets, hr]
    exact hdrop

/-- **A step of the consumer.** -/
theorem Flow.consumerStep (h : fh.Flow n cap free mine q yours) :
    ∃ fh', fh.consumerStep = some fh' ∧
      (∃ free' q' yours', fh'.Flow n cap free' mine q' yours') ∧ fh.Meets n .consumer fh' := by
  cases hc : fh.consumer with
  | idle =>
    cases q with
    | nil =>
      have hpop := h.queue.pop_nil
      refine ⟨fh, ?_, ⟨_, _, _, h⟩, rfl⟩
      simp only [FeedChannel.consumerStep, hc]
      rw [hpop]
      rfl
    | cons x q =>
      obtain ⟨fh', hstep, h', hdrop, -⟩ := h.pop hc
      exact ⟨fh', hstep, ⟨_, _, _, h'⟩, hdrop⟩
  | popped ptr =>
    exact ⟨_, by simp only [FeedChannel.consumerStep, hc], ⟨_, _, _, h.process hc⟩, rfl⟩
  | processed ptr =>
    obtain ⟨fh', free', hstep, h', hdrop, -⟩ := h.return hc
    exact ⟨fh', hstep, ⟨_, _, _, h'⟩, hdrop⟩

/-- Where the objects are is known. -/
def Conserved (n cap : ℕ) (fh : FeedChannel M) : Prop :=
  ∃ free mine q yours, fh.Flow n cap free mine q yours

/-- **A step** keeps the flow. -/
theorem step_conserved (h : Conserved n cap fh)
    (hcap : IsLeast {p : ℕ | p.isPowerOfTwo ∧ n ≤ p} cap) (t : FeedTurn M) :
    ∃ r fh', fh.step t = some (r, fh') ∧ Conserved n cap fh' ∧ fh.Meets n t fh' := by
  obtain ⟨free, mine, q, yours, h⟩ := h
  cases t with
  | recv r =>
    obtain ⟨fh', hstep, ⟨free', mine', q', h'⟩, hmeets⟩ := h.recvStep hcap r
    exact ⟨(), fh', by simp only [step, hstep, Option.map_some], ⟨_, _, _, _, h'⟩, hmeets⟩
  | consumer =>
    obtain ⟨fh', hstep, ⟨free', q', yours', h'⟩, hmeets⟩ := h.consumerStep
    exact ⟨(), fh', by simp only [step, hstep, Option.map_some], ⟨_, _, _, _, h'⟩, hmeets⟩

theorem Conserved.step (h : Conserved n cap fh)
    (hcap : IsLeast {p : ℕ | p.isPowerOfTwo ∧ n ≤ p} cap) {t : FeedTurn M} {o : Unit}
    (hstep : fh.step t = some (o, fh')) : Conserved n cap fh' := by
  obtain ⟨o', s, hstep', hs, -⟩ := step_conserved h hcap t
  cases hstep.symm.trans hstep'
  exact hs

theorem Conserved.exec (h : Conserved n cap fh)
    (hcap : IsLeast {p : ℕ | p.isPowerOfTwo ∧ n ≤ p} cap) {ts : List (FeedTurn M)} {os : List Unit}
    (hexec : Run.exec FeedChannel.step fh ts = some (os, fh')) : Conserved n cap fh' :=
  Run.exec_invariant (I := Conserved n cap) (fun _ _ _ _ _ hs hstep => hs.step hcap hstep) h hexec

/-! ### From `feed_init` -/

/-- `feed_init` of a queue that can be made. -/
theorem init_flow (simulationMode : Bool) (slab : UInt64) (memory : UInt64 → M) {size : UInt32}
    (hpos : 1 ≤ size.toNat) (hle : size.toNat ≤ 2 ^ 31) :
    ∃ fh cap, init simulationMode (some slab) true memory size = some fh ∧
      IsLeast {p : ℕ | p.isPowerOfTwo ∧ size.toNat ≤ p} cap ∧
      fh.Flow size.toNat cap fh.msgPool.freeList.reverse [] [] [] ∧ fh.recv = .idle ∧
      fh.consumer = .idle := by
  obtain ⟨rb, hring, hqueue⟩ := RingBuffer.init_holds_of_le (A := UInt64) hpos hle
  have hne : size ≠ 0 := fun e => by
    rw [e] at hpos
    exact absurd hpos (by decide)
  have hpool : ∃ mp, Mempool.init (some slab) true (UInt64.ofNat feedMsgSize) size = some mp := by
    refine ⟨_, if_neg ?_⟩
    rintro (h | h)
    · exact absurd h (by decide)
    · exact hne h
  obtain ⟨mp, hpool⟩ := hpool
  have hstart := PoolClient.start_indexes hpool (by decide)
  have hcap := RingBuffer.rounded_isLeast hpos hle
  rw [← RingBuffer.init_capacity hring] at hcap
  refine ⟨_, _, by simp only [init, hring, hpool]; rfl, hcap, ⟨?_, ?_, ?_, hqueue, rfl, rfl, ?_, rfl,
    rfl, rfl, ?_⟩, rfl, rfl⟩
  · exact hstart.objectSize_ne
  · exact hstart.capacity
  · exact hstart.stack
  · have hperm := hstart.perm
    simpa only [List.nil_append, List.append_nil] using hperm
  · show (0 : UInt64) = if simulationMode then UInt64.ofNat feedMsgSize * 0 else UInt64.ofNat 0
    rw [mul_zero]
    split <;> rfl

/-- **The objects are conserved, and the messages come through.**  In every run from `feed_init` on,
every step is defined; at every time each object is free, in the queue or in the hands of one thread,
the messages pushed are those processed and those still in memory, in order, and the counters are
right. -/
theorem channel_flows (simulationMode : Bool) (slab : UInt64) (memory : UInt64 → M) {size : UInt32}
    (hpos : 1 ≤ size.toNat) (hle : size.toNat ≤ 2 ^ 31) (ts : List (FeedTurn M)) :
    ∃ fh cap, init simulationMode (some slab) true memory size = some fh ∧
      IsLeast {p : ℕ | p.isPowerOfTwo ∧ size.toNat ≤ p} cap ∧ Conserved size.toNat cap fh ∧
      Run.Always step (fun _ _ _ fh' => Conserved size.toNat cap fh') fh ts := by
  obtain ⟨fh, cap, hinit, hcap, hflow, -⟩ := init_flow simulationMode slab memory hpos hle
  have h : Conserved size.toNat cap fh := ⟨_, _, _, _, hflow⟩
  refine ⟨fh, cap, hinit, hcap, h, Run.always_of_step (I := Conserved size.toNat cap)
    (C := fun _ _ => True) (fun s t hs _ => ?_) h (Run.along_of_forall (fun _ _ => trivial) fh)⟩
  obtain ⟨r, s', hstep, hs', -⟩ := step_conserved hs hcap t
  exact ⟨r, s', hstep, hs', hs'⟩

/-- A message is pushed and processed. -/
def oneMessage : List (FeedTurn ℕ) :=
  [.recv ⟨64, fun m => m + 7⟩, .recv ⟨0, id⟩, .recv ⟨0, id⟩, .consumer, .consumer]

theorem channel_flows_oneMessage : ∃ fh cap, init true (some 4096) true (fun _ => 0) 3 = some fh ∧
    IsLeast {p : ℕ | p.isPowerOfTwo ∧ 3 ≤ p} cap ∧ Conserved 3 cap fh ∧
    Run.Always step (fun _ _ _ fh' => Conserved 3 cap fh') fh oneMessage :=
  @channel_flows ℕ true 4096 (fun _ => 0) 3 (by decide) (by decide) oneMessage

/-- **Which limit a message meets**, in every run from `feed_init` on. -/
theorem channel_drops (simulationMode : Bool) (slab : UInt64) (memory : UInt64 → M) {size : UInt32}
    (hpos : 1 ≤ size.toNat) (hle : size.toNat ≤ 2 ^ 31) (ts : List (FeedTurn M)) :
    ∃ fh, init simulationMode (some slab) true memory size = some fh ∧
      Run.Always step (fun fh t _ fh' => Meets size.toNat fh t fh') fh ts := by
  obtain ⟨fh, cap, hinit, hcap, hflow, -⟩ := init_flow simulationMode slab memory hpos hle
  exact ⟨fh, hinit, Run.always_of_step (I := Conserved size.toNat cap) (C := fun _ _ => True)
    (fun s t hs _ => step_conserved hs hcap t) ⟨_, _, _, _, hflow⟩
    (Run.along_of_forall (fun _ _ => trivial) fh)⟩

/-- Two objects: the ring has room for one message. -/
theorem channel_drops_oneMessage : ∃ fh, init true (some 4096) true (fun _ => 0) 2 = some fh ∧
    Run.Always step (fun fh t _ fh' => Meets 2 fh t fh') fh (oneMessage ++ oneMessage) :=
  @channel_drops ℕ true 4096 (fun _ => 0) 2 (by decide) (by decide) (oneMessage ++ oneMessage)

/-! ### The pool can be exhausted -/

/-- A message that asks for an object. -/
def full : Received M := ⟨feedMsgSize, id⟩

theorem asks_full (fh : FeedChannel M) : fh.Asks full = true := by
  rw [Asks, full, decide_eq_true le_rfl, Bool.or_true]

theorem hear_consumer (fh : FeedChannel M) (len : ℕ) : (fh.hear len).consumer = fh.consumer := by
  unfold hear
  split <;> rfl

/-- The receive thread leaves the consumer alone. -/
theorem recvStep_consumer {r : Received M} (h : fh.recvStep r = some fh') :
    fh'.consumer = fh.consumer := by
  unfold recvStep allocate at h
  split at h
  · have hheard := fh.hear_consumer r.len
    split at h
    · simp only [Option.bind_eq_bind, Option.bind_eq_some_iff] at h
      obtain ⟨a, -, h⟩ := h
      split at h <;> cases h <;> exact hheard
    · cases h
      exact hheard
  · cases h
    rfl
  · simp only [Option.bind_eq_bind, Option.bind_eq_some_iff] at h
    obtain ⟨a, -, h⟩ := h
    split at h <;> cases h <;> rfl
  · simp only [Option.bind_eq_bind, Option.bind_eq_some_iff] at h
    obtain ⟨a, -, h⟩ := h
    cases h
    rfl

theorem step_recv {r : Received M} (h : fh.recvStep r = some fh') :
    fh.step (.recv r) = some ((), fh') := by
  simp only [step, h, Option.map_some]

/-- A message goes into the queue. -/
theorem Flow.message {x : UInt32} (h : fh.Flow n cap (x :: free) [] q yours)
    (hr : fh.recv = .idle) (hlt : q.length + 1 < cap) :
    ∃ ts os fh', Run.exec step fh ts = some (os, fh') ∧ fh'.Flow n cap free [] (q ++ [x]) yours ∧
      fh'.recv = .idle ∧ fh'.consumer = fh.consumer := by
  obtain ⟨fh₁, h₁, hflow₁, -, hr₁⟩ := (h.hear feedMsgSize).allocate_cons id
  have hstep₁ : fh.recvStep full = some fh₁ := by
    simp only [FeedChannel.recvStep, hr, if_pos fh.asks_full]
    exact h₁
  obtain ⟨fh₂, h₂, hflow₂, -, hr₂⟩ := hflow₁.fill full hr₁
  obtain ⟨fh₃, h₃, hflow₃, -, hr₃⟩ := hflow₂.push hlt full hr₂
  refine ⟨[.recv full, .recv full, .recv full], _, fh₃, Run.exec_cons (step_recv hstep₁)
    (Run.exec_cons (step_recv h₂) (Run.exec_cons (step_recv h₃) rfl)), hflow₃, hr₃, ?_⟩
  rw [recvStep_consumer h₃, recvStep_consumer h₂, recvStep_consumer hstep₁]

/-- As many messages as the pool has objects go into the queue if it has room for them. -/
theorem Flow.messages (k : ℕ) : ∀ {fh : FeedChannel M} {free q : List UInt32},
    fh.Flow n cap free [] q yours → fh.recv = .idle → k ≤ free.length → q.length + k < cap →
    ∃ ts os fh' free' q', Run.exec step fh ts = some (os, fh') ∧ fh'.Flow n cap free' [] q' yours ∧
      fh'.recv = .idle ∧ fh'.consumer = fh.consumer ∧ q'.length = q.length + k := by
  induction k with
  | zero => exact fun {fh free q} h hr _ _ => ⟨[], _, fh, free, q, rfl, h, hr, rfl, rfl⟩
  | succ k ih =>
    intro fh free q h hr hfree hlt
    cases free with
    | nil => exact absurd hfree (Nat.not_succ_le_zero k)
    | cons x free =>
      obtain ⟨ts₁, os₁, fh₁, hexec₁, h₁, hr₁, hc₁⟩ := h.message hr (by omega)
      have hlen : (q ++ [x]).length = q.length + 1 := List.length_append
      obtain ⟨ts₂, os₂, fh₂, free₂, q₂, hexec₂, h₂, hr₂, hc₂, hq₂⟩ :=
        ih h₁ hr₁ (Nat.le_of_succ_le_succ hfree) (by omega)
      exact ⟨_, _, fh₂, free₂, q₂, Run.exec_append hexec₁ hexec₂, h₂, hr₂, hc₂.trans hc₁, by omega⟩

/-- All objects but one fill the queue; the consumer takes a message, and the last object takes its
place. -/
theorem Flow.exhausts (h : fh.Flow n cap free [] [] []) (hr : fh.recv = .idle)
    (hc : fh.consumer = .idle) (hle : n ≤ cap) (hn : 2 ≤ n) :
    ∃ ts os fh', Run.exec step fh ts = some (os, fh') ∧ fh'.recv = .idle ∧
      fh'.msgPool.Stacks [] := by
  have hlen := h.length
  simp only [List.length_nil] at hlen
  obtain ⟨ts₁, os₁, fh₁, free₁, q₁, hexec₁, h₁, hr₁, hc₁, hq₁⟩ :=
    h.messages (n - 1) hr (by omega) (by rw [List.length_nil]; omega)
  have hlen₁ := h₁.length
  simp only [List.length_nil] at hlen₁ hq₁
  cases q₁ with
  | nil => simp only [List.length_nil] at hq₁; omega
  | cons y q₁ =>
    simp only [List.length_cons] at hlen₁ hq₁
    obtain ⟨fh₂, h₂, hflow₂, -, hr₂⟩ := h₁.pop (hc₁.trans hc)
    obtain ⟨ts₃, os₃, fh₃, free₃, q₃, hexec₃, h₃, hr₃, -, hq₃⟩ :=
      hflow₂.messages 1 (hr₂.trans hr₁) (by omega) (by omega)
    have hlen₃ := h₃.length
    simp only [List.length_nil, List.length_singleton] at hlen₃
    have hstep : fh₁.step .consumer = some ((), fh₂) := by simp only [step, h₂, Option.map_some]
    have hfree₃ : free₃ = [] := List.length_eq_zero_iff.mp (by omega)
    exact ⟨_, _, fh₃, Run.exec_append hexec₁ (Run.exec_cons hstep hexec₃), hr₃, hfree₃ ▸ h₃.stack⟩

/-- A pool of one object: the ring has no room at all, and the consumer gets nothing. -/
theorem step_consumer_of_single (h : Conserved 1 1 fh) (hc : fh.consumer = .idle) {t : FeedTurn M} {o : Unit}
    (hstep : fh.step t = some (o, fh')) : fh'.consumer = .idle := by
  obtain ⟨free, mine, q, yours, h⟩ := h
  cases t with
  | recv r =>
    simp only [step, Option.map_eq_some_iff, Prod.mk.injEq] at hstep
    obtain ⟨a, ha, -, rfl⟩ := hstep
    rw [recvStep_consumer ha, hc]
  | consumer =>
    have hq : (q.map fh.msgPool.address).length < 1 := h.queue.length_lt
    rw [List.length_map, Nat.lt_one_iff, List.length_eq_zero_iff] at hq
    subst hq
    have hpop := h.queue.pop_nil
    simp only [step, FeedChannel.consumerStep, hc] at hstep
    rw [hpop] at hstep
    cases hstep
    exact hc

/-- **The pool can be exhausted** exactly if it has more than one object. -/
theorem channel_exhausts_iff (simulationMode : Bool) (slab : UInt64) (memory : UInt64 → M)
    {size : UInt32} (hpos : 1 ≤ size.toNat) (hle : size.toNat ≤ 2 ^ 31) :
    ∃ fh, init simulationMode (some slab) true memory size = some fh ∧
      ((∃ ts os fh', Run.exec step fh ts = some (os, fh') ∧ fh'.recv = .idle ∧
          ∃ mp, fh'.msgPool.alloc = some (.null, mp)) ↔ size ≠ 1) := by
  obtain ⟨fh, cap, hinit, hcap, hflow, hr, hc⟩ := init_flow simulationMode slab memory hpos hle
  refine ⟨fh, hinit, ?_, fun hne => ?_⟩
  · rintro ⟨ts, os, fh', hexec, hr', mp, hnull⟩ rfl
    have hone : cap = 1 := le_antisymm (hcap.2 ⟨⟨0, rfl⟩, le_rfl⟩) hcap.1.2
    subst hone
    -- nothing is in the queue, and the consumer has nothing
    have hrun : Conserved 1 1 fh' ∧ fh'.consumer = .idle := by
      refine Run.exec_invariant (I := fun fh => Conserved 1 1 fh ∧ fh.consumer = .idle) ?_
        ⟨⟨_, _, _, _, hflow⟩, hc⟩ hexec
      rintro s t o s' - ⟨hs, hc⟩ hstep
      exact ⟨hs.step hcap hstep, step_consumer_of_single hs hc hstep⟩
    obtain ⟨⟨free, mine, q, yours, h⟩, hc'⟩ := hrun
    cases h.mine_nil hr'
    cases h.yours_nil hc'
    have hlen := h.length
    have hq := h.queue.length_lt
    rw [List.length_map] at hq
    simp only [List.length_nil] at hlen
    cases free with
    | nil =>
      rw [List.length_nil] at hlen
      omega
    | cons x free =>
      obtain ⟨-, halloc, -⟩ := h.stack.alloc_cons
      cases halloc.symm.trans hnull
  · have hn : 2 ≤ size.toNat := by
      have h1 : size.toNat ≠ 1 := fun e => hne (UInt32.toNat_inj.mp e)
      omega
    obtain ⟨ts, os, fh', hexec, hr', hstack⟩ := hflow.exhausts hr hc hcap.1.2 hn
    exact ⟨ts, os, fh', hexec, hr', _, hstack.alloc_nil⟩

theorem channel_exhausts_iff_two :
    ∃ fh, init true (some 4096) true (fun _ => (0 : ℕ)) 2 = some fh ∧
      ((∃ ts os fh', Run.exec step fh ts = some (os, fh') ∧ fh'.recv = .idle ∧
          ∃ mp, fh'.msgPool.alloc = some (.null, mp)) ↔ (2 : UInt32) ≠ 1) :=
  @channel_exhausts_iff ℕ true 4096 (fun _ => 0) 2 (by decide) (by decide)

/-! ### The end -/

/-- The loop of `feed_destroy`, for at most `fuel` turns. -/
def drain : ℕ → FeedChannel M → Option (FeedChannel M)
  | 0, _ => none
  | fuel + 1, fh => do
      let r ← fh.outputQueue.pop
      match r.1 with
      | none => return fh
      | some msg =>
          let f ← fh.msgPool.free msg
          drain fuel { fh with outputQueue := r.2, msgPool := f.2 }

/-- The objects of the queue go back, one by one. -/
theorem drain_of_holds (q : List UInt32) : ∀ {fh : FeedChannel M} {free : List UInt32} {fuel : ℕ},
    fh.msgPool.objectSize ≠ 0 → fh.msgPool.capacity.toNat = n → fh.msgPool.Stacks free →
    fh.outputQueue.Holds cap (q.map fh.msgPool.address) →
    ((free ++ q).map UInt32.toNat).Perm (List.range n) → q.length < fuel →
    ∃ fh' free', fh.drain fuel = some fh' ∧ fh'.msgPool.capacity.toNat = n ∧
      fh'.msgPool.Stacks free' ∧ fh'.outputQueue.Holds cap [] ∧
      (free'.map UInt32.toNat).Perm (List.range n) := by
  induction q with
  | nil =>
    intro fh free fuel _ hcap hstack hqueue hperm hfuel
    obtain ⟨fuel, rfl⟩ := Nat.exists_eq_add_one_of_ne_zero hfuel.ne'
    rw [List.append_nil] at hperm
    have hpop := hqueue.pop_nil
    refine ⟨fh, free, ?_, hcap, hstack, hqueue, hperm⟩
    rw [drain, hpop]
    rfl
  | cons x q ih =>
    intro fh free fuel hsize hcap hstack hqueue hperm hfuel
    obtain ⟨fuel, rfl⟩ := Nat.exists_eq_add_one_of_ne_zero (Nat.zero_lt_of_lt hfuel).ne'
    have hlen := hperm.length_eq
    simp only [List.length_map, List.length_append, List.length_cons, List.length_range] at hlen
    have hx : x.toNat < n := List.mem_range.mp
      (hperm.mem_iff.mp (List.mem_map_of_mem (List.mem_append_right _ (List.mem_cons_self ..))))
    obtain ⟨rb', hpop, hqueue'⟩ := hqueue.pop_cons
    obtain ⟨hfree, hstack'⟩ := hstack.free_address hsize (x := x) (by omega) (by omega)
    have hperm' : ((x :: free ++ q).map UInt32.toNat).Perm (List.range n) := by
      refine perm_range hperm fun a => ?_
      simp only [List.cons_append, List.count_append, List.count_cons]
      omega
    have hrest := @ih { fh with
      outputQueue := rb'
      msgPool := { fh.msgPool with
        freeList := fh.msgPool.freeList.set fh.msgPool.freeTop.toNat x
        freeTop := fh.msgPool.freeTop + 1 } } _ fuel hsize hcap hstack' hqueue' hperm'
    obtain ⟨fh', free', hdrain, h'⟩ := hrest (Nat.lt_of_succ_lt_succ hfuel)
    refine ⟨fh', free', ?_, h'⟩
    rw [drain, hpop]
    simp only [Option.bind_eq_bind, Option.bind_some, hfree]
    exact hdrain

/-- **`feed_destroy`** comes to its end once the threads have, and the pool has all its objects. -/
theorem destroy_returns (simulationMode : Bool) (slab : UInt64) (memory : UInt64 → M)
    {size : UInt32} (hpos : 1 ≤ size.toNat) (hle : size.toNat ≤ 2 ^ 31) :
    ∃ fh, init simulationMode (some slab) true memory size = some fh ∧
      ∀ ts os fh', Run.exec step fh ts = some (os, fh') → fh'.recv = .idle → fh'.consumer = .idle →
        ∀ fuel, size.toNat < fuel → ∃ fh'', fh'.drain fuel = some fh'' ∧
          fh''.outputQueue.count = 0 ∧ fh''.msgPool.available = size ∧
          (fh''.msgPool.freeList.map UInt32.toNat).Perm (List.range size.toNat) := by
  obtain ⟨fh, cap, hinit, hcap, hflow, -⟩ := init_flow simulationMode slab memory hpos hle
  refine ⟨fh, hinit, fun ts os fh' hexec hr hc fuel hfuel => ?_⟩
  obtain ⟨free, mine, q, yours, h⟩ := Conserved.exec ⟨_, _, _, _, hflow⟩ hcap hexec
  cases h.mine_nil hr
  cases h.yours_nil hc
  have hlen := h.length
  have hq : q.length < fuel := by omega
  have hperm := h.perm
  rw [List.append_nil, List.append_nil] at hperm
  obtain ⟨fh'', free'', hdrain, hsize, hstack, hqueue, hperm''⟩ :=
    drain_of_holds q h.size h.capacity h.stack h.queue hperm hq
  have hfull : free''.length = size.toNat := by
    rw [← List.length_map, hperm''.length_eq, List.length_range]
  have htake := hstack.take
  rw [hstack.top, hfull, ← hsize, ← hstack.length, List.take_length] at htake
  refine ⟨fh'', hdrain, UInt32.toNat_inj.mp hqueue.spans.count, UInt32.toNat_inj.mp ?_, ?_⟩
  · rw [Mempool.available, hstack.top, hfull]
  · rw [htake, List.map_reverse]
    exact (List.reverse_perm _).trans hperm''

/-- A message that nobody took goes back. -/
theorem destroy_returns_oneMessage :
    ∃ fh, init true (some 4096) true (fun _ => (0 : ℕ)) 3 = some fh ∧
      ∃ os fh', Run.exec step fh (oneMessage.take 3) = some (os, fh') ∧
        ∃ fh'', fh'.drain 4 = some fh'' ∧ fh''.outputQueue.count = 0 ∧
          fh''.msgPool.available = 3 ∧
          (fh''.msgPool.freeList.map UInt32.toNat).Perm (List.range 3) := by
  obtain ⟨fh, hinit, h⟩ := @destroy_returns ℕ true 4096 (fun _ => 0) 3 (by decide) (by decide)
  cases hinit
  exact ⟨_, rfl, _, _, rfl, h (oneMessage.take 3) _ _ rfl rfl rfl 4 (by decide)⟩

end FeedChannel

end Aspira
