import Memcached.Proxy.Writes
import Mathlib.Data.List.Nodup

/-!
# The way of a request to its backend (`proto_proxy.c`, `proxy_await.c`, `proxy_network.c`)

The requests of a client are pushed on a stack of its connection. `proxy_submit_cb` walks
the stack from its top, appends what it finds to a list and hands the list to the event
thread, which appends every request to the queue of its backend. A comment says that the
head of the list is the oldest request; it is the newest.

Results:
* `handOver_ioHead`: a backend gets the requests of a batch, the last one first
* `batch_in_order_iff`: so the order is right iff no backend gets two
-/

namespace Memcached.Proxy

variable {Be : Type*} [DecidableEq Be]

/-! ## Model -/

/-- `io_pending_proxy_t` (`proxy.h`, lines 383-404), what the queues read of it.
`clientResp` is the address of the response object, which every request has of its
own. -/
structure Request (Be : Type*) where
  io : IoPending
  backend : Be
  clientResp : ℕ
  isAwait : Bool := false
  awaitFirst : Bool := false
deriving DecidableEq

/-- `io_queue_t` of a connection: the stack of requests that are not submitted, from its
top, and the number of requests that the connection waits for. -/
structure IoQueue (Be : Type*) where
  stackCtx : List (Request Be) := []
  count : ℕ := 0

/-- `mcp_backend_t` (`proxy.h`, lines 310-334), what the queues read of it. -/
structure Backend (Be : Type*) where
  ioHead : List (Request Be) := []
  depth : ℕ := 0
  stacked : Bool := false
  bad : Bool := false

/-- The event thread with its backends; `failed` are the requests it returned at once. -/
structure EventThread (Be : Type*) where
  ioHeadIn : List (Request Be) := []
  beHead : List Be := []
  backends : Be → Backend Be
  failed : List (Request Be) := []

/-- How a client's request is queued. -/
inductive Command (Be : Type*) where
  | io (rq : McpRequest) (be : Be) (clientResp : ℕ)
  | await (rq : McpRequest) (be : Be) (clientResp : ℕ) (first : Bool)

/-- `mcp_queue_io` (lines 809-894) and `mcp_queue_await_io`
(`proxy_await.c`, lines 93-174): the object that they allocate. -/
def Command.request : Command Be → Request Be
  | io rq be clientResp =>
    { io := mcpRequestAttach rq, backend := be, clientResp := clientResp }
  | await rq be clientResp first =>
    { io := mcpRequestAttach rq, backend := be, clientResp := clientResp, isAwait := true
      awaitFirst := first }

/-- Both functions push the object on the stack of the connection. -/
def mcpQueue (q : IoQueue Be) (cmd : Command Be) : IoQueue Be :=
  { q with stackCtx := cmd.request :: q.stackCtx }

/-- The loop of `proxy_submit_cb` (lines 233-249). -/
def submitLoop : List (Request Be) → List (Request Be) → ℕ → List (Request Be) × ℕ
  | [], head, count => (head, count)
  | p :: rest, head, count =>
    submitLoop rest (head ++ [p])
      (if p.isAwait then if p.awaitFirst then count + 1 else count else count + 1)

/-- `proxy_submit_cb` (lines 215-274). -/
def proxySubmitCb (q : IoQueue Be) (e : EventThread Be) : IoQueue Be × EventThread Be :=
  let (head, count) := submitLoop q.stackCtx [] q.count
  ({ stackCtx := [], count := count }, { e with ioHeadIn := e.ioHeadIn ++ head })

/-- `io->flushed = false` -/
def Request.unflushed (p : Request Be) : Request Be :=
  { p with io := { p.io with flushed := false } }

/-- One turn of the loop of `_proxy_event_handler_dequeue` (`proxy_network.c`, lines
28-55): a request for a backend that was marked bad fails at once. -/
def dequeueOne (t : EventThread Be) (p : Request Be) : EventThread Be :=
  let be := t.backends p.backend
  if be.bad then { t with failed := t.failed ++ [p.unflushed] }
  else
    { t with
      backends := Function.update t.backends p.backend
        { be with ioHead := be.ioHead ++ [p.unflushed], depth := be.depth + 1, stacked := true }
      beHead := if be.stacked then t.beHead else t.beHead ++ [p.backend] }

/-- `_proxy_event_handler_dequeue` (`proxy_network.c`, lines 14-58). -/
def dequeue (t : EventThread Be) : EventThread Be :=
  t.ioHeadIn.foldl dequeueOne { t with ioHeadIn := [], beHead := [] }

/-- A batch: the client's commands are queued in the order in which they were sent,
submitted, and taken over by the event thread. -/
def handOver (q : IoQueue Be) (t : EventThread Be) (cmds : List (Command Be)) : EventThread Be :=
  dequeue (proxySubmitCb (cmds.foldl mcpQueue q) t).2

/-! ## The transfers -/

section

omit [DecidableEq Be]

theorem stackCtx_mcpQueue (q : IoQueue Be) (cmds : List (Command Be)) :
    (cmds.foldl mcpQueue q).stackCtx = (cmds.map Command.request).reverse ++ q.stackCtx := by
  induction cmds generalizing q with
  | nil => rfl
  | cons cmd cmds ih =>
    rw [List.foldl_cons, ih, List.map_cons, List.reverse_cons, List.append_assoc]
    rfl

theorem submitLoop_head (stack head : List (Request Be)) (count : ℕ) :
    (submitLoop stack head count).1 = head ++ stack := by
  induction stack generalizing head count with
  | nil => exact (List.append_nil head).symm
  | cons p stack ih => rw [submitLoop, ih, List.append_assoc, List.singleton_append]

end

def directedTo (be : Be) (ps : List (Request Be)) : List (Request Be) :=
  ps.filter fun p => p.backend = be

theorem directedTo_cons (be : Be) (p : Request Be) (ps : List (Request Be)) :
    directedTo be (p :: ps) =
      if p.backend = be then p :: directedTo be ps else directedTo be ps := by
  simp only [directedTo, List.filter_cons, decide_eq_true_eq]

section

variable (t : EventThread Be) (p : Request Be)

theorem dequeueOne_backends :
    (dequeueOne t p).backends = if (t.backends p.backend).bad then t.backends
      else Function.update t.backends p.backend
        { t.backends p.backend with
          ioHead := (t.backends p.backend).ioHead ++ [p.unflushed]
          depth := (t.backends p.backend).depth + 1
          stacked := true } := by
  simp only [dequeueOne]
  split_ifs <;> rfl

theorem dequeueOne_bad (be : Be) : ((dequeueOne t p).backends be).bad = (t.backends be).bad := by
  rw [dequeueOne_backends]
  split_ifs with hba
  · rfl
  by_cases hb : be = p.backend
  · rw [hb, Function.update_self]
  · rw [Function.update_of_ne hb]

theorem dequeueOne_ioHead (be : Be) (hba : (t.backends be).bad = false) :
    ((dequeueOne t p).backends be).ioHead = (t.backends be).ioHead ++
      if p.backend = be then [p.unflushed] else [] := by
  rw [dequeueOne_backends]
  by_cases hb : p.backend = be
  · subst hb
    rw [if_neg (by simp [hba]), Function.update_self, if_pos rfl]
  rw [if_neg hb, List.append_nil]
  split_ifs
  · rfl
  · rw [Function.update_of_ne fun h => hb h.symm]

end

theorem ioHead_foldl_dequeueOne (ps : List (Request Be)) (t : EventThread Be) (be : Be)
    (hb : (t.backends be).bad = false) :
    ((ps.foldl dequeueOne t).backends be).ioHead =
      (t.backends be).ioHead ++ (directedTo be ps).map Request.unflushed := by
  induction ps generalizing t with
  | nil => exact (List.append_nil _).symm
  | cons p ps ih =>
    rw [List.foldl_cons, ih _ ((dequeueOne_bad t p be).trans hb), dequeueOne_ioHead t p be hb,
      directedTo_cons, List.append_assoc]
    split_ifs <;> rfl

omit [DecidableEq Be] in
theorem Command.request_unflushed (cmd : Command Be) : cmd.request.unflushed = cmd.request := by
  have hi : ∀ rq, { mcpRequestAttach rq with flushed := false } = mcpRequestAttach rq := by
    intro rq
    unfold mcpRequestAttach
    split_ifs <;> rfl
  cases cmd with
  | io rq be clientResp => simp only [Command.request, Request.unflushed, hi]
  | await rq be clientResp first => simp only [Command.request, Request.unflushed, hi]

/-- The requests of a batch for one backend, in the order in which the client sent them. -/
def sentTo (be : Be) (cmds : List (Command Be)) : List (Request Be) :=
  directedTo be (cmds.map Command.request)

theorem map_unflushed_sentTo (be : Be) (cmds : List (Command Be)) :
    (sentTo be cmds).map Request.unflushed = sentTo be cmds := by
  refine (List.map_congr_left fun p hp => ?_).trans (List.map_id _)
  obtain ⟨cmd, _, rfl⟩ := List.mem_map.mp (List.mem_filter.mp hp).1
  exact cmd.request_unflushed

/-- **What a backend gets.** After what was queued for it before come the requests of the
batch, the last one first. -/
theorem handOver_ioHead {q : IoQueue Be} (hq : q.stackCtx = []) (t : EventThread Be)
    (cmds : List (Command Be)) {be : Be} (hba : (t.backends be).bad = false) :
    ((handOver q t cmds).backends be).ioHead =
      (t.backends be).ioHead ++ (directedTo be t.ioHeadIn).map Request.unflushed ++
        (sentTo be cmds).reverse := by
  have hi : (proxySubmitCb (cmds.foldl mcpQueue q) t).2.ioHeadIn =
      t.ioHeadIn ++ (cmds.map Command.request).reverse := by
    show t.ioHeadIn ++ (submitLoop _ [] _).1 = _
    rw [submitLoop_head, stackCtx_mcpQueue, hq, List.append_nil, List.nil_append]
  have hb : (directedTo be (cmds.map Command.request).reverse).map Request.unflushed =
      (sentTo be cmds).reverse := by
    rw [directedTo, List.filter_reverse, List.map_reverse]
    exact congrArg List.reverse (map_unflushed_sentTo be cmds)
  rw [handOver, dequeue, ioHead_foldl_dequeueOne _ _ _ (by exact hba), hi, directedTo,
    List.filter_append, List.map_append, ← directedTo, ← directedTo, hb, List.append_assoc]
  rfl

/-! ## The order of a batch -/

/-- The queue of every backend that is not bad gets the requests of the batch in the
order in which the client sent them. -/
def InClientOrder (q : IoQueue Be) (t : EventThread Be) (cmds : List (Command Be)) : Prop :=
  ∀ be, (t.backends be).bad = false →
    ((handOver q t cmds).backends be).ioHead =
      (t.backends be).ioHead ++ (directedTo be t.ioHeadIn).map Request.unflushed ++ sentTo be cmds

theorem length_le_one_of_reverse {α : Type*} {l : List α} (hn : l.Nodup) (h : l.reverse = l) :
    l.length ≤ 1 := by
  cases l with
  | nil => exact Nat.zero_le 1
  | cons a l =>
    rw [List.reverse_cons] at h
    cases hl : l.reverse with
    | nil => rw [List.reverse_eq_nil_iff.mp hl]; exact le_rfl
    | cons b r =>
      -- the last element is the first one again
      rw [hl] at h
      have hb : b = a := (List.cons.inj h).1
      have hm : a ∈ l := by
        rw [← List.mem_reverse, hl, hb]
        exact .head _
      exact absurd hm (List.nodup_cons.mp hn).1

/-- **The order of a batch.** A batch reaches the backends in the order of the client
exactly when no backend that is up gets two requests of it. -/
theorem batch_in_order_iff (q : IoQueue Be) (hq : q.stackCtx = []) (t : EventThread Be)
    (cmds : List (Command Be)) (hnd : (cmds.map fun cmd => cmd.request.clientResp).Nodup) :
    InClientOrder q t cmds ↔
      ∀ be, (t.backends be).bad = false → (sentTo be cmds).length ≤ 1 := by
  refine forall₂_congr fun be hb => ?_
  rw [handOver_ioHead hq t cmds hb, List.append_cancel_left_eq]
  have hn' : (sentTo be cmds).Nodup := by
    refine List.Nodup.filter _ (List.Nodup.of_map Request.clientResp ?_)
    rw [List.map_map]
    exact hnd
  refine ⟨length_le_one_of_reverse hn', fun hl => ?_⟩
  match hs : sentTo be cmds, hl with
  | [], _ => rfl
  | [p], _ => rfl

/-- One request to each of two backends. -/
theorem batch_in_order_iff_two_backends :
    let cmds : List (Command Bool) :=
      [.io { request := ascii "get a\r\n", request_ne := by decide } true 1,
       .io { request := ascii "get b\r\n", request_ne := by decide } false 2]
    InClientOrder {} { backends := fun _ => {} } cmds := by
  refine (batch_in_order_iff _ rfl _ _ (by decide)).mpr fun be _ => ?_
  cases be <;> decide

/-- A pipelined `set` and `get` for the same backend: the `get` is written first. -/
theorem batch_reversed :
    let cmds : List (Command Unit) :=
      [.io { request := ascii "set a 0 0 1\r\n", value := ascii "x\r\n",
             request_ne := by decide } () 1,
       .io { request := ascii "get a\r\n", request_ne := by decide } () 2]
    ¬InClientOrder {} { backends := fun _ => {} } cmds ∧
      ((handOver {} { backends := fun _ => {} } cmds).backends ()).ioHead.map Request.clientResp =
        [2, 1] := by
  intro cmds
  have hq : ((handOver {} { backends := fun _ => {} } cmds).backends ()).ioHead.map
      Request.clientResp = [2, 1] := by decide
  refine ⟨fun h => ?_, hq⟩
  rw [h () rfl] at hq
  exact absurd hq (by decide)

end Memcached.Proxy
