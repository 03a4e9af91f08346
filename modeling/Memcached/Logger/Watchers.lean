import Mathlib.Data.List.FinRange

/-!
# Watchers of the logger thread (`logger.c`)

`logger_thread_poll_watchers` closes and frees a watcher whose connection is gone. It is called
from `logger_thread_write_entry` too, which then goes on with its own pointer to the watcher.

Results:
* `uses_closed_watcher_iff`: when a watcher is used after it was closed
-/

namespace Memcached.Logger

open Function (update update_self)

/-! ## Model -/

/-- `logger_watcher` without its connection and its buffer -/
structure Watcher where
  eflags : UInt16
  minGid : ℕ
  skipped : ℕ
  failedFlush : Bool

/-- The watchers, each at the place in `watchers` that `w->id` tells, and two of the counters in
`logger_stats`. Where there is none the pointer is `NULL`, and the memory has been freed. -/
structure State where
  watchers : Fin 20 → Option Watcher
  watcherSkipped : ℕ
  watcherSent : ℕ

def State.set (s : State) (x : Fin 20) (w : Option Watcher) : State :=
  { s with watchers := update s.watchers x w }

/-- `logger_thread_close_watcher` (lines 587-596) -/
def closeWatcher (s : State) (x : Fin 20) : State := s.set x none

/-- What a call finds out about a watcher: whether there is data in its buffer, the bits of
`revents`, whether reading a byte tells that the client is gone, and the result of the write
with its `errno`. -/
structure Answers where
  data : Bool
  pollin : Bool
  gone : Bool
  hup : Bool
  pollout : Bool
  total : ℤ
  again : Bool

/-- The bytes that the second loop writes (lines 701-746), unless it closes the watcher. -/
def Answers.written (a : Answers) : Option ℤ :=
  if a.pollin && a.gone then none
  else if !a.data then some 0
  else if a.hup then none
  else if !a.pollout then some 0
  else if a.total = -1 then if a.again then some 0 else none
  else if a.total = 0 then none
  else some a.total

def clearFlag (s : State) (x : Fin 20) : State :=
  s.set x ((s.watchers x).map fun w => { w with failedFlush := false })

def flushWatcher (a : Fin 20 → Answers) (r : State × ℤ) (x : Fin 20) : State × ℤ :=
  if (r.1.watchers x).isNone then r
  else match (a x).written with
    | none => (closeWatcher r.1 x, r.2)
    | some n => (r.1, r.2 + n)

/-- `logger_thread_poll_watchers` (lines 656-750) for one watcher or for all of them; `ok` unless
`poll` fails. -/
def pollWatchers (forcePoll : Bool) (watcher : Option (Fin 20)) (ok : Bool)
    (a : Fin 20 → Answers) (s : State) : State × ℤ :=
  let xs := watcher.elim (List.finRange 20) ([·])
  let t := xs.foldl clearFlag s
  if !xs.any fun x => (s.watchers x).isSome && ((a x).data || forcePoll) then (t, 0)
  else if !ok then (t, -1)
  else xs.foldl (flushWatcher a) (t, 0)

/-- The loop that waits for room (lines 551-557), with a round for each time `bipbuf_request`
finds none, and the watcher as it is after the loop. -/
def makeRoom (x : Fin 20) : List (Bool × Answers) → State → Option (State × Watcher)
  | [], s => (s.watchers x).map (s, ·)
  | r :: rs, s => do
    let w ← s.watchers x
    if w.failedFlush then some (s, w) else
    let t := pollWatchers false (some x) r.1 (fun _ => r.2) s
    if t.2 ≤ 0 then
      let w ← t.1.watchers x
      makeRoom x rs (t.1.set x (some { w with failedFlush := true }))
    else makeRoom x rs t.1

structure Entry where
  eflags : UInt16
  gid : ℕ

def Entry.ignoredBy (e : Entry) (w : Watcher) : Bool :=
  e.eflags &&& w.eflags == 0 || decide (e.gid < w.minGid)

/-- What `logger_thread_write_entry` does for one watcher (lines 542-577); `flat` if the line
about skipped entries can be printed. -/
def writeTo (e : Entry) (x : Fin 20) (rounds : List (Bool × Answers)) (flat : Bool) (s : State) :
    Option State :=
  match s.watchers x with
  | none => some s
  | some w =>
    if e.ignoredBy w then some s
    else (makeRoom x rounds s).map fun (t, w) =>
      if w.failedFlush || decide (0 < w.skipped) && !flat then
        { t.set x (some { w with skipped := w.skipped + 1 }) with
          watcherSkipped := t.watcherSkipped + 1 }
      else { t.set x (some { w with skipped := 0 }) with watcherSent := t.watcherSent + 1 }

inductive Call where
  | writeEntry (e : Entry) (turns : Fin 20 → List (Bool × Answers) × Bool)
  | pollWatchers (ok : Bool) (a : Fin 20 → Answers)

/-- `logger_thread_write_entry` goes through the watchers one by one. -/
inductive Step where
  | write (e : Entry) (x : Fin 20) (rounds : List (Bool × Answers)) (flat : Bool)
  | poll (ok : Bool) (a : Fin 20 → Answers)

def Call.steps : Call → List Step
  | .writeEntry e turns => (List.finRange 20).map fun x => .write e x (turns x).1 (turns x).2
  | .pollWatchers ok a => [.poll ok a]

/-- There is no result if freed memory is used. -/
def exec (s : State) : Step → Option State
  | .write e x rounds flat => writeTo e x rounds flat s
  | .poll ok a => some (pollWatchers true none ok a s).1

/-! ## Closing the watcher that is written to -/

/-- What a round of `makeRoom` returns, unless it closes the watcher. -/
def result (r : Bool × Answers) : Option ℤ :=
  if !r.2.data then some 0 else if !r.1 then some (-1) else r.2.written

/-- A round closes the watcher, and those in front of it write something. -/
def Closes : List (Bool × Answers) → Prop
  | [] => False
  | r :: rs => result r = none ∨ ∃ n, result r = some n ∧ 0 < n ∧ Closes rs

def ClosesOwn (s : State) : Step → Prop
  | .write e x rounds _ => ∃ w, s.watchers x = some w ∧ e.ignoredBy w = false ∧
      w.failedFlush = false ∧ Closes rounds
  | .poll .. => False

theorem pollWatchers_one {s : State} {x : Fin 20} {w : Watcher} (hx : s.watchers x = some w)
    (r : Bool × Answers) :
    pollWatchers false (some x) r.1 (fun _ => r.2) s =
      match result r with
      | none => (s.set x none, 0)
      | some n => (s.set x (some { w with failedFlush := false }), n) := by
  rcases hd : r.2.data
  · simp [pollWatchers, result, clearFlag, hx, hd]
  rcases ho : r.1
  · simp [pollWatchers, result, clearFlag, hx, hd, ho]
  rcases hw : r.2.written <;>
    simp [pollWatchers, result, clearFlag, flushWatcher, closeWatcher, State.set, hx, hd, ho, hw]

theorem makeRoom_eq_none_iff {x : Fin 20} (rs : List (Bool × Answers)) {s : State} {w : Watcher}
    (hx : s.watchers x = some w) :
    makeRoom x rs s = none ↔ w.failedFlush = false ∧ Closes rs := by
  induction rs generalizing s w with
  | nil => simp [makeRoom, Closes, hx]
  | cons r rs ih =>
    have hs (t : State) (v : Option Watcher) : (t.set x v).watchers x = v := update_self ..
    simp only [makeRoom, Closes, hx, pollWatchers_one hx]
    by_cases hf : w.failedFlush
    · simp [hf]
    rcases hr : result r with _ | n
    · simp [hf, hs]
    by_cases hn : n ≤ 0
    · simp [hf, hs, hn, ih (hs _ _)]
    · simp [hf, hn, ih (hs _ _), not_le.mp hn]

theorem exec_eq_none_iff (s : State) (a : Step) : exec s a = none ↔ ClosesOwn s a := by
  cases a with
  | poll => simp [exec, ClosesOwn]
  | write e x rounds flat =>
    simp only [exec, writeTo, ClosesOwn]
    split
    · simp [*]
    · rename_i w hx
      split_ifs with hs <;> simp [hs, hx, makeRoom_eq_none_iff rounds hx]

theorem foldlM_eq_none_iff {σ α : Type*} {f : σ → α → Option σ} (l : List α) {s : σ} :
    l.foldlM f s = none ↔
      ∃ pre a post t, l = pre ++ a :: post ∧ pre.foldlM f s = some t ∧ f t a = none := by
  constructor
  · intro h
    induction l generalizing s with
    | nil => cases h
    | cons b l ih =>
      rcases hb : f s b with _ | u
      · exact ⟨[], b, l, s, rfl, rfl, hb⟩
      rw [List.foldlM_cons, hb] at h
      obtain ⟨pre, a, post, t, rfl, hp, ha⟩ := ih h
      exact ⟨b :: pre, a, post, t, rfl, by rw [List.foldlM_cons, hb]; exact hp, ha⟩
  · rintro ⟨pre, a, post, t, rfl, hp, ha⟩
    rw [List.foldlM_append, hp]
    simp [ha]

/-- **Closed watchers.** In a sequence of calls a watcher is used after it has been closed if and
only if an entry is written to a watcher that is closed by the poll for it. -/
theorem uses_closed_watcher_iff (s : State) (calls : List Call) :
    (calls.flatMap Call.steps).foldlM exec s = none ↔
      ∃ pre a post t, calls.flatMap Call.steps = pre ++ a :: post ∧
        pre.foldlM exec s = some t ∧ ClosesOwn t a := by
  rw [foldlM_eq_none_iff]
  simp only [exec_eq_none_iff]

/-- A watcher whose buffer is full and whose client has hung up. -/
theorem hang_up_of_full_watcher :
    (Call.writeEntry ⟨1, 0⟩ fun _ => ([(true, ⟨true, false, false, true, false, 0, false⟩)],
      true)).steps.foldlM exec ⟨fun _ => some ⟨1, 0, 0, false⟩, 0, 0⟩ = none := by
  rfl

end Memcached.Logger
