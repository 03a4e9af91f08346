import Memcached.Items.Refcount
import Memcached.Proto.Tokens

/-!
# Expiry times (`memcached.c`, `memcached.h`, `items.c`)

A client gives an expiry time as seconds from now, up to 30 days, or as a Unix time. The
server keeps it as seconds since its start, in the 32 bits of `rel_time_t`, with 0 for never,
and `do_item_get` compares it with its clock.

Results:
* `realtime_cases`: what is kept
* `expiry_as_asked_iff`: when an item is returned as long as was asked
* `expiry_wraps`: a time behind the range of the clock
-/

namespace Memcached.Text

open Lib Items Proto

variable {Addr : Type*} [DecidableEq Addr] [Fintype Addr] {S : Settings}
  {s t : Store Addr} {a : Addr} {key : Bytes}

/-! ## Specification -/

/-- At time `now` of the server's clock, which was `set` when the client gave the time `e`,
the item is to be returned. Both clocks count from `started`. -/
def LiveAt (started set : ℕ) (e : ℤ) (now : ℕ) : Prop :=
  e = 0 ∨ (0 < e ∧ e ≤ realtimeMaxdelta ∧ (started + now : ℤ) < started + set + e) ∨
    (realtimeMaxdelta < e ∧ (started + now : ℤ) < e)

/-- The moment that a relative time asks for is behind the range of the clock. -/
def BehindClock (set : ℕ) (e : ℤ) : Prop := 0 < e ∧ e ≤ realtimeMaxdelta ∧ 2 ^ 32 < set + e

/-! ## The time that is kept -/

section

omit [DecidableEq Addr] [Fintype Addr]

/-- What is kept: never, a time that was over at the start, a Unix time, or a time from now
on, which wraps around behind the range of the clock. -/
theorem realtime_cases (S : Settings) (s : Store Addr) {e : ℤ} (he : e < 2 ^ 31)
    (hs : realtimeMaxdelta < S.processStarted) :
    (e = 0 ∧ realtime S s (exptimeToPositiveTime e) = 0) ∨
    ((e < 0 ∨ (realtimeMaxdelta < e ∧ e ≤ S.processStarted)) ∧
      realtime S s (exptimeToPositiveTime e) = 1) ∨
    (realtimeMaxdelta < e ∧ S.processStarted < e ∧
      (realtime S s (exptimeToPositiveTime e) : ℤ) = e - S.processStarted) ∨
    (0 < e ∧ e ≤ realtimeMaxdelta ∧
      (realtime S s (exptimeToPositiveTime e) : ℤ) = (e + s.currentTime) % 2 ^ 32) := by
  unfold realtime exptimeToPositiveTime realtimeMaxdelta at *
  by_cases hn : e < 0
  · right; left
    rw [if_pos hn, if_neg (by omega), if_pos (by omega), if_pos (by omega)]
    exact ⟨.inl hn, rfl⟩
  rw [if_neg hn]
  by_cases hz : e = 0
  · left
    rw [if_pos (by omega)]
    exact ⟨hz, rfl⟩
  rw [if_neg (by omega)]
  by_cases ha : e.toNat > 60 * 60 * 24 * 30
  · rw [if_pos ha]
    by_cases hp : e.toNat ≤ S.processStarted
    · right; left
      rw [if_pos hp]
      exact ⟨.inr ⟨by omega, by omega⟩, rfl⟩
    · right; right; left
      rw [if_neg hp, Nat.mod_eq_of_lt (by omega)]
      exact ⟨by omega, by omega, by omega⟩
  · right; right; right
    rw [if_neg ha]
    exact ⟨by omega, by omega, by omega⟩

/-- A time that is kept for an item is over at `now` if and only if the client asked for that,
unless the moment is behind the range of the clock. -/
theorem expiredAt_realtime (S : Settings) (s : Store Addr) {e : ℤ} (he : e < 2 ^ 31)
    (hs : realtimeMaxdelta < S.processStarted) (hse : 2 ≤ s.currentTime) {now : ℕ}
    (hn : s.currentTime ≤ now) (hm : now < 2 ^ 32) {it : Item}
    (hit : it.exptime = realtime S s (exptimeToPositiveTime e)) :
    (it.expiredAt now = false ↔ LiveAt S.processStarted s.currentTime e now) ↔
      ¬BehindClock s.currentTime e := by
  have ho : it.expiredAt now = false ↔ it.exptime = 0 ∨ now < it.exptime := by
    simp only [Item.expiredAt, Bool.and_eq_false_iff, bne_eq_false_iff_eq,
      decide_eq_false_iff_not, not_le]
  rw [ho, hit]
  unfold LiveAt BehindClock
  obtain ⟨hz, hx⟩ | ⟨hz, hx⟩ | ⟨hz, hz', hx⟩ | ⟨hz, hz', hx⟩ := realtime_cases S s he hs
  all_goals
    unfold realtimeMaxdelta at *
    omega

end

/-- For every time of a client, every start of the server and every later time: `do_item_get`
returns an item that was stored with this time exactly before the moment that was asked
for, if and only if this moment is not behind the range of the clock. -/
theorem expiry_as_asked_iff (h : Inv S t) (hlt : CountsLow t) (hl : t.Linked a)
    (hkey : t.key a = key) (hflushed : itemIsFlushed t (t.items a) = false) {e : ℤ}
    (he : -2 ^ 31 ≤ e ∧ e < 2 ^ 31) (hstarted : realtimeMaxdelta < S.processStarted)
    (hset : 2 ≤ s.currentTime) (hnow : s.currentTime ≤ t.currentTime)
    (hmax : t.currentTime < 2 ^ 32)
    (hexp : (t.items a).exptime = realtime S s (exptimeToPositiveTime e))
    (doUpdate room : Bool) :
    ((doItemGet S t key doUpdate room).2 = some a ↔
        LiveAt S.processStarted s.currentTime e t.currentTime) ↔
      ¬BehindClock s.currentTime e := by
  rw [← expiredAt_realtime S s he.2 hstarted hset hnow hmax hexp]
  have hg : (doItemGet S t key doUpdate room).2 = some a ↔
      (t.items a).expiredAt t.currentTime = false := by
    by_cases hov : (t.items a).expiredAt t.currentTime = true
    · have hm : t.Missing key := by
        intro b hb hk
        rw [h.eq_of_key hb hl (hk.trans hkey.symm)]
        exact .inr hov
      obtain ⟨t', heq, -⟩ := doItemGet_of_missing h hlt hm doUpdate room
      rw [heq, hov]
      simp
    · have hli : ¬t.Dead a := by
        rintro (hf | ho)
        · rw [hflushed] at hf
          cases hf
        · exact hov ho
      obtain ⟨t', heq, -⟩ := doItemGet_of_hit h hlt ⟨hl, hkey, hli⟩ doUpdate room
      rw [heq]
      simpa using hov
  rw [hg]

def startedSettings : Settings := { smallSettings with processStarted := 1600000000 }

/-- An item that is stored at time 2 with the time 100 is returned at 101. -/
theorem expiry_as_asked_iff_hundred : ∃ t : Store (Fin 1), t.currentTime = 101 ∧
    (t.items 0).exptime = 102 ∧
    (doItemGet startedSettings t (ascii "k") false false).2 = some 0 := by
  have hi := emptyStore_reachable 1 startedSettings fun s _ => CountsLow s
  obtain ⟨t, ht, hlo, hl, hk, hf, hn, hx⟩ := hi.exists_of_exec
    (storeOps 0 (ascii "k") (ascii "a\r\n") 102 .set 0 ++ [.tick 101])
    (p := fun t => CountsLow t ∧ t.Linked 0 ∧ t.key 0 = ascii "k" ∧
      itemIsFlushed t (t.items 0) = false ∧ t.currentTime = 101 ∧ (t.items 0).exptime = 102)
    (by decide +kernel)
  have hin := reachable_inv (fun _ _ ho => ho) ht
  have ha := expiry_as_asked_iff (s := emptyStore 1) (e := 100) hin hlo hl hk hf
    (by decide) (by decide) (by decide) (by rw [hn]; decide) (by rw [hn]; decide) hx false false
  refine ⟨t, hn, hx, (ha.mpr ?_).mpr ?_⟩
  · unfold BehindClock
    decide
  · rw [hn]
    unfold LiveAt
    decide

/-- A client stores an item for two seconds in the last second of the clock, and it is not
returned in that second. -/
theorem expiry_wraps : ∃ t : Store (Fin 1), t.currentTime = 2 ^ 32 - 1 ∧ t.Linked 0 ∧
    t.key 0 = ascii "k" ∧ itemIsFlushed t (t.items 0) = false ∧
    (t.items 0).exptime = realtime startedSettings t (exptimeToPositiveTime 2) ∧
    LiveAt startedSettings.processStarted t.currentTime 2 t.currentTime ∧
    (doItemGet startedSettings t (ascii "k") false false).2 = none := by
  obtain ⟨t, -, hno, hl, hk, hf, hx, hn⟩ := System.exists_exec
    (system (Fin 1) startedSettings) (fun s _ => CountsLow s) (emptyStore 1)
    (.tick (2 ^ 32 - 1) :: storeOps 0 (ascii "k") (ascii "a\r\n") 1 .set 0)
    (fun t => t.currentTime = 2 ^ 32 - 1 ∧ t.Linked 0 ∧ t.key 0 = ascii "k" ∧
      itemIsFlushed t (t.items 0) = false ∧
      (t.items 0).exptime = realtime startedSettings t (exptimeToPositiveTime 2) ∧
      (doItemGet startedSettings t (ascii "k") false false).2 = none)
    (by decide +kernel)
  refine ⟨t, hno, hl, hk, hf, hx, ?_, hn⟩
  rw [hno]
  unfold LiveAt
  decide

end Memcached.Text
