import Mathlib.Data.List.Basic
import IdeMultiarch.Sqlite.Backup
import IdeMultiarch.Sqlite.Handlers

/-!
# Sqlite - the timeout of a busy connection

{lit}`NativeDB_busy_timeout` makes a connection wait for the locks that others hold.  How long one
wait lasts depends on the waits before it, since {lit}`nBusy` is set to zero only when a statement
goes on.

The answer to an attempt to lock may depend on how often and how long the connection has waited.  The
time is what {lit}`sqlite3OsSleep` is told to sleep, and what else passes is left out.  There is no
result when a sum of the handler is not an {lit}`int`, or when a wait needs more tries than it is
given.

Main results:

- Theorem {lit}`total_of_le`: what the table of the delays adds up to.
- Theorem {lit}`sqlite3InvokeBusyHandler_paced`: what one call of the handler does.
- Theorem {lit}`busy_timeout_waits`: what becomes of any sequence of waits.
-/

namespace IdeMultiarch
namespace Sqlite

/-! ## The handler -/

/-- A value that is an {lit}`int`. -/
def intOf (v : Int) : Option Int :=
  if -2147483648 ≤ v ∧ v ≤ 2147483647 then some v else none

def delays : List Nat :=
  [1, 2, 5, 10, 15, 20, 25, 25, 25, 50, 50, 100]

def totals : List Nat :=
  [0, 1, 3, 8, 18, 33, 53, 78, 103, 128, 178, 228]

def NDELAY : Nat := delays.length

/-- {lit}`delay` and {lit}`prior` of {lit}`sqliteDefaultBusyCallback` -/
def delayPrior (count : Int) : Option (Int × Int) :=
  if count < NDELAY then some (delays.getD count.toNat 0, totals.getD count.toNat 0)
  else do
    let delay : Int := delays.getD (NDELAY - 1) 0
    let prior ← intOf (delay * (count - (NDELAY - 1 : Nat)))
    let prior ← intOf (totals.getD (NDELAY - 1) 0 + prior)
    return (delay, prior)

/-- {lit}`sqliteDefaultBusyCallback`: the milliseconds to sleep, unless it gives up. -/
def sqliteDefaultBusyCallback (tmout count : Int) : Option (Option Int) := do
  let (delay, prior) ← delayPrior count
  if (← intOf (prior + delay)) > tmout then
    let delay := tmout - prior
    return if delay ≤ 0 then none else some delay
  return some delay

/-- How often a connection was busy, and how long it has slept since that was zero. -/
structure BusyState where
  nBusy : Int
  slept : Int
deriving DecidableEq, Repr

section Functions

variable (handler : BusyHandler) (call : Nat → Int → Bool)

/-- {lit}`sqlite3InvokeBusyHandler` -/
def sqlite3InvokeBusyHandler (p : BusyState) : Option (BusyState × Bool) :=
  if p.nBusy < 0 then some (p, false)
  else match handler with
    | .none => some (p, false)
    | .timeout tmout => do
        match ← sqliteDefaultBusyCallback tmout p.nBusy with
        | none => return ({ p with nBusy := -1 }, false)
        | some delay => return (⟨← intOf (p.nBusy + 1), p.slept + delay⟩, true)
    | .callback ctx =>
        if call ctx p.nBusy then do
          return ({ p with nBusy := ← intOf (p.nBusy + 1) }, true)
        else some ({ p with nBusy := -1 }, false)

/-- {lit}`pager_wait_on_lock`, with how often it may try. -/
def pager_wait_on_lock (lock : BusyState → ResultCode) :
    Nat → BusyState → Option (BusyState × ResultCode)
  | 0, _ => none
  | tries + 1, p =>
      if lock p ≠ SQLITE_BUSY then some (p, lock p)
      else match sqlite3InvokeBusyHandler handler call p with
        | none => none
        | some (p, true) => pager_wait_on_lock lock tries p
        | some (p, false) => some (p, SQLITE_BUSY)

/-- One wait after the other, while {lit}`nBusy` is not set to zero. -/
def waits (tries : Nat) : List (BusyState → ResultCode) → BusyState →
    Option (BusyState × List ResultCode)
  | [], p => some (p, [])
  | lock :: locks, p =>
      match pager_wait_on_lock handler call lock tries p with
      | none => none
      | some (p, rc) => (waits tries locks p).map fun result => (result.1, rc :: result.2)

end Functions

/-! ## The delays -/

/-- The delay after the lock was busy for some time. -/
def delay (n : Nat) : Nat :=
  delays.getD (min n (NDELAY - 1)) 0

/-- The sum of the first delays. -/
def total : Nat → Nat
  | 0 => 0
  | n + 1 => total n + delay n

theorem delay_of_le {n : Nat} (h : 11 ≤ n) : delay n = 100 := by
  have hlast : min n (NDELAY - 1) = 11 := Nat.min_eq_right h
  rw [delay, hlast]
  rfl

theorem delay_bounds (n : Nat) : 1 ≤ delay n ∧ delay n ≤ 100 := by
  have htable : ∀ m, m < 12 → 1 ≤ delays.getD m 0 ∧ delays.getD m 0 ≤ 100 := by decide
  apply htable
  have hlast : NDELAY - 1 = 11 := rfl
  omega

/-- From the last delay of the table on, the sum grows by that one. -/
theorem total_of_le {n : Nat} (h : 11 ≤ n) : total n + 872 = 100 * n := by
  induction n, h using Nat.le_induction with
  | base => rfl
  | succ n h ih =>
      rw [total, delay_of_le h]
      omega

theorem total_le (n : Nat) : total n ≤ 100 * n := by
  induction n with
  | zero => exact Nat.le_refl 0
  | succ n ih =>
      have hdelay := (delay_bounds n).2
      rw [total]
      omega

theorem count_le_total (n : Nat) : n ≤ total n := by
  induction n with
  | zero => exact Nat.le_refl 0
  | succ n ih =>
      have hdelay := (delay_bounds n).1
      rw [total]
      omega

theorem intOf_eq {v : Int} (h : -2147483648 ≤ v ∧ v ≤ 2147483647) : intOf v = some v :=
  if_pos h

/-- The tables and the sums that go on behind them agree. -/
theorem delayPrior_eq {n : Nat} (h : total n ≤ 2147483647) :
    delayPrior n = some ((delay n : Int), (total n : Int)) := by
  by_cases hn : n < 12
  · have htable : ∀ m, m < 12 →
        delays.getD m 0 = delay m ∧ totals.getD m 0 = total m := by decide
    obtain ⟨hdelay, htotal⟩ := htable n hn
    have hcount : (n : Int) < NDELAY := by
      have hlength : NDELAY = 12 := rfl
      omega
    rw [delayPrior, if_pos hcount, Int.toNat_natCast, hdelay, htotal]
  · have hsum := total_of_le (n := n) (by omega)
    have hcount : ¬ (n : Int) < NDELAY := by
      have hlength : NDELAY = 12 := rfl
      omega
    have hdelay : (delays.getD (NDELAY - 1) 0 : Int) = 100 := rfl
    have hprior : (totals.getD (NDELAY - 1) 0 : Int) = 228 := rfl
    have hlast : ((NDELAY - 1 : Nat) : Int) = 11 := rfl
    rw [delayPrior, if_neg hcount, hdelay, hprior, hlast, delay_of_le (by omega)]
    have hproduct : intOf (100 * ((n : Int) - 11)) = some (100 * ((n : Int) - 11)) :=
      intOf_eq (by omega)
    have hend : intOf (228 + 100 * ((n : Int) - 11)) = some (total n : Int) := by
      rw [intOf_eq (by omega)]
      congr 1
      omega
    simp [hproduct, hend]

/-- What the handler answers, unless a sum is no {lit}`int`. -/
theorem sqliteDefaultBusyCallback_eq {n : Nat} (tmout : Int)
    (h : total n + delay n ≤ 2147483647) :
    sqliteDefaultBusyCallback tmout n =
      some (if tmout < total n + delay n then
        if tmout ≤ total n then none else some (tmout - total n)
      else some (delay n : Int)) := by
  have hsum : intOf ((total n : Int) + delay n) = some ((total n : Int) + delay n) :=
    intOf_eq (by omega)
  rw [sqliteDefaultBusyCallback, delayPrior_eq (by omega)]
  simp only [Option.bind_eq_bind, Option.bind_some, hsum, Option.pure_def]
  by_cases hend : tmout < total n + delay n
  · rw [if_pos hend, if_pos hend]
    by_cases hnone : tmout ≤ total n
    · rw [if_pos hnone, if_pos (by omega)]
    · rw [if_neg hnone, if_neg (by omega)]
  · rw [if_neg hend, if_neg hend]

/-- When all of the time is over, the handler gives up. -/
theorem sqliteDefaultBusyCallback_over {n : Nat} {tmout : Int}
    (h : total n + delay n ≤ 2147483647) (hover : tmout ≤ total n) :
    sqliteDefaultBusyCallback tmout n = some none := by
  have hdelay := (delay_bounds n).1
  rw [sqliteDefaultBusyCallback_eq tmout h, if_pos (by omega), if_pos hover]

/-- Before that it sleeps, for at most a tenth of a second and not past the timeout. -/
theorem sqliteDefaultBusyCallback_sleeps {n : Nat} (tmout : Int)
    (h : total n + delay n ≤ 2147483647) (hleft : total n < tmout) :
    ∃ d, sqliteDefaultBusyCallback tmout n = some (some d) ∧ 0 < d ∧ d ≤ 100 ∧
      total n + d = min (total (n + 1) : Int) tmout := by
  obtain ⟨hlow, hhigh⟩ := delay_bounds n
  have htotal : total (n + 1) = total n + delay n := rfl
  rw [sqliteDefaultBusyCallback_eq tmout h]
  by_cases hend : tmout < total n + delay n
  · rw [if_pos hend, if_neg (by omega)]
    exact ⟨tmout - total n, rfl, by omega, by omega, by omega⟩
  · rw [if_neg hend]
    have hmin : min (total (n + 1) : Int) tmout = total n + delay n := by
      rw [htotal, Nat.cast_add]
      exact min_eq_left (not_lt.mp hend)
    exact ⟨delay n, rfl, by omega, by omega, hmin.symm⟩

/-- With a sum that is not an {lit}`int` there is no answer. -/
theorem sqliteDefaultBusyCallback_none {n : Nat} (tmout : Int) (hprior : total n ≤ 2147483647)
    (h : 2147483647 < total n + delay n) : sqliteDefaultBusyCallback tmout n = none := by
  have hsum : intOf ((total n : Int) + delay n) = none := if_neg (by omega)
  rw [sqliteDefaultBusyCallback, delayPrior_eq hprior]
  simp [hsum]

/-! ## Waiting -/

/-- The timeout is never passed: so many delays are over as the connection was busy, the last one cut
off at the timeout, or it has given up. -/
def BusyState.Paced (ms : Int) (p : BusyState) : Prop :=
  (p.nBusy = -1 ∧ p.slept = ms) ∨
    ∃ n : Nat, p.nBusy = n ∧ p.slept = min (total n : Int) ms ∧ ∀ m < n, (total m : Int) < ms

section Waits

variable {ms : Int} (call : Nat → Int → Bool) {p : BusyState}

theorem BusyState.Paced.slept_nonneg (hpos : 0 < ms) (hp : p.Paced ms) : 0 ≤ p.slept := by
  rcases hp with ⟨-, hslept⟩ | ⟨n, -, hslept, -⟩ <;> omega

theorem BusyState.Paced.slept_le (hp : p.Paced ms) : p.slept ≤ ms := by
  rcases hp with ⟨-, hslept⟩ | ⟨n, -, hslept, -⟩ <;> omega

/-- No sum of the handler is too large before the timeout. -/
theorem total_add_delay_le {n : Nat} (hms : ms ≤ 2147483528)
    (hbefore : ∀ m < n, (total m : Int) < ms) : total n + delay n ≤ 2147483647 := by
  have hdelay := (delay_bounds n).2
  by_cases hn : n ≤ 11
  · have hsmall := total_le n
    omega
  · have hlast := hbefore (n - 1) (by omega)
    have hsum := total_of_le (n := n) (by omega)
    have hsumLast := total_of_le (n := n - 1) (by omega)
    omega

/-- The connection counts a delay and sleeps for it. -/
theorem sqlite3InvokeBusyHandler_sleeps {n : Nat} {d slept : Int}
    (h : total n + delay n ≤ 2147483647) (hsleeps : sqliteDefaultBusyCallback ms n = some (some d)) :
    sqlite3InvokeBusyHandler (.timeout ms) call ⟨n, slept⟩ = some (⟨n + 1, slept + d⟩, true) := by
  have hcount : ¬ (n : Int) < 0 := by omega
  have hnext : intOf ((n : Int) + 1) = some ((n : Int) + 1) := by
    have hgrown := count_le_total n
    have hdelay := (delay_bounds n).1
    exact intOf_eq (by omega)
  rw [sqlite3InvokeBusyHandler, if_neg hcount]
  simp [hsleeps, hnext]

/-- A call of the handler sleeps for at most a tenth of a second and not past the timeout, or it
gives up and all of the time is over. -/
theorem sqlite3InvokeBusyHandler_paced (hms : ms ≤ 2147483528) (hp : p.Paced ms) :
    (∃ q, sqlite3InvokeBusyHandler (.timeout ms) call p = some (q, true) ∧ q.Paced ms ∧
      p.nBusy ≠ -1 ∧ p.slept < q.slept ∧ q.slept ≤ p.slept + 100) ∨
    (sqlite3InvokeBusyHandler (.timeout ms) call p = some ({ p with nBusy := -1 }, false) ∧
      p.slept = ms) := by
  obtain ⟨nBusy, slept⟩ := p
  rcases hp with ⟨rfl, hslept⟩ | ⟨n, rfl, hslept, hbefore⟩
  · exact Or.inr ⟨rfl, hslept⟩
  · have hrange := total_add_delay_le hms hbefore
    by_cases hover : ms ≤ total n
    · right
      have hcount : ¬ (n : Int) < 0 := by omega
      rw [sqlite3InvokeBusyHandler, if_neg hcount]
      simp only [sqliteDefaultBusyCallback_over hrange hover]
      exact ⟨rfl, hslept.trans (min_eq_right hover)⟩
    · left
      obtain ⟨d, hsleeps, hlow, hhigh, hsum⟩ :=
        sqliteDefaultBusyCallback_sleeps ms hrange (not_le.mp hover)
      have hslept' : slept = total n := hslept.trans (min_eq_left (by omega))
      have hafter : ∀ m < n + 1, (total m : Int) < ms := by
        intro m hm
        rcases Nat.lt_succ_iff_lt_or_eq.mp hm with hm | rfl
        · exact hbefore m hm
        · omega
      refine ⟨⟨n + 1, slept + d⟩, sqlite3InvokeBusyHandler_sleeps call hrange hsleeps,
        Or.inr ⟨n + 1, rfl, ?_, hafter⟩, ?_, ?_, ?_⟩
      · rw [hslept']
        exact hsum
      · dsimp only
        omega
      · dsimp only
        omega
      · dsimp only
        omega

/-- What one wait does: it ends with the first answer that is not busy, or when all of the time is
over, and after the connection has given up it only asks once. -/
structure BusyState.Served (ms : Int) (lock : BusyState → ResultCode) (p q : BusyState)
    (rc : ResultCode) : Prop where
  paced : q.Paced ms
  slept_le : p.slept ≤ q.slept
  answer : rc ≠ SQLITE_BUSY → rc = lock q
  busy : rc = SQLITE_BUSY → q.nBusy = -1 ∧ q.slept = ms
  once : p.nBusy = -1 → q = p ∧ rc = lock p
  prompt : ∀ T, (∀ v : BusyState, T ≤ v.slept → lock v ≠ SQLITE_BUSY) →
    (T ≤ ms → rc ≠ SQLITE_BUSY) ∧ (q.slept = p.slept ∨ q.slept < T + 100)

/-- A wait ends, since each try but the last one sleeps. -/
theorem pager_wait_on_lock_served (hms : ms ≤ 2147483528) (lock : BusyState → ResultCode) (tries : Nat) (hp : p.Paced ms)
    (htries : ms - p.slept < tries) :
    ∃ q rc, pager_wait_on_lock (.timeout ms) call lock tries p = some (q, rc) ∧
      BusyState.Served ms lock p q rc := by
  induction tries generalizing p with
  | zero =>
      have hslept := hp.slept_le
      omega
  | succ tries ih =>
      rw [pager_wait_on_lock]
      by_cases hlock : lock p = SQLITE_BUSY
      · rw [if_neg (not_not_intro hlock)]
        rcases sqlite3InvokeBusyHandler_paced call hms hp with
          ⟨next, hinvoke, hnext, hwaits, hlater, hsoon⟩ | ⟨hinvoke, hover⟩
        · obtain ⟨q, rc, hwait, hserved⟩ := ih hnext (by omega)
          rw [hinvoke]
          refine ⟨q, rc, hwait, hserved.paced, ?_, hserved.answer, hserved.busy, ?_, ?_⟩
          · have hrest := hserved.slept_le
            omega
          · intro hgave
            exact absurd hgave hwaits
          · intro T hfree
            obtain ⟨hgranted, hrest⟩ := hserved.prompt T hfree
            have hbefore : ¬ T ≤ p.slept := fun h => hfree p h hlock
            refine ⟨hgranted, Or.inr ?_⟩
            omega
        · rw [hinvoke]
          refine ⟨{ p with nBusy := -1 }, SQLITE_BUSY, rfl, Or.inl ⟨rfl, hover⟩, le_refl _,
            fun h => absurd rfl h, fun _ => ⟨rfl, hover⟩, ?_, ?_⟩
          · intro hgave
            rw [← hgave]
            exact ⟨rfl, hlock.symm⟩
          · intro T hfree
            refine ⟨fun hT _ => ?_, Or.inl rfl⟩
            exact hfree p (by omega) hlock
      · rw [if_pos hlock]
        exact ⟨p, lock p, rfl, hp, le_refl _, fun _ => rfl, fun h => absurd h hlock,
          fun _ => ⟨rfl, rfl⟩, fun T _ => ⟨fun _ => hlock, Or.inl rfl⟩⟩

/-- The waits of a connection end, and when one of them gave up the others do not sleep. -/
theorem waits_paced (hpos : 0 < ms) (hms : ms ≤ 2147483528) {tries : Nat} (htries : ms < tries)
    (locks : List (BusyState → ResultCode)) (hp : p.Paced ms) :
    ∃ q rcs, waits (.timeout ms) call tries locks p = some (q, rcs) ∧ q.Paced ms ∧
      (p.nBusy = -1 ∨ SQLITE_BUSY ∈ rcs → q.nBusy = -1) := by
  induction locks generalizing p with
  | nil => exact ⟨p, [], rfl, hp, fun h => h.resolve_right (List.not_mem_nil)⟩
  | cons lock locks ih =>
      have hslept := hp.slept_nonneg hpos
      obtain ⟨next, rc, hwait, hserved⟩ :=
        pager_wait_on_lock_served call hms lock tries hp (by omega)
      obtain ⟨q, rcs, hwaits, hpaced, hgave⟩ := ih hserved.paced
      refine ⟨q, rc :: rcs, ?_, hpaced, ?_⟩
      · rw [waits, hwait]
        dsimp only
        rw [hwaits]
        rfl
      · rintro (hp | hbusy)
        · apply hgave
          left
          rw [(hserved.once hp).1, hp]
        · apply hgave
          rcases List.mem_cons.mp hbusy with hbusy | hbusy
          · exact Or.inl (hserved.busy hbusy.symm).1
          · exact Or.inr hbusy

/-- With a longer timeout the sums of the handler leave their range, if the lock is not freed. -/
theorem pager_wait_on_lock_overflow (hms : 2147483528 < ms) (tries : Nat) {n : Nat}
    (hn : n ≤ 21474845) (slept : Int) :
    pager_wait_on_lock (.timeout ms) call (fun _ => SQLITE_BUSY) tries ⟨n, slept⟩ = none := by
  induction tries generalizing n slept with
  | zero => rfl
  | succ tries ih =>
      rw [pager_wait_on_lock, if_neg (not_not_intro rfl)]
      by_cases hlast : n = 21474845
      · have htotal := total_of_le (n := n) (by omega)
        have hdelay := delay_of_le (n := n) (by omega)
        have hcount : ¬ (n : Int) < 0 := by omega
        have hnone : sqliteDefaultBusyCallback ms n = none :=
          sqliteDefaultBusyCallback_none ms (by omega) (by omega)
        rw [sqlite3InvokeBusyHandler, if_neg hcount]
        simp [hnone]
      · have hgrown : total n ≤ 2147483528 := by
          rcases Nat.lt_or_ge n 11 with hn | hn
          · have hsmall := total_le n
            omega
          · have hsum := total_of_le hn
            omega
        have hdelay := (delay_bounds n).2
        have hrange : total n + delay n ≤ 2147483647 := by omega
        obtain ⟨d, hsleeps, -⟩ := sqliteDefaultBusyCallback_sleeps ms hrange (by omega)
        rw [sqlite3InvokeBusyHandler_sleeps call hrange hsleeps]
        exact ih (n := n + 1) (by omega) _

/-- What becomes of any sequence of waits after {lit}`nBusy` was set to zero.  Up to a timeout of
2147483528 every wait ends; together they never sleep for longer than the timeout; a wait ends with
the answer of its last try, and is busy only when all of the time is over; after that the others
only ask once.  A lock that is free from some time on within the timeout is granted, at most a tenth
of a second later.  With a longer timeout there is no such promise: if the lock is not freed, a sum
is no {lit}`int`. -/
theorem busy_timeout_waits (call : Nat → Int → Bool) {ms : Int} (hpos : 0 < ms) :
    (ms ≤ 2147483528 → ∀ (locks : List (BusyState → ResultCode)) (lock : BusyState → ResultCode)
      (tries : Nat), ms < tries → ∃ p rcs q rc,
        waits (.timeout ms) call tries locks ⟨0, 0⟩ = some (p, rcs) ∧
        pager_wait_on_lock (.timeout ms) call lock tries p = some (q, rc) ∧
        p.slept ≤ q.slept ∧ q.slept ≤ ms ∧
        (rc ≠ SQLITE_BUSY → rc = lock q) ∧
        (rc = SQLITE_BUSY → q.slept = ms) ∧
        (SQLITE_BUSY ∈ rcs → q = p ∧ rc = lock p) ∧
        ∀ T, (∀ v : BusyState, T ≤ v.slept → lock v ≠ SQLITE_BUSY) →
          (T ≤ ms → rc ≠ SQLITE_BUSY) ∧ (q.slept = p.slept ∨ q.slept < T + 100)) ∧
    (2147483528 < ms → ∀ tries,
      pager_wait_on_lock (.timeout ms) call (fun _ => SQLITE_BUSY) tries ⟨0, 0⟩ = none) := by
  constructor
  · intro hms locks lock tries htries
    have hstart : BusyState.Paced ms ⟨0, 0⟩ :=
      Or.inr ⟨0, rfl, (min_eq_left hpos.le).symm, fun m hm => absurd hm (Nat.not_lt_zero m)⟩
    obtain ⟨p, rcs, hwaits, hpaced, hgave⟩ :=
      waits_paced call hpos hms htries locks hstart
    have hslept := hpaced.slept_nonneg hpos
    obtain ⟨q, rc, hwait, hserved⟩ :=
      pager_wait_on_lock_served call hms lock tries hpaced (by omega)
    exact ⟨p, rcs, q, rc, hwaits, hwait, hserved.slept_le, hserved.paced.slept_le, hserved.answer,
      fun h => (hserved.busy h).2, fun h => hserved.once (hgave (Or.inr h)), hserved.prompt⟩
  · intro hms tries
    exact pager_wait_on_lock_overflow call hms tries (Nat.zero_le _) 0

end Waits

/-- A lock that is free after ten milliseconds. -/
def freeAfterTen (p : BusyState) : ResultCode :=
  if p.slept < 10 then SQLITE_BUSY else SQLITE_OK

/-- It is granted after the first delays that are longer, 1, 2, 5 and 10 milliseconds. -/
theorem busy_timeout_waits_small :
    pager_wait_on_lock (.timeout 50) (fun _ _ => false) freeAfterTen 51 ⟨0, 0⟩ =
      some (⟨4, 18⟩, SQLITE_OK) ∧ (18 : Int) < 10 + 100 := by
  have hpos : (0 : Int) < 50 := by decide
  have hgranted : pager_wait_on_lock (.timeout 50) (fun _ _ => false) freeAfterTen 51 ⟨0, 0⟩ =
      some (⟨4, 18⟩, SQLITE_OK) := by decide
  obtain ⟨p, rcs, q, rc, hwaits, hwait, -, -, -, -, -, hprompt⟩ :=
    (busy_timeout_waits (fun _ _ => false) hpos).1 (by decide) [] freeAfterTen 51 (by decide)
  cases hwaits
  cases hgranted.symm.trans hwait
  have hfree : ∀ v : BusyState, 10 ≤ v.slept → freeAfterTen v ≠ SQLITE_BUSY := by
    intro v hv
    rw [freeAfterTen, if_neg (not_lt.mpr hv)]
    decide
  exact ⟨hgranted, (hprompt 10 hfree).2.resolve_left (by decide)⟩

end Sqlite
end IdeMultiarch
